/-
  Mos6502.Proofs.Running — a run as steps up to the first stop

  Before every step a machine either proceeds, or it stops: execution is over, the program
  counter has left the window, or the step fails.  The three come in this order, so that
  there is one way to stop at most.  A run goes on to the first state that stops and gives
  what is found there.  It can therefore be cut at any step before: taking some steps by
  hand and running on from there comes to the same end.

  Main statements:
    * `proceeds_or_stops`     — there is nothing else that a machine can do
    * `run_of_proceeds`       — a run without the steps at its beginning
    * `exists_stops_of_run`   — a run that comes to its end has found a stop
    * `run_iterates_step`     — runs, their beginnings, and what a further run does
-/
import Mos6502.Proofs.Session

namespace Mos6502.Machine

open ByteStream

/-! ## §1. Proceeding and stopping. -/

/-- There is no reason to stop, and the next step succeeds. -/
structure Proceeds (machine : Machine) : Prop where
  running : machine.returned = false
  inside : machine.registers.pc.toNat < machine.window.limit
  succeeds : machine.succeeds = true

instance (machine : Machine) : Decidable machine.Proceeds :=
  decidable_of_iff
    (machine.returned = false ∧ machine.registers.pc.toNat < machine.window.limit
      ∧ machine.succeeds = true)
    ⟨fun h => ⟨h.1, h.2.1, h.2.2⟩, fun h => ⟨h.running, h.inside, h.succeeds⟩⟩

/-- The machine stops where it is, with an answer and in a last state. -/
inductive Stops (machine : Machine) : Except Fault Ending → Machine → Prop
  /-- A return was met that no call was open for, wherever the program counter stands. -/
  | returned (done : machine.returned = true) : Stops machine (.ok .returned) machine
  /-- The program counter is beyond the window. -/
  | ranOut (running : machine.returned = false)
      (outside : machine.window.limit ≤ machine.registers.pc.toNat) :
      Stops machine (.ok .ranOut) machine
  /-- There is no reason to stop, but the next step fails. -/
  | failed {fault : Fault} {final : Machine} (running : machine.returned = false)
      (inside : machine.registers.pc.toNat < machine.window.limit)
      (failure : step machine = .error fault final) : Stops machine (.error fault) final

/-- A machine proceeds or stops. -/
theorem proceeds_or_stops (machine : Machine) :
    machine.Proceeds ∨ ∃ answer final, machine.Stops answer final := by
  cases hreturned : machine.returned with
  | true => exact .inr ⟨_, _, .returned hreturned⟩
  | false =>
    rcases Nat.lt_or_ge machine.registers.pc.toNat machine.window.limit with hinside | houtside
    · cases hstep : step machine with
      | ok _ next => exact .inl ⟨hreturned, hinside, succeeds_of_step hstep⟩
      | error fault failed => exact .inr ⟨_, _, .failed hreturned hinside hstep⟩
    · exact .inr ⟨_, _, .ranOut hreturned houtside⟩

/-- It does not do both. -/
theorem Stops.not_proceeds {machine final : Machine} {answer : Except Fault Ending}
    (h : machine.Stops answer final) : ¬ machine.Proceeds := by
  intro hproceeds
  cases h with
  | returned done =>
    rw [hproceeds.running] at done
    cases done
  | ranOut running outside => exact absurd hproceeds.inside (Nat.not_lt_of_le outside)
  | failed running inside failure =>
    have hsucceeds := hproceeds.succeeds
    unfold Machine.succeeds at hsucceeds
    rw [failure] at hsucceeds
    cases hsucceeds

section Ending

variable {machine : Machine}

theorem ending?_of_returned (done : machine.returned = true) :
    machine.ending? = some .returned := by
  unfold ending?
  rw [done]
  rfl

theorem ending?_of_outside (running : machine.returned = false)
    (outside : machine.window.limit ≤ machine.registers.pc.toNat) :
    machine.ending? = some .ranOut := by
  have hend : machine.atEnd = true := decide_eq_true outside
  unfold ending?
  rw [running, hend]
  rfl

theorem ending?_of_inside (running : machine.returned = false)
    (inside : machine.registers.pc.toNat < machine.window.limit) : machine.ending? = none := by
  have hend : machine.atEnd = false := decide_eq_false (Nat.not_le_of_lt inside)
  unfold ending?
  rw [running, hend]
  rfl

/-- A reason to stop is one of the first two ways to stop. -/
theorem stops_of_ending {ending : Ending} (h : machine.ending? = some ending) :
    machine.Stops (.ok ending) machine := by
  cases hreturned : machine.returned with
  | true =>
    rw [ending?_of_returned hreturned] at h
    cases h
    exact .returned hreturned
  | false =>
    rcases Nat.lt_or_ge machine.registers.pc.toNat machine.window.limit with hinside | houtside
    · rw [ending?_of_inside hreturned hinside] at h
      cases h
    · rw [ending?_of_outside hreturned houtside] at h
      cases h
      exact .ranOut hreturned houtside

end Ending

/-! ## §2. Runs. -/

/-- What a run gives when it has come to its end. -/
def ended (answer : Except Fault Ending) (final : Machine) :
    EStateM.Result Fault Machine (Option Ending) :=
  match answer with
  | .ok ending => .ok (some ending) final
  | .error fault => .error fault final

theorem ended_ne_none (answer : Except Fault Ending) (final machine : Machine) :
    ended answer final ≠ .ok none machine := by
  cases answer with
  | ok ending => intro h; cases h
  | error fault => intro h; cases h

theorem ended_inj {answer other : Except Fault Ending} {final last : Machine}
    (h : ended answer final = ended other last) : answer = other ∧ final = last := by
  cases answer with
  | ok ending =>
    cases other with
    | ok ending' => cases h; exact ⟨rfl, rfl⟩
    | error fault' => cases h
  | error fault =>
    cases other with
    | ok ending' => cases h
    | error fault' => cases h; exact ⟨rfl, rfl⟩

section Run

variable {machine final : Machine} {answer : Except Fault Ending}

/-- A run from a machine that stops gives what is found there. -/
theorem Stops.run_eq (h : machine.Stops answer final) (fuel : Nat) :
    run (fuel + 1) machine = ended answer final := by
  cases h with
  | returned done => exact run_of_ending (ending?_of_returned done) _
  | ranOut running outside => exact run_of_ending (ending?_of_outside running outside) _
  | failed running inside failure =>
    rw [run_succ (ending?_of_inside running inside), failure]
    rfl

/-- A machine that has a reason to stop has it still when it is run again. -/
theorem Stops.run_again {ending : Ending} (h : machine.Stops (.ok ending) final) (fuel : Nat) :
    run fuel final = ended (.ok ending) final := by
  cases h with
  | returned done => exact run_of_ending (ending?_of_returned done) _
  | ranOut running outside => exact run_of_ending (ending?_of_outside running outside) _

/-- Steps that succeed, taken from some state on the way. -/
theorem steps_of_succeeds (start count : Nat)
    (h : ∀ i < count, (machine.after (start + i)).succeeds = true) :
    steps count (machine.after start) = .ok () (machine.after (start + count)) := by
  -- Induction on the steps, the first of them taken off: the others begin one state later.
  induction count generalizing start with
  | zero => rfl
  | succ count ih =>
    have hstep := step_after (h 0 (Nat.zero_lt_succ count))
    have hrest := ih (start + 1) fun i hi => by
      rw [Nat.add_right_comm]
      exact h (i + 1) (Nat.succ_lt_succ hi)
    rw [steps_succ, show machine.after start = machine.after (start + 0) from rfl, hstep]
    show steps count (machine.after (start + 1)) = _
    rw [hrest, Nat.add_right_comm]
    rfl

/-- As long as the machine proceeds, a run takes the steps one after the other. -/
theorem run_of_proceeds {start count : Nat}
    (h : ∀ i < count, (machine.after (start + i)).Proceeds) (fuel : Nat) :
    run (count + fuel) (machine.after start) = run fuel (machine.after (start + count)) := by
  -- Induction on the steps, the last of them taken off: the run before it has fuel for one more.
  induction count generalizing fuel with
  | zero =>
    rw [Nat.zero_add]
    rfl
  | succ count ih =>
    have hlast := h count (Nat.lt_succ_self count)
    rw [Nat.add_right_comm, Nat.add_assoc,
      ih (fun i hi => h i (Nat.lt_succ_of_lt hi)) (fuel + 1),
      run_succ (ending?_of_inside hlast.running hlast.inside), step_after hlast.succeeds]
    rfl

theorem run_eq_run_after {count fuel : Nat} (h : ∀ i < count, (machine.after i).Proceeds)
    (hfuel : count ≤ fuel) : run fuel machine = run (fuel - count) (machine.after count) := by
  have hrun := @run_of_proceeds machine 0 count (by simpa only [Nat.zero_add] using h)
    (fuel - count)
  rwa [Nat.add_sub_cancel' hfuel, Nat.zero_add] at hrun

/-- A run that has come to its end has found a stop, after no more steps than it was given. -/
theorem exists_stops_of_run (start : Nat) {fuel : Nat}
    (h : run fuel (machine.after start) = ended answer final) :
    ∃ count ≤ fuel, (∀ i < count, (machine.after (start + i)).Proceeds)
      ∧ (machine.after (start + count)).Stops answer final := by
  induction fuel generalizing start with
  | zero =>
    refine ⟨0, Nat.le_refl 0, fun i hi => absurd hi (Nat.not_lt_zero i), ?_⟩
    cases hending : (machine.after start).ending? with
    | none =>
      rw [run_zero hending] at h
      exact absurd h.symm (ended_ne_none answer final _)
    | some ending =>
      have hended : ended (.ok ending) (machine.after start) = ended answer final := by
        rw [← h, run_of_ending hending]
        rfl
      obtain ⟨rfl, rfl⟩ := ended_inj hended
      exact stops_of_ending hending
  | succ fuel ih =>
    rcases proceeds_or_stops (machine.after start) with hproceeds | ⟨answer', final', hstops⟩
    · -- The first step is the one before the steps of the rest of the run.
      rw [run_succ (ending?_of_inside hproceeds.running hproceeds.inside),
        step_after hproceeds.succeeds] at h
      obtain ⟨count, hcount, hbefore, hstops⟩ := ih (start + 1) h
      refine ⟨count + 1, Nat.succ_le_succ hcount, ?_, ?_⟩
      · intro i hi
        cases i with
        | zero => exact hproceeds
        | succ i =>
          have hi' := hbefore i (Nat.lt_of_succ_lt_succ hi)
          rwa [Nat.add_right_comm] at hi'
      · rwa [Nat.add_right_comm] at hstops
    · rw [hstops.run_eq] at h
      obtain ⟨rfl, rfl⟩ := ended_inj h
      exact ⟨0, Nat.zero_le _, fun i hi => absurd hi (Nat.not_lt_zero i), hstops⟩

end Run

/-! ## §3. Running past the end. -/

theorem after_succ (machine : Machine) (count : Nat) :
    machine.after (count + 1) = leave step (machine.after count) := by
  unfold leave
  rw [after]
  cases step (machine.after count) <;> rfl

theorem window_after (machine : Machine) (count : Nat) :
    (machine.after count).window = machine.window := by
  induction count with
  | zero => rfl
  | succ count ih => rw [after_succ, window_step, ih]

/-- A step inside the window that runs past the end does so at the end of the window, and leaves
the machine there. -/
theorem Stops.of_pastEnd {machine final : Machine} {address : UInt16}
    (h : machine.Stops (.error (.pastEnd address)) final) :
    address.toNat = machine.window.limit ∧ final.Stops (.ok .ranOut) final := by
  obtain - | - | ⟨running, inside, failure⟩ := h
  rcases step_error_cases failure with ⟨hnot, -, -⟩ | ⟨-, -, hfault, -⟩
    | ⟨e, -, -, hcut, hfault, rfl⟩
  · exact absurd (.inr (.inl inside)) hnot
  · cases hfault
  · have hedge : (edge machine).toNat = machine.window.limit := by
      rw [toNat_edge (limit_le_of_not_inReach hcut)]
      exact Nat.max_eq_right (Nat.le_of_lt inside)
    cases hfault
    exact ⟨hedge, .ranOut running (Nat.le_of_eq hedge.symm)⟩

/-- **A run is steps up to the first stop.**  A run that comes to its end takes steps that
succeed, from states without a reason to stop, up to a state in which the machine stops; what it
gives is found there.  Any of these steps can be taken by hand before running on.  A further run
gives the same where the run had a reason to stop; where it ran past the end, that was the end of
the window, and a further run finds the program counter there. -/
theorem run_iterates_step {machine final : Machine} {answer : Except Fault Ending} {fuel : Nat}
    (h : run fuel machine = ended answer final) :
    (∃ count ≤ fuel, (∀ i < count, (machine.after i).Proceeds)
      ∧ (machine.after count).Stops answer final
      ∧ ∀ taken ≤ count, steps taken machine = .ok () (machine.after taken)
          ∧ ∀ more > count - taken, run more (machine.after taken) = ended answer final)
    ∧ (∀ ending, answer = .ok ending → ∀ more, run more final = ended answer final)
    ∧ (∀ address, answer = .error (.pastEnd address) →
        address.toNat = machine.window.limit
        ∧ ∀ more, run more final = ended (.ok .ranOut) final) := by
  obtain ⟨count, hcount, hbefore, hstops⟩ := exists_stops_of_run 0 h
  simp only [Nat.zero_add] at hbefore hstops
  refine ⟨⟨count, hcount, hbefore, hstops, ?_⟩, ?_, ?_⟩
  · intro taken htaken
    refine ⟨?_, ?_⟩
    · have hsteps := @steps_of_succeeds machine 0 taken fun i hi => by
        rw [Nat.zero_add]
        exact (hbefore i (Nat.lt_of_lt_of_le hi htaken)).succeeds
      rwa [Nat.zero_add] at hsteps
    · intro more hmore
      obtain ⟨spare, rfl⟩ : ∃ spare, more = count - taken + (spare + 1) :=
        ⟨more - (count - taken) - 1, by omega⟩
      rw [run_of_proceeds (fun i hi => hbefore (taken + i) (by omega)),
        Nat.add_sub_cancel' htaken]
      exact hstops.run_eq spare
  · rintro ending rfl more
    exact hstops.run_again more
  · rintro address rfl
    obtain ⟨hlimit, hranOut⟩ := hstops.of_pastEnd
    rw [window_after] at hlimit
    exact ⟨hlimit, hranOut.run_again⟩

/-- Two increments, and a load of which only one of two operand bytes is in the window. -/
def endsInOperand : Machine := (new.loadProgram [0xE8, 0xE8, 0xAD, 0x34] 0x0200).2

/-- One step by hand and then a run come to the same fault; a further run has run out. -/
theorem run_iterates_step_endsInOperand :
    ∃ final, run 3 endsInOperand = ended (.error (.pastEnd 0x0204)) final
      ∧ steps 1 endsInOperand = .ok () (endsInOperand.after 1)
      ∧ run 4 (endsInOperand.after 1) = ended (.error (.pastEnd 0x0204)) final
      ∧ (0x0204 : UInt16).toNat = endsInOperand.window.limit
      ∧ run 4 final = ended (.ok .ranOut) final := by
  have hbefore : ∀ i < 2, (endsInOperand.after i).returned = false
      ∧ (endsInOperand.after i).registers.pc.toNat < (endsInOperand.after i).window.limit
      ∧ (endsInOperand.after i).succeeds = true := by decide +kernel
  have hproceeds : ∀ i < 2, (endsInOperand.after (0 + i)).Proceeds := by
    intro i hi
    obtain ⟨hrunning, hinside, hsucceeds⟩ := hbefore i hi
    rw [Nat.zero_add]
    exact ⟨hrunning, hinside, hsucceeds⟩
  have hinstr : (endsInOperand.after 2).instruction? = some ⟨.lda, .absolute⟩ := by
    decide +kernel
  have hone : InReach (endsInOperand.after 2) 1 := by decide +kernel
  have hcut : ¬ InReach (endsInOperand.after 2) (Encoding.size ⟨.lda, .absolute⟩) := by
    decide +kernel
  have hedge : edge (endsInOperand.after 2) = 0x0204 := by decide +kernel
  have hstep := step_of_instruction hone hinstr
  rw [delivery_of_not_inReach hcut, hedge] at hstep
  have hstops : (endsInOperand.after 2).Stops (.error (.pastEnd 0x0204)) _ :=
    .failed (by decide +kernel) (by decide +kernel) hstep
  have hrun := (run_of_proceeds hproceeds 1).trans (hstops.run_eq 0)
  obtain ⟨⟨count, hcount, hgo, hstop, htaken⟩, -, hpast⟩ := run_iterates_step hrun
  have hpos : 1 ≤ count := by
    rw [Nat.one_le_iff_ne_zero]
    rintro rfl
    exact hstop.not_proceeds (hproceeds 0 Nat.two_pos)
  obtain ⟨hsteps, hresumed⟩ := htaken 1 hpos
  obtain ⟨hlimit, hagain⟩ := hpast _ rfl
  exact ⟨_, hrun, hsteps, hresumed 4 (by omega), hlimit, hagain 4⟩

end Mos6502.Machine
