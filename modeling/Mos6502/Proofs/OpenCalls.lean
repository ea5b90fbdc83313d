/-
  Mos6502.Proofs.OpenCalls — the count of open calls over a whole session

  The count goes up with every call and down with every return, but never below
  zero: a return that no call is open for ends execution and leaves the count.  The
  count is thus a walk that is held at zero.  It is the number of calls less the
  number of returns, raised by the most that returns have ever been ahead of calls;
  and execution is over once they have been ahead at all.  What the host does between
  instructions has no part in it, as long as it begins no new program.

  Main statements:
    * `peak_append`        — how far returns have been ahead, one instruction later
    * `Counted.step`       — the law is kept by a step
    * `open_calls_count`   — the law at the end of every session
-/
import Mathlib.Data.Finset.Lattice.Fold
import Mathlib.Data.Int.Order.Basic
import Mathlib.Order.Interval.Finset.Nat
import Mos6502.Proofs.Session
import Mos6502.Proofs.StackFrames

namespace Mos6502

/-! ## §1. Calls and returns in a list of instructions. -/

/-- By how much returns outnumber calls. -/
def excess (executed : List Mnemonic) : ℤ :=
  (executed.count .rts : ℤ) - executed.count .jsr

/-- The most by which returns have outnumbered calls at any time. -/
def peak (executed : List Mnemonic) : ℤ :=
  (Finset.range (executed.length + 1)).sup' Finset.nonempty_range_add_one
    fun i => excess (executed.take i)

theorem excess_append (executed : List Mnemonic) (mnemonic : Mnemonic) :
    excess (executed ++ [mnemonic])
      = excess executed + (if mnemonic = .rts then 1 else 0)
          - (if mnemonic = .jsr then 1 else 0) := by
  unfold excess
  rw [List.count_append, List.count_append, List.count_singleton, List.count_singleton]
  simp only [beq_iff_eq]
  split <;> split <;> omega

theorem excess_take_le_peak (executed : List Mnemonic) {i : Nat} (hi : i ≤ executed.length) :
    excess (executed.take i) ≤ peak executed :=
  Finset.le_sup' (fun i => excess (executed.take i)) (Finset.mem_range_succ_iff.mpr hi)

theorem excess_le_peak (executed : List Mnemonic) : excess executed ≤ peak executed := by
  have h := excess_take_le_peak executed (Nat.le_refl _)
  rwa [List.take_length] at h

/-- Returns cannot have been ahead by more than there are. -/
theorem peak_le_count (executed : List Mnemonic) : peak executed ≤ executed.count .rts := by
  apply Finset.sup'_le
  intro i _
  have hcount := (List.take_sublist i executed).count_le .rts
  unfold excess
  omega

theorem peak_pos_iff (executed : List Mnemonic) :
    0 < peak executed ↔ ∃ i ≤ executed.length, 0 < excess (executed.take i) := by
  rw [peak, Finset.lt_sup'_iff]
  simp only [Finset.mem_range_succ_iff]

/-- One instruction later, the new excess may be the highest. -/
theorem peak_append (executed : List Mnemonic) (mnemonic : Mnemonic) :
    peak (executed ++ [mnemonic]) = max (peak executed) (excess (executed ++ [mnemonic])) := by
  have hbefore : ∀ i ≤ executed.length,
      (executed ++ [mnemonic]).take i = executed.take i := by
    intro i hi
    rw [List.take_append_of_le_length hi]
  have hlength : (executed ++ [mnemonic]).length = executed.length + 1 := by simp
  apply le_antisymm
  · apply Finset.sup'_le
    intro i hi
    rw [Finset.mem_range_succ_iff, hlength] at hi
    -- A beginning of the longer list is one of the shorter list, or it is all of it.
    rcases Nat.lt_or_eq_of_le hi with hlt | heq
    · have hle := Nat.le_of_lt_succ hlt
      rw [hbefore i hle]
      exact le_max_of_le_left (excess_take_le_peak executed hle)
    · rw [List.take_of_length_le (by omega)]
      exact le_max_right _ _
  · apply max_le _ (excess_le_peak _)
    apply Finset.sup'_le
    intro i hi
    rw [Finset.mem_range_succ_iff] at hi
    rw [← hbefore i hi]
    exact excess_take_le_peak _ (by omega)

/-- An instruction after which returns are no further ahead than before leaves the peak. -/
theorem peak_append_of_le {executed : List Mnemonic} {mnemonic : Mnemonic}
    (h : excess (executed ++ [mnemonic]) ≤ peak executed) :
    peak (executed ++ [mnemonic]) = peak executed := by
  rw [peak_append, max_eq_left h]

/-! ## §2. Calls and returns of a machine. -/

namespace Machine

open ByteStream

theorem perform_of_jsr (machine : Machine) {e : Encoding} (hm : e.mnemonic = .jsr) :
    (machine.perform e).callDepth = min (machine.callDepth + 1) maxCallDepth
    ∧ (machine.perform e).returned = machine.returned := by
  rw [perform_of_targeting hm rfl]
  exact ⟨rfl, rfl⟩

/-- A return that no call is open for ends execution. -/
theorem perform_of_last_rts {machine : Machine} {e : Encoding} (hm : e.mnemonic = .rts)
    (hnone : machine.callDepth = 0) :
    (machine.perform e).callDepth = 0 ∧ (machine.perform e).returned = true := by
  have hdepth : (advance machine e.size).callDepth = 0 := hnone
  have hret : machine.perform e = (advance machine e.size).ret := perform_of_implied hm rfl
  rw [hret, ret_eq, if_pos hdepth]
  exact ⟨hdepth, rfl⟩

/-- The law for the instructions executed so far. -/
structure Counted (executed : List Mnemonic) (machine : Machine) : Prop where
  /-- The count is what the peak is above the excess. -/
  depth : (machine.callDepth : ℤ) = peak executed - excess executed
  /-- Execution is over if returns have been ahead. -/
  ended : machine.returned = true ↔ 0 < peak executed

theorem Counted.of_progress {executed : List Mnemonic} {machine next : Machine}
    (h : Counted executed machine) (same : next.progress = machine.progress) :
    Counted executed next := by
  have hdepth : next.callDepth = machine.callDepth := congrArg (·.2.1) same
  have hreturned : next.returned = machine.returned := congrArg (·.2.2) same
  obtain ⟨hd, ho⟩ := h
  exact ⟨by rw [hdepth, hd], by rw [hreturned, ho]⟩

section Instruction

variable {executed : List Mnemonic} {machine : Machine} {e : Encoding}

/-- A call is counted, as long as there are not more calls than can be counted. -/
theorem Counted.call (h : Counted executed machine) (hm : e.mnemonic = .jsr)
    (few : (executed ++ [e.mnemonic]).count .jsr ≤ maxCallDepth) :
    Counted (executed ++ [e.mnemonic]) (machine.perform e) := by
  have hexcess : excess (executed ++ [e.mnemonic]) = excess executed - 1 := by
    rw [hm, excess_append]
    simp
  have hle := excess_le_peak executed
  have hpeak : peak (executed ++ [e.mnemonic]) = peak executed := peak_append_of_le (by omega)
  obtain ⟨hdepth, hreturned⟩ := perform_of_jsr machine hm
  refine ⟨?_, ?_⟩
  · -- No more calls are open than there were, so the count has not come to its end.
    have hopen : (machine.callDepth : ℤ) ≤ executed.count .jsr := by
      have hbound := peak_le_count executed
      rw [h.depth, excess]
      omega
    rw [List.count_append, hm, List.count_singleton_self] at few
    rw [hdepth, hpeak, hexcess, Nat.min_eq_left (by omega)]
    have hd := h.depth
    push_cast
    omega
  · rw [hreturned, hpeak]
    exact h.ended

/-- A return either closes a call or gets further ahead of the calls than any before it. -/
theorem Counted.ret (h : Counted executed machine) (hm : e.mnemonic = .rts) :
    Counted (executed ++ [e.mnemonic]) (machine.perform e) := by
  have hexcess : excess (executed ++ [e.mnemonic]) = excess executed + 1 := by
    rw [hm, excess_append]
    simp
  have hd := h.depth
  by_cases hnone : machine.callDepth = 0
  · -- The excess was at the peak, so one return more moves the peak up with it.
    obtain ⟨hdepth, hreturned⟩ := perform_of_last_rts hm hnone
    have hpeak : peak (executed ++ [e.mnemonic]) = excess executed + 1 := by
      rw [peak_append, hexcess]
      omega
    have hfirst := excess_take_le_peak executed (Nat.zero_le _)
    rw [List.take_zero, show excess [] = 0 from rfl] at hfirst
    refine ⟨?_, ?_⟩
    · rw [hdepth, hpeak, hexcess]
      omega
    · rw [hreturned, hpeak]
      refine ⟨fun _ => ?_, fun _ => rfl⟩
      omega
  · obtain ⟨-, hdepth, hreturned⟩ := perform_of_rts hm hnone
    have hpeak : peak (executed ++ [e.mnemonic]) = peak executed := peak_append_of_le (by omega)
    refine ⟨?_, ?_⟩
    · rw [hdepth, hpeak, hexcess]
      omega
    · rw [hreturned, hpeak]
      exact h.ended

/-- Other instructions do not count. -/
theorem Counted.other (h : Counted executed machine) (hjsr : e.mnemonic ≠ .jsr)
    (hrts : e.mnemonic ≠ .rts) : Counted (executed ++ [e.mnemonic]) (machine.perform e) := by
  have hexcess : excess (executed ++ [e.mnemonic]) = excess executed := by
    rw [excess_append, if_neg hrts, if_neg hjsr, add_zero, sub_zero]
  have hpeak : peak (executed ++ [e.mnemonic]) = peak executed :=
    peak_append_of_le (by rw [hexcess]; exact excess_le_peak executed)
  have hcall := mt Mnemonic.operation_eq_call_iff.mp hjsr
  have hret := mt Mnemonic.operation_eq_ret_iff.mp hrts
  refine ⟨?_, ?_⟩
  · rw [callDepth_perform hcall hret, hpeak, hexcess]
    exact h.depth
  · rw [returned_perform hret, hpeak]
    exact h.ended

end Instruction

/-! ## §3. Steps, runs and sessions. -/

/-- One step keeps the law; a step that fails executes nothing and changes no count. -/
theorem Counted.step {executed : List Mnemonic} {machine : Machine}
    (h : Counted executed machine)
    (few : (executed ++ machine.executedByStep).count .jsr ≤ maxCallDepth) :
    Counted (executed ++ machine.executedByStep) (leave step machine) := by
  cases hstep : Machine.step machine with
  | ok _ next =>
    obtain ⟨e, hinstr, -, hnext⟩ := step_eq_ok_iff.mp hstep
    rw [executedByStep_of_instruction hstep hinstr] at few ⊢
    rw [leave_of_ok hstep, hnext]
    by_cases hjsr : e.mnemonic = .jsr
    · exact h.call hjsr few
    · by_cases hrts : e.mnemonic = .rts
      · exact h.ret hrts
      · exact h.other hjsr hrts
  | error fault failed =>
    rw [executedByStep_of_error hstep, List.append_nil, leave_of_error hstep]
    rcases step_error_cases hstep with ⟨-, -, rfl⟩ | ⟨-, -, -, rfl⟩ | ⟨e, -, -, -, -, rfl⟩
    · exact h
    · exact h.of_progress rfl
    · exact h.of_progress rfl

/-- The law, for as long as the calls can be counted. -/
def Lawful (executed : List Mnemonic) (machine : Machine) : Prop :=
  executed.count .jsr ≤ maxCallDepth → Counted executed machine

/-- A request keeps the law if it begins no new program. -/
theorem Lawful.serve {request : Request} (continued : request.restarts = false)
    {executed : List Mnemonic} {machine : Machine} (h : Lawful executed machine) :
    Lawful (executed ++ request.executed machine) (request.serve machine) := by
  -- Calls are never taken back, so they were few enough before the step as well.
  have hstep : ∀ executed machine, Lawful executed machine →
      Lawful (executed ++ machine.executedByStep) (leave Machine.step machine) := by
    intro executed machine h few
    have hbefore := (List.sublist_append_left executed machine.executedByStep).count_le .jsr
    exact (h (Nat.le_trans hbefore few)).step few
  cases hexecutes : request.executes with
  | true => exact executes_invariant hstep hexecutes executed h
  | false =>
    have hnone : request.executed machine = [] := by
      cases request with
      | step => cases hexecutes
      | run fuel => cases hexecutes
      | _ => rfl
    rw [hnone, List.append_nil]
    intro few
    exact (h few).of_progress (progress_serve hexecutes continued machine)

/-- A machine on which no program has gone on: just switched on, reset, or with a program
just loaded. -/
def Fresh (machine : Machine) : Prop :=
  machine = new ∨ (∃ prior : Machine, machine = prior.reset)
  ∨ ∃ (prior : Machine) (data : List UInt8) (address : UInt16),
      prior.loadProgram data address = (true, machine)

theorem Fresh.counted {machine : Machine} (h : machine.Fresh) : Counted [] machine := by
  -- Whichever way the machine is fresh, no call is open and nothing is over.
  have hstart : machine.callDepth = 0 ∧ machine.returned = false := by
    rcases h with rfl | ⟨prior, rfl⟩ | ⟨prior, data, address, hload⟩
    · exact ⟨rfl, rfl⟩
    · exact ⟨rfl, rfl⟩
    · unfold loadProgram at hload
      split at hload
      · cases hload
        exact ⟨rfl, rfl⟩
      · cases hload
  obtain ⟨hdepth, hreturned⟩ := hstart
  have hpeak : peak [] = 0 := rfl
  refine ⟨?_, ?_⟩
  · rw [hdepth, hpeak]
    rfl
  · rw [hreturned, hpeak]
    exact ⟨fun h => (nomatch h), fun h => absurd h (lt_irrefl 0)⟩

/-- **Open calls and the end of execution.**  In a session on a fresh machine that begins no
new program, the count of open calls is the number of calls less the number of returns,
raised by the most that returns have been ahead of calls; and execution is over exactly if
they have been ahead.  Only instructions that succeeded count. -/
theorem open_calls_count {origin : Machine} (fresh : origin.Fresh) {requests : List Request}
    (continued : ∀ request ∈ requests, request.restarts = false)
    (few : (origin.executed requests).count .jsr ≤ 2 ^ 32 - 1) :
    let executed := origin.executed requests
    let machine := origin.serve requests
    let count := executed.length
    let calls : Nat → ℤ := fun i => (executed.take i).count .jsr
    let returns : Nat → ℤ := fun i => (executed.take i).count .rts
    (machine.callDepth : ℤ)
        = calls count - returns count
          + max 0 ((Finset.range (count + 1)).sup' Finset.nonempty_range_add_one
              fun i => returns i - calls i)
    ∧ (machine.returned = true ↔ ∃ i ≤ count, calls i < returns i) := by
  intro executed machine count calls returns
  -- The bound on calls holds at the end only, so `Lawful` carries it as a condition.
  have hlawful : Lawful executed machine :=
    session_invariant (fun request hmem _ _ => Lawful.serve (continued request hmem)) []
      fun _ => fresh.counted
  obtain ⟨hdepth, hover⟩ := hlawful few
  have hfirst : 0 ≤ peak executed := excess_take_le_peak executed (Nat.zero_le _)
  have hall : executed.take count = executed := List.take_length
  refine ⟨?_, ?_⟩
  · show _ = _ + max 0 (peak executed)
    rw [hdepth, max_eq_right hfirst]
    simp only [calls, returns, hall, excess]
    omega
  · rw [hover, peak_pos_iff]
    simp only [excess, Int.sub_pos]
    rfl

/-- A program that calls a subroutine and then returns once too often; the last call lacks
its second operand byte. -/
def returnsTwice : Machine :=
  (new.loadProgram [0x20, 0x04, 0x02, 0x60, 0x60, 0x20, 0x34] 0x0200).2

/-- The program runs to its end, a return is taken once more, the truncated call fails, and
the complete one is taken again. -/
def resumed : List Request :=
  [.run 9, .step, .update { pc := some 0x0205 }, .step, .update { pc := some 0x0200 }, .step]

theorem open_calls_count_resumed :
    returnsTwice.Fresh ∧ (∀ request ∈ resumed, request.restarts = false)
    ∧ returnsTwice.executed resumed = [.jsr, .rts, .rts, .rts, .jsr]
    ∧ ((returnsTwice.serve resumed).callDepth : ℤ) = 2 - 3 + 2
    ∧ (returnsTwice.serve resumed).returned = true := by
  have hfresh : returnsTwice.Fresh :=
    .inr (.inr ⟨new, [0x20, 0x04, 0x02, 0x60, 0x60, 0x20, 0x34], 0x0200,
      Prod.ext (by decide +kernel) rfl⟩)
  have hcontinued : ∀ request ∈ resumed, request.restarts = false := by decide
  have hexecuted : returnsTwice.executed resumed = [.jsr, .rts, .rts, .rts, .jsr] := by
    decide +kernel
  have hlaw := open_calls_count hfresh hcontinued (by rw [hexecuted]; decide)
  simp only [hexecuted] at hlaw
  obtain ⟨hdepth, hover⟩ := hlaw
  refine ⟨hfresh, hcontinued, hexecuted, ?_, hover.mpr ⟨3, by decide, by decide⟩⟩
  rw [hdepth]
  rfl

end Machine

end Mos6502
