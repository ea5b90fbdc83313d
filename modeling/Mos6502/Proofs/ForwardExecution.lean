/-
  Mos6502.Proofs.ForwardExecution — programs that only go forward come to an end

  An instruction that lies in the window and does not jump is followed by a higher address,
  since the window ends in memory.  If branches, jumps, calls and returns lead to higher
  addresses as well, each step brings the program counter nearer to the end of the window,
  and there are not more steps than bytes between the two.  This has nothing to do with what
  the instructions are or do: a program may write others over them as it goes.  A branch that
  goes forward by its offset is not enough, as it may go round memory.

  Main statements:
    * `toNat_pc_lt_of_jumps_eq_false` — a step that does not jump
    * `Forward.toNat_pc_add_le`  — so many steps, so many bytes
    * `Forward.exists_stops_of_le` — the steps up to the stop
    * `Reachable.run_of_forward` — a run with one step for each byte comes to its end
-/
import Mos6502.Proofs.Agreement
import Mos6502.Proofs.Running

namespace Mos6502.Machine

open ByteStream

/-! ## §1. One step. -/

/-- A step that does not jump goes up in memory. -/
theorem toNat_pc_lt_of_jumps_eq_false {machine next : Machine} {e : Encoding}
    (bound : machine.window.limit ≤ 0xFFFF) (hinstr : machine.instruction? = some e)
    (hstep : step machine = .ok () next) (hjumps : e.mnemonic.operation.jumps = false) :
    machine.registers.pc.toNat < next.registers.pc.toNat := by
  obtain ⟨e', he', hreach, rfl⟩ := step_eq_ok_iff.mp hstep
  obtain rfl : e' = e := Option.some.inj (he'.symm.trans hinstr)
  have hfits := (inReach_iff_of_le bound e'.size_pos).mp hreach
  have hsize := e'.size_pos
  rw [pc_perform hjumps, UInt16.toNat_add, UInt16.toNat_ofNat']
  omega

/-! ## §2. Many steps. -/

/-- Wherever a run from a machine executes a branch, a jump, a call or a return, it goes on at a
higher address than that instruction has. -/
def Forward (machine : Machine) : Prop :=
  ∀ count, (∀ i ≤ count, (machine.after i).Proceeds) →
    ∀ mnemonic ∈ (machine.after count).mnemonic?,
      mnemonic ∈ Mnemonic.branches ++ [.jmp, .jsr, .rts] →
      (machine.after count).registers.pc.toNat < (machine.after (count + 1)).registers.pc.toNat

section Forward

variable {machine : Machine} (forward : machine.Forward)
  (bound : machine.window.limit ≤ 0xFFFF)

include forward bound

/-- No step of the run stays or goes back. -/
theorem Forward.toNat_pc_lt {count : Nat} (h : ∀ i ≤ count, (machine.after i).Proceeds) :
    (machine.after count).registers.pc.toNat
      < (machine.after (count + 1)).registers.pc.toNat := by
  have hstep := step_after (h count (Nat.le_refl count)).succeeds
  obtain ⟨e, hinstr, -, -⟩ := step_eq_ok_iff.mp hstep
  by_cases hgoes : e.mnemonic ∈ Mnemonic.branches ++ [.jmp, .jsr, .rts]
  · exact forward count h _ (mnemonic?_of_instruction hinstr) hgoes
  · rw [List.mem_append, not_or] at hgoes
    have hjumps := Mnemonic.jumps_eq_false hgoes.1 hgoes.2
    have hbound : (machine.after count).window.limit ≤ 0xFFFF := by rwa [window_after]
    exact toNat_pc_lt_of_jumps_eq_false hbound hinstr hstep hjumps

/-- With every step the program counter is at least one byte further. -/
theorem Forward.toNat_pc_add_le {count : Nat} (h : ∀ i < count, (machine.after i).Proceeds) :
    machine.registers.pc.toNat + count ≤ (machine.after count).registers.pc.toNat := by
  induction count with
  | zero => exact Nat.le_refl _
  | succ count ih =>
    have hbefore := ih fun i hi => h i (Nat.lt_succ_of_lt hi)
    have hlast := forward.toNat_pc_lt bound fun i hi => h i (Nat.lt_succ_of_le hi)
    omega

/-- A state that is reached in the window is reached in fewer steps than there are bytes. -/
theorem Forward.lt_of_inside {count : Nat} (h : ∀ i < count, (machine.after i).Proceeds)
    (inside : (machine.after count).registers.pc.toNat < (machine.after count).window.limit) :
    count < machine.window.limit - machine.registers.pc.toNat := by
  have hle := forward.toNat_pc_add_le bound h
  rw [window_after] at inside
  omega

/-- From a state that the run reaches it goes on to a stop, in no more steps than there are bytes
left. -/
theorem Forward.exists_stops_of_le {count left : Nat}
    (h : ∀ i < count, (machine.after i).Proceeds)
    (hleft : machine.window.limit ≤ (machine.after count).registers.pc.toNat + left) :
    ∃ last ≤ count + left, (∀ i < last, (machine.after i).Proceeds)
      ∧ ∃ answer final, (machine.after last).Stops answer final := by
  -- Induction on the bytes left; a machine that proceeds has one less of them after the step.
  induction left generalizing count with
  | zero =>
    rcases proceeds_or_stops (machine.after count) with hproceeds | hstops
    · have hinside := hproceeds.inside
      rw [window_after] at hinside
      omega
    · exact ⟨count, Nat.le_refl count, h, hstops⟩
  | succ left ih =>
    rcases proceeds_or_stops (machine.after count) with hproceeds | hstops
    · have hbefore : ∀ i ≤ count, (machine.after i).Proceeds := by
        intro i hi
        rcases Nat.lt_or_eq_of_le hi with hlt | rfl
        · exact h i hlt
        · exact hproceeds
      have hlt := forward.toNat_pc_lt bound hbefore
      obtain ⟨last, hlast, hstop⟩ :=
        @ih (count + 1) (fun i hi => hbefore i (Nat.le_of_lt_succ hi)) (by omega)
      exact ⟨last, by omega, hstop⟩
    · exact ⟨count, Nat.le_add_right _ _, h, hstops⟩

end Forward

/-! ## §3. Runs. -/

/-- Where a machine stops a run needs fuel inside the window only, for a step that fails. -/
theorem Stops.run_eq_of_inside {machine final : Machine} {answer : Except Fault Ending}
    (h : machine.Stops answer final) {fuel : Nat}
    (spare : machine.registers.pc.toNat < machine.window.limit → 0 < fuel) :
    run fuel machine = ended answer final := by
  cases h with
  | returned done => exact run_of_ending (ending?_of_returned done) fuel
  | ranOut running outside => exact run_of_ending (ending?_of_outside running outside) fuel
  | failed running inside failure =>
    obtain ⟨fuel, rfl⟩ := Nat.exists_eq_succ_of_ne_zero (Nat.ne_of_gt (spare inside))
    exact (Stops.failed running inside failure).run_eq fuel

/-- **Forward execution terminates.**  If along the run from a machine all branches, jumps, calls
and returns go on at a higher address than their own, the run comes to its end.  It takes no more
steps than there are bytes from the program counter to the end of the window, a step that
fails included, and none if the program counter is there already. -/
theorem Reachable.run_of_forward {machine : Machine} (h : machine.Reachable)
    (forward : machine.Forward) :
    let bytes := machine.window.limit - machine.registers.pc.toNat
    ∃ answer final,
      (∀ fuel ≥ bytes, run fuel machine = ended answer final)
      ∧ ∃ count ≤ bytes, (∀ i < count, (machine.after i).Proceeds)
        ∧ (machine.after count).Stops answer final := by
  intro bytes
  obtain ⟨count, hcount, hbefore, answer, final, hstops⟩ :=
    @Forward.exists_stops_of_le machine forward h.limit_le 0 bytes
      (fun i hi => absurd hi (Nat.not_lt_zero i)) (Nat.sub_le_iff_le_add'.mp (Nat.le_refl bytes))
  rw [Nat.zero_add] at hcount
  refine ⟨answer, final, fun fuel hfuel => ?_, count, hcount, hbefore, hstops⟩
  rw [run_eq_run_after hbefore (Nat.le_trans hcount hfuel)]
  refine hstops.run_eq_of_inside fun inside => ?_
  have hlt := forward.lt_of_inside h.limit_le hbefore inside
  omega

/-- A program that replaces an opcode ahead of it, branches there over another, and goes on through
BRK and RTI to a return that no call is open for. -/
def patchesAhead : Machine :=
  (new.loadProgram
    [0xA9, 0xEA, 0x8D, 0x08, 0x02, 0xD0, 0x01, 0x02, 0x02, 0x00, 0x40, 0x60] 0x0200).2

theorem run_of_forward_patchesAhead :
    (patchesAhead.Reachable ∧ patchesAhead.Forward)
    ∧ ∃ answer final, (∀ fuel ≥ 12, run fuel patchesAhead = ended answer final)
      ∧ ∃ count ≤ 12, (patchesAhead.after count).Stops answer final := by
  have hreachable : patchesAhead.Reachable := ⟨[.loadProgram _ _], rfl⟩
  have hended : (patchesAhead.after 7).returned = true := by decide +kernel
  have hgoes : ∀ count < 7, (patchesAhead.after count).registers.pc.toNat
      < (patchesAhead.after (count + 1)).registers.pc.toNat := by decide +kernel
  have forward : patchesAhead.Forward := by
    intro count hproceeds _ _ _
    refine hgoes count (Nat.lt_of_not_le fun hle => ?_)
    exact (Stops.returned hended).not_proceeds (hproceeds 7 hle)
  have hbytes : patchesAhead.window.limit - patchesAhead.registers.pc.toNat = 12 := by
    decide +kernel
  obtain ⟨answer, final, hrun, count, hcount, -, hstops⟩ := hreachable.run_of_forward forward
  rw [hbytes] at hrun hcount
  exact ⟨⟨hreachable, forward⟩, answer, final, hrun, count, hcount, hstops⟩

end Mos6502.Machine
