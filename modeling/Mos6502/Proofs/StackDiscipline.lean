/-
  Mos6502.Proofs.StackDiscipline — properly nested pushes, calls, pulls and returns

  In a sequence of steps each push is unmatched until a pull or a return takes its
  bytes.  While these are properly nested and no other instruction disturbs the
  stack, the bytes of the unmatched pushes lie on the stack, latest on top, the
  pointer is as far below its first place as there are bytes, and at least as many
  calls are counted as are unmatched.  Each pull then finds what the push
  that it undoes has left.

  Main statements:
    * `Disciplined.keeps_succ`, `Disciplined.keeps` — the invariant in one step and in all
    * `stack_discipline`       — what pulls and returns find
-/
import Mos6502.Proofs.StackFrames

namespace Mos6502.Machine.Execution

variable (x : Execution)

/-! ## §1. Nesting. -/

/-- The steps before step `i` that pushed what no step before it pulled, the latest
first.  A pull takes what the latest of them left. -/
def unmatched : Nat → List Nat
  | 0 => []
  | i + 1 =>
    match (x.state i).mnemonic? with
    | none => unmatched i
    | some mnemonic =>
      if mnemonic.operation.pushes then i :: unmatched i
      else if mnemonic.operation.pulls then (unmatched i).tail
      else unmatched i

/-- The step that pushed what step `i` pulls. -/
def matching? (i : Nat) : Option Nat := (x.unmatched i).head?

/-- The machines that made the unmatched pushes. -/
def frames (i : Nat) : List Machine := (x.unmatched i).map x.state

/-- What is asked of the instructions of an execution. -/
structure Disciplined : Prop where
  /-- The latest unmatched push is a call before each return, and none before each pull. -/
  nested : ∀ i < x.length, ∀ later ∈ (x.state i).mnemonic?, later.operation.pulls = true →
    ∃ j ∈ x.matching? i, ∃ earlier ∈ (x.state j).mnemonic?, later.Undoes earlier
  /-- The stack never has to hold more than it has cells. -/
  room : ∀ i ≤ x.length, (live (x.frames i)).length ≤ 256
  /-- The stack pointer is not set. -/
  unset : ∀ i < x.length, (x.state i).mnemonic? ≠ some .txs
  /-- Only pushes write to page one. -/
  apart : ∀ i < x.length, ∀ e ∈ (x.state i).instruction?, ∀ address ∈ (x.state i).written? e,
    ¬ (0x0100 ≤ address.toNat ∧ address.toNat ≤ 0x01FF)

variable {x}

/-! ## §2. What is unmatched. -/

theorem unmatched_succ_of_pushes {i : Nat} {mnemonic : Mnemonic}
    (hm : (x.state i).mnemonic? = some mnemonic) (h : mnemonic.operation.pushes = true) :
    x.unmatched (i + 1) = i :: x.unmatched i := by
  rw [unmatched, hm]
  exact if_pos h

theorem unmatched_succ_of_pulls {i : Nat} {mnemonic : Mnemonic}
    (hm : (x.state i).mnemonic? = some mnemonic) (h : mnemonic.operation.pulls = true) :
    x.unmatched (i + 1) = (x.unmatched i).tail := by
  have hpush : ¬ mnemonic.operation.pushes = true := by
    rw [mnemonic.pushes_eq_false_of_pulls h]
    exact Bool.false_ne_true
  rw [unmatched, hm]
  show (if _ then _ else _ : List Nat) = _
  rw [if_neg hpush, if_pos h]

theorem unmatched_succ_of_other {i : Nat} {mnemonic : Mnemonic}
    (hm : (x.state i).mnemonic? = some mnemonic) (hpush : mnemonic.operation.pushes = false)
    (hpull : mnemonic.operation.pulls = false) : x.unmatched (i + 1) = x.unmatched i := by
  rw [unmatched, hm]
  show (if _ then _ else _ : List Nat) = _
  rw [hpush, hpull]
  rfl

/-- Only steps that were taken are unmatched. -/
theorem lt_of_mem_unmatched {i j : Nat} (h : j ∈ x.unmatched i) : j < i := by
  induction i with
  | zero => cases h
  | succ i ih =>
    have hbefore : j ∈ x.unmatched i → j < i + 1 := fun hj => Nat.lt_succ_of_lt (ih hj)
    unfold unmatched at h
    split at h
    · exact hbefore h
    · split at h
      · rcases List.mem_cons.mp h with rfl | hj
        · exact Nat.lt_succ_self _
        · exact hbefore hj
      · split at h
        · exact hbefore (List.mem_of_mem_tail h)
        · exact hbefore h

theorem frames_of_matching {i j : Nat} (h : x.matching? i = some j) :
    x.frames i = x.state j :: (x.unmatched i).tail.map x.state := by
  unfold frames
  obtain ⟨rest, hrest⟩ := List.head?_eq_some_iff.mp h
  rw [hrest]
  rfl

/-! ## §3. The invariant along an execution. -/

/-- The instruction that a step of an execution takes. -/
theorem exists_instruction {i : Nat} (hi : i < x.length) :
    ∃ e, (x.state i).instruction? = some e ∧ x.state (i + 1) = (x.state i).perform e := by
  obtain ⟨e, hinstr, -, hnext⟩ := step_eq_ok_iff.mp (x.step_state i hi)
  exact ⟨e, hinstr, hnext⟩

/-- One step of a disciplined execution keeps the invariant. -/
theorem Disciplined.keeps_succ (h : x.Disciplined) {i : Nat} (hi : i < x.length)
    {base : UInt8} (hkeeps : Keeps base (x.frames i) (x.state i)) :
    Keeps base (x.frames (i + 1)) (x.state (i + 1)) := by
  obtain ⟨e, hinstr, hnext⟩ := exists_instruction hi
  have hm := mnemonic?_of_instruction hinstr
  rw [hnext]
  -- What is unmatched grows, shrinks or stays, and the frames do so with it.
  cases hpush : e.mnemonic.operation.pushes with
  | true =>
    have hframes : x.frames (i + 1) = x.state i :: x.frames i := by
      unfold frames
      rw [unmatched_succ_of_pushes hm hpush]
      rfl
    have hroom := h.room (i + 1) hi
    rw [hframes] at hroom ⊢
    exact hkeeps.push hinstr hpush hroom
  | false =>
    cases hpull : e.mnemonic.operation.pulls with
    | true =>
      obtain ⟨j, hmatch, earlier, hearlier, hundo⟩ := h.nested i hi _ hm hpull
      rw [frames_of_matching hmatch] at hkeeps
      unfold frames
      rw [unmatched_succ_of_pulls hm hpull]
      exact hkeeps.pull hearlier hundo
    | false =>
      have htxs : e.mnemonic ≠ .txs := fun heq => h.unset i hi (hm.trans (congrArg some heq))
      unfold frames
      rw [unmatched_succ_of_other hm hpush hpull]
      refine hkeeps.other hpush hpull htxs fun pointer hwrite => ?_
      -- Every place on the stack is an address that nothing but pushes may write to.
      refine h.apart i hi e hinstr _ hwrite ?_
      have hlt := pointer.toNat_lt
      rw [Stack.toNat_address]
      omega

/-- In a disciplined execution the unmatched pushes lie on the stack at all times. -/
theorem Disciplined.keeps (h : x.Disciplined) {i : Nat} (hi : i ≤ x.length) :
    Keeps (x.state 0).registers.s (x.frames i) (x.state i) := by
  induction i with
  | zero => exact keeps_nil _
  | succ i ih => exact h.keeps_succ hi (ih (Nat.le_of_succ_le hi))

/-! ## §4. What is found on the stack. -/

theorem exists_perform {i : Nat} (hi : i < x.length) {mnemonic : Mnemonic}
    (hm : (x.state i).mnemonic? = some mnemonic) :
    ∃ e, e.mnemonic = mnemonic ∧ x.state (i + 1) = (x.state i).perform e := by
  obtain ⟨e, hinstr, hnext⟩ := exists_instruction hi
  exact ⟨e, Option.some.inj ((mnemonic?_of_instruction hinstr).symm.trans hm), hnext⟩

/-- Before a pull of a disciplined execution, the push that it matches is the latest. -/
theorem Disciplined.matched (h : x.Disciplined) {i : Nat} (hi : i < x.length)
    {later : Mnemonic} (hm : (x.state i).mnemonic? = some later)
    (hpull : later.operation.pulls = true) :
    ∃ j < i, ∃ earlier frames, x.matching? i = some j ∧ (x.state j).mnemonic? = some earlier
      ∧ later.Undoes earlier
      ∧ Keeps (x.state 0).registers.s (x.state j :: frames) (x.state i) := by
  obtain ⟨j, hmatch, earlier, hearlier, hundo⟩ := h.nested i hi later hm hpull
  have hlt : j < i := lt_of_mem_unmatched (List.mem_of_head? hmatch)
  have hkeeps := h.keeps (Nat.le_of_lt hi)
  rw [frames_of_matching hmatch] at hkeeps
  exact ⟨j, hlt, earlier, _, hmatch, hearlier, hundo, hkeeps⟩

/-- A pull that is not a return finds the byte of a push that is not a call. -/
theorem Disciplined.pulled (h : x.Disciplined) {i : Nat} (hi : i < x.length)
    {later : Mnemonic} (hm : (x.state i).mnemonic? = some later)
    (hpull : later.operation.pulls = true) (hrts : later ≠ .rts) :
    ∃ j < i, x.matching? i = some j
      ∧ ((x.state j).mnemonic? = some .pha ∨ (x.state j).mnemonic? = some .php)
      ∧ (x.state j).pushed = [(x.state i).stack.pop.1] := by
  obtain ⟨j, hlt, earlier, frames, hmatch, hearlier, hundo, hkeeps⟩ := h.matched hi hm hpull
  have hpush : (x.state j).mnemonic? = some .pha ∨ (x.state j).mnemonic? = some .php := by
    rcases hundo.eq_pha_or_php hrts with rfl | rfl
    · exact .inl hearlier
    · exact .inr hearlier
  exact ⟨j, hlt, hmatch, hpush, hkeeps.pop hpush⟩

/-- **Stack discipline.**  In a disciplined execution a return goes on right after the call
that it matches and does not end execution, a pull brings the byte that the push it matches
has pushed, and the stack pointer is back where it was whenever nothing is unmatched. -/
theorem stack_discipline (x : Execution) (h : x.Disciplined) :
    (∀ i < x.length, (x.state i).mnemonic? = some .rts →
      ∃ j < i, x.matching? i = some j ∧ (x.state j).mnemonic? = some .jsr
        ∧ (x.state (i + 1)).registers.pc = (x.state j).registers.pc + 3
        ∧ (x.state (i + 1)).returned = (x.state i).returned)
    ∧ (∀ i < x.length, (x.state i).mnemonic? = some .pla →
      ∃ j < i, x.matching? i = some j
        ∧ ((x.state j).mnemonic? = some .pha ∨ (x.state j).mnemonic? = some .php)
        ∧ (x.state j).pushed = [(x.state (i + 1)).registers.a])
    ∧ (∀ i < x.length, (x.state i).mnemonic? = some .plp →
      ∃ j < i, x.matching? i = some j
        ∧ ((x.state j).mnemonic? = some .pha ∨ (x.state j).mnemonic? = some .php)
        ∧ (x.state j).pushed = [(x.state (i + 1)).registers.p.toByte])
    ∧ (∀ i ≤ x.length, x.unmatched i = [] →
      (x.state i).registers.s = (x.state 0).registers.s) := by
  refine ⟨?_, ?_, ?_, ?_⟩
  · intro i hi hm
    obtain ⟨e, he, hnext⟩ := exists_perform hi hm
    obtain ⟨j, hlt, earlier, frames, hmatch, hearlier, hundo, hkeeps⟩ := h.matched hi hm rfl
    rw [hundo.eq_jsr] at hearlier
    rw [hnext]
    exact ⟨j, hlt, hmatch, hearlier, hkeeps.rts hearlier he⟩
  · intro i hi hm
    obtain ⟨e, he, hnext⟩ := exists_perform hi hm
    have hload : (x.state (i + 1)).registers.a = (x.state i).stack.pop.1 := by
      rw [hnext, perform_of_implied he rfl]
      rfl
    rw [hload]
    exact h.pulled hi hm rfl (by decide)
  · intro i hi hm
    obtain ⟨e, he, hnext⟩ := exists_perform hi hm
    have hload : (x.state (i + 1)).registers.p = Status.ofByte (x.state i).stack.pop.1 := by
      rw [hnext, perform_of_implied he rfl]
      rfl
    rw [hload, Status.toByte_ofByte]
    exact h.pulled hi hm rfl (by decide)
  · intro i hi hnone
    have hkeeps := h.keeps hi
    unfold frames at hkeeps
    rw [hnone] at hkeeps
    exact hkeeps.pointer_of_nil

/-- A subroutine that pushes and pulls, called when the pointer is at the bottom of the
page, so that the stack wraps. -/
def wrapping : Execution :=
  of ((new.loadProgram [0x20, 0x04, 0x00, 0x60, 0x48, 0x68, 0x60] 0x0000).2.update
    { a := some 0x5A, s := some 0x00 }) 4 (by decide +kernel)

theorem stack_discipline_wrapping :
    wrapping.Disciplined
    ∧ wrapping.matching? 3 = some 0
    ∧ (wrapping.state (3 + 1)).registers.pc = (wrapping.state 0).registers.pc + 3
    ∧ (wrapping.state 4).registers.s = (wrapping.state 0).registers.s := by
  have hwrite : ∀ i < wrapping.length, ∀ e ∈ (wrapping.state i).instruction?,
      (wrapping.state i).written? e = none := by decide +kernel
  have h : wrapping.Disciplined := by
    refine ⟨by decide +kernel, by decide +kernel, by decide +kernel, ?_⟩
    intro i hi e he address haddress
    rw [hwrite i hi e he] at haddress
    cases haddress
  obtain ⟨hreturn, -, -, hbalanced⟩ := stack_discipline wrapping h
  obtain ⟨j, -, hmatch, -, hpc, -⟩ := hreturn 3 (by decide) (by decide +kernel)
  have hj : wrapping.matching? 3 = some 0 := by decide +kernel
  obtain rfl : j = 0 := Option.some.inj (hmatch.symm.trans hj)
  exact ⟨h, hj, hpc, hbalanced 4 (by decide) (by decide +kernel)⟩

end Mos6502.Machine.Execution
