/-
  Mos6502.Proofs.StackFrames — what instructions do to the stack

  An instruction that pushes puts its bytes on top of what the stack held, and one
  that pulls takes from the top as many bytes as the instruction that it undoes has
  put there.  While the bytes of some earlier pushes, the frames, lie on the stack,
  they go on doing so whatever the next instruction is, provided that it pulls only
  what the latest of them has left and does not otherwise disturb the stack.

  Main statements:
    * `stack_perform_of_pushes`, `stack_perform_of_undoes` — the stack in one step
    * `Keeps.push`, `Keeps.pull`, `Keeps.other` — one step keeps the frames
    * `Keeps.rts`, `Keeps.pop`  — returns and pulls find what the latest frame left
-/
import Mos6502.Proofs.Frame
import Mos6502.Proofs.StackRing

namespace Mos6502

/-! ## §1. The stack in one step. -/

/-- Whether one instruction takes from the stack what the other puts there. -/
def Mnemonic.Undoes (later earlier : Mnemonic) : Prop :=
  later = .rts ∧ earlier = .jsr
  ∨ (later = .pla ∨ later = .plp) ∧ (earlier = .pha ∨ earlier = .php)

instance (later earlier : Mnemonic) : Decidable (later.Undoes earlier) :=
  inferInstanceAs (Decidable (_ ∨ _))

theorem Mnemonic.Undoes.eq_jsr {earlier : Mnemonic} (h : Mnemonic.rts.Undoes earlier) :
    earlier = .jsr := by
  rcases h with ⟨-, hearlier⟩ | ⟨hlater | hlater, -⟩
  · exact hearlier
  · cases hlater
  · cases hlater

theorem Mnemonic.Undoes.eq_pha_or_php {later earlier : Mnemonic} (h : later.Undoes earlier)
    (hlater : later ≠ .rts) : earlier = .pha ∨ earlier = .php := by
  rcases h with ⟨hrts, -⟩ | ⟨-, hearlier⟩
  · exact absurd hrts hlater
  · exact hearlier

theorem Mnemonic.pushes_eq_false_of_pulls {mnemonic : Mnemonic}
    (h : mnemonic.operation.pulls = true) : mnemonic.operation.pushes = false := by
  rcases Mnemonic.pulls_iff.mp h with rfl | rfl | rfl <;> rfl

/-- A call has two bytes of operand. -/
theorem Encoding.size_of_jsr {opcode : UInt8} {e : Encoding}
    (h : Opcode.encoding opcode = some e) (hjsr : e.mnemonic = .jsr) : e.size = 3 :=
  of_encoding (P := fun e => e.mnemonic = .jsr → e.size = 3) (by decide +kernel) h hjsr

namespace Machine

open ByteStream

/-- The stack of a machine. -/
def stack (machine : Machine) : Stack := ⟨machine.memory, machine.registers.s⟩

/-- What the instruction at the program counter pushes, the top first: a call the address
past itself, PHA and PHP a register, other instructions nothing. -/
def pushed (machine : Machine) : List UInt8 :=
  match machine.mnemonic? with
  | some .jsr =>
    [lowByte (machine.registers.pc + 3), highByte (machine.registers.pc + 3)]
  | some .pha => [machine.registers.a]
  | some .php => [machine.registers.p.toByte]
  | _ => []

theorem pushed_of_jsr {machine : Machine} (h : machine.mnemonic? = some .jsr) :
    machine.pushed
      = [lowByte (machine.registers.pc + 3), highByte (machine.registers.pc + 3)] := by
  unfold pushed
  rw [h]

theorem pushed_of_pha {machine : Machine} (h : machine.mnemonic? = some .pha) :
    machine.pushed = [machine.registers.a] := by
  unfold pushed
  rw [h]

theorem pushed_of_php {machine : Machine} (h : machine.mnemonic? = some .php) :
    machine.pushed = [machine.registers.p.toByte] := by
  unfold pushed
  rw [h]

theorem stack_perform_of_pushes {machine : Machine} {e : Encoding}
    (hinstr : machine.instruction? = some e) (h : e.mnemonic.operation.pushes = true) :
    (machine.perform e).stack = machine.stack.pushAll machine.pushed := by
  have hmnemonic := mnemonic?_of_instruction hinstr
  rcases Mnemonic.pushes_iff.mp h with hm | hm | hm
  · rw [hm] at hmnemonic
    rw [pushed_of_jsr hmnemonic, perform_of_targeting hm rfl,
      Encoding.size_of_jsr hinstr hm]
    rfl
  · rw [hm] at hmnemonic
    rw [pushed_of_pha hmnemonic, perform_of_implied hm rfl]
    rfl
  · rw [hm] at hmnemonic
    rw [pushed_of_php hmnemonic, perform_of_implied hm rfl]
    rfl

theorem stack_perform_of_undoes {machine frame : Machine} {e : Encoding} {earlier : Mnemonic}
    (hframe : frame.mnemonic? = some earlier) (h : e.mnemonic.Undoes earlier) :
    (machine.perform e).stack = machine.stack.drop frame.pushed.length := by
  have hpull : ∀ {byte}, frame.pushed = [byte] → (e.mnemonic = .pla ∨ e.mnemonic = .plp) →
      (machine.perform e).stack = machine.stack.drop frame.pushed.length := by
    intro byte hpushed hlater
    rw [hpushed]
    rcases hlater with hm | hm
    · rw [perform_of_implied hm rfl]
      rfl
    · rw [perform_of_implied hm rfl]
      rfl
  rcases h with ⟨hm, rfl⟩ | ⟨hlater, rfl | rfl⟩
  · rw [pushed_of_jsr hframe, perform_of_implied hm rfl]
    show (Machine.ret _).stack = _
    have htwo : machine.stack.drop 2 = machine.stack.pop.2.pop.2 := by
      rw [← Stack.drop_one, ← Stack.drop_one, Stack.drop_drop]
    rw [ret_eq]
    split <;> exact htwo.symm
  · exact hpull (pushed_of_pha hframe) hlater
  · exact hpull (pushed_of_php hframe) hlater

/-- A return to an open call goes to the address on the stack. -/
theorem perform_of_rts {machine : Machine} {e : Encoding} (hm : e.mnemonic = .rts)
    (hopen : machine.callDepth ≠ 0) :
    (machine.perform e).registers.pc = word (machine.stack.cell 0) (machine.stack.cell 1)
    ∧ (machine.perform e).callDepth = machine.callDepth - 1
    ∧ (machine.perform e).returned = machine.returned := by
  have hret : machine.perform e = (advance machine e.size).ret :=
    perform_of_implied hm rfl
  have hdepth : ¬ (advance machine e.size).callDepth = 0 := hopen
  rw [hret, ret_eq, if_neg hdepth, Stack.cell_zero]
  exact ⟨rfl, rfl, rfl⟩

/-! ## §2. Frames. -/

/-- Whether the instruction at the program counter calls a subroutine. -/
def calls (machine : Machine) : Bool := machine.mnemonic? == some .jsr

/-- The bytes that lie on the stack if each of the frames, the latest first, has pushed
what its instruction pushes. -/
def live (frames : List Machine) : List UInt8 := frames.flatMap pushed

theorem live_cons (frame : Machine) (frames : List Machine) :
    live (frame :: frames) = frame.pushed ++ live frames := List.flatMap_cons

/-- A call has two bytes on the stack, so a page has room for 128 of them. -/
theorem two_mul_countP_calls_le (frames : List Machine) :
    2 * frames.countP calls ≤ (live frames).length := by
  induction frames with
  | nil => exact Nat.zero_le _
  | cons frame frames ih =>
    rw [live_cons, List.length_append, List.countP_cons]
    by_cases hcall : frame.calls = true
    · rw [if_pos hcall, pushed_of_jsr (beq_iff_eq.mp hcall)]
      show _ ≤ 2 + _
      omega
    · rw [if_neg hcall]
      omega

/-- A machine whose stack holds what the frames have pushed, the latest first, since its
pointer was at `base`. -/
structure Keeps (base : UInt8) (frames : List Machine) (machine : Machine) : Prop where
  /-- The bytes lie on the stack. -/
  holds : machine.stack.Holds (live frames)
  /-- Without them the pointer is back at the base. -/
  level : (machine.stack.drop (live frames).length).pointer = base
  /-- The calls among them are counted. -/
  counted : frames.countP calls ≤ machine.callDepth

theorem keeps_nil (machine : Machine) : Keeps machine.registers.s [] machine where
  holds := Stack.holds_nil _
  level := UInt8.add_zero _
  counted := Nat.zero_le _

theorem Keeps.pointer_of_nil {base : UInt8} {machine : Machine} (h : Keeps base [] machine) :
    machine.registers.s = base := by
  rw [← h.level]
  exact (UInt8.add_zero _).symm

section Latest

variable {base : UInt8} {frame : Machine} {frames : List Machine} {machine : Machine}

/-- The bytes of the latest frame lie on top. -/
theorem Keeps.holds_pushed (h : Keeps base (frame :: frames) machine) :
    machine.stack.Holds frame.pushed := by
  have hholds := h.holds
  rw [live_cons] at hholds
  exact (Stack.holds_append.mp hholds).1

/-- While a frame is a call, a call is counted. -/
theorem Keeps.callDepth_ne_zero (h : Keeps base (frame :: frames) machine)
    (hcall : frame.calls = true) : machine.callDepth ≠ 0 := by
  have hcounted := h.counted
  rw [List.countP_cons, if_pos hcall] at hcounted
  omega

/-- The byte that the next pull finds is the one that the latest frame left. -/
theorem Keeps.pop (h : Keeps base (frame :: frames) machine)
    (hframe : frame.mnemonic? = some .pha ∨ frame.mnemonic? = some .php) :
    frame.pushed = [machine.stack.pop.1] := by
  have hbyte : ∃ byte, frame.pushed = [byte] := by
    rcases hframe with hpha | hphp
    · exact ⟨_, pushed_of_pha hpha⟩
    · exact ⟨_, pushed_of_php hphp⟩
  obtain ⟨byte, hpushed⟩ := hbyte
  have hholds := h.holds_pushed
  rw [hpushed] at hholds ⊢
  rw [Stack.holds_singleton.mp hholds]

/-- A return goes on after the call that is the latest frame. -/
theorem Keeps.rts {e : Encoding} (h : Keeps base (frame :: frames) machine)
    (hframe : frame.mnemonic? = some .jsr) (hm : e.mnemonic = .rts) :
    (machine.perform e).registers.pc = frame.registers.pc + 3
    ∧ (machine.perform e).returned = machine.returned := by
  have hopen := h.callDepth_ne_zero (beq_iff_eq.mpr hframe)
  obtain ⟨hpc, -, hreturned⟩ := perform_of_rts hm hopen
  have hholds := h.holds_pushed
  rw [pushed_of_jsr hframe] at hholds
  have hlow : machine.stack.cell 0 = _ := hholds 0 Nat.two_pos
  have hhigh : machine.stack.cell 1 = _ := hholds 1 Nat.one_lt_two
  refine ⟨?_, hreturned⟩
  rw [hpc, hlow, hhigh]
  exact word_low_high _

end Latest

/-! ## §3. One step. -/

section Step

variable {base : UInt8} {frames : List Machine} {machine : Machine} {e : Encoding}

/-- A push becomes the latest frame. -/
theorem Keeps.push (h : Keeps base frames machine) (hinstr : machine.instruction? = some e)
    (hpush : e.mnemonic.operation.pushes = true)
    (room : (live (machine :: frames)).length ≤ 256) :
    Keeps base (machine :: frames) (machine.perform e) := by
  have hstack := stack_perform_of_pushes hinstr hpush
  have hmnemonic := mnemonic?_of_instruction hinstr
  have hbound := two_mul_countP_calls_le (machine :: frames)
  obtain ⟨hholds, hlevel, hcounted⟩ := h
  refine ⟨?_, ?_, ?_⟩
  · rw [live_cons] at room ⊢
    rw [hstack]
    exact hholds.pushAll machine.pushed room
  · rw [hstack, live_cons, List.length_append, Stack.pointer_drop_pushAll]
    exact hlevel
  · rw [List.countP_cons] at hbound ⊢
    by_cases hcall : machine.calls = true
    · -- The count of open calls stops at its maximum, but there is no room for that many.
      have hjsr : e.mnemonic = .jsr :=
        Option.some.inj (hmnemonic.symm.trans (beq_iff_eq.mp hcall))
      have hdepth : (machine.perform e).callDepth = min (machine.callDepth + 1) 0xFFFFFFFF := by
        rw [perform_of_targeting hjsr rfl]
        rfl
      rw [if_pos hcall] at hbound ⊢
      rw [hdepth]
      omega
    · have hdepth : (machine.perform e).callDepth = machine.callDepth := by
        rcases Mnemonic.pushes_iff.mp hpush with hm | hm | hm
        · rw [hm] at hmnemonic
          exact absurd (beq_iff_eq.mpr hmnemonic) hcall
        · exact callDepth_perform (by rw [hm]; decide) (by rw [hm]; decide)
        · exact callDepth_perform (by rw [hm]; decide) (by rw [hm]; decide)
      rw [if_neg hcall, hdepth]
      exact hcounted

/-- A pull that undoes the latest frame leaves the others. -/
theorem Keeps.pull {frame : Machine} {earlier : Mnemonic}
    (h : Keeps base (frame :: frames) machine) (hframe : frame.mnemonic? = some earlier)
    (hundo : e.mnemonic.Undoes earlier) : Keeps base frames (machine.perform e) := by
  have hstack : (machine.perform e).stack = _ := stack_perform_of_undoes hframe hundo
  have hcounted := h.counted
  have hholds := h.holds
  have hlevel := h.level
  rw [live_cons] at hholds hlevel
  rw [List.countP_cons] at hcounted
  refine ⟨?_, ?_, ?_⟩
  · rw [hstack]
    exact (Stack.holds_append.mp hholds).2
  · rw [hstack, Stack.drop_drop, ← List.length_append]
    exact hlevel
  · rcases hundo with ⟨hm, rfl⟩ | ⟨hlater, hearlier⟩
    · have hcall : frame.calls = true := beq_iff_eq.mpr hframe
      rw [if_pos hcall] at hcounted
      rw [(perform_of_rts hm (h.callDepth_ne_zero hcall)).2.1]
      omega
    · have hdepth : (machine.perform e).callDepth = machine.callDepth := by
        rcases hlater with hm | hm
        · exact callDepth_perform (by rw [hm]; decide) (by rw [hm]; decide)
        · exact callDepth_perform (by rw [hm]; decide) (by rw [hm]; decide)
      rw [hdepth]
      omega

/-- An instruction that neither pushes nor pulls leaves the frames alone, if it is not TXS
and does not write to page one. -/
theorem Keeps.other (h : Keeps base frames machine)
    (hpush : e.mnemonic.operation.pushes = false) (hpull : e.mnemonic.operation.pulls = false)
    (htxs : e.mnemonic ≠ .txs)
    (apart : ∀ pointer, machine.written? e ≠ some (Stack.address pointer)) :
    Keeps base frames (machine.perform e) := by
  have halters : e.mnemonic.operation.alters e.mode .s = false := by
    rw [Mnemonic.alters_s, hpush, hpull]
    exact beq_eq_false_iff_ne.mpr htxs
  have hpointer : (machine.perform e).stack.pointer = machine.stack.pointer :=
    get_perform halters
  obtain ⟨hholds, hlevel, hcounted⟩ := h
  refine ⟨?_, ?_, ?_⟩
  · exact hholds.of_read_eq hpointer fun pointer => read_perform hpush (apart pointer)
  · rw [← hlevel]
    exact congrArg (· + _) hpointer
  · have hdepth : (machine.perform e).callDepth = machine.callDepth := by
      refine callDepth_perform ?_ ?_
      · intro hop
        rw [hop] at hpush
        cases hpush
      · intro hop
        rw [hop] at hpull
        cases hpull
    rw [hdepth]
    exact hcounted

end Step

end Machine

end Mos6502
