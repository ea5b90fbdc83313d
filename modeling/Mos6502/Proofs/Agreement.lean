/-
  Mos6502.Proofs.Agreement — executing an instruction and listing it

  A machine finds an instruction by fetching through its program counter; a listing
  finds it by cutting bytes out of a block.  On the bytes from the program counter to
  the end of the window both come to the same: to an end of the data, to an opcode that
  stands for nothing, or to an instruction of the same length; and where the instruction
  may go on elsewhere, the machine goes to the address that the listing shows.

  Main statements:
    * `decoding_cases`         — the three things that can stand at the program counter
    * `target_relative`, `target_absolute` — where the machine goes
    * `step_agrees_with_decoding` — step and decoded instruction, side by side
-/
import Mos6502.Proofs.Decoding
import Mos6502.Proofs.Outcome
import Mos6502.Proofs.Session

namespace Mos6502

/-! ## §1. Instructions that go elsewhere. -/

namespace Mnemonic

/-- The conditional branches. -/
def branches : List Mnemonic := [.bcc, .bcs, .beq, .bmi, .bne, .bpl, .bvc, .bvs]

theorem operation_of_mem_branches {mnemonic : Mnemonic} (h : mnemonic ∈ branches) :
    ∃ flag value, mnemonic.operation = .targeting (.branch flag value) := by
  simp only [branches, List.mem_cons, List.not_mem_nil, or_false] at h
  rcases h with rfl | rfl | rfl | rfl | rfl | rfl | rfl | rfl <;> exact ⟨_, _, rfl⟩

/-- Besides branches, only JMP, JSR and RTS go on elsewhere. -/
theorem jumps_eq_false {mnemonic : Mnemonic} (hbranch : mnemonic ∉ branches)
    (hjump : mnemonic ∉ [.jmp, .jsr, .rts]) : mnemonic.operation.jumps = false := by
  revert hbranch hjump
  cases mnemonic <;> decide

end Mnemonic

/-- Relative operands belong to branches, which have no other mode. -/
theorem Encoding.relative_iff {opcode : UInt8} {e : Encoding}
    (h : Opcode.encoding opcode = some e) : e.mode = .relative ↔ e.mnemonic ∈ Mnemonic.branches :=
  of_encoding (P := fun e => e.mode = .relative ↔ e.mnemonic ∈ Mnemonic.branches)
    (by decide +kernel) h

theorem Encoding.mode_of_jsr {opcode : UInt8} {e : Encoding}
    (h : Opcode.encoding opcode = some e) (hjsr : e.mnemonic = .jsr) : e.mode = .absolute :=
  of_encoding (P := fun e => e.mnemonic = .jsr → e.mode = .absolute) (by decide +kernel) h hjsr

namespace Machine

open ByteStream

/-- The address that a branch names, counted from the next instruction. -/
theorem target_relative (machine : Machine) :
    machine.target .relative
      = machine.registers.pc + 2
        + signExtend (machine.memory.read (machine.registers.pc + 1)) := by
  have hpc : (advance (advance machine 1) 1).registers.pc = machine.registers.pc + 2 := by
    rw [advance_advance]
    rfl
  have hlow : ∀ byte : UInt8, lowByte byte.toUInt16 = byte :=
    fun byte => UInt8.toUInt8_toUInt16 byte
  -- The operand was widened to a word when it was fetched; its low byte is the offset.
  show (advance (advance machine 1) 1).registers.pc
    + signExtend (lowByte (machine.memory.read (machine.registers.pc + 1)).toUInt16) = _
  rw [hpc, hlow]

/-- The address that an absolute jump or call names. -/
theorem target_absolute (machine : Machine) :
    machine.target .absolute
      = machine.memory.readWord (machine.registers.pc + 1) (machine.registers.pc + 1 + 1) :=
  rfl

/-! ## §2. Decoding at the program counter. -/

/-- What is decoded from the bytes from the program counter up to the end of the window. -/
def decoded? (machine : Machine) : Option Instruction :=
  Instruction.decode? machine.registers.pc
    (machine.memory.readBytes machine.registers.pc
      (machine.window.limit - machine.registers.pc.toNat))

/-- The instruction that the bytes at the program counter begin with. -/
def shown (machine : Machine) : Instruction :=
  machine.memory.instructionAt machine.registers.pc

section Inside

variable {machine : Machine} (bound : machine.window.limit ≤ 0xFFFF)
  (inside : machine.registers.pc.toNat < machine.window.limit)

include bound inside in
/-- An instruction is decoded exactly if all its bytes can be fetched. -/
theorem decoded?_eq :
    machine.decoded?
      = if InReach machine (Opcode.size (machine.memory.read machine.registers.pc)) then
          some machine.shown
        else none := by
  have hpos := Opcode.size_pos (machine.memory.read machine.registers.pc)
  have hiff : Opcode.size (machine.memory.read machine.registers.pc)
        ≤ machine.window.limit - machine.registers.pc.toNat
      ↔ InReach machine (Opcode.size (machine.memory.read machine.registers.pc)) := by
    rw [inReach_iff_of_le bound hpos]
    omega
  unfold decoded?
  rw [Instruction.decode?_readBytes]
  simp only [hiff]
  rfl

include bound inside in
/-- At the program counter stands an opcode that stands for nothing, a complete
instruction, or one that the window cuts off; the step is settled with it. -/
theorem decoding_cases :
    (machine.decoded? = some machine.shown ∧ machine.shown.mnemonic = Opcode.unknownName
      ∧ ∃ failed, step machine = .error (.illegalOpcode
          (machine.memory.read machine.registers.pc) machine.registers.pc) failed)
    ∨ (∃ e, machine.instruction? = some e ∧ InReach machine e.size
        ∧ machine.decoded? = some machine.shown ∧ machine.shown.mnemonic = e.mnemonic.name
        ∧ machine.shown.mode = e.mode ∧ machine.shown.size.toNat = e.size
        ∧ step machine = .ok () (machine.perform e))
    ∨ (machine.decoded? = none
        ∧ ∃ failed, step machine = .error (.pastEnd (edge machine)) failed) := by
  have hone : InReach machine 1 := (inReach_iff_of_le bound Nat.one_pos).mpr inside
  have hdecoded := decoded?_eq bound inside
  have hsizeShown : machine.shown.size.toNat
      = Opcode.size (machine.memory.read machine.registers.pc) :=
    Instruction.toNat_size_instructionAt _ _
  cases hinstr : machine.instruction? with
  | none =>
    -- Such an opcode is a single byte, so it is never cut off.
    have hencoding : Opcode.encoding (machine.memory.read machine.registers.pc) = none := hinstr
    have hsize := Opcode.size_of_encoding_eq_none hencoding
    have hname : machine.shown.mnemonic = Opcode.unknownName := by
      show Opcode.name _ = _
      unfold Opcode.name
      rw [hencoding]
    rw [hsize, if_pos hone] at hdecoded
    exact .inl ⟨hdecoded, hname, _, step_of_undocumented hone hinstr⟩
  | some e =>
    have hencoding : Opcode.encoding (machine.memory.read machine.registers.pc) = some e :=
      hinstr
    rw [Opcode.size_of_encoding hencoding] at hdecoded hsizeShown
    by_cases hfits : InReach machine e.size
    · rw [if_pos hfits] at hdecoded
      exact .inr (.inl ⟨e, rfl, hfits, hdecoded, Opcode.name_of_encoding hencoding,
        Opcode.mode_of_encoding hencoding, hsizeShown, step_of_complete hinstr hfits⟩)
    · have hstep := step_of_instruction hone hinstr
      rw [delivery_of_not_inReach hfits] at hstep
      rw [if_neg hfits] at hdecoded
      exact .inr (.inr ⟨hdecoded, _, hstep⟩)

end Inside

/-! ## §3. Where the machine goes on. -/

section Complete

variable {machine : Machine} {e : Encoding} (hinstr : machine.instruction? = some e)

include hinstr in
/-- The address that a branch goes to is the one it is shown with. -/
theorem shows_target_of_branch (h : e.mnemonic ∈ Mnemonic.branches) :
    machine.shown.Shows (machine.target e.mode) := by
  have hmode := (Encoding.relative_iff hinstr).mpr h
  have hshown : Opcode.mode (machine.memory.read machine.registers.pc) = .relative := by
    rw [Opcode.mode_of_encoding hinstr, hmode]
  rw [hmode, target_relative]
  exact Instruction.shows_of_relative hshown

include hinstr in
/-- The address that an absolute jump or a call goes to is the one it is shown with. -/
theorem shows_target_of_absolute (hmode : e.mode = .absolute) :
    machine.shown.Shows (machine.target e.mode) := by
  have hshown : Opcode.mode (machine.memory.read machine.registers.pc) = .absolute := by
    rw [Opcode.mode_of_encoding hinstr, hmode]
  rw [hmode, target_absolute]
  exact Instruction.shows_of_absolute hshown

include hinstr in
/-- A branch goes on at the next instruction or at the address that it is shown with. -/
theorem pc_of_branch (h : e.mnemonic ∈ Mnemonic.branches) :
    ∃ target, machine.shown.Shows target
      ∧ ((machine.perform e).registers.pc = machine.registers.pc + UInt16.ofNat e.size
        ∨ (machine.perform e).registers.pc = target) := by
  obtain ⟨flag, value, hop⟩ := Mnemonic.operation_of_mem_branches h
  refine ⟨machine.target e.mode, shows_target_of_branch hinstr h, ?_⟩
  rw [pc_perform_of_branch hop]
  split
  · exact .inr rfl
  · exact .inl rfl

include hinstr in
/-- An absolute jump or a call goes on at the address that it is shown with. -/
theorem shows_pc_of_jump (h : e.mnemonic = .jmp ∧ e.mode = .absolute ∨ e.mnemonic = .jsr) :
    machine.shown.Shows (machine.perform e).registers.pc := by
  have hmode : e.mode = .absolute := by
    rcases h with ⟨-, hmode⟩ | hjsr
    · exact hmode
    · exact Encoding.mode_of_jsr hinstr hjsr
  have hop : e.mnemonic.operation = .targeting .jump ∨ e.mnemonic.operation = .targeting .call := by
    rcases h with ⟨hjmp, -⟩ | hjsr
    · exact .inl (by rw [hjmp]; rfl)
    · exact .inr (by rw [hjsr]; rfl)
  rw [pc_perform_of_jump hop]
  exact shows_target_of_absolute hinstr hmode

end Complete

/-- **Executing and listing agree.**  Inside the window, a step runs past the end exactly if
nothing is decoded, meets an illegal opcode exactly if what is decoded is shown as unknown, and
succeeds otherwise.  It then goes on right after the decoded instruction, or, for branches, jumps
and calls, at the one address that the four digits of the text stand for. -/
theorem step_agrees_with_decoding {machine : Machine} (reachable : machine.Reachable)
    (inside : machine.registers.pc.toNat < machine.window.limit) :
    ((∃ address failed, step machine = .error (.pastEnd address) failed)
      ↔ machine.decoded? = none)
    ∧ ((∃ opcode address failed, step machine = .error (.illegalOpcode opcode address) failed)
      ↔ ∃ i, machine.decoded? = some i ∧ i.mnemonic = "???")
    ∧ ((∃ next, step machine = .ok () next)
      ↔ ∃ i, machine.decoded? = some i ∧ i.mnemonic ≠ "???")
    ∧ ∀ next, step machine = .ok () next →
        ∃ i mnemonic, machine.decoded? = some i ∧ i.mnemonic = Mnemonic.name mnemonic
          ∧ (mnemonic ∉ Mnemonic.branches → mnemonic ∉ [.jmp, .jsr, .rts] →
              next.registers.pc.toNat = machine.registers.pc.toNat + i.size.toNat)
          ∧ (mnemonic ∈ Mnemonic.branches →
              ∃ target, (∀ address, i.Shows address ↔ address = target)
                ∧ (next.registers.pc.toNat = machine.registers.pc.toNat + i.size.toNat
                  ∨ next.registers.pc = target))
          ∧ (mnemonic = .jmp ∧ i.mode = .absolute ∨ mnemonic = .jsr →
              ∀ address, i.Shows address ↔ address = next.registers.pc) := by
  have bound := reachable.limit_le
  rcases decoding_cases bound inside with ⟨hdecoded, hname, failed, hstep⟩
    | ⟨e, hinstr, hfits, hdecoded, hname, hmode, hsize, hstep⟩ | ⟨hdecoded, failed, hstep⟩
  · -- an opcode that stands for nothing
    rw [hstep, hdecoded]
    refine ⟨by simp, ⟨fun _ => ⟨_, rfl, hname⟩, fun _ => ⟨_, _, _, rfl⟩⟩, ?_, by simp⟩
    constructor
    · rintro ⟨next, h⟩
      cases h
    · rintro ⟨i, hi, hknown⟩
      cases hi
      exact absurd hname hknown
  · -- a complete instruction
    have hknown : machine.shown.mnemonic ≠ "???" := by
      rw [hname]
      exact Mnemonic.name_ne_unknownName e.mnemonic
    have hnext : (machine.registers.pc + UInt16.ofNat e.size).toNat
        = machine.registers.pc.toNat + machine.shown.size.toNat := by
      rw [hsize]
      exact toNat_cursor_advance hfits bound
    rw [hstep, hdecoded]
    refine ⟨by simp, ?_, ⟨fun _ => ⟨_, rfl, hknown⟩, fun _ => ⟨_, rfl⟩⟩, ?_⟩
    · constructor
      · rintro ⟨opcode, address, failed, h⟩
        cases h
      · rintro ⟨i, hi, hunknown⟩
        cases hi
        exact absurd hunknown hknown
    · intro next h
      cases h
      refine ⟨machine.shown, e.mnemonic, rfl, hname, ?_, ?_, ?_⟩
      · intro hbranch hjump
        rw [pc_perform (Mnemonic.jumps_eq_false hbranch hjump), hnext]
      · intro hbranch
        obtain ⟨target, hshows, hpc⟩ := pc_of_branch hinstr hbranch
        refine ⟨target, hshows.iff_eq, hpc.imp_left fun hstraight => ?_⟩
        rw [hstraight, hnext]
      · intro hjump
        rw [hmode] at hjump
        exact (shows_pc_of_jump hinstr hjump).iff_eq
  · -- an instruction that the window cuts off
    rw [hstep, hdecoded]
    exact ⟨⟨fun _ => rfl, fun _ => ⟨_, _, rfl⟩⟩, by simp, by simp, by simp⟩

/-- A branch back over the bottom of memory. -/
def branchBelowZero : Machine := (new.loadProgram [0xD0, 0xFC] 0x0000).2

/-- The branch goes to the address 0xFFFE, and it is shown with its digits. -/
theorem step_agrees_with_decoding_branchBelowZero :
    branchBelowZero.Reachable
    ∧ branchBelowZero.registers.pc.toNat < branchBelowZero.window.limit
    ∧ ∃ next i, step branchBelowZero = .ok () next ∧ branchBelowZero.decoded? = some i
        ∧ i.text = "BNE $FFFE" ∧ next.registers.pc = 0xFFFE
        ∧ ∀ address, i.Shows address ↔ address = 0xFFFE := by
  have hreachable : branchBelowZero.Reachable := ⟨[.loadProgram [0xD0, 0xFC] 0x0000], rfl⟩
  have hinside : branchBelowZero.registers.pc.toNat < branchBelowZero.window.limit := by
    decide +kernel
  have hdecoded : branchBelowZero.decoded?
      = some ⟨0x0000, 0xD0, "BNE", .relative, [0xFC], 2⟩ := by decide +kernel
  have htext : Instruction.text ⟨0x0000, 0xD0, "BNE", .relative, [0xFC], 2⟩ = "BNE $FFFE" := by
    decide +kernel
  have hpc : (leave step branchBelowZero).registers.pc = 0xFFFE := by decide +kernel
  obtain ⟨-, -, hok, hgoes⟩ := step_agrees_with_decoding hreachable hinside
  obtain ⟨next, hnext⟩ := hok.mpr ⟨_, hdecoded, by decide⟩
  rw [leave_of_ok hnext] at hpc
  obtain ⟨i, mnemonic, hi, hname, -, hbranch, -⟩ := hgoes next hnext
  rw [hdecoded] at hi
  cases hi
  -- BNE is the name of no other instruction, so the law for branches applies.
  have hmnemonic : mnemonic ∈ Mnemonic.branches := by
    revert hname
    cases mnemonic <;> decide
  obtain ⟨target, hshows, hstraight | htarget⟩ := hbranch hmnemonic
  · rw [hpc] at hstraight
    exact absurd hstraight (by decide +kernel)
  · rw [← htarget, hpc] at hshows
    exact ⟨hreachable, hinside, next, _, hnext, hdecoded, htext, hpc, hshows⟩

end Machine

end Mos6502
