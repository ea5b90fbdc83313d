/-
  Mos6502.Proofs.NextPc — where a machine goes on after a step

  Most instructions are followed by the next one in memory.  The others are few, and each of
  them has a rule of its own: a branch counts from the next instruction if the status
  tells it to, jumps and calls take a word from behind the opcode or from where that word
  points, and a return takes one from the stack as long as a call is open.  The rules are
  written in numbers here, so that every wrap of an address is to be seen.

  Main statements:
    * `toNat_pc_of_branch`   — the two ways a branch goes on
    * `toNat_pc_of_rts`, `pc_of_last_rts` — the two ways a return goes on
    * `next_pc`              — the program counter after any step that succeeds
-/
import Mos6502.Proofs.Agreement
import Mos6502.Proofs.Resolving
import Mos6502.Proofs.StackFrames

namespace Mos6502

/-! ## §1. Conditions. -/

/-- Whether a branch is taken with a status; other instructions are no branches. -/
def Mnemonic.taken? (status : Status) : Mnemonic → Option Bool
  | .bcc => some !status.carry
  | .bcs => some status.carry
  | .beq => some status.zero
  | .bne => some !status.zero
  | .bmi => some status.negative
  | .bpl => some !status.negative
  | .bvc => some !status.overflow
  | .bvs => some status.overflow
  | _ => none

theorem Mnemonic.taken?_isSome_iff (status : Status) (mnemonic : Mnemonic) :
    (mnemonic.taken? status).isSome ↔ mnemonic ∈ branches := by
  cases mnemonic <;> simp [taken?, branches]

/-- The condition of a branch is the test that its operation makes. -/
theorem Mnemonic.taken?_of_branch {mnemonic : Mnemonic} {flag : Flag} {value : Bool}
    (h : mnemonic.operation = .targeting (.branch flag value)) (status : Status) :
    mnemonic.taken? status = some (status.test flag == value) := by
  revert h
  cases mnemonic <;> simp [operation] <;> rintro rfl rfl <;> simp [taken?, Status.test]

/-- A jump is absolute or indirect. -/
theorem Encoding.mode_of_jmp {opcode : UInt8} {e : Encoding}
    (h : Opcode.encoding opcode = some e) (hjmp : e.mnemonic = .jmp) :
    e.mode = .absolute ∨ e.mode = .indirect :=
  of_encoding (P := fun e => e.mnemonic = .jmp → e.mode = .absolute ∨ e.mode = .indirect)
    (by decide +kernel) h hjmp

theorem Encoding.size_of_rts {opcode : UInt8} {e : Encoding}
    (h : Opcode.encoding opcode = some e) (hrts : e.mnemonic = .rts) : e.size = 1 :=
  of_encoding (P := fun e => e.mnemonic = .rts → e.size = 1) (by decide +kernel) h hrts

namespace Machine

open ByteStream

/-! ## §2. Targets by numbers. -/

section Target

variable (machine : Machine)

/-- Going on by a number of bytes goes round memory. -/
theorem toNat_pc_add (count : Nat) :
    (machine.registers.pc + UInt16.ofNat count).toNat
      = (machine.registers.pc.toNat + count) % 65536 := by
  rw [UInt16.toNat_add, UInt16.toNat_ofNat', Nat.add_mod_mod]

theorem toNat_pc_add_two :
    (machine.registers.pc + 2).toNat = (machine.registers.pc.toNat + 2) % 65536 :=
  machine.toNat_pc_add 2

/-- A branch counts from the next instruction, round memory at both ends. -/
theorem toNat_target_relative :
    (machine.target .relative).toNat
      = (((machine.registers.pc.toNat + 2 : Nat)
          + signed [machine.memory.read (machine.registers.pc + 1)]) % 65536).toNat := by
  rw [target_relative, toNat_add_signExtend, toNat_pc_add_two]
  omega

/-- An absolute jump goes where the word after the opcode says. -/
theorem toNat_target_absolute :
    (machine.target .absolute).toNat
      = machine.memory.wordAt ((machine.registers.pc.toNat + 1) % 65536)
          ((machine.registers.pc.toNat + 2) % 65536) := by
  have htwo : machine.registers.pc + 1 + 1 = machine.registers.pc + 2 := UInt16.add_assoc _ _ _
  rw [target_absolute, Memory.toNat_readWord, htwo, toNat_pc_add_two, UInt16.toNat_add,
    UInt16.toNat_one]

/-- An indirect jump goes where the word at that place says. -/
theorem toNat_target_indirect :
    (machine.target .indirect).toNat
      = machine.memory.wordAt (machine.target .absolute).toNat
          (((machine.target .absolute).toNat + 1) % 65536) :=
  machine.memory.toNat_readWord_succ (machine.target .absolute)

end Target

/-! ## §3. Branches and returns. -/

/-- A branch goes by its offset if its condition holds, and otherwise on to the next
instruction. -/
theorem toNat_pc_of_branch {machine : Machine} {e : Encoding}
    (hinstr : machine.instruction? = some e) (hbranch : e.mnemonic ∈ Mnemonic.branches) :
    ∃ taken, e.mnemonic.taken? machine.registers.p = some taken
      ∧ (machine.perform e).registers.pc.toNat
        = if taken then
            (((machine.registers.pc.toNat + 2 : Nat)
              + signed [machine.memory.read (machine.registers.pc + 1)]) % 65536).toNat
          else (machine.registers.pc.toNat + 2) % 65536 := by
  obtain ⟨flag, value, hop⟩ := Mnemonic.operation_of_mem_branches hbranch
  have hmode : e.mode = .relative := (Encoding.relative_iff hinstr).mpr hbranch
  have hsize : e.size = 2 := by
    unfold Encoding.size
    rw [hmode]
    rfl
  refine ⟨_, Mnemonic.taken?_of_branch hop _, ?_⟩
  rw [pc_perform_of_branch hop, hmode, hsize]
  by_cases htest : machine.registers.p.test flag = value
  · rw [if_pos htest, if_pos (beq_iff_eq.mpr htest), toNat_target_relative]
  · rw [if_neg htest, if_neg (mt beq_iff_eq.mp htest), toNat_pc_add]

/-- While a call is open, a return goes on at the address on top of the stack, the low byte of it
above the high byte. -/
theorem toNat_pc_of_rts {machine : Machine} {e : Encoding} (hm : e.mnemonic = .rts)
    (hopen : machine.callDepth ≠ 0) :
    (machine.perform e).registers.pc.toNat
      = machine.memory.wordAt (0x0100 + (machine.registers.s.toNat + 1) % 256)
          (0x0100 + (machine.registers.s.toNat + 2) % 256) := by
  have hplace : ∀ count : UInt8, (Stack.address (machine.registers.s + count)).toNat
      = 0x0100 + (machine.registers.s.toNat + count.toNat) % 256 := by
    intro count
    rw [Stack.toNat_address, UInt8.toNat_add]
  have hlow : machine.stack.cell 0
      = machine.memory.read (Stack.address (machine.registers.s + 1)) := Stack.cell_zero _
  have hhigh : machine.stack.cell 1
      = machine.memory.read (Stack.address (machine.registers.s + 2)) :=
    congrArg (fun pointer => machine.memory.read (Stack.address pointer))
      (UInt8.add_assoc machine.registers.s 1 1)
  rw [(perform_of_rts hm hopen).1, hlow, hhigh]
  show (machine.memory.readWord _ _).toNat = _
  rw [Memory.toNat_readWord, hplace, hplace]
  rfl

/-- With no call open, a return goes on right after itself. -/
theorem pc_of_last_rts {machine : Machine} {e : Encoding} (hm : e.mnemonic = .rts)
    (hnone : machine.callDepth = 0) :
    (machine.perform e).registers.pc = machine.registers.pc + UInt16.ofNat e.size := by
  have hdepth : (advance machine e.size).callDepth = 0 := hnone
  have hret : machine.perform e = (advance machine e.size).ret := perform_of_implied hm rfl
  rw [hret, ret_eq, if_pos hdepth]
  rfl

/-! ## §4. A step. -/

/-- **Where a step goes on.**  Wherever the window ends, a step that succeeds goes on at the next
instruction, unless it executes a branch that is taken, a jump, a call, or a return for which a
call is open; then it goes on where the offset, the operand, the pointer or the stack says.  In
a window that ends in memory, the next instruction has a number without going round. -/
theorem next_pc {machine next : Machine} (h : step machine = .ok () next) :
    let pc := machine.registers.pc.toNat
    let s := machine.registers.s.toNat
    let offset := signed [machine.memory.read (machine.registers.pc + 1)]
    let wordAt := machine.memory.wordAt
    let operand := wordAt ((pc + 1) % 65536) ((pc + 2) % 65536)
    ∃ e, machine.instruction? = some e
      ∧ (e.mnemonic ∉ Mnemonic.branches → e.mnemonic ∉ [.jmp, .jsr, .rts] →
          next.registers.pc.toNat = (pc + e.size) % 65536)
      ∧ (e.mnemonic ∈ Mnemonic.branches → ∃ taken,
          e.mnemonic.taken? machine.registers.p = some taken
          ∧ next.registers.pc.toNat
            = if taken then (((pc + 2 : Nat) + offset) % 65536).toNat else (pc + 2) % 65536)
      ∧ (e.mnemonic = .jmp → e.mode = .absolute ∨ e.mode = .indirect)
      ∧ (e.mnemonic = .jmp ∧ e.mode = .absolute ∨ e.mnemonic = .jsr →
          next.registers.pc.toNat = operand)
      ∧ (e.mnemonic = .jmp ∧ e.mode = .indirect →
          next.registers.pc.toNat = wordAt operand ((operand + 1) % 65536))
      ∧ (e.mnemonic = .rts → next.registers.pc.toNat
          = if 0 < machine.callDepth then
              wordAt (0x0100 + (s + 1) % 256) (0x0100 + (s + 2) % 256)
            else (pc + 1) % 65536)
      ∧ (machine.window.limit ≤ 0xFFFF → pc + e.size ≤ machine.window.limit) := by
  intro pc s offset wordAt operand
  obtain ⟨e, hinstr, hreach, rfl⟩ := step_eq_ok_iff.mp h
  refine ⟨e, hinstr, ?next, toNat_pc_of_branch hinstr, Encoding.mode_of_jmp hinstr, ?absolute,
    ?indirect, ?ret, ?window⟩
  case next =>
    intro hbranch hjump
    rw [pc_perform (Mnemonic.jumps_eq_false hbranch hjump), toNat_pc_add]
  case absolute =>
    intro hjump
    have hmode : e.mode = .absolute := hjump.elim And.right (Encoding.mode_of_jsr hinstr)
    have hop : e.mnemonic.operation = .targeting .jump
        ∨ e.mnemonic.operation = .targeting .call :=
      hjump.imp (fun hjmp => congrArg Mnemonic.operation hjmp.1) (congrArg Mnemonic.operation)
    rw [pc_perform_of_jump hop, hmode, toNat_target_absolute]
  case indirect =>
    rintro ⟨hjmp, hmode⟩
    rw [pc_perform_of_jump (.inl (congrArg Mnemonic.operation hjmp)), hmode,
      toNat_target_indirect, toNat_target_absolute]
  case ret =>
    intro hrts
    by_cases hopen : machine.callDepth = 0
    · rw [if_neg (Nat.not_lt_of_le (Nat.le_of_eq hopen)), pc_of_last_rts hrts hopen,
        Encoding.size_of_rts hinstr hrts, toNat_pc_add]
    · rw [if_pos (Nat.pos_of_ne_zero hopen), toNat_pc_of_rts hrts hopen]
  case window =>
    intro bound
    exact (inReach_iff_of_le bound e.size_pos).mp hreach

/-- A call with the stack pointer at the bottom of its page, so that the two bytes of the way back
lie at both ends of the page. -/
def callRoundPage : Machine :=
  (new.loadProgram [0x20, 0x04, 0x03, 0xEA, 0x60] 0x0300).2.update { s := some 0x00 }

theorem next_pc_callRoundPage :
    ∃ called returned, step callRoundPage = .ok () called
      ∧ called.registers.pc.toNat = 0x0304
      ∧ step called = .ok () returned
      ∧ returned.registers.pc.toNat = 0x0303 := by
  have hjsr : callRoundPage.instruction? = some ⟨.jsr, .absolute⟩ := by decide +kernel
  have hcall := step_of_complete hjsr (by decide +kernel)
  have hrts : (callRoundPage.perform ⟨.jsr, .absolute⟩).instruction?
      = some ⟨.rts, .implicit⟩ := by decide +kernel
  have hreturn := step_of_complete hrts (by decide +kernel)
  obtain ⟨e, he, -, -, -, hcalled, -⟩ := next_pc hcall
  obtain rfl : e = ⟨.jsr, .absolute⟩ := Option.some.inj (he.symm.trans hjsr)
  obtain ⟨e, he, -, -, -, -, -, hreturned, -⟩ := next_pc hreturn
  obtain rfl : e = ⟨.rts, .implicit⟩ := Option.some.inj (he.symm.trans hrts)
  exact ⟨_, _, hcall, (hcalled (.inr rfl)).trans (by decide +kernel), hreturn,
    (hreturned rfl).trans (by decide +kernel)⟩

end Machine

end Mos6502
