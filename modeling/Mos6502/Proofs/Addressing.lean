/-
  Mos6502.Proofs.Addressing — one instruction in all its addressing modes

  What an instruction does is settled by its mnemonic and by the address that its operand
  leads to; the mode decides how that address is found and how long the instruction is,
  and nothing else.  An immediate operand counts as the byte at any address that holds
  the same byte, its own place behind the opcode among them.  So an instruction is its
  operation applied at an address, followed by a move of the program counter over its
  own bytes, and two instructions with the same mnemonic and the same address come out
  alike from the same machine.

  Main statements:
    * `operand_eq_designated` — the value of an operand, from the state before the step
    * `applyAt_goto`          — an operation does the same wherever the program counter stands
    * `step_of_resolves`      — a step is an operation at an address, and a move
    * `addressing_irrelevant` — two addressing modes of one instruction, side by side
-/
import Mos6502.Proofs.Footprint
import Mos6502.Proofs.NextPc

namespace Mos6502

namespace Machine

open ByteStream

/-! ## §1. What stands at the program counter. -/

/-- The machine stands at an instruction all of whose bytes are inside the window. -/
structure StandsAt (machine : Machine) (e : Encoding) : Prop where
  instruction : machine.instruction? = some e
  complete : InReach machine e.size

instance (machine : Machine) (e : Encoding) : Decidable (StandsAt machine e) :=
  decidable_of_iff (machine.instruction? = some e ∧ InReach machine e.size)
    ⟨fun ⟨instruction, complete⟩ => ⟨instruction, complete⟩,
      fun h => ⟨h.instruction, h.complete⟩⟩

theorem StandsAt.step_eq {machine : Machine} {e : Encoding} (h : machine.StandsAt e) :
    step machine = .ok () (machine.perform e) :=
  step_of_complete h.instruction h.complete

theorem StandsAt.of_step {machine next : Machine} (h : step machine = .ok () next) :
    ∃ e, machine.StandsAt e ∧ next = machine.perform e := by
  obtain ⟨e, hinstr, hreach, hnext⟩ := step_eq_ok_iff.mp h
  exact ⟨e, ⟨hinstr, hreach⟩, hnext⟩

/-- The byte that the operand designates, from the bytes after the opcode, the registers and the
memory as they are: the byte right after the opcode in the immediate mode, and the one at the
effective address in the others. -/
def designated (machine : Machine) (mode : AddressingMode) : UInt8 :=
  match mode with
  | .immediate => machine.memory.read (machine.registers.pc + 1)
  | mode => machine.memory.read (machine.effective mode)

/-- Fetching the operand on the way to its value makes no difference. -/
theorem operand_eq_designated (machine : Machine) (mode : AddressingMode) :
    machine.operand mode = machine.designated mode := by
  cases mode with
  | immediate => rfl
  | _ => exact congrArg machine.memory.read (machine.target_eq_effective _)

/-- The operand leads to an address.  An immediate operand leads wherever the same byte is. -/
def Resolves (machine : Machine) (mode : AddressingMode) (address : UInt16) : Prop :=
  mode = .immediate
      ∧ machine.memory.read address = machine.memory.read (machine.registers.pc + 1)
    ∨ mode.locate.isSome ∧ machine.effective mode = address

instance (machine : Machine) (mode : AddressingMode) (address : UInt16) :
    Decidable (machine.Resolves mode address) :=
  inferInstanceAs (Decidable (_ ∨ _))

section Resolves

variable {machine : Machine} {mode : AddressingMode} {address : UInt16}

theorem Resolves.designated_eq (h : machine.Resolves mode address) :
    machine.designated mode = machine.memory.read address := by
  rcases h with ⟨rfl, hbyte⟩ | ⟨hlocate, rfl⟩
  · exact hbyte.symm
  · cases mode with
    | immediate => cases hlocate
    | _ => rfl

theorem Resolves.effective_eq (h : machine.Resolves mode address) (himm : mode ≠ .immediate) :
    machine.effective mode = address :=
  (h.resolve_left fun himmediate => himm himmediate.1).2

/-- A mode that leads to an address has operand bytes. -/
theorem Resolves.operandLength_pos (h : machine.Resolves mode address) :
    0 < mode.operandLength := by
  rcases h with ⟨rfl, -⟩ | ⟨hlocate, -⟩
  · decide
  · revert hlocate
    cases mode <;> decide

theorem Resolves.ne_accumulator (h : machine.Resolves mode address) : mode ≠ .accumulator := by
  rintro rfl
  exact absurd h.operandLength_pos (by decide)

end Resolves

end Machine

/-! ## §2. Operations at an address. -/

/-- What an operation does when its operand is the byte at an address, wherever that address
comes from. -/
def Operation.applyAt (operation : Operation) (address : UInt16) (machine : Machine) : Machine :=
  match operation with
  | .implied action => action.apply machine
  | .reading action => machine.onRegisters (action.apply (machine.memory.read address))
  | .shifting change | .changing change => machine.changeAt change address
  | .targeting action => action.apply address machine

theorem Implied.apply_goto {action : Implied} (h : (Operation.implied action).jumps = false)
    (machine : Machine) (pc : UInt16) :
    action.apply (machine.goto pc) = (action.apply machine).goto pc := by
  cases action with
  | transfer source target => cases source <;> cases target <;> rfl
  | alter register change => cases register <;> rfl
  | ret => cases h
  | _ => rfl

/-- An operation that does not jump does the same wherever the program counter stands. -/
theorem Operation.applyAt_goto {operation : Operation} (h : operation.jumps = false)
    (address : UInt16) (machine : Machine) (pc : UInt16) :
    operation.applyAt address (machine.goto pc) = (operation.applyAt address machine).goto pc := by
  cases operation with
  | implied action => exact Implied.apply_goto h machine pc
  | reading action =>
    exact congrArg (fun registers => { machine with registers })
      (action.apply_withPc (machine.memory.read address) machine.registers pc)
  | shifting change => rfl
  | changing change => rfl
  | targeting action =>
    cases action with
    | store register => cases register <;> rfl
    | _ => cases h

/-- Only an operation that reads its operand can find it behind the opcode. -/
theorem Encoding.ne_immediate_of_proper (e : Encoding) (proper : e.proper = true)
    (h : ∀ action, e.mnemonic.operation ≠ .reading action) : e.mode ≠ .immediate := by
  intro himm
  unfold Encoding.proper at proper
  cases hop : e.mnemonic.operation with
  | reading action => exact h action hop
  | _ =>
    rw [hop, himm] at proper
    cases proper

namespace Machine

open ByteStream

section Resolved

variable {machine : Machine} {e : Encoding} {address : UInt16}

/-- An instruction does what its operation does at the address that its operand leads to. -/
theorem perform_eq_applyAt (proper : e.proper = true)
    (resolves : machine.Resolves e.mode address) :
    machine.perform e = e.mnemonic.operation.applyAt address (advance machine e.size) := by
  cases hop : e.mnemonic.operation with
  | implied action => exact perform_of_implied rfl hop
  | reading action =>
    rw [perform_of_reading rfl hop, operand_eq_designated, resolves.designated_eq]
    rfl
  | shifting change =>
    have himm := e.ne_immediate_of_proper proper (hop ▸ nofun)
    rw [perform_of_shifting rfl hop resolves.ne_accumulator, target_eq_effective,
      resolves.effective_eq himm]
    rfl
  | changing change =>
    have himm := e.ne_immediate_of_proper proper (hop ▸ nofun)
    rw [perform_of_changing rfl hop, target_eq_effective, resolves.effective_eq himm]
    rfl
  | targeting action =>
    have himm := e.ne_immediate_of_proper proper (hop ▸ nofun)
    rw [perform_of_targeting rfl hop, target_eq_effective, resolves.effective_eq himm]
    rfl

/-- **A step by its address.**  An instruction that does not jump applies its operation at the
address that its operand leads to and goes on behind its own bytes. -/
theorem step_of_resolves (stands : machine.StandsAt e)
    (goesOn : e.mnemonic.operation.jumps = false)
    (resolves : machine.Resolves e.mode address) :
    step machine
      = .ok () ((e.mnemonic.operation.applyAt address machine).goto
          (machine.registers.pc + UInt16.ofNat e.size)) := by
  rw [stands.step_eq, perform_eq_applyAt (proper_of_encoding stands.instruction) resolves]
  exact congrArg (EStateM.Result.ok ()) (Operation.applyAt_goto goesOn address machine _)

/-- A return has no operand that could lead anywhere. -/
theorem jumps_eq_false_of_resolves (instruction : machine.instruction? = some e)
    (resolves : machine.Resolves e.mode address) (branch : e.mnemonic ∉ Mnemonic.branches)
    (jump : e.mnemonic ∉ [.jmp, .jsr]) : e.mnemonic.operation.jumps = false := by
  apply Mnemonic.jumps_eq_false branch
  have hrts : e.mnemonic ≠ .rts := by
    intro hrts
    have hsize : 1 + e.mode.operandLength = 1 := Encoding.size_of_rts instruction hrts
    have hpos := resolves.operandLength_pos
    omega
  simp only [List.mem_cons, List.not_mem_nil, or_false, not_or] at jump ⊢
  exact ⟨jump.1, jump.2, hrts⟩

end Resolved

/-! ## §3. Two modes side by side. -/

/-- **How an operand is addressed makes no difference.**  Put the program counter of one machine
at two complete instructions with the same mnemonic, which is no branch, JMP or JSR.  If both
lead to the same address, both steps succeed and leave the same machine but for the program
counter, which each moves over its own bytes. -/
theorem addressing_irrelevant {machine : Machine} {p q address : UInt16} {e f : Encoding}
    (atP : (machine.goto p).StandsAt e) (atQ : (machine.goto q).StandsAt f)
    (same : e.mnemonic = f.mnemonic) (branch : e.mnemonic ∉ Mnemonic.branches)
    (jump : e.mnemonic ∉ [.jmp, .jsr])
    (resolvesP : (machine.goto p).Resolves e.mode address)
    (resolvesQ : (machine.goto q).Resolves f.mode address) :
    ∃ after : Machine,
      step (machine.goto p) = .ok () (after.goto (p + UInt16.ofNat e.size))
      ∧ step (machine.goto q) = .ok () (after.goto (q + UInt16.ofNat f.size))
      ∧ (machine.window.limit ≤ 0xFFFF →
          (p + UInt16.ofNat e.size).toNat = p.toNat + e.size
          ∧ (q + UInt16.ofNat f.size).toNat = q.toNat + f.size) := by
  have hjumps := jumps_eq_false_of_resolves atP.instruction resolvesP branch jump
  have hjumps' : f.mnemonic.operation.jumps = false := by rw [← same, hjumps]
  have hstepP := step_of_resolves atP hjumps resolvesP
  have hstepQ := step_of_resolves atQ hjumps' resolvesQ
  -- Both steps are one operation at one address; where they were fetched from can be left out.
  rw [Operation.applyAt_goto hjumps] at hstepP
  rw [← same, Operation.applyAt_goto hjumps] at hstepQ
  refine ⟨e.mnemonic.operation.applyAt address machine, hstepP, hstepQ, ?_⟩
  intro bound
  exact ⟨toNat_cursor_advance atP.complete bound, toNat_cursor_advance atQ.complete bound⟩

/-- Two additions of the same byte: the immediate operand of the first, at 0x0201, is what the
absolute operand of the second points at. -/
def sharedOperand : Machine :=
  (new.loadProgram [0x69, 0x7F, 0x6D, 0x01, 0x02] 0x0200).2.update { a := some 0x01 }

theorem addressing_irrelevant_sharedOperand :
    ∃ after : Machine,
      step (sharedOperand.goto 0x0200) = .ok () (after.goto 0x0202)
      ∧ step (sharedOperand.goto 0x0202) = .ok () (after.goto 0x0205) := by
  have hfirst : (sharedOperand.goto 0x0200).StandsAt ⟨.adc, .immediate⟩ := by decide +kernel
  have hsecond : (sharedOperand.goto 0x0202).StandsAt ⟨.adc, .absolute⟩ := by decide +kernel
  have hresolves : (sharedOperand.goto 0x0200).Resolves .immediate 0x0201 := by decide +kernel
  have hresolves' : (sharedOperand.goto 0x0202).Resolves .absolute 0x0201 := by decide +kernel
  obtain ⟨after, hstep, hstep', -⟩ := addressing_irrelevant hfirst hsecond rfl (by decide)
    (by decide) hresolves hresolves'
  exact ⟨after, hstep, hstep'⟩

end Machine

end Mos6502
