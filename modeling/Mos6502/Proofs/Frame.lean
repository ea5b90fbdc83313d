/-
  Mos6502.Proofs.Frame — what an instruction leaves alone

  For each kind of operation it is said which byte registers it may change, and
  for each instruction where it may write to memory; everything else is as it was.
  The accounts are tables on the syntax of operations, so that a statement about a
  mnemonic is a look into a table.

  Main statements:
    * `get_perform`        — the byte registers that an instruction keeps
    * `read_perform`       — the bytes of memory that it keeps
    * `callDepth_perform`, `returned_perform` — only calls and returns touch the count of
                             open calls, and only returns end execution
    * `window_perform`     — no instruction moves the window
    * `pc_perform`         — what does not jump goes on to the next instruction
-/
import Mos6502.Proofs.Stepping

namespace Mos6502

/-! ## §1. Byte registers. -/

/-- Whether a reading may change a register. -/
def Reading.alters (action : Reading) (register : Register) : Bool :=
  match action with
  | .load target => target == register
  | .add | .subtract | .conjoin | .disjoin | .toggle => register == .a
  | .test | .compare _ => false

/-- Whether an operation without an operand may change a register. -/
def Implied.alters (action : Implied) (register : Register) : Bool :=
  match action with
  | .transfer _ target => target == register
  | .alter altered _ => altered == register
  | .pullAccumulator => register == .a || register == .s
  | .pushAccumulator | .pushStatus | .pullStatus | .ret => register == .s
  | .assign _ _ | .idle => false

/-- Whether an operation on an address may change a register. -/
def Targeting.alters (action : Targeting) (register : Register) : Bool :=
  match action with
  | .call => register == .s
  | .store _ | .branch _ _ | .jump => false

/-- Whether an operation may change a register, when its operand is found in a mode. -/
def Operation.alters (operation : Operation) (mode : AddressingMode) (register : Register) :
    Bool :=
  match operation with
  | .implied action => action.alters register
  | .reading action => action.alters register
  | .shifting _ => register == .a && mode == .accumulator
  | .changing _ => false
  | .targeting action => action.alters register

theorem Registers.get_set_of_ne (registers : Registers) {target register : Register}
    (h : target ≠ register) (value : UInt8) :
    (registers.set target value).get register = registers.get register := by
  rw [Registers.get_set, if_neg h]

theorem Registers.get_setResult_of_ne (registers : Registers) {target register : Register}
    (h : target ≠ register) (value : UInt8) :
    (registers.setResult target value).get register = registers.get register := by
  rw [← Registers.get_set_of_ne registers h value]
  cases register <;> rfl

theorem Registers.get_change_of_ne (registers : Registers) {target register : Register}
    (h : target ≠ register) (change : Change) :
    (registers.change target change).get register = registers.get register := by
  rw [← Registers.get_set_of_ne registers h
    (change.outcome (registers.get target) registers.p).1]
  cases register <;> rfl

theorem Registers.get_transfer_of_ne (registers : Registers) (source : Register)
    {target register : Register} (h : target ≠ register) :
    (registers.transfer source target).get register = registers.get register := by
  cases target with
  | s => exact Registers.get_set_of_ne registers h _
  | a => exact Registers.get_setResult_of_ne registers h _
  | x => exact Registers.get_setResult_of_ne registers h _
  | y => exact Registers.get_setResult_of_ne registers h _

theorem Reading.get_apply {action : Reading} {register : Register}
    (h : action.alters register = false) (value : UInt8) (registers : Registers) :
    (action.apply value registers).get register = registers.get register := by
  cases action with
  | load target => exact Registers.get_setResult_of_ne registers (beq_eq_false_iff_ne.mp h) value
  | add =>
    show (if registers.p.decimal then _ else _ : Registers).get register = _
    cases register with
    | a => cases h
    | _ => split <;> rfl
  | subtract =>
    show (if registers.p.decimal then _ else _ : Registers).get register = _
    cases register with
    | a => cases h
    | _ => split <;> rfl
  | conjoin => exact Registers.get_setResult_of_ne registers (Ne.symm (beq_eq_false_iff_ne.mp h)) _
  | disjoin => exact Registers.get_setResult_of_ne registers (Ne.symm (beq_eq_false_iff_ne.mp h)) _
  | toggle => exact Registers.get_setResult_of_ne registers (Ne.symm (beq_eq_false_iff_ne.mp h)) _
  | test => cases register <;> rfl
  | compare _ => cases register <;> rfl

/-- A return as one choice between the two states it can lead to. -/
theorem Machine.ret_eq (machine : Machine) :
    machine.ret
      = if machine.callDepth = 0 then
          { machine.pop.2.pop.2 with returned := true }
        else
          { machine.pop.2.pop.2 with
            registers.pc := word machine.pop.1 machine.pop.2.pop.1
            callDepth := machine.callDepth - 1 } := rfl

theorem Implied.get_apply {action : Implied} {register : Register}
    (h : action.alters register = false) (machine : Machine) :
    (action.apply machine).registers.get register = machine.registers.get register := by
  cases action with
  | transfer source target =>
    exact Registers.get_transfer_of_ne machine.registers source (beq_eq_false_iff_ne.mp h)
  | alter altered change =>
    exact Registers.get_change_of_ne machine.registers (beq_eq_false_iff_ne.mp h) change
  | assign flag value => cases register <;> rfl
  | ret =>
    show machine.ret.registers.get register = _
    rw [Machine.ret_eq]
    cases register with
    | s => cases h
    | _ => split <;> rfl
  | _ => cases register <;> first | rfl | cases h

theorem Targeting.get_apply {action : Targeting} {register : Register}
    (h : action.alters register = false) (address : UInt16) (machine : Machine) :
    (action.apply address machine).registers.get register = machine.registers.get register := by
  cases action with
  | branch flag value =>
    show (if machine.registers.p.test flag = value then _ else _ : Machine).registers.get register
      = _
    split
    · cases register <;> rfl
    · rfl
  | _ => cases register <;> first | rfl | cases h

namespace Machine

open ByteStream

theorem get_perform {machine : Machine} {e : Encoding} {register : Register}
    (h : e.mnemonic.operation.alters e.mode register = false) :
    (machine.perform e).registers.get register = machine.registers.get register := by
  have hnext : (advance machine e.size).registers.get register
      = machine.registers.get register := by cases register <;> rfl
  unfold Operation.alters at h
  unfold perform
  cases hop : e.mnemonic.operation with
  | implied action =>
    rw [hop] at h
    exact (Implied.get_apply h _).trans hnext
  | reading action =>
    rw [hop] at h
    exact (Reading.get_apply h _ _).trans hnext
  | targeting action =>
    rw [hop] at h
    exact (Targeting.get_apply h _ _).trans hnext
  | shifting change =>
    rw [hop] at h
    rw [← hnext]
    cases hmode : e.mode with
    | accumulator =>
      rw [hmode] at h
      exact Registers.get_change_of_ne _ (by rintro rfl; cases h) change
    | _ =>
      -- in memory, of the registers only the status changes
      cases register <;> rfl
  | changing change => cases register <;> rfl

end Machine

/-! ## §2. Memory. -/

/-- Whether an operation pushes bytes. -/
def Operation.pushes : Operation → Bool
  | .implied .pushAccumulator | .implied .pushStatus | .targeting .call => true
  | _ => false

/-- Whether an operation pulls bytes. -/
def Operation.pulls : Operation → Bool
  | .implied .pullAccumulator | .implied .pullStatus | .implied .ret => true
  | _ => false

theorem Implied.read_apply {action : Implied} (h : (Operation.implied action).pushes = false)
    (machine : Machine) (address : UInt16) :
    (action.apply machine).memory.read address = machine.memory.read address := by
  cases action with
  | ret =>
    show machine.ret.memory.read address = _
    rw [Machine.ret_eq]
    split <;> rfl
  | pushAccumulator => cases h
  | pushStatus => cases h
  | _ => rfl

namespace Machine

open ByteStream

/-- The address that an instruction writes to, apart from what it pushes. -/
def written? (machine : Machine) (e : Encoding) : Option UInt16 :=
  match e.mnemonic.operation with
  | .shifting _ => if e.mode = .accumulator then none else some (machine.target e.mode)
  | .changing _ | .targeting (.store _) => some (machine.target e.mode)
  | _ => none

theorem read_perform {machine : Machine} {e : Encoding} {address : UInt16}
    (hpush : e.mnemonic.operation.pushes = false) (hwrite : machine.written? e ≠ some address) :
    (machine.perform e).memory.read address = machine.memory.read address := by
  unfold written? at hwrite
  unfold perform
  cases hop : e.mnemonic.operation with
  | implied action =>
    rw [hop] at hpush
    exact Implied.read_apply hpush _ address
  | reading action => rfl
  | shifting change =>
    rw [hop] at hwrite
    cases hmode : e.mode with
    | accumulator => rfl
    | _ =>
      rw [hmode] at hwrite
      exact Memory.read_write_of_ne _ _ fun heq => hwrite (congrArg some heq)
  | changing change =>
    rw [hop] at hwrite
    exact Memory.read_write_of_ne _ _ fun heq => hwrite (congrArg some heq)
  | targeting action =>
    rw [hop] at hpush hwrite
    cases action with
    | store register =>
      exact Memory.read_write_of_ne _ _ fun heq => hwrite (congrArg some heq)
    | branch flag value =>
      show (if _ then _ else _ : Machine).memory.read address = _
      split <;> rfl
    | jump => rfl
    | call => cases hpush

/-! ## §3. Open calls. -/

/-- Only calls and returns touch the count of open calls. -/
theorem callDepth_perform {machine : Machine} {e : Encoding}
    (hcall : e.mnemonic.operation ≠ .targeting .call)
    (hret : e.mnemonic.operation ≠ .implied .ret) :
    (machine.perform e).callDepth = machine.callDepth := by
  unfold perform
  cases hop : e.mnemonic.operation with
  | implied action =>
    cases action with
    | ret => exact absurd hop hret
    | _ => rfl
  | reading action => rfl
  | shifting change => cases e.mode <;> rfl
  | changing change => rfl
  | targeting action =>
    cases action with
    | branch flag value =>
      show (if _ then _ else _ : Machine).callDepth = _
      split <;> rfl
    | call => exact absurd hop hcall
    | _ => rfl

/-- Only returns end execution. -/
theorem returned_perform {machine : Machine} {e : Encoding}
    (h : e.mnemonic.operation ≠ .implied .ret) :
    (machine.perform e).returned = machine.returned := by
  unfold perform
  cases hop : e.mnemonic.operation with
  | implied action =>
    cases action with
    | ret => exact absurd hop h
    | _ => rfl
  | reading action => rfl
  | shifting change => cases e.mode <;> rfl
  | changing change => rfl
  | targeting action =>
    cases action with
    | branch flag value =>
      show (if _ then _ else _ : Machine).returned = _
      split <;> rfl
    | _ => rfl

/-! ## §4. Window and program counter. -/

/-- No instruction moves the window. -/
theorem window_perform (machine : Machine) (e : Encoding) :
    (machine.perform e).window = machine.window := by
  unfold perform
  cases e.mnemonic.operation with
  | implied action =>
    cases action with
    | ret =>
      show (Machine.ret _).window = _
      rw [ret_eq]
      split <;> rfl
    | _ => rfl
  | reading action => rfl
  | shifting change => cases e.mode <;> rfl
  | changing change => rfl
  | targeting action =>
    cases action with
    | branch flag value =>
      show (if _ then _ else _ : Machine).window = _
      split <;> rfl
    | _ => rfl

end Machine

/-- Whether an operation may go on elsewhere than at the next instruction. -/
def Operation.jumps : Operation → Bool
  | .targeting (.branch _ _) | .targeting .jump | .targeting .call | .implied .ret => true
  | _ => false

theorem Registers.pc_setResult (registers : Registers) (register : Register) (value : UInt8) :
    (registers.setResult register value).pc = registers.pc := by
  cases register <;> rfl

theorem Registers.pc_transfer (registers : Registers) (source target : Register) :
    (registers.transfer source target).pc = registers.pc := by
  cases target <;> rfl

theorem Registers.pc_change (registers : Registers) (register : Register) (change : Change) :
    (registers.change register change).pc = registers.pc := by
  cases register <;> rfl

theorem Reading.pc_apply (action : Reading) (value : UInt8) (registers : Registers) :
    (action.apply value registers).pc = registers.pc := by
  cases action with
  | load register => exact Registers.pc_setResult registers register value
  | add =>
    show (if registers.p.decimal then _ else _ : Registers).pc = _
    split <;> rfl
  | subtract =>
    show (if registers.p.decimal then _ else _ : Registers).pc = _
    split <;> rfl
  | _ => rfl

/-- A reading does the same wherever the program counter stands. -/
theorem Reading.apply_withPc (action : Reading) (value : UInt8) (registers : Registers)
    (address : UInt16) :
    action.apply value { registers with pc := address }
      = { action.apply value registers with pc := address } := by
  cases action with
  | load register => cases register <;> rfl
  | add =>
    show (if registers.p.decimal then _ else _ : Registers)
      = { (if registers.p.decimal then _ else _ : Registers) with pc := address }
    split <;> rfl
  | subtract =>
    show (if registers.p.decimal then _ else _ : Registers)
      = { (if registers.p.decimal then _ else _ : Registers) with pc := address }
    split <;> rfl
  | compare register => cases register <;> rfl
  | _ => rfl

theorem Implied.pc_apply {action : Implied} (h : (Operation.implied action).jumps = false)
    (machine : Machine) : (action.apply machine).registers.pc = machine.registers.pc := by
  cases action with
  | transfer source target => exact Registers.pc_transfer machine.registers source target
  | alter register change => exact Registers.pc_change machine.registers register change
  | ret => cases h
  | _ => rfl

/-- An instruction that does not jump is followed by the next one. -/
theorem Machine.pc_perform {machine : Machine} {e : Encoding}
    (h : e.mnemonic.operation.jumps = false) :
    (machine.perform e).registers.pc = machine.registers.pc + UInt16.ofNat e.size := by
  unfold perform
  cases hop : e.mnemonic.operation with
  | implied action =>
    rw [hop] at h
    exact Implied.pc_apply h _
  | reading action => exact Reading.pc_apply action _ _
  | shifting change =>
    cases e.mode with
    | accumulator => exact Registers.pc_change _ .a change
    | _ => rfl
  | changing change => rfl
  | targeting action =>
    rw [hop] at h
    cases action with
    | store register => rfl
    | _ => cases h

/-- A branch goes to its target if the flag has the value it asks for, and on otherwise. -/
theorem Machine.pc_perform_of_branch {machine : Machine} {e : Encoding} {flag : Flag}
    {value : Bool} (h : e.mnemonic.operation = .targeting (.branch flag value)) :
    (machine.perform e).registers.pc
      = if machine.registers.p.test flag = value then machine.target e.mode
        else machine.registers.pc + UInt16.ofNat e.size := by
  unfold perform
  rw [h]
  show (if machine.registers.p.test flag = value then _ else _ : Machine).registers.pc = _
  split <;> rfl

/-- Jumps and calls always go to their target. -/
theorem Machine.pc_perform_of_jump {machine : Machine} {e : Encoding}
    (h : e.mnemonic.operation = .targeting .jump ∨ e.mnemonic.operation = .targeting .call) :
    (machine.perform e).registers.pc = machine.target e.mode := by
  unfold perform
  rcases h with hjump | hcall
  · rw [hjump]
    rfl
  · rw [hcall]
    rfl

/-! ## §5. Mnemonics. -/

theorem Mnemonic.pushes_iff {mnemonic : Mnemonic} :
    mnemonic.operation.pushes = true ↔ mnemonic = .jsr ∨ mnemonic = .pha ∨ mnemonic = .php := by
  cases mnemonic <;> decide

theorem Mnemonic.pulls_iff {mnemonic : Mnemonic} :
    mnemonic.operation.pulls = true ↔ mnemonic = .rts ∨ mnemonic = .pla ∨ mnemonic = .plp := by
  cases mnemonic <;> decide

theorem Mnemonic.operation_eq_call_iff {mnemonic : Mnemonic} :
    mnemonic.operation = .targeting .call ↔ mnemonic = .jsr := by
  cases mnemonic <;> decide

theorem Mnemonic.operation_eq_ret_iff {mnemonic : Mnemonic} :
    mnemonic.operation = .implied .ret ↔ mnemonic = .rts := by
  cases mnemonic <;> decide

/-- Besides pushing and pulling, only TXS moves the stack pointer. -/
theorem Mnemonic.alters_s (mnemonic : Mnemonic) (mode : AddressingMode) :
    mnemonic.operation.alters mode .s
      = (mnemonic.operation.pushes || mnemonic.operation.pulls || mnemonic == .txs) := by
  cases mnemonic <;> rfl

end Mos6502
