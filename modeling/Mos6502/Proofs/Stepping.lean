/-
  Mos6502.Proofs.Stepping — a step as one equation

  A step fetches and then acts.  Here the two are taken apart: `perform` is what a
  complete instruction does, without any fetching, and a step is `perform` if the
  instruction lies in the window and a fault at a known place otherwise.  All that
  is proved about steps starts from these equations, and nothing further unfolds
  the step itself.

  Main statements:
    * `proper_of_encoding`        — the matrix pairs operations with modes that suit them
    * `execute_of_locate_eq_none` — an operation that wants an address, in a mode without one
    * `step_of_instruction`       — a step at a documented opcode
    * `step_eq_ok_iff`, `step_error_cases` — how steps succeed and how they fail
    * `run_error`                 — a run fails only in one of its steps
-/
import Mos6502.Machine.Step
import Mos6502.Proofs.Fetching

namespace Mos6502

/-! ## §1. Instructions as the matrix pairs them. -/

/-- Whether the mode leads to an operand of the kind that the operation works on. -/
def Encoding.proper (e : Encoding) : Bool :=
  match e.mnemonic.operation with
  | .implied _ => e.mode.operandLength == 0
  | .reading _ => e.mode == .immediate || e.mode.locate.isSome
  | .shifting _ => e.mode == .accumulator || e.mode.locate.isSome
  | .changing _ | .targeting _ => e.mode.locate.isSome

/-- What holds of every entry of the matrix holds of every documented instruction. -/
theorem of_encoding {P : Encoding → Prop}
    (entries : ∀ n : Fin 256, ∀ e ∈ Opcode.encoding (UInt8.ofFin n), P e) {opcode : UInt8}
    {e : Encoding} (h : Opcode.encoding opcode = some e) : P e :=
  entries opcode.toFin e h

theorem proper_of_encoding {opcode : UInt8} {e : Encoding}
    (h : Opcode.encoding opcode = some e) : e.proper = true :=
  of_encoding (P := fun e => e.proper = true) (by decide +kernel) h

theorem Encoding.size_pos (e : Encoding) : 0 < e.size := by
  unfold Encoding.size
  omega

theorem Opcode.size_of_encoding {opcode : UInt8} {e : Encoding}
    (h : Opcode.encoding opcode = some e) : Opcode.size opcode = e.size := by
  unfold Opcode.size
  rw [h]

theorem Opcode.mode_of_encoding {opcode : UInt8} {e : Encoding}
    (h : Opcode.encoding opcode = some e) : Opcode.mode opcode = e.mode := by
  unfold Opcode.mode
  rw [h]

theorem Opcode.name_of_encoding {opcode : UInt8} {e : Encoding}
    (h : Opcode.encoding opcode = some e) : Opcode.name opcode = e.mnemonic.name := by
  unfold Opcode.name
  rw [h]

namespace Machine

open ByteStream

/-! ## §2. What an instruction does. -/

/-- The instruction at the program counter, if the opcode there stands for one. -/
def instruction? (machine : Machine) : Option Encoding :=
  Opcode.encoding (machine.memory.read machine.registers.pc)

/-- The mnemonic of that instruction. -/
def mnemonic? (machine : Machine) : Option Mnemonic := machine.instruction?.map Encoding.mnemonic

theorem mnemonic?_of_instruction {machine : Machine} {e : Encoding}
    (h : machine.instruction? = some e) : machine.mnemonic? = some e.mnemonic := by
  unfold mnemonic?
  rw [h]
  rfl

/-- The address that the operand of the instruction at the program counter leads to. -/
def target (machine : Machine) (mode : AddressingMode) : UInt16 :=
  (advance machine 1).operandAddress mode

/-- The value that the operand of the instruction at the program counter stands for. -/
def operand (machine : Machine) (mode : AddressingMode) : UInt8 :=
  (advance machine 1).operandValue mode

/-- What an instruction does when all its bytes are there. -/
def perform (machine : Machine) (e : Encoding) : Machine :=
  let next := advance machine e.size
  match e.mnemonic.operation with
  | .implied action => action.apply next
  | .reading action => next.onRegisters (action.apply (machine.operand e.mode))
  | .shifting change =>
    match e.mode with
    | .accumulator => next.onRegisters (·.change .a change)
    | mode => changeAt change (machine.target mode) next
  | .changing change => changeAt change (machine.target e.mode) next
  | .targeting action => action.apply (machine.target e.mode) next

theorem perform_of_implied {machine : Machine} {e : Encoding} {mnemonic : Mnemonic}
    {action : Implied} (hm : e.mnemonic = mnemonic) (h : mnemonic.operation = .implied action) :
    machine.perform e = action.apply (advance machine e.size) := by
  unfold perform
  rw [hm, h]

theorem perform_of_reading {machine : Machine} {e : Encoding} {mnemonic : Mnemonic}
    {action : Reading} (hm : e.mnemonic = mnemonic) (h : mnemonic.operation = .reading action) :
    machine.perform e
      = (advance machine e.size).onRegisters (action.apply (machine.operand e.mode)) := by
  unfold perform
  rw [hm, h]

theorem perform_of_shifting {machine : Machine} {e : Encoding} {mnemonic : Mnemonic}
    {change : Change} (hm : e.mnemonic = mnemonic) (h : mnemonic.operation = .shifting change)
    (hmode : e.mode ≠ .accumulator) :
    machine.perform e = changeAt change (machine.target e.mode) (advance machine e.size) := by
  unfold perform
  rw [hm, h]
  cases hacc : e.mode with
  | accumulator => exact absurd hacc hmode
  | _ => rfl

theorem perform_of_shifting_accumulator {machine : Machine} {e : Encoding} {mnemonic : Mnemonic}
    {change : Change} (hm : e.mnemonic = mnemonic) (h : mnemonic.operation = .shifting change)
    (hmode : e.mode = .accumulator) :
    machine.perform e = (advance machine e.size).onRegisters (·.change .a change) := by
  unfold perform
  rw [hm, h, hmode]

theorem perform_of_changing {machine : Machine} {e : Encoding} {mnemonic : Mnemonic}
    {change : Change} (hm : e.mnemonic = mnemonic) (h : mnemonic.operation = .changing change) :
    machine.perform e = changeAt change (machine.target e.mode) (advance machine e.size) := by
  unfold perform
  rw [hm, h]

theorem perform_of_targeting {machine : Machine} {e : Encoding} {mnemonic : Mnemonic}
    {action : Targeting} (hm : e.mnemonic = mnemonic)
    (h : mnemonic.operation = .targeting action) :
    machine.perform e = action.apply (machine.target e.mode) (advance machine e.size) := by
  unfold perform
  rw [hm, h]

/-! ## §3. One step. -/

/-- After its opcode was fetched, a proper instruction needs its operand and no more. -/
theorem execute_advance {e : Encoding} (h : e.proper = true) (machine : Machine) :
    execute e (advance machine 1)
      = delivery (advance machine 1) e.mode.operandLength (.ok () (machine.perform e)) := by
  have hsize : advance (advance machine 1) e.mode.operandLength = advance machine e.size :=
    advance_advance machine 1 e.mode.operandLength
  unfold Encoding.proper at h
  unfold execute perform
  cases hop : e.mnemonic.operation with
  | implied action =>
    simp only [hop, beq_iff_eq] at h
    rw [h] at hsize ⊢
    rw [delivery_of_inReach (inReach_zero _), ← hsize, advance_zero]
    rfl
  | reading action =>
    simp only [hop, Bool.or_eq_true, beq_iff_eq] at h
    rw [← hsize]
    exact (delivers_readOperand e.mnemonic h).bind_apply
      (fun value => modify (onRegisters (action.apply value))) _
  | shifting change =>
    simp only [hop, Bool.or_eq_true, beq_iff_eq] at h
    by_cases hacc : e.mode = .accumulator
    · -- the byte is in the register, so nothing is left to fetch
      rw [← hsize, hacc, show AddressingMode.accumulator.operandLength = 0 from rfl,
        delivery_of_inReach (inReach_zero _), advance_zero]
      rfl
    · have hmode := h.resolve_left hacc
      rw [← hsize]
      have hbind := (delivers_effectiveAddress e.mnemonic hmode).bind_apply
        (fun address => modify (changeAt change address)) (advance machine 1)
      cases hm : e.mode with
      | accumulator => exact absurd hm hacc
      | _ => rw [hm] at hbind; exact hbind
  | changing change =>
    simp only [hop] at h
    rw [← hsize]
    exact (delivers_effectiveAddress e.mnemonic h).bind_apply
      (fun address => modify (changeAt change address)) _
  | targeting action =>
    simp only [hop] at h
    rw [← hsize]
    exact (delivers_effectiveAddress e.mnemonic h).bind_apply
      (fun address => modify (action.apply address)) _

/-- An operation that wants an address is refused in a mode that leads to none, and the machine is
left alone.  So is a count in the accumulator mode, in which a shift finds its byte. -/
theorem execute_of_locate_eq_none {e : Encoding} (hmode : e.mode.locate = none)
    (hop : (∃ change, e.mnemonic.operation = .changing change)
      ∨ ∃ action, e.mnemonic.operation = .targeting action) (machine : Machine) :
    execute e machine = .error (.unsupportedMode e.mnemonic e.mode) machine := by
  have hrefused := effectiveAddress_of_locate_eq_none e.mnemonic hmode machine
  unfold execute
  rcases hop with ⟨change, hop⟩ | ⟨action, hop⟩
  · rw [hop]
    exact bind_of_error hrefused _
  · rw [hop]
    exact bind_of_error hrefused _

theorem step_of_not_inReach {machine : Machine} (h : ¬ InReach machine 1) :
    step machine = .error (.pastEnd machine.registers.pc) machine := by
  have hfetch := nextByte_of_atEnd (atEnd_of_not_inReach h)
  exact bind_of_error hfetch _

/-- A step, once there is an opcode. -/
theorem step_of_inReach {machine : Machine} (h : InReach machine 1) :
    step machine
      = match machine.instruction? with
        | some e => execute e (advance machine 1)
        | none => .error (.illegalOpcode (machine.memory.read machine.registers.pc)
            machine.registers.pc) (advance machine 1) := by
  have hpc : (advance machine 1).registers.pc - 1 = machine.registers.pc :=
    UInt16.add_sub_cancel _ _
  unfold step
  rw [delivers_nextByte.bind_apply, delivery_of_inReach h]
  show (match machine.instruction? with | some e => _ | none => _ : Exec Unit) _ = _
  cases machine.instruction? with
  | some e => rfl
  | none =>
    show EStateM.Result.error (Fault.illegalOpcode _ ((advance machine 1).registers.pc - 1)) _ = _
    rw [hpc]
    rfl

theorem step_of_undocumented {machine : Machine} (h : InReach machine 1)
    (hnone : machine.instruction? = none) :
    step machine = .error (.illegalOpcode (machine.memory.read machine.registers.pc)
      machine.registers.pc) (advance machine 1) := by
  rw [step_of_inReach h, hnone]

/-- A step at a documented opcode does what the instruction does, or fails for want of
operand bytes. -/
theorem step_of_instruction {machine : Machine} (h : InReach machine 1) {e : Encoding}
    (hsome : machine.instruction? = some e) :
    step machine = delivery machine e.size (.ok () (machine.perform e)) := by
  rw [step_of_inReach h, hsome]
  show execute e (advance machine 1) = _
  rw [execute_advance (proper_of_encoding hsome), delivery_advance h]
  rfl

/-- A step at a complete instruction does what the instruction does. -/
theorem step_of_complete {machine : Machine} {e : Encoding}
    (hsome : machine.instruction? = some e) (h : InReach machine e.size) :
    step machine = .ok () (machine.perform e) := by
  have hone : InReach machine 1 := inReach_of_add (n := e.mode.operandLength) h
  rw [step_of_instruction hone hsome, delivery_of_inReach h]

/-! ## §4. How steps end. -/

theorem step_eq_ok_iff {machine next : Machine} :
    step machine = .ok () next
      ↔ ∃ e, machine.instruction? = some e ∧ InReach machine e.size
          ∧ next = machine.perform e := by
  constructor
  · intro h
    by_cases hone : InReach machine 1
    · cases hinstr : machine.instruction? with
      | none =>
        rw [step_of_undocumented hone hinstr] at h
        cases h
      | some e =>
        rw [step_of_instruction hone hinstr] at h
        by_cases hsize : InReach machine e.size
        · rw [delivery_of_inReach hsize] at h
          cases h
          exact ⟨e, rfl, hsize, rfl⟩
        · rw [delivery_of_not_inReach hsize] at h
          cases h
    · rw [step_of_not_inReach hone] at h
      cases h
  · rintro ⟨e, hinstr, hsize, rfl⟩
    exact step_of_complete hinstr hsize

/-- The three ways in which a step fails, with what each of them leaves behind. -/
theorem step_error_cases {machine failed : Machine} {fault : Fault}
    (h : step machine = .error fault failed) :
    (¬ InReach machine 1 ∧ fault = .pastEnd machine.registers.pc ∧ failed = machine)
    ∨ (InReach machine 1 ∧ machine.instruction? = none
        ∧ fault = .illegalOpcode (machine.memory.read machine.registers.pc) machine.registers.pc
        ∧ failed = advance machine 1)
    ∨ (∃ e, InReach machine 1 ∧ machine.instruction? = some e ∧ ¬ InReach machine e.size
        ∧ fault = .pastEnd (edge machine) ∧ failed = machine.goto (edge machine)) := by
  by_cases hone : InReach machine 1
  · cases hinstr : machine.instruction? with
    | none =>
      rw [step_of_undocumented hone hinstr] at h
      cases h
      exact .inr (.inl ⟨hone, rfl, rfl, rfl⟩)
    | some e =>
      rw [step_of_instruction hone hinstr] at h
      by_cases hsize : InReach machine e.size
      · rw [delivery_of_inReach hsize] at h
        cases h
      · rw [delivery_of_not_inReach hsize] at h
        cases h
        exact .inr (.inr ⟨e, hone, rfl, hsize, rfl, rfl⟩)
  · rw [step_of_not_inReach hone] at h
    cases h
    exact .inl ⟨hone, rfl, rfl⟩

/-! ## §5. Many steps. -/

theorem steps_succ (count : Nat) (machine : Machine) :
    steps (count + 1) machine
      = match step machine with
        | .ok _ next => steps count next
        | .error fault failed => .error fault failed := by
  show EStateM.bind step (fun _ => steps count) machine = _
  unfold EStateM.bind
  cases step machine <;> rfl

/-- A number of successful steps one after the other, with the states between them. -/
structure Execution where
  /-- The number of steps. -/
  length : Nat
  /-- The state before each step, and the last state. -/
  state : Nat → Machine
  step_state : ∀ i < length, step (state i) = .ok () (state (i + 1))

/-- Whether a step succeeds. -/
def succeeds (machine : Machine) : Bool :=
  match step machine with
  | .ok _ _ => true
  | .error _ _ => false

/-- The machine after a number of steps, whatever they lead to. -/
def after (machine : Machine) : Nat → Machine
  | 0 => machine
  | count + 1 =>
    match step (machine.after count) with
    | .ok _ next => next
    | .error _ failed => failed

theorem step_after {machine : Machine} {count : Nat}
    (h : (machine.after count).succeeds = true) :
    step (machine.after count) = .ok () (machine.after (count + 1)) := by
  unfold succeeds at h
  rw [after]
  cases hstep : step (machine.after count) with
  | ok _ next => rfl
  | error fault failed =>
    rw [hstep] at h
    cases h

theorem succeeds_of_step {machine next : Machine} (h : step machine = .ok () next) :
    machine.succeeds = true := by
  unfold succeeds
  rw [h]

theorem after_succ_of_step {machine next : Machine} {count : Nat}
    (h : step (machine.after count) = .ok () next) : machine.after (count + 1) = next := by
  rw [after, h]

/-- The steps from a machine on, as many as succeed. -/
def Execution.of (machine : Machine) (length : Nat)
    (h : ∀ i < length, (machine.after i).succeeds = true) : Execution where
  length := length
  state := machine.after
  step_state i hi := step_after (h i hi)

/-- A run that fails does so in a step that follows only successful ones. -/
theorem run_error {fuel : Nat} {machine failed : Machine} {fault : Fault}
    (h : run fuel machine = .error fault failed) :
    ∃ count before, count < fuel ∧ steps count machine = .ok () before
      ∧ step before = .error fault failed := by
  induction fuel generalizing machine with
  | zero =>
    cases hending : machine.ending? with
    | some ending =>
      rw [run_of_ending hending] at h
      cases h
    | none =>
      rw [run_zero hending] at h
      cases h
  | succ fuel ih =>
    cases hending : machine.ending? with
    | some ending =>
      rw [run_of_ending hending] at h
      cases h
    | none =>
      rw [run_succ hending] at h
      cases hstep : step machine with
      | error fault' failed' =>
        rw [hstep] at h
        cases h
        exact ⟨0, machine, by omega, rfl, hstep⟩
      | ok _ next =>
        rw [hstep] at h
        obtain ⟨count, before, hlt, hsteps, hfail⟩ := ih h
        refine ⟨count + 1, before, by omega, ?_, hfail⟩
        rw [steps_succ, hstep]
        exact hsteps

end Machine

end Mos6502
