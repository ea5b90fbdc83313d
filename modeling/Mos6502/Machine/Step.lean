/-
  Mos6502.Machine.Step — executing instructions

  A step fetches an opcode, looks up what it stands for, fetches the operand and
  does what is to be done.  All that can fail comes first: when a step fails, the
  program counter may have moved over what was fetched, and nothing else happened.
  A run is steps one after the other until execution is over or the program
  counter leaves the window; since a program may loop for ever, it is given the
  number of steps it may take.

  Main statements:
    * `run_of_ending`    — a machine with a reason to stop is left as it is
    * `run_zero`, `run_succ` — otherwise a run is one step and the run of the rest
-/
import Mos6502.Instruction.Opcode
import Mos6502.Machine.Effect
import Mos6502.Machine.Operand

namespace Mos6502.Machine

open ByteStream

/-! ## §1. One step. -/

/-- Fetches the operand of an instruction and does what is to be done with it. -/
def execute (instruction : Encoding) : Exec Unit :=
  match instruction.mnemonic.operation with
  | .implied action => modify action.apply
  | .reading action => do
    let value ← readOperand instruction.mnemonic instruction.mode
    modify (onRegisters (action.apply value))
  | .shifting change =>
    match instruction.mode with
    | .accumulator => modify (onRegisters (·.change .a change))
    | mode => do
      let address ← effectiveAddress instruction.mnemonic mode
      modify (changeAt change address)
  | .changing change => do
    let address ← effectiveAddress instruction.mnemonic instruction.mode
    modify (changeAt change address)
  | .targeting action => do
    let address ← effectiveAddress instruction.mnemonic instruction.mode
    modify (action.apply address)

/-- Executes the instruction at the program counter. -/
def step : Exec Unit := do
  let opcode ← nextByte
  match Opcode.encoding opcode with
  | some instruction => execute instruction
  | none =>
    let machine ← get
    throw (.illegalOpcode opcode (machine.registers.pc - 1))

/-! ## §2. Many steps. -/

/-- Takes a number of steps, whatever they lead to; the first that fails ends them. -/
def steps : Nat → Exec Unit
  | 0 => return ()
  | count + 1 => do
    step
    steps count

/-- How a run came to its end. -/
inductive Ending where
  /-- The program counter left the window at its upper end. -/
  | ranOut
  /-- A return was met that no call was open for. -/
  | returned
  deriving Repr, DecidableEq

/-- The reason to take no further step, if there is one. -/
def ending? (machine : Machine) : Option Ending :=
  if machine.returned then some .returned
  else if machine.atEnd then some .ranOut
  else none

/-- Takes steps until there is a reason to take no more, and not more than `fuel` of
them.  `none` means that there was no reason yet when they were used up. -/
def run (fuel : Nat) : Exec (Option Ending) := do
  let machine ← get
  match machine.ending? with
  | some ending => return some ending
  | none =>
    match fuel with
    | 0 => return none
    | fuel + 1 =>
      step
      run fuel

/-! ## §3. The run as a recursion on its fuel. -/

theorem run_of_ending {machine : Machine} {ending : Ending} (h : machine.ending? = some ending)
    (fuel : Nat) : run fuel machine = .ok (some ending) machine := by
  rw [run.eq_def]
  show (match machine.ending? with | some ending => _ | none => _ : Exec _) machine = _
  rw [h]
  rfl

theorem run_zero {machine : Machine} (h : machine.ending? = none) :
    run 0 machine = .ok none machine := by
  rw [run.eq_def]
  show (match machine.ending? with | some ending => _ | none => _ : Exec _) machine = _
  rw [h]
  rfl

theorem run_succ {machine : Machine} (h : machine.ending? = none) (fuel : Nat) :
    run (fuel + 1) machine
      = match step machine with
        | .ok _ next => run fuel next
        | .error fault failed => .error fault failed := by
  rw [run.eq_def]
  show (match machine.ending? with | some ending => _ | none => _ : Exec _) machine = _
  rw [h]
  show EStateM.bind step (fun _ => run fuel) machine = _
  unfold EStateM.bind
  cases step machine <;> rfl

end Mos6502.Machine
