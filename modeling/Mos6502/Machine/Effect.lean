/-
  Mos6502.Machine.Effect — what the operations do to a machine

  Once its operand is known an operation cannot fail.  Readings and changes of
  registers are functions on the registers alone; only stores, changes in memory,
  calls and pushes write to memory, and only calls and returns touch the count of
  open calls.
-/
import Mos6502.Arithmetic.Binary
import Mos6502.Arithmetic.Decimal
import Mos6502.Instruction.Operation
import Mos6502.Machine.Basic

namespace Mos6502

/-! ## §1. Changes of a byte. -/

namespace Change

/-- The changed byte and the carry after it. -/
def apply (change : Change) (byte : UInt8) (carry : Bool) : UInt8 × Bool :=
  match change with
  | shiftLeft => (byte <<< 1, byte &&& 0x80 != 0)
  | shiftRight => (byte >>> 1, byte &&& 0x01 != 0)
  | rotateLeft => (byte <<< 1 ||| carry.toUInt8, byte &&& 0x80 != 0)
  | rotateRight => (byte >>> 1 ||| carry.toUInt8 <<< 7, byte &&& 0x01 != 0)
  | increment => (byte + 1, carry)
  | decrement => (byte - 1, carry)

/-- The changed byte and the status that tells about it. -/
def outcome (change : Change) (byte : UInt8) (status : Status) : UInt8 × Status :=
  let (result, carry) := change.apply byte status.carry
  (result, { status with carry }.reflect result)

end Change

/-! ## §2. Registers. -/

namespace Registers

/-- Changes a register. -/
def change (registers : Registers) (register : Register) (change : Change) : Registers :=
  let (result, p) := change.outcome (registers.get register) registers.p
  { registers.set register result with p }

/-- Copies a register.  The flags tell about the byte, unless it goes to the stack
pointer. -/
def transfer (registers : Registers) (source target : Register) : Registers :=
  match target with
  | .s => registers.set .s (registers.get source)
  | _ => registers.setResult target (registers.get source)

/-- Takes over a binary sum. -/
def acceptBinary (registers : Registers) (sum : Binary.Sum) : Registers :=
  { registers with
    a := sum.result
    p := { registers.p with carry := sum.carry, overflow := sum.overflow }.reflect sum.result }

/-- Takes over a decimal sum.  Carry is the only flag that tells about it. -/
def acceptDecimal (registers : Registers) (sum : Decimal.Sum) : Registers :=
  { registers with a := sum.result, p := { registers.p with carry := sum.carry } }

/-- Lets the flags tell how a register compares to a value: Carry if it is not less,
Zero if it is equal, Negative as bit 7 of the difference. -/
def compare (registers : Registers) (register : Register) (value : UInt8) : Registers :=
  let held := registers.get register
  { registers with p := { registers.p with carry := decide (value ≤ held) }.reflect (held - value) }

/-- Lets the flags tell about the bits of a value: Zero if the accumulator has none of
them, Overflow as bit 6, Negative as bit 7. -/
def testBits (registers : Registers) (value : UInt8) : Registers :=
  { registers with
    p := { registers.p with
      zero := registers.a &&& value == 0
      overflow := value &&& 0x40 != 0
      negative := value &&& 0x80 != 0 } }

end Registers

/-- What reading a value does to the registers.  Sums are decimal if the flag says so. -/
def Reading.apply (action : Reading) (value : UInt8) (registers : Registers) : Registers :=
  match action with
  | .load register => registers.setResult register value
  | .add =>
    if registers.p.decimal then
      registers.acceptDecimal (Decimal.add registers.a value registers.p.carry)
    else
      registers.acceptBinary (Binary.add registers.a value registers.p.carry)
  | .subtract =>
    if registers.p.decimal then
      registers.acceptDecimal (Decimal.subtract registers.a value registers.p.carry)
    else
      registers.acceptBinary (Binary.subtract registers.a value registers.p.carry)
  | .conjoin => registers.setResult .a (registers.a &&& value)
  | .disjoin => registers.setResult .a (registers.a ||| value)
  | .toggle => registers.setResult .a (registers.a ^^^ value)
  | .test => registers.testBits value
  | .compare register => registers.compare register value

/-! ## §3. The machine. -/

namespace Machine

/-- The most calls that are counted; further ones leave the count as it is. -/
def maxCallDepth : Nat := 0xFFFFFFFF

/-- Works on the registers only. -/
@[inline] def onRegisters (f : Registers → Registers) (machine : Machine) : Machine :=
  { machine with registers := f machine.registers }

/-- Changes the byte at an address. -/
def changeAt (change : Change) (address : UInt16) (machine : Machine) : Machine :=
  let (result, p) := change.outcome (machine.memory.read address) machine.registers.p
  { machine with memory := machine.memory.write address result, registers.p := p }

/-- Pushes the address of the next instruction, high byte first, and goes to another. -/
def call (address : UInt16) (machine : Machine) : Machine :=
  let next := machine.registers.pc
  let machine := (machine.push (highByte next)).push (lowByte next)
  { machine with
    registers.pc := address
    callDepth := min (machine.callDepth + 1) maxCallDepth }

/-- Pops an address, low byte first, and goes there if a call is open.  If none is,
the bytes are popped all the same, and execution is over. -/
def ret (machine : Machine) : Machine :=
  let (low, machine) := machine.pop
  let (high, machine) := machine.pop
  if machine.callDepth = 0 then
    { machine with returned := true }
  else
    { machine with
      registers.pc := word low high
      callDepth := machine.callDepth - 1 }

end Machine

/-- What an operation without an operand does. -/
def Implied.apply (action : Implied) (machine : Machine) : Machine :=
  match action with
  | .transfer source target => machine.onRegisters (·.transfer source target)
  | .alter register change => machine.onRegisters (·.change register change)
  | .assign flag value =>
    machine.onRegisters fun registers => { registers with p := registers.p.assign flag value }
  | .pushAccumulator => machine.push machine.registers.a
  | .pushStatus => machine.push machine.registers.p.toByte
  | .pullAccumulator =>
    let (value, machine) := machine.pop
    machine.onRegisters (·.setResult .a value)
  | .pullStatus =>
    let (value, machine) := machine.pop
    machine.onRegisters ({ · with p := Status.ofByte value })
  | .ret => machine.ret
  | .idle => machine

/-- What an operation does with an address. -/
def Targeting.apply (action : Targeting) (address : UInt16) (machine : Machine) : Machine :=
  match action with
  | .store register =>
    { machine with memory := machine.memory.write address (machine.registers.get register) }
  | .branch flag value =>
    if machine.registers.p.test flag = value then machine.goto address else machine
  | .jump => machine.goto address
  | .call => machine.call address

end Mos6502
