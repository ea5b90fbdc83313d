/-
  Mos6502.Machine.Operand — from addressing mode to operand

  In ten of the thirteen modes the bytes after the opcode lead to an address.
  The bytes are fetched first, and the address is then worked out from them, the
  registers and the memory.  Sums with an index stay in page zero where the mode
  does; elsewhere they wrap at the top of memory.

  Main statement:
    * `locate_eq_none_iff` — which modes lead to no address
-/
import Mos6502.Instruction.AddressingMode
import Mos6502.Machine.Basic

namespace Mos6502

/-! ## §1. Addresses. -/

namespace AddressingMode

/-- How the word after the opcode leads to an address, in the modes where it does.
An operand of one byte is the low byte of the word.  The program counter already
stands after the operand. -/
def locate : AddressingMode → Option (UInt16 → Registers → Memory → UInt16)
  | implicit | accumulator | immediate => none
  | zeroPage | absolute => some fun operand _ _ => operand
  | zeroPageX => some fun operand registers _ => (lowByte operand + registers.x).toUInt16
  | zeroPageY => some fun operand registers _ => (lowByte operand + registers.y).toUInt16
  | relative => some fun operand registers _ => registers.pc + signExtend (lowByte operand)
  | absoluteX => some fun operand registers _ => operand + registers.x.toUInt16
  | absoluteY => some fun operand registers _ => operand + registers.y.toUInt16
  | indirect => some fun operand _ memory => memory.readWord operand (operand + 1)
  | indirectX => some fun operand registers memory =>
    memory.zeroPageWord (lowByte operand + registers.x)
  | indirectY => some fun operand registers memory =>
    memory.zeroPageWord (lowByte operand) + registers.y.toUInt16

theorem locate_eq_none_iff (mode : AddressingMode) :
    mode.locate = none ↔ mode = implicit ∨ mode = accumulator ∨ mode = immediate := by
  cases mode <;> simp [locate]

end AddressingMode

/-! ## §2. Fetching operands. -/

namespace Machine

open ByteStream

/-- Computations of a machine: they may fail, and keep what they did before they
failed. -/
abbrev Exec := Fetch Machine

/-- Fetches the bytes that follow the opcode, as one word. -/
def fetchOperand (mode : AddressingMode) : Exec UInt16 :=
  match mode.operandLength with
  | 0 => return 0
  | 1 => do
    let byte ← nextByte
    return byte.toUInt16
  | _ => nextWord

/-- Fetches the operand and works out the address it leads to.  In a mode that leads
to no address nothing is fetched. -/
def effectiveAddress (mnemonic : Mnemonic) (mode : AddressingMode) : Exec UInt16 :=
  match mode.locate with
  | none => throw (.unsupportedMode mnemonic mode)
  | some address => do
    let operand ← fetchOperand mode
    let machine ← get
    return address operand machine.registers machine.memory

/-- Fetches the operand and gives the value it stands for: the byte itself in the
immediate mode, the byte at the effective address in the others. -/
def readOperand (mnemonic : Mnemonic) (mode : AddressingMode) : Exec UInt8 :=
  match mode with
  | .immediate => nextByte
  | _ => do
    let address ← effectiveAddress mnemonic mode
    let machine ← get
    return machine.memory.read address

end Machine

end Mos6502
