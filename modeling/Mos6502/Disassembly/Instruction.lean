/-
  Mos6502.Disassembly.Instruction — decoded instructions and their text

  Decoding looks an opcode up and takes as many bytes after it as its addressing
  mode asks for.  A decoded instruction keeps its bytes and knows its address,
  because a branch is shown with the address it goes to.

  The text is the mnemonic followed by the operand as the mode shows it.  It is
  made from the fields as they are, also where they do not fit together: one
  operand byte is shown with two digits, two with four, and with any other number
  the placeholder stays in its place.
-/
import Mos6502.Hex
import Mos6502.Instruction.Opcode

namespace Mos6502

/-! ## §1. Decoding. -/

/-- An instruction taken from a sequence of bytes. -/
structure Instruction where
  /-- Where the opcode is. -/
  address : UInt16
  opcode : UInt8
  /-- The mnemonic as it is shown. -/
  mnemonic : String
  mode : AddressingMode
  /-- The bytes after the opcode. -/
  operands : List UInt8
  /-- The length in bytes, the opcode included. -/
  size : UInt8
  deriving Repr, DecidableEq

namespace Instruction

/-- The instruction at the head of a sequence, or `none` if the sequence is empty or
ends before the instruction does. -/
def decode? (address : UInt16) : List UInt8 → Option Instruction
  | [] => none
  | opcode :: rest =>
    let mode := Opcode.mode opcode
    let operands := rest.take mode.operandLength
    if operands.length = mode.operandLength then
      some { address, opcode, mnemonic := Opcode.name opcode, mode, operands
             size := UInt8.ofNat (Opcode.size opcode) }
    else
      none

/-- A single byte that begins no instruction. -/
def unknown (address : UInt16) (opcode : UInt8) : Instruction where
  address := address
  opcode := opcode
  mnemonic := Opcode.unknownName
  mode := .implicit
  operands := []
  size := 1

/-- The bytes that an instruction was taken from. -/
def bytes (instruction : Instruction) : List UInt8 :=
  instruction.opcode :: instruction.operands

/-! ## §2. Text. -/

/-- The address after an instruction. -/
def next (instruction : Instruction) : UInt16 :=
  instruction.address + instruction.size.toUInt16

/-- The digits of the operand: of the address it goes to for a relative operand of one
byte, of the operand itself otherwise. -/
def operandText (instruction : Instruction) : Option String :=
  match instruction.mode, instruction.operands with
  | .relative, [offset] => some (hexWord (instruction.next + signExtend offset))
  | _, [value] => some (hexByte value)
  | _, [low, high] => some (hexWord (word low high))
  | _, _ => none

/-- The instruction as a line of assembly. -/
def text (instruction : Instruction) : String :=
  instruction.mnemonic
    ++ instruction.mode.display (instruction.operandText.getD AddressingMode.placeholder)

end Instruction

end Mos6502
