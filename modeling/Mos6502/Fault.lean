/-
  Mos6502.Fault — what can go wrong while instructions are fetched

  A fault is a cause with what is needed to tell it; the wording is in one place.
-/
import Mos6502.Hex
import Mos6502.Instruction.AddressingMode
import Mos6502.Instruction.Mnemonic

namespace Mos6502

/-- Why an instruction could not be fetched or executed. -/
inductive Fault where
  /-- A byte was to be fetched at or beyond the end of the data. -/
  | pastEnd (address : UInt16)
  /-- The opcode stands for no instruction. -/
  | illegalOpcode (opcode : UInt8) (address : UInt16)
  /-- The addressing mode designates no operand of the kind that was asked for. -/
  | unsupportedMode (mnemonic : Mnemonic) (mode : AddressingMode)
  deriving Repr, DecidableEq

/-- What is said about a fault. -/
def Fault.message : Fault → String
  | .pastEnd address =>
    "Fetch at 0x" ++ hexWord address ++ " ran past the end of the loaded data"
  | .illegalOpcode opcode address =>
    "Illegal opcode 0x" ++ hexByte opcode ++ " at 0x" ++ hexWord address
  | .unsupportedMode mnemonic mode =>
    mnemonic.name ++ " does not support " ++ mode.name ++ " addressing"

end Mos6502
