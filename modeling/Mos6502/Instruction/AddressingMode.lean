/-
  Mos6502.Instruction.AddressingMode — how an instruction finds its operand

  There are thirteen addressing modes.  A mode fixes how many bytes follow the
  opcode, and how those bytes are shown in a listing.  What they mean to the
  machine is said in `Mos6502.Machine.Operand`.
-/

namespace Mos6502

/-- The ways in which an instruction finds its operand. -/
inductive AddressingMode where
  /-- There is no operand. -/
  | implicit
  /-- The operand is the accumulator. -/
  | accumulator
  /-- The operand is the byte after the opcode. -/
  | immediate
  /-- The operand is in page zero. -/
  | zeroPage
  /-- The operand is in page zero, X further on. -/
  | zeroPageX
  /-- The operand is in page zero, Y further on. -/
  | zeroPageY
  /-- The operand is a signed distance from the next instruction. -/
  | relative
  /-- The operand is at the address after the opcode. -/
  | absolute
  /-- The operand is X further on than the address after the opcode. -/
  | absoluteX
  /-- The operand is Y further on than the address after the opcode. -/
  | absoluteY
  /-- The address is itself in memory. -/
  | indirect
  /-- The address is in page zero, X further on. -/
  | indirectX
  /-- The operand is Y further on than an address in page zero. -/
  | indirectY
  deriving Repr, DecidableEq

namespace AddressingMode

/-- All modes, by the length and the indirection of their operands. -/
def all : List AddressingMode := [
  .implicit, .accumulator, .immediate, .zeroPage, .zeroPageX, .zeroPageY, .relative,
  .absolute, .absoluteX, .absoluteY, .indirect, .indirectX, .indirectY]

/-- The name of a mode. -/
def name : AddressingMode → String
  | implicit => "Implicit"
  | accumulator => "Accumulator"
  | immediate => "Immediate"
  | zeroPage => "ZeroPage"
  | zeroPageX => "ZeroPageX"
  | zeroPageY => "ZeroPageY"
  | relative => "Relative"
  | absolute => "Absolute"
  | absoluteX => "AbsoluteX"
  | absoluteY => "AbsoluteY"
  | indirect => "Indirect"
  | indirectX => "IndirectX"
  | indirectY => "IndirectY"

/-- How many bytes follow the opcode. -/
def operandLength : AddressingMode → Nat
  | implicit | accumulator => 0
  | immediate | zeroPage | zeroPageX | zeroPageY | relative | indirectX | indirectY => 1
  | absolute | absoluteX | absoluteY | indirect => 2

/-- Whether the mode leads to a byte of memory that an instruction works on. -/
def leadsToMemory : AddressingMode → Bool
  | implicit | accumulator | immediate | relative => false
  | _ => true

/-- How an operand is shown after the mnemonic.  Modes without an operand show
none, whatever is given. -/
def display (mode : AddressingMode) (operand : String) : String :=
  match mode with
  | implicit => ""
  | accumulator => " A"
  | immediate => " #$" ++ operand
  | zeroPage | relative | absolute => " $" ++ operand
  | zeroPageX | absoluteX => " $" ++ operand ++ ",X"
  | zeroPageY | absoluteY => " $" ++ operand ++ ",Y"
  | indirect => " ($" ++ operand ++ ")"
  | indirectX => " ($" ++ operand ++ ",X)"
  | indirectY => " ($" ++ operand ++ "),Y"

/-- What stands where an operand belongs but none is known: a pair of braces. -/
def placeholder : String := "\x7b\x7d"

/-- How a mode shows its operands, with the placeholder for the operand. -/
def template (mode : AddressingMode) : String := mode.display placeholder

theorem mem_all (mode : AddressingMode) : mode ∈ all := by
  cases mode <;> decide

end AddressingMode

end Mos6502
