/-
  Mos6502.Instruction.Operation — what each instruction does

  The 56 instructions use their operands in five ways.  Some have none; some
  read a value and work on registers alone; some shift a byte where it stands, in
  memory or in the accumulator; some count a byte of memory up or down; and some want
  only the address.  An operation says which way it is and what is done, without the
  way the operand is found.
-/
import Mos6502.Instruction.Mnemonic
import Mos6502.Registers

namespace Mos6502

/-! ## §1. The five kinds. -/

/-- A change of one byte, in memory or in a register. -/
inductive Change where
  /-- Every bit moves up, zero comes in, bit 7 goes to Carry. -/
  | shiftLeft
  /-- Every bit moves down, zero comes in, bit 0 goes to Carry. -/
  | shiftRight
  /-- Every bit moves up, Carry comes in, bit 7 goes to Carry. -/
  | rotateLeft
  /-- Every bit moves down, Carry comes in, bit 0 goes to Carry. -/
  | rotateRight
  /-- The byte goes up by one, 255 to 0; Carry stays. -/
  | increment
  /-- The byte goes down by one, 0 to 255; Carry stays. -/
  | decrement
  deriving Repr, DecidableEq

/-- What is done with a value that an instruction reads. -/
inductive Reading where
  /-- Put it into a register. -/
  | load (register : Register)
  /-- Add it to the accumulator. -/
  | add
  /-- Subtract it from the accumulator. -/
  | subtract
  /-- Keep the bits of the accumulator that it has too. -/
  | conjoin
  /-- Set the bits of the accumulator that it has. -/
  | disjoin
  /-- Flip the bits of the accumulator that it has. -/
  | toggle
  /-- Test its bits against the accumulator. -/
  | test
  /-- Compare a register with it. -/
  | compare (register : Register)
  deriving Repr, DecidableEq

/-- What is done with an address. -/
inductive Targeting where
  /-- Write a register there. -/
  | store (register : Register)
  /-- Go there if a flag has a value. -/
  | branch (flag : Flag) (value : Bool)
  /-- Go there. -/
  | jump
  /-- Go there and leave the way back on the stack. -/
  | call
  deriving Repr, DecidableEq

/-- What is done without an operand. -/
inductive Implied where
  /-- Copy one register to another. -/
  | transfer (source target : Register)
  /-- Change a register. -/
  | alter (register : Register) (change : Change)
  /-- Set or clear a flag. -/
  | assign (flag : Flag) (value : Bool)
  /-- Push the accumulator. -/
  | pushAccumulator
  /-- Push the status. -/
  | pushStatus
  /-- Pull the accumulator. -/
  | pullAccumulator
  /-- Pull the status. -/
  | pullStatus
  /-- Return from a subroutine. -/
  | ret
  /-- Do nothing. -/
  | idle
  deriving Repr, DecidableEq

/-- What an instruction does. -/
inductive Operation where
  /-- It has no operand. -/
  | implied (action : Implied)
  /-- It reads a value and works on registers. -/
  | reading (action : Reading)
  /-- It changes a byte of memory, or the accumulator. -/
  | shifting (change : Change)
  /-- It changes a byte of memory. -/
  | changing (change : Change)
  /-- It wants the address only. -/
  | targeting (action : Targeting)
  deriving Repr, DecidableEq

/-! ## §2. The instructions. -/

/-- What a mnemonic stands for. -/
def Mnemonic.operation : Mnemonic → Operation
  | .adc => .reading .add
  | .and => .reading .conjoin
  | .asl => .shifting .shiftLeft
  | .bcc => .targeting (.branch .carry false)
  | .bcs => .targeting (.branch .carry true)
  | .beq => .targeting (.branch .zero true)
  | .bit => .reading .test
  | .bmi => .targeting (.branch .negative true)
  | .bne => .targeting (.branch .zero false)
  | .bpl => .targeting (.branch .negative false)
  | .brk => .implied .idle
  | .bvc => .targeting (.branch .overflow false)
  | .bvs => .targeting (.branch .overflow true)
  | .clc => .implied (.assign .carry false)
  | .cld => .implied (.assign .decimal false)
  | .cli => .implied (.assign .interrupt false)
  | .clv => .implied (.assign .overflow false)
  | .cmp => .reading (.compare .a)
  | .cpx => .reading (.compare .x)
  | .cpy => .reading (.compare .y)
  | .dec => .changing .decrement
  | .dex => .implied (.alter .x .decrement)
  | .dey => .implied (.alter .y .decrement)
  | .eor => .reading .toggle
  | .inc => .changing .increment
  | .inx => .implied (.alter .x .increment)
  | .iny => .implied (.alter .y .increment)
  | .jmp => .targeting .jump
  | .jsr => .targeting .call
  | .lda => .reading (.load .a)
  | .ldx => .reading (.load .x)
  | .ldy => .reading (.load .y)
  | .lsr => .shifting .shiftRight
  | .nop => .implied .idle
  | .ora => .reading .disjoin
  | .pha => .implied .pushAccumulator
  | .php => .implied .pushStatus
  | .pla => .implied .pullAccumulator
  | .plp => .implied .pullStatus
  | .rol => .shifting .rotateLeft
  | .ror => .shifting .rotateRight
  | .rti => .implied .idle
  | .rts => .implied .ret
  | .sbc => .reading .subtract
  | .sec => .implied (.assign .carry true)
  | .sed => .implied (.assign .decimal true)
  | .sei => .implied (.assign .interrupt true)
  | .sta => .targeting (.store .a)
  | .stx => .targeting (.store .x)
  | .sty => .targeting (.store .y)
  | .tax => .implied (.transfer .a .x)
  | .tay => .implied (.transfer .a .y)
  | .tsx => .implied (.transfer .s .x)
  | .txa => .implied (.transfer .x .a)
  | .txs => .implied (.transfer .x .s)
  | .tya => .implied (.transfer .y .a)

end Mos6502
