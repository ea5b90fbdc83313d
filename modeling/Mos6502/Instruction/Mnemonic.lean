/-
  Mos6502.Instruction.Mnemonic — the 56 instructions by name

  A mnemonic says what an instruction does, apart from how it finds its operand.
  It is written in three upper-case letters and read without regard to case.

  Main statement:
    * `mem_all`          — the list of mnemonics is complete
-/

namespace Mos6502

/-! ## §1. The instructions. -/

/-- The documented instructions. -/
inductive Mnemonic where
  /-- Adds a value and the carry to the accumulator. -/
  | adc
  /-- Keeps the bits of the accumulator that a value has too. -/
  | and
  /-- Shifts left, a zero coming in. -/
  | asl
  /-- Branches if Carry is clear. -/
  | bcc
  /-- Branches if Carry is set. -/
  | bcs
  /-- Branches if Zero is set. -/
  | beq
  /-- Tests the bits of a value against the accumulator. -/
  | bit
  /-- Branches if Negative is set. -/
  | bmi
  /-- Branches if Zero is clear. -/
  | bne
  /-- Branches if Negative is clear. -/
  | bpl
  /-- Breaks; interrupts are not modelled, so only the opcode is consumed. -/
  | brk
  /-- Branches if Overflow is clear. -/
  | bvc
  /-- Branches if Overflow is set. -/
  | bvs
  /-- Clears Carry. -/
  | clc
  /-- Clears Decimal. -/
  | cld
  /-- Clears Interrupt. -/
  | cli
  /-- Clears Overflow. -/
  | clv
  /-- Compares the accumulator with a value. -/
  | cmp
  /-- Compares X with a value. -/
  | cpx
  /-- Compares Y with a value. -/
  | cpy
  /-- Lowers a byte of memory by one. -/
  | dec
  /-- Lowers X by one. -/
  | dex
  /-- Lowers Y by one. -/
  | dey
  /-- Flips the bits of the accumulator that a value has. -/
  | eor
  /-- Raises a byte of memory by one. -/
  | inc
  /-- Raises X by one. -/
  | inx
  /-- Raises Y by one. -/
  | iny
  /-- Jumps. -/
  | jmp
  /-- Calls a subroutine. -/
  | jsr
  /-- Loads the accumulator. -/
  | lda
  /-- Loads X. -/
  | ldx
  /-- Loads Y. -/
  | ldy
  /-- Shifts right, a zero coming in. -/
  | lsr
  /-- Does nothing. -/
  | nop
  /-- Sets the bits of the accumulator that a value has. -/
  | ora
  /-- Pushes the accumulator. -/
  | pha
  /-- Pushes the status. -/
  | php
  /-- Pulls the accumulator. -/
  | pla
  /-- Pulls the status. -/
  | plp
  /-- Rotates left through Carry. -/
  | rol
  /-- Rotates right through Carry. -/
  | ror
  /-- Returns from an interrupt; interrupts are not modelled, so only the opcode is consumed. -/
  | rti
  /-- Returns from a subroutine. -/
  | rts
  /-- Subtracts a value and the borrow from the accumulator. -/
  | sbc
  /-- Sets Carry. -/
  | sec
  /-- Sets Decimal. -/
  | sed
  /-- Sets Interrupt. -/
  | sei
  /-- Stores the accumulator. -/
  | sta
  /-- Stores X. -/
  | stx
  /-- Stores Y. -/
  | sty
  /-- Copies the accumulator to X. -/
  | tax
  /-- Copies the accumulator to Y. -/
  | tay
  /-- Copies the stack pointer to X. -/
  | tsx
  /-- Copies X to the accumulator. -/
  | txa
  /-- Copies X to the stack pointer. -/
  | txs
  /-- Copies Y to the accumulator. -/
  | tya
  deriving Repr, DecidableEq

namespace Mnemonic

/-- All mnemonics in alphabetical order. -/
def all : List Mnemonic := [
  .adc, .and, .asl, .bcc, .bcs, .beq, .bit, .bmi, .bne, .bpl, .brk, .bvc, .bvs, .clc, .cld,
  .cli, .clv, .cmp, .cpx, .cpy, .dec, .dex, .dey, .eor, .inc, .inx, .iny, .jmp, .jsr, .lda,
  .ldx, .ldy, .lsr, .nop, .ora, .pha, .php, .pla, .plp, .rol, .ror, .rti, .rts, .sbc, .sec,
  .sed, .sei, .sta, .stx, .sty, .tax, .tay, .tsx, .txa, .txs, .tya]

/-- The three letters of a mnemonic. -/
def name : Mnemonic → String
  | .adc => "ADC"
  | .and => "AND"
  | .asl => "ASL"
  | .bcc => "BCC"
  | .bcs => "BCS"
  | .beq => "BEQ"
  | .bit => "BIT"
  | .bmi => "BMI"
  | .bne => "BNE"
  | .bpl => "BPL"
  | .brk => "BRK"
  | .bvc => "BVC"
  | .bvs => "BVS"
  | .clc => "CLC"
  | .cld => "CLD"
  | .cli => "CLI"
  | .clv => "CLV"
  | .cmp => "CMP"
  | .cpx => "CPX"
  | .cpy => "CPY"
  | .dec => "DEC"
  | .dex => "DEX"
  | .dey => "DEY"
  | .eor => "EOR"
  | .inc => "INC"
  | .inx => "INX"
  | .iny => "INY"
  | .jmp => "JMP"
  | .jsr => "JSR"
  | .lda => "LDA"
  | .ldx => "LDX"
  | .ldy => "LDY"
  | .lsr => "LSR"
  | .nop => "NOP"
  | .ora => "ORA"
  | .pha => "PHA"
  | .php => "PHP"
  | .pla => "PLA"
  | .plp => "PLP"
  | .rol => "ROL"
  | .ror => "ROR"
  | .rti => "RTI"
  | .rts => "RTS"
  | .sbc => "SBC"
  | .sec => "SEC"
  | .sed => "SED"
  | .sei => "SEI"
  | .sta => "STA"
  | .stx => "STX"
  | .sty => "STY"
  | .tax => "TAX"
  | .tay => "TAY"
  | .tsx => "TSX"
  | .txa => "TXA"
  | .txs => "TXS"
  | .tya => "TYA"

/-! ## §2. Reading. -/

/-- Whether two texts differ at most in the case of letters from A to Z. -/
def sameLetters (s t : String) : Bool :=
  s.toList.map Char.toLower == t.toList.map Char.toLower

end Mnemonic

/-- A text that names no instruction. -/
structure UnknownMnemonic where
  /-- The text as it was given. -/
  text : String
  deriving Repr, DecidableEq

/-- What is said about a text that names no instruction. -/
def UnknownMnemonic.message (unknown : UnknownMnemonic) : String :=
  "unknown mnemonic '" ++ unknown.text ++ "'"

namespace Mnemonic

/-- The mnemonic that a text names, in any mix of cases. -/
def parse (text : String) : Except UnknownMnemonic Mnemonic :=
  match all.find? fun mnemonic => sameLetters mnemonic.name text with
  | some mnemonic => .ok mnemonic
  | none => .error ⟨text⟩

/-! ## §3. Laws. -/

theorem mem_all (mnemonic : Mnemonic) : mnemonic ∈ all := by
  cases mnemonic <;> decide

end Mnemonic

end Mos6502
