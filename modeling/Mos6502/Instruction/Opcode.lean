/-
  Mos6502.Instruction.Opcode — the opcode matrix

  Every byte is an opcode.  151 of them stand for a documented instruction in
  one of its addressing modes; the other 105 stand for nothing, and count as one
  byte long where a length is asked for.

  Main statement:
    * `opcode?_of_encoding` — a documented opcode is found again from what it stands for
-/
import Mos6502.Instruction.AddressingMode
import Mos6502.Instruction.Mnemonic

namespace Mos6502

/-! ## §1. The matrix. -/

/-- An instruction together with the way it finds its operand. -/
structure Encoding where
  mnemonic : Mnemonic
  mode : AddressingMode
  deriving Repr, DecidableEq

/-- The length in bytes, the opcode included. -/
def Encoding.size (encoding : Encoding) : Nat := 1 + encoding.mode.operandLength

namespace Opcode

/-- What each opcode stands for: the row is its high digit, the column its low digit. -/
def matrix : Vector (Vector (Option Encoding) 16) 16 := #v[
  -- 0x00 to 0x0F
  #v[some ⟨.brk, .implicit⟩, some ⟨.ora, .indirectX⟩, none, none, none, some ⟨.ora, .zeroPage⟩,
     some ⟨.asl, .zeroPage⟩, none, some ⟨.php, .implicit⟩, some ⟨.ora, .immediate⟩,
     some ⟨.asl, .accumulator⟩, none, none, some ⟨.ora, .absolute⟩, some ⟨.asl, .absolute⟩, none],
  -- 0x10 to 0x1F
  #v[some ⟨.bpl, .relative⟩, some ⟨.ora, .indirectY⟩, none, none, none, some ⟨.ora, .zeroPageX⟩,
     some ⟨.asl, .zeroPageX⟩, none, some ⟨.clc, .implicit⟩, some ⟨.ora, .absoluteY⟩, none, none,
     none, some ⟨.ora, .absoluteX⟩, some ⟨.asl, .absoluteX⟩, none],
  -- 0x20 to 0x2F
  #v[some ⟨.jsr, .absolute⟩, some ⟨.and, .indirectX⟩, none, none, some ⟨.bit, .zeroPage⟩,
     some ⟨.and, .zeroPage⟩, some ⟨.rol, .zeroPage⟩, none, some ⟨.plp, .implicit⟩,
     some ⟨.and, .immediate⟩, some ⟨.rol, .accumulator⟩, none, some ⟨.bit, .absolute⟩,
     some ⟨.and, .absolute⟩, some ⟨.rol, .absolute⟩, none],
  -- 0x30 to 0x3F
  #v[some ⟨.bmi, .relative⟩, some ⟨.and, .indirectY⟩, none, none, none, some ⟨.and, .zeroPageX⟩,
     some ⟨.rol, .zeroPageX⟩, none, some ⟨.sec, .implicit⟩, some ⟨.and, .absoluteY⟩, none, none,
     none, some ⟨.and, .absoluteX⟩, some ⟨.rol, .absoluteX⟩, none],
  -- 0x40 to 0x4F
  #v[some ⟨.rti, .implicit⟩, some ⟨.eor, .indirectX⟩, none, none, none, some ⟨.eor, .zeroPage⟩,
     some ⟨.lsr, .zeroPage⟩, none, some ⟨.pha, .implicit⟩, some ⟨.eor, .immediate⟩,
     some ⟨.lsr, .accumulator⟩, none, some ⟨.jmp, .absolute⟩, some ⟨.eor, .absolute⟩,
     some ⟨.lsr, .absolute⟩, none],
  -- 0x50 to 0x5F
  #v[some ⟨.bvc, .relative⟩, some ⟨.eor, .indirectY⟩, none, none, none, some ⟨.eor, .zeroPageX⟩,
     some ⟨.lsr, .zeroPageX⟩, none, some ⟨.cli, .implicit⟩, some ⟨.eor, .absoluteY⟩, none, none,
     none, some ⟨.eor, .absoluteX⟩, some ⟨.lsr, .absoluteX⟩, none],
  -- 0x60 to 0x6F
  #v[some ⟨.rts, .implicit⟩, some ⟨.adc, .indirectX⟩, none, none, none, some ⟨.adc, .zeroPage⟩,
     some ⟨.ror, .zeroPage⟩, none, some ⟨.pla, .implicit⟩, some ⟨.adc, .immediate⟩,
     some ⟨.ror, .accumulator⟩, none, some ⟨.jmp, .indirect⟩, some ⟨.adc, .absolute⟩,
     some ⟨.ror, .absolute⟩, none],
  -- 0x70 to 0x7F
  #v[some ⟨.bvs, .relative⟩, some ⟨.adc, .indirectY⟩, none, none, none, some ⟨.adc, .zeroPageX⟩,
     some ⟨.ror, .zeroPageX⟩, none, some ⟨.sei, .implicit⟩, some ⟨.adc, .absoluteY⟩, none, none,
     none, some ⟨.adc, .absoluteX⟩, some ⟨.ror, .absoluteX⟩, none],
  -- 0x80 to 0x8F
  #v[none, some ⟨.sta, .indirectX⟩, none, none, some ⟨.sty, .zeroPage⟩, some ⟨.sta, .zeroPage⟩,
     some ⟨.stx, .zeroPage⟩, none, some ⟨.dey, .implicit⟩, none, some ⟨.txa, .implicit⟩, none,
     some ⟨.sty, .absolute⟩, some ⟨.sta, .absolute⟩, some ⟨.stx, .absolute⟩, none],
  -- 0x90 to 0x9F
  #v[some ⟨.bcc, .relative⟩, some ⟨.sta, .indirectY⟩, none, none, some ⟨.sty, .zeroPageX⟩,
     some ⟨.sta, .zeroPageX⟩, some ⟨.stx, .zeroPageY⟩, none, some ⟨.tya, .implicit⟩,
     some ⟨.sta, .absoluteY⟩, some ⟨.txs, .implicit⟩, none, none, some ⟨.sta, .absoluteX⟩, none,
     none],
  -- 0xA0 to 0xAF
  #v[some ⟨.ldy, .immediate⟩, some ⟨.lda, .indirectX⟩, some ⟨.ldx, .immediate⟩, none,
     some ⟨.ldy, .zeroPage⟩, some ⟨.lda, .zeroPage⟩, some ⟨.ldx, .zeroPage⟩, none,
     some ⟨.tay, .implicit⟩, some ⟨.lda, .immediate⟩, some ⟨.tax, .implicit⟩, none,
     some ⟨.ldy, .absolute⟩, some ⟨.lda, .absolute⟩, some ⟨.ldx, .absolute⟩, none],
  -- 0xB0 to 0xBF
  #v[some ⟨.bcs, .relative⟩, some ⟨.lda, .indirectY⟩, none, none, some ⟨.ldy, .zeroPageX⟩,
     some ⟨.lda, .zeroPageX⟩, some ⟨.ldx, .zeroPageY⟩, none, some ⟨.clv, .implicit⟩,
     some ⟨.lda, .absoluteY⟩, some ⟨.tsx, .implicit⟩, none, some ⟨.ldy, .absoluteX⟩,
     some ⟨.lda, .absoluteX⟩, some ⟨.ldx, .absoluteY⟩, none],
  -- 0xC0 to 0xCF
  #v[some ⟨.cpy, .immediate⟩, some ⟨.cmp, .indirectX⟩, none, none, some ⟨.cpy, .zeroPage⟩,
     some ⟨.cmp, .zeroPage⟩, some ⟨.dec, .zeroPage⟩, none, some ⟨.iny, .implicit⟩,
     some ⟨.cmp, .immediate⟩, some ⟨.dex, .implicit⟩, none, some ⟨.cpy, .absolute⟩,
     some ⟨.cmp, .absolute⟩, some ⟨.dec, .absolute⟩, none],
  -- 0xD0 to 0xDF
  #v[some ⟨.bne, .relative⟩, some ⟨.cmp, .indirectY⟩, none, none, none, some ⟨.cmp, .zeroPageX⟩,
     some ⟨.dec, .zeroPageX⟩, none, some ⟨.cld, .implicit⟩, some ⟨.cmp, .absoluteY⟩, none, none,
     none, some ⟨.cmp, .absoluteX⟩, some ⟨.dec, .absoluteX⟩, none],
  -- 0xE0 to 0xEF
  #v[some ⟨.cpx, .immediate⟩, some ⟨.sbc, .indirectX⟩, none, none, some ⟨.cpx, .zeroPage⟩,
     some ⟨.sbc, .zeroPage⟩, some ⟨.inc, .zeroPage⟩, none, some ⟨.inx, .implicit⟩,
     some ⟨.sbc, .immediate⟩, some ⟨.nop, .implicit⟩, none, some ⟨.cpx, .absolute⟩,
     some ⟨.sbc, .absolute⟩, some ⟨.inc, .absolute⟩, none],
  -- 0xF0 to 0xFF
  #v[some ⟨.beq, .relative⟩, some ⟨.sbc, .indirectY⟩, none, none, none, some ⟨.sbc, .zeroPageX⟩,
     some ⟨.inc, .zeroPageX⟩, none, some ⟨.sed, .implicit⟩, some ⟨.sbc, .absoluteY⟩, none, none,
     none, some ⟨.sbc, .absoluteX⟩, some ⟨.inc, .absoluteX⟩, none]]

/-- What an opcode stands for, if it is documented. -/
def encoding (opcode : UInt8) : Option Encoding :=
  have row : opcode.toNat / 16 < 16 := by have := opcode.toNat_lt; omega
  matrix[opcode.toNat / 16][opcode.toNat % 16]

/-- All opcodes in ascending order. -/
def all : List UInt8 := (List.range 256).map UInt8.ofNat

/-- The length in bytes of the instruction that an opcode begins. -/
def size (opcode : UInt8) : Nat :=
  match encoding opcode with
  | some e => e.size
  | none => 1

/-- The addressing mode of the instruction that an opcode begins; an opcode that
stands for nothing takes no operand. -/
def mode (opcode : UInt8) : AddressingMode :=
  match encoding opcode with
  | some e => e.mode
  | none => .implicit

/-- How an opcode that stands for nothing is shown. -/
def unknownName : String := "???"

/-- The mnemonic that an opcode is shown with. -/
def name (opcode : UInt8) : String :=
  match encoding opcode with
  | some e => e.mnemonic.name
  | none => unknownName

end Opcode

/-! ## §2. Looking up. -/

/-- The first opcode that stands for an instruction in an addressing mode, if the
instruction has that mode. -/
def Encoding.opcode? (encoding : Encoding) : Option UInt8 :=
  Opcode.all.find? fun opcode => Opcode.encoding opcode = some encoding

/-- The addressing modes of an instruction in the order of their opcodes. -/
def Mnemonic.modes (mnemonic : Mnemonic) : List AddressingMode :=
  (Opcode.all.filterMap Opcode.encoding).filterMap fun encoding =>
    if encoding.mnemonic = mnemonic then some encoding.mode else none

/-! ## §3. Laws. -/

theorem opcode?_of_encoding {opcode : UInt8} {e : Encoding}
    (h : Opcode.encoding opcode = some e) : e.opcode? = some opcode := by
  have all : ∀ n : Fin 256, ∀ e ∈ Opcode.encoding (UInt8.ofFin n),
      e.opcode? = some (UInt8.ofFin n) := by decide +kernel
  exact all opcode.toFin e h

end Mos6502
