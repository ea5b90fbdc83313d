/-
  Mos6502.Hex — hexadecimal text

  Every number that a listing, a fault or a register dump shows is written in
  upper-case hexadecimal of a fixed width: two digits for a byte and four for
  a word, the most significant digit first.  Digits are read back one by one, and what
  is read does not depend on how they were written.

  Main statements:
    * `hexByte_inj`, `hexWord_inj` — different numbers have different texts
    * `hexNumber?_hexWord`         — the digits of a word stand for that word
-/
import Mos6502.Word

namespace Mos6502

/-! ## §1. Digits. -/

/-- The upper-case hexadecimal digit of a number below sixteen. -/
def hexDigit (n : Nat) : Char :=
  if n < 10 then Char.ofNat (0x30 + n) else Char.ofNat (0x37 + n)

/-- The two digits of a byte. -/
def byteDigits (b : UInt8) : List Char :=
  [hexDigit (b.toNat / 16), hexDigit (b.toNat % 16)]

/-! ## §2. Text. -/

/-- A byte as two digits. -/
def hexByte (b : UInt8) : String := String.ofList (byteDigits b)

/-- A word as four digits. -/
def hexWord (w : UInt16) : String :=
  String.ofList (byteDigits (highByte w) ++ byteDigits (lowByte w))

/-- A sequence of bytes, two digits each, with nothing between them. -/
def hexBytes (bytes : List UInt8) : String :=
  String.ofList (bytes.flatMap byteDigits)

/-! ## §3. Reading. -/

/-- The number that an upper-case hexadecimal digit stands for. -/
def hexDigitValue? (c : Char) : Option Nat :=
  if '0' ≤ c ∧ c ≤ '9' then some (c.toNat - 0x30)
  else if 'A' ≤ c ∧ c ≤ 'F' then some (c.toNat - 0x37)
  else none

/-- The number that a sequence of hexadecimal digits stands for, the most significant digit
first. -/
def hexNumber? (digits : List Char) : Option Nat :=
  digits.foldlM (fun number c => (hexDigitValue? c).map (16 * number + ·)) 0

/-! ## §4. Laws. -/

theorem hexDigit_inj {m n : Nat} (hm : m < 16) (hn : n < 16) (h : hexDigit m = hexDigit n) :
    m = n := by
  have all : ∀ m < 16, ∀ n < 16, hexDigit m = hexDigit n → m = n := by decide
  exact all m hm n hn h

theorem byteDigits_inj {b c : UInt8} : byteDigits b = byteDigits c ↔ b = c := by
  constructor
  · intro h
    have hb := b.toNat_lt
    have hc := c.toNat_lt
    simp only [byteDigits, List.cons.injEq, and_true] at h
    have high := hexDigit_inj (by omega) (by omega) h.1
    have low := hexDigit_inj (by omega) (by omega) h.2
    apply UInt8.toNat_inj.mp
    omega
  · rintro rfl
    rfl

theorem hexByte_inj {b c : UInt8} : hexByte b = hexByte c ↔ b = c :=
  String.ofList_inj.trans byteDigits_inj

theorem hexWord_inj {v w : UInt16} : hexWord v = hexWord w ↔ v = w := by
  constructor
  · intro h
    have digits := List.append_inj (String.ofList_inj.mp h) rfl
    rw [← word_low_high v, ← word_low_high w, byteDigits_inj.mp digits.1,
      byteDigits_inj.mp digits.2]
  · rintro rfl
    rfl

theorem hexDigitValue?_hexDigit {n : Nat} (h : n < 16) : hexDigitValue? (hexDigit n) = some n := by
  have digits : ∀ n < 16, hexDigitValue? (hexDigit n) = some n := by decide
  exact digits n h

/-- Reading on after some digits is reading from their number on. -/
theorem hexNumber?_append_byteDigits {digits : List Char} {number : Nat}
    (h : hexNumber? digits = some number) (b : UInt8) :
    hexNumber? (digits ++ byteDigits b) = some (256 * number + b.toNat) := by
  have hb := b.toNat_lt
  have hhigh := hexDigitValue?_hexDigit (show b.toNat / 16 < 16 by omega)
  have hlow := hexDigitValue?_hexDigit (show b.toNat % 16 < 16 by omega)
  unfold hexNumber? at h ⊢
  rw [List.foldlM_append, h]
  simp only [byteDigits, List.foldlM_cons, List.foldlM_nil, hhigh, hlow, Option.map_some,
    Option.bind_eq_bind, Option.bind_some, Option.pure_def, Option.some.injEq]
  omega

theorem hexNumber?_hexWord (w : UInt16) : hexNumber? (hexWord w).toList = some w.toNat := by
  have hhigh := hexNumber?_append_byteDigits (show hexNumber? [] = some 0 from rfl) (highByte w)
  have hboth := hexNumber?_append_byteDigits hhigh (lowByte w)
  have hvalue : 256 * (256 * 0 + (highByte w).toNat) + (lowByte w).toNat = w.toNat := by
    rw [toNat_highByte, toNat_lowByte]
    omega
  rw [hvalue] at hboth
  unfold hexWord
  rw [String.toList_ofList]
  exact hboth

theorem length_hexWord (w : UInt16) : (hexWord w).toList.length = 4 := by
  unfold hexWord
  rw [String.toList_ofList]
  rfl

end Mos6502
