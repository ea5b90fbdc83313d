/-
  Mos6502.Word — words of two bytes

  An address is a word, and the processor meets words one byte at a time: in
  operands, in pointers and on the stack, the low byte always comes first.
  This file joins two bytes into a word, takes a word apart again, and widens
  a signed byte to the word that is added to an address.

  Main statements:
    * `toNat_word`       — the word is `256 * high + low`
    * `word_low_high`    — taking a word apart and joining it gives it back
    * `word_inj`, `signExtend_inj` — different bytes give different words
-/

namespace Mos6502

/-! ## §1. Joining and taking apart. -/

/-- The word with the given low and high byte. -/
def word (low high : UInt8) : UInt16 :=
  high.toUInt16 * 256 + low.toUInt16

/-- The byte of a word that is stored first. -/
def lowByte (w : UInt16) : UInt8 := w.toUInt8

/-- The byte of a word that is stored second. -/
def highByte (w : UInt16) : UInt8 := (w / 256).toUInt8

/-- A byte read as a two's complement number and widened to a word, so that
adding the word moves an address forward by at most 127 or back by at most 128. -/
def signExtend (offset : UInt8) : UInt16 :=
  if offset < 0x80 then offset.toUInt16 else offset.toUInt16 + 0xFF00

/-! ## §2. Their numbers. -/

theorem toNat_word (low high : UInt8) :
    (word low high).toNat = 256 * high.toNat + low.toNat := by
  have hl := low.toNat_lt
  have hh := high.toNat_lt
  have h256 : (256 : UInt16).toNat = 256 := rfl
  simp only [word, UInt16.toNat_add, UInt16.toNat_mul, UInt8.toNat_toUInt16, h256]
  omega

theorem toNat_lowByte (w : UInt16) : (lowByte w).toNat = w.toNat % 256 := by
  simp [lowByte]

theorem toNat_highByte (w : UInt16) : (highByte w).toNat = w.toNat / 256 := by
  have hw := w.toNat_lt
  have h256 : (256 : UInt16).toNat = 256 := rfl
  simp only [highByte, UInt16.toNat_toUInt8, UInt16.toNat_div, h256]
  omega

@[simp] theorem lowByte_word (low high : UInt8) : lowByte (word low high) = low := by
  have hl := low.toNat_lt
  apply UInt8.toNat_inj.mp
  rw [toNat_lowByte, toNat_word]
  omega

@[simp] theorem highByte_word (low high : UInt8) : highByte (word low high) = high := by
  have hl := low.toNat_lt
  apply UInt8.toNat_inj.mp
  rw [toNat_highByte, toNat_word]
  omega

@[simp] theorem word_low_high (w : UInt16) : word (lowByte w) (highByte w) = w := by
  apply UInt16.toNat_inj.mp
  rw [toNat_word, toNat_lowByte, toNat_highByte]
  omega

theorem word_inj {low high low' high' : UInt8} :
    word low high = word low' high' ↔ low = low' ∧ high = high' := by
  constructor
  · intro h
    have hlow := congrArg lowByte h
    have hhigh := congrArg highByte h
    rw [lowByte_word, lowByte_word] at hlow
    rw [highByte_word, highByte_word] at hhigh
    exact ⟨hlow, hhigh⟩
  · rintro ⟨rfl, rfl⟩
    rfl

theorem toNat_signExtend (offset : UInt8) :
    (signExtend offset).toNat
      = if offset.toNat < 128 then offset.toNat else offset.toNat + 65280 := by
  have ho := offset.toNat_lt
  have h80 : (0x80 : UInt8).toNat = 128 := rfl
  have hff : (0xFF00 : UInt16).toNat = 65280 := rfl
  simp only [signExtend, UInt8.lt_iff_toNat_lt, h80]
  split
  · simp
  · simp only [UInt16.toNat_add, UInt8.toNat_toUInt16, hff]
    omega

theorem signExtend_inj {offset other : UInt8} :
    signExtend offset = signExtend other ↔ offset = other := by
  constructor
  · intro h
    have hnat := congrArg UInt16.toNat h
    have ho := offset.toNat_lt
    have ht := other.toNat_lt
    rw [toNat_signExtend, toNat_signExtend] at hnat
    apply UInt8.toNat_inj.mp
    split at hnat <;> split at hnat <;> omega
  · rintro rfl
    rfl

end Mos6502
