/-
  Mos6502.Proofs.LittleEndian — numbers of many bytes

  A number that does not fit in a byte is a sequence of bytes, the lowest first.  The
  sequence denotes a number below a power of 256, or, read as two's complement, a number
  in the half of that range below zero or the half above.  Either way the first byte
  counts once and what the others denote counts 256 times, the sign being in the last.
  So a law about sums of two bytes becomes one about sums of any length.

  Main statements:
    * `littleEndian_complement`, `signed_complement` — complements of all bytes
    * `signed_cons`, `fitsSigned_cons_iff` — signed numbers and their range, byte by byte
    * `overflow_add_iff`       — the overflow of one addition as a matter of range
-/
import Mathlib.Data.Nat.Digits.Defs
import Mos6502.Arithmetic.Binary

namespace Mos6502

/-! ## §1. Numbers from zero up. -/

/-- The number that a sequence of bytes denotes, the lowest byte first. -/
def littleEndian (bytes : List UInt8) : Nat := Nat.ofDigits 256 (bytes.map UInt8.toNat)

theorem littleEndian_cons (b : UInt8) (rest : List UInt8) :
    littleEndian (b :: rest) = b.toNat + 256 * littleEndian rest := by
  unfold littleEndian
  rw [List.map_cons, Nat.ofDigits_cons]

theorem littleEndian_lt (bytes : List UInt8) : littleEndian bytes < 256 ^ bytes.length := by
  have hdigits : ∀ digit ∈ bytes.map UInt8.toNat, digit < 256 := by
    intro digit hdigit
    obtain ⟨b, -, rfl⟩ := List.mem_map.mp hdigit
    exact b.toNat_lt
  have hlt := Nat.ofDigits_lt_base_pow_length (by decide) hdigits
  rwa [List.length_map] at hlt

/-- A number and the one of the complements make up the highest number of their length. -/
theorem littleEndian_complement (bytes : List UInt8) :
    littleEndian (bytes.map (~~~·)) + littleEndian bytes + 1 = 256 ^ bytes.length := by
  induction bytes with
  | nil => rfl
  | cons b rest ih =>
    have hb := b.toNat_lt
    have hnot : (~~~b).toNat = 255 - b.toNat := UInt8.toNat_not b
    rw [List.map_cons, littleEndian_cons, littleEndian_cons, List.length_cons, Nat.pow_succ, hnot]
    omega

/-! ## §2. Signed numbers. -/

/-- The number that a sequence of bytes denotes in two's complement. -/
def signed (bytes : List UInt8) : Int := (littleEndian bytes : Int).bmod (256 ^ bytes.length)

/-- Whether a number is in the range of two's complement numbers of `length` bytes. -/
def FitsSigned (length : Nat) (x : Int) : Prop :=
  -(2 : Int) ^ (8 * length - 1) ≤ x ∧ x ≤ 2 ^ (8 * length - 1) - 1

instance (length : Nat) (x : Int) : Decidable (FitsSigned length x) :=
  inferInstanceAs (Decidable (_ ∧ _))

theorem signed_eq (bytes : List UInt8) :
    signed bytes
      = if 2 * littleEndian bytes < 256 ^ bytes.length then (littleEndian bytes : Int)
        else littleEndian bytes - (256 ^ bytes.length : Nat) := by
  have hlt := littleEndian_lt bytes
  have hmod : (littleEndian bytes : Int) % (256 ^ bytes.length : Nat) = littleEndian bytes := by
    apply Int.emod_eq_of_lt <;> omega
  unfold signed
  rw [Int.bmod_def, hmod]
  split <;> split <;> omega

theorem signed_singleton (b : UInt8) :
    signed [b] = if b.toNat < 128 then (b.toNat : Int) else b.toNat - 256 := by
  have hb : littleEndian [b] = b.toNat := littleEndian_cons b []
  rw [signed_eq, hb, show 256 ^ [b].length = 256 from rfl]
  split <;> split <;> omega

theorem even_pow_length {bytes : List UInt8} (h : bytes ≠ []) : 256 ^ bytes.length % 2 = 0 := by
  obtain ⟨b, rest, rfl⟩ := List.exists_cons_of_ne_nil h
  rw [List.length_cons, Nat.pow_succ]
  omega

/-- The first byte has no sign, as long as there are others. -/
theorem signed_cons (b : UInt8) {rest : List UInt8} (h : rest ≠ []) :
    signed (b :: rest) = b.toNat + 256 * signed rest := by
  have hb := b.toNat_lt
  have heven := even_pow_length h
  rw [signed_eq, signed_eq, littleEndian_cons, List.length_cons, Nat.pow_succ]
  split <;> split <;> omega

/-- The complements denote as much below -1 as the bytes denote above 0. -/
theorem signed_complement {bytes : List UInt8} (h : bytes ≠ []) :
    signed (bytes.map (~~~·)) = -1 - signed bytes := by
  have hsum := littleEndian_complement bytes
  have heven := even_pow_length h
  rw [signed_eq, signed_eq, List.length_map]
  split <;> split <;> omega

theorem fitsSigned_one_iff (x : Int) : FitsSigned 1 x ↔ -128 ≤ x ∧ x ≤ 127 := Iff.rfl

/-- Whether a number fits is settled without its first byte. -/
theorem fitsSigned_cons_iff (b : UInt8) {length : Nat} (h : 0 < length) (x : Int) :
    FitsSigned (length + 1) (b.toNat + 256 * x) ↔ FitsSigned length x := by
  have hb := b.toNat_lt
  have hpow : (2 : Int) ^ (8 * (length + 1) - 1) = 2 ^ (8 * length - 1) * 256 := by
    rw [show 8 * (length + 1) - 1 = 8 * length - 1 + 8 by omega, Int.pow_add]
    rfl
  unfold FitsSigned
  rw [hpow]
  constructor <;> rintro ⟨hlow, hhigh⟩ <;> constructor <;> omega

/-! ## §3. Overflow. -/

/-- Overflow tells that the signed sum of two bytes and a carry is out of range. -/
theorem Binary.overflow_add_iff (a v : UInt8) (carry : Bool) :
    (add a v carry).overflow = true
      ↔ ¬ FitsSigned 1 (signed [a] + signed [v] + carry.toNat) := by
  have ha := a.toNat_lt
  have hv := v.toNat_lt
  have hr := (add a v carry).result.toNat_lt
  have hc := carry.toNat_le
  have hcarry := (add a v carry).carry.toNat_le
  have hsum := toNat_add a v carry
  rw [overflow_add, fitsSigned_one_iff, signed_singleton, signed_singleton]
  split <;> split <;> omega

end Mos6502
