/-
  Mos6502.Arithmetic.Binary — addition of bytes with carry

  The sum of two bytes and a carry has nine bits: eight are the result and the
  ninth is the carry out.  Read as signed numbers, the sum fails to fit in eight
  bits exactly when both bytes have the sign that the result lacks.  Subtraction
  needs no rule of its own, being the addition of the complement.

  Main statements:
    * `toNat_add`        — result and carry out are the sum
    * `overflow_add`     — overflow in terms of signs
-/

namespace Mos6502

/-- Bit 7 tells whether a byte is 128 or more. -/
theorem and_0x80_ne_zero (b : UInt8) : (b &&& 0x80 != 0) = decide (128 ≤ b.toNat) := by
  have all : ∀ n : Fin 256, (UInt8.ofFin n &&& 0x80 != 0) = decide (128 ≤ n.val) := by
    decide +kernel
  exact all b.toFin

namespace Binary

/-- The outcome of an addition. -/
structure Sum where
  /-- The low eight bits. -/
  result : UInt8
  /-- The ninth bit. -/
  carry : Bool
  /-- Whether the signed sum does not fit in eight bits. -/
  overflow : Bool
  deriving Repr, DecidableEq

/-- Adds two bytes and a carry. -/
def add (a v : UInt8) (carry : Bool) : Sum :=
  let sum := a.toNat + v.toNat + carry.toNat
  let result := UInt8.ofNat sum
  { result
    carry := decide (0xFF < sum)
    overflow := ~~~(a ^^^ v) &&& (a ^^^ result) &&& 0x80 != 0 }

/-- Subtracts a byte; a clear carry is a borrow, both in and out. -/
def subtract (a v : UInt8) (carry : Bool) : Sum := add a (~~~v) carry

/-- Nothing of the sum is lost. -/
theorem toNat_add (a v : UInt8) (carry : Bool) :
    (add a v carry).result.toNat + 256 * (add a v carry).carry.toNat
      = a.toNat + v.toNat + carry.toNat := by
  have ha := a.toNat_lt
  have hv := v.toNat_lt
  have hc : carry.toNat ≤ 1 := by cases carry <;> decide
  simp only [add, UInt8.toNat_ofNat']
  by_cases h : 0xFF < a.toNat + v.toNat + carry.toNat
  · simp only [h, decide_true, Bool.toNat_true]
    omega
  · simp only [h, decide_false, Bool.toNat_false]
    omega

/-- Overflow tells that both bytes have the sign that the result lacks. -/
theorem overflow_add (a v : UInt8) (carry : Bool) :
    (add a v carry).overflow = true
      ↔ (128 ≤ a.toNat ↔ 128 ≤ v.toNat)
        ∧ ¬ (128 ≤ a.toNat ↔ 128 ≤ (add a v carry).result.toNat) := by
  have hsign : ∀ b : UInt8, 128 ≤ b.toNat ↔ b.toBitVec.msb = true := by
    intro b
    rw [BitVec.msb_eq_decide, decide_eq_true_eq]
    rfl
  have hbits : (add a v carry).overflow
      = (~~~(a ^^^ v) &&& (a ^^^ (add a v carry).result) &&& 0x80 != 0) := rfl
  rw [hbits, and_0x80_ne_zero, decide_eq_true_eq]
  -- The sign bits go through the bitwise operations, so that three of them settle it.
  simp only [hsign, UInt8.toBitVec_and, UInt8.toBitVec_not, UInt8.toBitVec_xor, BitVec.msb_and,
    BitVec.msb_not, BitVec.msb_xor]
  cases a.toBitVec.msb <;> cases v.toBitVec.msb
    <;> cases (add a v carry).result.toBitVec.msb <;> decide

end Binary

end Mos6502
