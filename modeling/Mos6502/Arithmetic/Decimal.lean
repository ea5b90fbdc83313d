/-
  Mos6502.Arithmetic.Decimal — packed decimal addition and subtraction

  A byte of packed decimal has one decimal digit in each half.  The halves are
  added as binary numbers; where the low one passes nine it is moved up by six,
  so that it carries into the high one, and where the whole passes 99 it is
  brought back by a hundred.  Subtraction borrows in the same two places.  The
  rules are applied to any bytes, also to those with a half above nine.
-/

namespace Mos6502.Decimal

/-- The outcome of a decimal operation. -/
structure Sum where
  /-- The two digits. -/
  result : UInt8
  /-- A carry out, or after a subtraction that nothing had to be borrowed. -/
  carry : Bool
  deriving Repr, DecidableEq

/-- The low half of a byte. -/
def lowDigit (b : UInt8) : UInt8 := b &&& 0x0F

/-- The high half of a byte, left in its place. -/
def highDigit (b : UInt8) : UInt8 := b &&& 0xF0

/-- Adds two bytes and a carry as decimal numbers. -/
def add (a v : UInt8) (carry : Bool) : Sum :=
  let low := (lowDigit a).toNat + (lowDigit v).toNat + carry.toNat
  -- ten in the low half becomes a carry of sixteen
  let low := if 9 < low then low + 6 else low
  let sum := (highDigit a).toNat + (highDigit v).toNat + low
  if 0x99 < sum then ⟨UInt8.ofNat sum - 0xA0, true⟩ else ⟨UInt8.ofNat sum, false⟩

/-- Subtracts a byte as a decimal number; a clear carry is a borrow, both in and
out. -/
def subtract (a v : UInt8) (carry : Bool) : Sum :=
  let low := lowDigit a - lowDigit v - (!carry).toUInt8
  let high := highDigit a - highDigit v
  -- a difference below zero shows in bit 7
  let borrowed := low &&& 0x80 != 0
  let low := if borrowed then low + 10 else low
  let high := if borrowed then high - 0x10 else high
  -- no difference of two digits is above nine, unless it went below zero
  if 0x90 < high then ⟨high + 0xA0 + low, false⟩ else ⟨high + low, true⟩

end Mos6502.Decimal
