/-
  Mos6502.Proofs.PackedDecimal — decimal sums and differences against the numbers they are about

  A byte is packed decimal when both of its halves are digits; it then denotes a
  number below a hundred.  An addition carries from half to half and out of the byte,
  and is always right.  A subtraction works on the halves as binary numbers and
  tells a borrow by a high half above nine.  That rule is right as long as no more
  than six tens are missing: with seven or more missing, the high half comes round
  to a digit, the borrow is lost, and the result is 60 too high.

  Main statements:
    * `add_of_packed`        — the sum is right
    * `subtract_eq_settle`   — the halves before the last rule, as numbers
    * `subtract_of_packed`   — when the difference is right, and what it is otherwise
    * `step_sbc_decimal`     — the same of a step, in every addressing mode
-/
import Mos6502.Arithmetic.Decimal
import Mos6502.Proofs.Stepping

namespace Mos6502

/-! ## §1. Bytes and their halves. -/

namespace Decimal

/-- Whether both halves of a byte are digits. -/
def IsPacked (b : UInt8) : Prop := b.toNat / 16 ≤ 9 ∧ b.toNat % 16 ≤ 9

instance (b : UInt8) : Decidable (IsPacked b) := inferInstanceAs (Decidable (_ ∧ _))

/-- The number from 0 to 99 that a byte of packed decimal denotes. -/
def value (b : UInt8) : Nat := 10 * (b.toNat / 16) + b.toNat % 16

/-- What a subtraction is to give, before it is brought into the range of a byte.  A
clear carry is a borrow. -/
def difference (a v : UInt8) (carry : Bool) : Int := value a - value v - (1 - carry.toNat)

theorem toNat_lowDigit (b : UInt8) : (lowDigit b).toNat = b.toNat % 16 := by
  rw [lowDigit, UInt8.toNat_and]
  exact Nat.and_two_pow_sub_one_eq_mod b.toNat 4

theorem toNat_highDigit (b : UInt8) : (highDigit b).toNat = 16 * (b.toNat / 16) := by
  have all : ∀ n : Fin 256, (highDigit (UInt8.ofFin n)).toNat = 16 * (n.val / 16) := by
    decide +kernel
  exact all b.toFin

theorem packed_of_digits {b : UInt8} {tens ones : Int} (htens : 0 ≤ tens ∧ tens ≤ 9)
    (hones : 0 ≤ ones ∧ ones ≤ 9) (h : (b.toNat : Int) = 16 * tens + ones) :
    IsPacked b ∧ (value b : Int) = 10 * tens + ones := by
  unfold IsPacked value
  omega

/-! ## §2. Addition. -/

/-- The last rule of an addition: what is above 99 is brought back by a hundred and carried. -/
def carryOver (sum : Nat) : Sum :=
  if 0x99 < sum then ⟨UInt8.ofNat sum - 0xA0, true⟩ else ⟨UInt8.ofNat sum, false⟩

/-- The rule is right for a sum of which the tens, up to nineteen, are in the high half. -/
theorem carryOver_digits {n : Nat} (h : n < 200) :
    IsPacked (carryOver (16 * (n / 10) + n % 10)).result
    ∧ value (carryOver (16 * (n / 10) + n % 10)).result
        + 100 * (carryOver (16 * (n / 10) + n % 10)).carry.toNat = n := by
  unfold carryOver
  split
  · have hres : (UInt8.ofNat (16 * (n / 10) + n % 10) - 0xA0).toNat
        = 16 * (n / 10 - 10) + n % 10 := by
      rw [UInt8.toNat_sub, UInt8.toNat_ofNat', show (0xA0 : UInt8).toNat = 160 from rfl]
      omega
    unfold IsPacked value
    rw [hres, Bool.toNat_true]
    omega
  · have hres : (UInt8.ofNat (16 * (n / 10) + n % 10)).toNat = 16 * (n / 10) + n % 10 := by
      rw [UInt8.toNat_ofNat']
      omega
    unfold IsPacked value
    rw [hres, Bool.toNat_false]
    omega

/-- Before the last rule ten in the low half has become one in the high half, so that both
together are the sum. -/
theorem add_eq_carryOver {a v : UInt8} (ha : IsPacked a) (hv : IsPacked v) (carry : Bool) :
    add a v carry
      = carryOver (16 * ((value a + value v + carry.toNat) / 10)
          + (value a + value v + carry.toNat) % 10) := by
  obtain ⟨-, hal⟩ := ha
  obtain ⟨-, hvl⟩ := hv
  have hc : carry.toNat ≤ 1 := Bool.toNat_le _
  have hlow : (highDigit a).toNat + (highDigit v).toNat
      + (if 9 < (lowDigit a).toNat + (lowDigit v).toNat + carry.toNat then
          (lowDigit a).toNat + (lowDigit v).toNat + carry.toNat + 6
        else (lowDigit a).toNat + (lowDigit v).toNat + carry.toNat)
      = 16 * ((value a + value v + carry.toNat) / 10)
          + (value a + value v + carry.toNat) % 10 := by
    unfold value
    rw [toNat_lowDigit, toNat_lowDigit, toNat_highDigit, toNat_highDigit]
    split <;> omega
  rw [← hlow]
  rfl

/-- **Packed addition.**  Result and carry are the sum, for any two packed bytes. -/
theorem add_of_packed {a v : UInt8} (ha : IsPacked a) (hv : IsPacked v) (carry : Bool) :
    IsPacked (add a v carry).result
    ∧ value (add a v carry).result + 100 * (add a v carry).carry.toNat
        = value a + value v + carry.toNat := by
  have hsum : value a + value v + carry.toNat < 200 := by
    obtain ⟨hah, hal⟩ := ha
    obtain ⟨hvh, hvl⟩ := hv
    have hc : carry.toNat ≤ 1 := Bool.toNat_le _
    unfold value
    omega
  rw [add_eq_carryOver ha hv]
  exact carryOver_digits hsum

/-! ## §3. The last rule of a subtraction. -/

/-- The last rule of a subtraction: a high half above nine is taken for a borrow. -/
def settle (low high : UInt8) : Sum :=
  if 0x90 < high then ⟨high + 0xA0 + low, false⟩ else ⟨high + low, true⟩

/-- The rule sees a borrow of up to six tens. -/
theorem settle_of_borrow {low high : UInt8} {d : Int} (hmin : -60 ≤ d) (hmax : d < 0)
    (hlow : (low.toNat : Int) = d % 10) (hhigh : (high.toNat : Int) = 16 * (d / 10 % 16)) :
    IsPacked (settle low high).result ∧ (value (settle low high).result : Int) = d + 100
      ∧ (settle low high).carry = false := by
  have htens : d / 10 % 16 = d / 10 + 16 := by omega
  have hlt : 0x90 < high := by
    rw [UInt8.lt_iff_toNat_lt, show (0x90 : UInt8).toNat = 144 from rfl]
    omega
  have hres : ((high + 0xA0 + low).toNat : Int) = 16 * (d / 10 + 10) + d % 10 := by
    rw [UInt8.toNat_add, UInt8.toNat_add, show (0xA0 : UInt8).toNat = 160 from rfl]
    omega
  unfold settle
  rw [if_pos hlt]
  obtain ⟨hpacked, hvalue⟩ := packed_of_digits (by omega) (by omega) hres
  exact ⟨hpacked, by rw [hvalue]; omega, rfl⟩

/-- It sees none where the high half is a digit, whichever way it became one. -/
theorem settle_of_digit {low high : UInt8} {d tens : Int} (hmin : 0 ≤ tens) (hmax : tens ≤ 9)
    (hlow : (low.toNat : Int) = d % 10) (hhigh : (high.toNat : Int) = 16 * tens) :
    IsPacked (settle low high).result
      ∧ (value (settle low high).result : Int) = 10 * tens + d % 10
      ∧ (settle low high).carry = true := by
  have hle : ¬ 0x90 < high := by
    rw [UInt8.lt_iff_toNat_lt, show (0x90 : UInt8).toNat = 144 from rfl]
    omega
  have hres : ((high + low).toNat : Int) = 16 * tens + d % 10 := by
    rw [UInt8.toNat_add]
    omega
  unfold settle
  rw [if_neg hle]
  obtain ⟨hpacked, hvalue⟩ := packed_of_digits ⟨hmin, hmax⟩ (by omega) hres
  exact ⟨hpacked, hvalue, rfl⟩

/-! ## §4. Subtraction. -/

theorem difference_bounds {a v : UInt8} (ha : IsPacked a) (hv : IsPacked v) (carry : Bool) :
    -100 ≤ difference a v carry ∧ difference a v carry ≤ 99 := by
  obtain ⟨hah, hal⟩ := ha
  obtain ⟨hvh, hvl⟩ := hv
  have hc : carry.toNat ≤ 1 := Bool.toNat_le _
  unfold difference value
  omega

/-- Before the last rule the low half is the last digit of the difference, and the high
half holds its tens modulo sixteen. -/
theorem subtract_eq_settle {a v : UInt8} (ha : IsPacked a) (hv : IsPacked v) (carry : Bool) :
    ∃ low high, subtract a v carry = settle low high
      ∧ (low.toNat : Int) = difference a v carry % 10
      ∧ (high.toNat : Int) = 16 * (difference a v carry / 10 % 16) := by
  obtain ⟨hah, hal⟩ := ha
  obtain ⟨hvh, hvl⟩ := hv
  have hc : carry.toNat ≤ 1 := Bool.toNat_le _
  have hbyte : (!carry).toUInt8.toNat = 1 - carry.toNat := by cases carry <;> rfl
  have hlow : (lowDigit a - lowDigit v - (!carry).toUInt8).toNat
      = (511 + a.toNat % 16 - v.toNat % 16 + carry.toNat) % 256 := by
    rw [UInt8.toNat_sub, UInt8.toNat_sub, toNat_lowDigit, toNat_lowDigit, hbyte]
    omega
  have hhigh : (highDigit a - highDigit v).toNat
      = (256 + 16 * (a.toNat / 16) - 16 * (v.toNat / 16)) % 256 := by
    rw [UInt8.toNat_sub, toNat_highDigit, toNat_highDigit]
    omega
  unfold difference value subtract
  simp only [and_0x80_ne_zero]
  by_cases hborrow : 128 ≤ (lowDigit a - lowDigit v - (!carry).toUInt8).toNat
  · refine ⟨_, _, by simp only [hborrow, decide_true, if_true]; rfl, ?_, ?_⟩
    · rw [UInt8.toNat_add, show (10 : UInt8).toNat = 10 from rfl]
      omega
    · rw [UInt8.toNat_sub, show (16 : UInt8).toNat = 16 from rfl]
      omega
  · refine ⟨_, _, by simp only [hborrow, decide_false, Bool.false_eq_true, if_false]; rfl, ?_, ?_⟩
    · omega
    · omega

/-- **Packed subtraction.**  The result is packed in any case; it is the difference modulo
a hundred, with the right carry, unless the difference is below -60. -/
theorem subtract_of_packed {a v : UInt8} (ha : IsPacked a) (hv : IsPacked v) (carry : Bool) :
    IsPacked (subtract a v carry).result
    ∧ (-60 ≤ difference a v carry →
        (value (subtract a v carry).result : Int) = difference a v carry % 100
        ∧ ((subtract a v carry).carry = true ↔ 0 ≤ difference a v carry))
    ∧ (difference a v carry < -60 →
        (value (subtract a v carry).result : Int) = difference a v carry + 160
        ∧ (subtract a v carry).carry = true) := by
  obtain ⟨hmin, hmax⟩ := difference_bounds ha hv carry
  obtain ⟨low, high, hs, hlow, hhigh⟩ := subtract_eq_settle ha hv carry
  rw [hs]
  generalize difference a v carry = d at *
  rcases (show d < -60 ∨ (-60 ≤ d ∧ d < 0) ∨ 0 ≤ d by omega) with h | ⟨h, hneg⟩ | h
  · -- seven to ten tens are missing: sixteen more make a digit
    have htens : d / 10 % 16 = d / 10 + 16 := by omega
    rw [htens] at hhigh
    obtain ⟨hpacked, hvalue, hcarry⟩ := settle_of_digit (by omega) (by omega) hlow hhigh
    refine ⟨hpacked, fun hge => by omega, fun _ => ⟨?_, hcarry⟩⟩
    omega
  · obtain ⟨hpacked, hvalue, hcarry⟩ := settle_of_borrow h hneg hlow hhigh
    refine ⟨hpacked, fun _ => ⟨by omega, ?_⟩, fun hlt => by omega⟩
    rw [hcarry]
    constructor
    · intro hfalse
      cases hfalse
    · intro hge
      omega
  · have htens : d / 10 % 16 = d / 10 := by omega
    rw [htens] at hhigh
    obtain ⟨hpacked, hvalue, hcarry⟩ := settle_of_digit (by omega) (by omega) hlow hhigh
    refine ⟨hpacked, fun _ => ⟨by omega, ?_⟩, fun hlt => by omega⟩
    exact ⟨fun _ => h, fun _ => hcarry⟩

/-- The result and the carry are right exactly if the difference is -60 or more: below
that they are off by 60 of a hundred. -/
theorem subtract_right_iff {a v : UInt8} (ha : IsPacked a) (hv : IsPacked v) (carry : Bool) :
    ((value (subtract a v carry).result : Int) = difference a v carry % 100
        ∧ ((subtract a v carry).carry = true ↔ 0 ≤ difference a v carry))
      ↔ -60 ≤ difference a v carry := by
  obtain ⟨-, hright, hwrong⟩ := subtract_of_packed ha hv carry
  obtain ⟨hmin, -⟩ := difference_bounds ha hv carry
  constructor
  · rintro ⟨hvalue, -⟩
    refine Int.not_lt.mp fun hlt => ?_
    obtain ⟨hshift, -⟩ := hwrong hlt
    omega
  · exact hright

end Decimal

/-! ## §5. Steps. -/

namespace Machine

open ByteStream Decimal

/-- **A decimal subtraction**, in whichever mode the value is found.  The accumulator and
Carry are the difference modulo a hundred and the absence of a borrow exactly when the
difference is -60 or more; below that the accumulator is 60 too high, and no borrow is
told.  No other bit of the status changes. -/
theorem step_sbc_decimal {machine : Machine} {mode : AddressingMode}
    (instruction : machine.instruction? = some ⟨.sbc, mode⟩)
    (complete : machine.registers.pc.toNat + Encoding.size ⟨.sbc, mode⟩ ≤ machine.window.limit)
    (decimal : machine.registers.p.decimal = true)
    (packed : IsPacked machine.registers.a) (packedOperand : IsPacked (machine.operand mode)) :
    let d := difference machine.registers.a (machine.operand mode) machine.registers.p.carry
    ∃ next, step machine = .ok () next
      ∧ IsPacked next.registers.a
      ∧ next.registers.p = { machine.registers.p with carry := next.registers.p.carry }
      ∧ ((value next.registers.a : Int) = d % 100 ∧ (next.registers.p.carry = true ↔ 0 ≤ d)
          ↔ -60 ≤ d)
      ∧ (d < -60 →
          (value next.registers.a : Int) = d + 160 ∧ next.registers.p.carry = true) := by
  intro d
  have hstep : step machine = .ok () (machine.perform ⟨.sbc, mode⟩) :=
    step_of_complete instruction (.inr (.inl complete))
  have hregisters : (machine.perform ⟨.sbc, mode⟩).registers
      = (advance machine (Encoding.size ⟨.sbc, mode⟩)).registers.acceptDecimal
          (subtract machine.registers.a (machine.operand mode) machine.registers.p.carry) := by
    show Reading.apply .subtract (machine.operand mode) (advance machine _).registers = _
    exact if_pos decimal
  obtain ⟨hpacked, -, hwrong⟩ :=
    subtract_of_packed packed packedOperand machine.registers.p.carry
  refine ⟨_, hstep, ?_⟩
  rw [hregisters]
  exact ⟨hpacked, rfl, subtract_right_iff packed packedOperand _, hwrong⟩

/-- A subtraction of 34 from 21. -/
def smallBorrow : Machine :=
  (new.loadProgram [0xE9, 0x34] 0x0200).2.update { a := some 0x21, p := some (Status.ofByte 0x09) }

theorem step_sbc_decimal_smallBorrow :
    smallBorrow.instruction? = some ⟨.sbc, .immediate⟩
    ∧ ∃ next, step smallBorrow = .ok () next ∧ IsPacked next.registers.a
        ∧ value next.registers.a = 87 ∧ next.registers.p.carry = false := by
  have hd : difference smallBorrow.registers.a (smallBorrow.operand .immediate)
      smallBorrow.registers.p.carry = -13 := by decide +kernel
  have hinstr : smallBorrow.instruction? = some ⟨.sbc, .immediate⟩ := by decide +kernel
  refine ⟨hinstr, ?_⟩
  obtain ⟨next, hstep, hpacked, -, hright, -⟩ :=
    step_sbc_decimal hinstr (by decide +kernel) (by decide +kernel) (by decide +kernel)
      (by decide +kernel)
  rw [hd] at hright
  obtain ⟨hvalue, hcarry⟩ := hright.mpr (by decide)
  refine ⟨next, hstep, hpacked, by omega, ?_⟩
  rw [Bool.eq_false_iff]
  intro htrue
  exact absurd (hcarry.mp htrue) (by decide)

/-- A subtraction of 90 from 0, for which nine tens have to be borrowed. -/
def largeBorrow : Machine :=
  (new.loadProgram [0xE9, 0x90] 0x0200).2.update { p := some (Status.ofByte 0x09) }

/-- The borrow is lost: 70 without a borrow, where 10 with a borrow is the difference. -/
theorem sbc_decimal_loses_borrow :
    largeBorrow.instruction? = some ⟨.sbc, .immediate⟩
    ∧ largeBorrow.registers.pc.toNat + Encoding.size ⟨.sbc, .immediate⟩
        ≤ largeBorrow.window.limit
    ∧ largeBorrow.registers.p.decimal = true
    ∧ IsPacked largeBorrow.registers.a ∧ IsPacked (largeBorrow.operand .immediate)
    ∧ difference largeBorrow.registers.a (largeBorrow.operand .immediate)
        largeBorrow.registers.p.carry = -90
    ∧ ∃ next, step largeBorrow = .ok () next
        ∧ value next.registers.a = 70 ∧ next.registers.p.carry = true
        ∧ ¬ ((value next.registers.a : Int) = -90 % 100
            ∧ (next.registers.p.carry = true ↔ (0 : Int) ≤ -90)) := by
  have hinstr : largeBorrow.instruction? = some ⟨.sbc, .immediate⟩ := by decide +kernel
  have hfits : largeBorrow.registers.pc.toNat + Encoding.size ⟨.sbc, .immediate⟩
      ≤ largeBorrow.window.limit := by decide +kernel
  refine ⟨hinstr, hfits, by decide +kernel, by decide +kernel, by decide +kernel,
    by decide +kernel, _, step_of_complete hinstr (.inr (.inl hfits)), ?_⟩
  decide +kernel

end Machine

end Mos6502
