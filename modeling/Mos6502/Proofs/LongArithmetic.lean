/-
  Mos6502.Proofs.LongArithmetic — numbers of many bytes, added step by step

  A program adds long numbers byte by byte from the lowest byte up, each step taking the
  Carry that the step before has left.  What happens between the steps does not matter, as
  long as the accumulator and the operand are the next two bytes and Carry survives.  If one
  step is right for one digit of a base, all of them together are right for numbers in that
  base: 256 in binary sums and differences, 100 in decimal sums.  Overflow is told by the
  last step alone, which has the signs of both numbers in its hands.

  Main statements:
    * `ofDigits_results`       — from one digit to all digits
    * `overflow_final`         — Overflow after the last step
    * `long_binary_arithmetic` — binary sums and differences
    * `long_decimal_addition`  — decimal sums
-/
import Mathlib.Tactic.LinearCombination
import Mathlib.Tactic.Zify
import Mos6502.Proofs.LittleEndian
import Mos6502.Proofs.PackedDecimal

namespace Mos6502.Machine

open ByteStream

/-! ## §1. One step. -/

/-- The machine stands at a complete instruction, with `a` in the accumulator, `b` for an operand,
and decimal mode and Carry as they are said to be.  The rest of its state is left open. -/
structure Poised (machine : Machine) (e : Encoding) (decimal : Bool) (a b : UInt8)
    (carry : Bool) : Prop where
  instruction : machine.instruction? = some e
  complete : InReach machine e.size
  decimal_eq : machine.registers.p.decimal = decimal
  accumulator : machine.registers.a = a
  operand : machine.operand e.mode = b
  carry_eq : machine.registers.p.carry = carry

instance (machine : Machine) (e : Encoding) (decimal : Bool) (a b : UInt8) (carry : Bool) :
    Decidable (Poised machine e decimal a b carry) :=
  decidable_of_iff
    (machine.instruction? = some e ∧ InReach machine e.size
      ∧ machine.registers.p.decimal = decimal ∧ machine.registers.a = a
      ∧ machine.operand e.mode = b ∧ machine.registers.p.carry = carry)
    ⟨fun ⟨h₁, h₂, h₃, h₄, h₅, h₆⟩ => ⟨h₁, h₂, h₃, h₄, h₅, h₆⟩,
      fun ⟨h₁, h₂, h₃, h₄, h₅, h₆⟩ => ⟨h₁, h₂, h₃, h₄, h₅, h₆⟩⟩

/-- The step leaves a binary sum in the accumulator and the flags. -/
def LeavesBinary (machine : Machine) (sum : Binary.Sum) : Prop :=
  ∃ registers : Registers, (machine.after 1).registers = registers.acceptBinary sum

/-- The step leaves a decimal sum in the accumulator and Carry. -/
def LeavesDecimal (machine : Machine) (sum : Decimal.Sum) : Prop :=
  ∃ registers : Registers, (machine.after 1).registers = registers.acceptDecimal sum

section Poised

variable {machine : Machine} {mode : AddressingMode} {e : Encoding} {decimal carry : Bool}
  {a b : UInt8}

theorem Poised.step_eq (h : machine.Poised e decimal a b carry) :
    step machine = .ok () (machine.perform e) :=
  step_of_complete h.instruction h.complete

theorem Poised.registers_after (h : machine.Poised e decimal a b carry) {action : Reading}
    (reads : e.mnemonic.operation = .reading action) :
    (machine.after 1).registers = action.apply b (advance machine e.size).registers := by
  have hafter : machine.after 1 = machine.perform e := by
    rw [after, show machine.after 0 = machine from rfl, h.step_eq]
  rw [hafter, ← h.operand]
  unfold perform
  rw [reads]
  rfl

theorem Poised.leavesBinary_adc (h : machine.Poised ⟨.adc, mode⟩ false a b carry) :
    machine.LeavesBinary (Binary.add a b carry) := by
  refine ⟨(advance machine (Encoding.size ⟨.adc, mode⟩)).registers, ?_⟩
  rw [h.registers_after rfl, ← h.accumulator, ← h.carry_eq]
  exact if_neg (Bool.eq_false_iff.mp h.decimal_eq)

/-- A difference is the sum with the complement. -/
theorem Poised.leavesBinary_sbc (h : machine.Poised ⟨.sbc, mode⟩ false a b carry) :
    machine.LeavesBinary (Binary.add a (~~~b) carry) := by
  refine ⟨(advance machine (Encoding.size ⟨.sbc, mode⟩)).registers, ?_⟩
  rw [h.registers_after rfl, ← h.accumulator, ← h.carry_eq]
  exact if_neg (Bool.eq_false_iff.mp h.decimal_eq)

theorem Poised.leavesDecimal_adc (h : machine.Poised ⟨.adc, mode⟩ true a b carry) :
    machine.LeavesDecimal (Decimal.add a b carry) := by
  refine ⟨(advance machine (Encoding.size ⟨.adc, mode⟩)).registers, ?_⟩
  rw [h.registers_after rfl, ← h.accumulator, ← h.carry_eq]
  exact if_pos h.decimal_eq

end Poised

/-! ## §2. All steps. -/

/-- The steps of one instruction over two numbers of the same length, from the lowest bytes up: the
carry before the first step, the bytes of both numbers, the machines from which the steps are
taken, and the machine after the last of them. -/
inductive ByteByByte (mnemonic : Mnemonic) (decimal : Bool) :
    Bool → List UInt8 → List UInt8 → List Machine → Machine → Prop
  /-- The highest bytes. -/
  | last {machine : Machine} {mode : AddressingMode} {a b : UInt8} {carry : Bool}
      (poised : machine.Poised ⟨mnemonic, mode⟩ decimal a b carry) :
      ByteByByte mnemonic decimal carry [a] [b] [machine] (machine.after 1)
  /-- Two bytes, and those above them under the carry that the step leaves. -/
  | more {machine final : Machine} {mode : AddressingMode} {a b : UInt8} {carry : Bool}
      {as bs : List UInt8} {machines : List Machine}
      (poised : machine.Poised ⟨mnemonic, mode⟩ decimal a b carry)
      (above : ByteByByte mnemonic decimal (machine.after 1).registers.p.carry as bs machines
        final) :
      ByteByByte mnemonic decimal carry (a :: as) (b :: bs) (machine :: machines) final

/-- The bytes that the steps leave in the accumulator. -/
def results (machines : List Machine) : List UInt8 :=
  machines.map fun machine => (machine.after 1).registers.a

section ByteByByte

variable {mnemonic : Mnemonic} {decimal carry : Bool} {a b : List UInt8}
  {machines : List Machine} {final : Machine}

theorem ByteByByte.succeeds (h : ByteByByte mnemonic decimal carry a b machines final) :
    ∀ machine ∈ machines, machine.succeeds = true := by
  induction h with
  | last poised =>
    rw [List.forall_mem_singleton]
    exact succeeds_of_step poised.step_eq
  | more poised above ih =>
    rw [List.forall_mem_cons]
    exact ⟨succeeds_of_step poised.step_eq, ih⟩

theorem ByteByByte.ne_nil (h : ByteByByte mnemonic decimal carry a b machines final) :
    a ≠ [] ∧ b ≠ [] := by
  cases h with
  | last poised => exact ⟨List.cons_ne_nil _ _, List.cons_ne_nil _ _⟩
  | more poised above => exact ⟨List.cons_ne_nil _ _, List.cons_ne_nil _ _⟩

theorem ByteByByte.length_eq (h : ByteByByte mnemonic decimal carry a b machines final) :
    a.length = b.length := by
  induction h with
  | last poised => rfl
  | more poised above ih => rw [List.length_cons, List.length_cons, ih]

/-- **From one digit to all digits.**  If every step is right for the digits that it is about, the
steps together are right for the numbers, in any base. -/
theorem ByteByByte.ofDigits_results {base : Nat} {digit operandDigit : UInt8 → Nat}
    {Valid : UInt8 → Prop}
    (law : ∀ machine mode a b carry,
      Poised machine ⟨mnemonic, mode⟩ decimal a b carry → Valid a → Valid b →
        Valid (machine.after 1).registers.a
        ∧ digit (machine.after 1).registers.a
            + base * (machine.after 1).registers.p.carry.toNat
          = digit a + operandDigit b + carry.toNat)
    (h : ByteByByte mnemonic decimal carry a b machines final)
    (validA : ∀ byte ∈ a, Valid byte) (validB : ∀ byte ∈ b, Valid byte) :
    (∀ byte ∈ results machines, Valid byte)
    ∧ Nat.ofDigits base ((results machines).map digit)
          + final.registers.p.carry.toNat * base ^ a.length
        = Nat.ofDigits base (a.map digit) + Nat.ofDigits base (b.map operandDigit)
          + carry.toNat := by
  -- Induction on the steps; the carry of the first goes into the sum of the others.
  induction h with
  | @last machine mode a b carry poised =>
    obtain ⟨hvalid, hdigit⟩ := law machine mode a b carry poised
      (validA a List.mem_cons_self) (validB b List.mem_cons_self)
    refine ⟨List.forall_mem_singleton.mpr hvalid, ?_⟩
    simp only [results, List.map_cons, List.map_nil, Nat.ofDigits_singleton, List.length_cons,
      List.length_nil]
    rw [Nat.zero_add, Nat.pow_one, Nat.mul_comm, hdigit]
  | @more machine final mode a b carry as bs machines poised above ih =>
    rw [List.forall_mem_cons] at validA validB
    obtain ⟨hvalid, hdigit⟩ := law machine mode a b carry poised validA.1 validB.1
    obtain ⟨hvalids, hrest⟩ := ih validA.2 validB.2
    refine ⟨List.forall_mem_cons.mpr ⟨hvalid, hvalids⟩, ?_⟩
    have hcons : (results (machine :: machines)).map digit
        = digit (machine.after 1).registers.a :: (results machines).map digit := rfl
    rw [hcons, List.map_cons, List.map_cons, Nat.ofDigits_cons, Nat.ofDigits_cons,
      Nat.ofDigits_cons, List.length_cons]
    calc digit (machine.after 1).registers.a
          + base * Nat.ofDigits base ((results machines).map digit)
          + final.registers.p.carry.toNat * base ^ (as.length + 1)
        = digit (machine.after 1).registers.a
          + base * (Nat.ofDigits base ((results machines).map digit)
            + final.registers.p.carry.toNat * base ^ as.length) := by ring
      _ = digit (machine.after 1).registers.a
            + base * (machine.after 1).registers.p.carry.toNat
          + base * (Nat.ofDigits base (as.map digit)
            + Nat.ofDigits base (bs.map operandDigit)) := by rw [hrest]; ring
      _ = digit a + base * Nat.ofDigits base (as.map digit)
          + (operandDigit b + base * Nat.ofDigits base (bs.map operandDigit))
          + carry.toNat := by rw [hdigit]; ring

end ByteByByte

/-! ## §3. Binary numbers. -/

section Binary

variable {mnemonic : Mnemonic} {carry : Bool} {a b : List UInt8} {machines : List Machine}
  {final : Machine} {addend : UInt8 → UInt8}

/-- If every step adds something made from its operand, the steps add the number made of that. -/
theorem ByteByByte.littleEndian_results
    (adds : ∀ machine mode a b carry, Poised machine ⟨mnemonic, mode⟩ false a b carry →
      machine.LeavesBinary (Binary.add a (addend b) carry))
    (h : ByteByByte mnemonic false carry a b machines final) :
    littleEndian (results machines) + final.registers.p.carry.toNat * 256 ^ a.length
      = littleEndian a + littleEndian (b.map addend) + carry.toNat := by
  have hlaw : ∀ machine mode a b carry, Poised machine ⟨mnemonic, mode⟩ false a b carry →
      True → True → True ∧ (machine.after 1).registers.a.toNat
          + 256 * (machine.after 1).registers.p.carry.toNat
        = a.toNat + (addend b).toNat + carry.toNat := by
    intro machine mode a b carry poised _ _
    obtain ⟨registers, hregisters⟩ := adds machine mode a b carry poised
    rw [hregisters]
    exact ⟨trivial, Binary.toNat_add a (addend b) carry⟩
  obtain ⟨-, hresults⟩ := h.ofDigits_results hlaw (fun _ _ => trivial) (fun _ _ => trivial)
  unfold littleEndian
  rw [List.map_map]
  exact hresults

/-- Overflow after the last step tells that the signed sum is out of range. -/
theorem ByteByByte.overflow_final
    (adds : ∀ machine mode a b carry, Poised machine ⟨mnemonic, mode⟩ false a b carry →
      machine.LeavesBinary (Binary.add a (addend b) carry))
    (h : ByteByByte mnemonic false carry a b machines final) :
    final.registers.p.overflow = true
      ↔ ¬ FitsSigned a.length (signed a + signed (b.map addend) + carry.toNat) := by
  -- Induction on the steps; a step below others changes nothing about the range.
  induction h with
  | @last machine mode a b carry poised =>
    obtain ⟨registers, hregisters⟩ := adds machine mode a b carry poised
    rw [hregisters]
    exact Binary.overflow_add_iff a (addend b) carry
  | @more machine final mode a b carry as bs machines poised above ih =>
    obtain ⟨registers, hregisters⟩ := adds machine mode a b carry poised
    have hcarry : (machine.after 1).registers.p.carry = (Binary.add a (addend b) carry).carry := by
      rw [hregisters]
      rfl
    obtain ⟨has, hbs⟩ := above.ne_nil
    have hbs' : bs.map addend ≠ [] := mt List.map_eq_nil_iff.mp hbs
    have hsum := Binary.toNat_add a (addend b) carry
    have hsplit : signed (a :: as) + signed ((b :: bs).map addend) + carry.toNat
        = (Binary.add a (addend b) carry).result.toNat
          + 256 * (signed as + signed (bs.map addend)
            + (Binary.add a (addend b) carry).carry.toNat) := by
      rw [List.map_cons, signed_cons a has, signed_cons (addend b) hbs']
      omega
    rw [ih, hcarry, hsplit, List.length_cons,
      fitsSigned_cons_iff _ (List.length_pos_iff.mpr has)]

end Binary

/-- **Binary numbers of any length.**  Steps of ADC over two numbers leave their sum with the
first carry, and steps of SBC their difference with the first borrow; the last Carry is what the
result has no byte for, and the last Overflow tells that the signed result is out of range. -/
theorem long_binary_arithmetic {a b : List UInt8} {carry : Bool} {machines : List Machine}
    {final : Machine} :
    (ByteByByte .adc false carry a b machines final →
      (∀ machine ∈ machines, machine.succeeds = true)
      ∧ littleEndian (results machines) + final.registers.p.carry.toNat * 256 ^ a.length
          = littleEndian a + littleEndian b + carry.toNat
      ∧ (final.registers.p.overflow = true
          ↔ ¬ FitsSigned a.length (signed a + signed b + carry.toNat)))
    ∧ (ByteByByte .sbc false carry a b machines final →
      (∀ machine ∈ machines, machine.succeeds = true)
      ∧ (littleEndian (results machines) : ℤ)
            - (1 - final.registers.p.carry.toNat) * 256 ^ a.length
          = littleEndian a - littleEndian b - (1 - carry.toNat)
      ∧ (final.registers.p.overflow = true
          ↔ ¬ FitsSigned a.length (signed a - signed b - (1 - carry.toNat)))) := by
  refine ⟨?_, ?_⟩
  · intro h
    have hadds : ∀ machine mode a b carry, Poised machine ⟨.adc, mode⟩ false a b carry →
        machine.LeavesBinary (Binary.add a (id b) carry) :=
      fun machine mode a b carry poised => poised.leavesBinary_adc
    have hresults := h.littleEndian_results hadds
    have hoverflow := h.overflow_final hadds
    rw [List.map_id] at hresults hoverflow
    exact ⟨h.succeeds, hresults, hoverflow⟩
  · intro h
    have hadds : ∀ machine mode a b carry, Poised machine ⟨.sbc, mode⟩ false a b carry →
        machine.LeavesBinary (Binary.add a (~~~b) carry) :=
      fun machine mode a b carry poised => poised.leavesBinary_sbc
    have hresults : littleEndian (results machines)
          + final.registers.p.carry.toNat * 256 ^ a.length
        = littleEndian a + littleEndian (b.map (~~~·)) + carry.toNat :=
      h.littleEndian_results hadds
    have hoverflow : final.registers.p.overflow = true
        ↔ ¬ FitsSigned a.length (signed a + signed (b.map (~~~·)) + carry.toNat) :=
      h.overflow_final hadds
    have hcomplement := littleEndian_complement b
    rw [← h.length_eq] at hcomplement
    refine ⟨h.succeeds, ?_, ?_⟩
    · -- The complement of `b` falls short of `-b` by one, and exceeds it by a highest borrow.
      zify at hresults hcomplement
      linear_combination hresults + hcomplement
    · rw [hoverflow, signed_complement h.ne_nil.2]
      have hdifference : signed a + (-1 - signed b) + carry.toNat
          = signed a - signed b - (1 - carry.toNat) := by ring
      rw [hdifference]

/-- The sum of 0x7FFF and 1, low bytes first, with a store and a load between the additions. -/
def halfRangeSum : Machine :=
  (new.loadProgram
    [0x18, 0xA9, 0xFF, 0x69, 0x01, 0x85, 0x10, 0xA9, 0x7F, 0x65, 0x11] 0x0200).2

/-- The difference of 0x8000 and 1, in the same way. -/
def halfRangeDifference : Machine :=
  (new.loadProgram
    [0x38, 0xA9, 0x00, 0xE9, 0x01, 0x85, 0x10, 0xA9, 0x80, 0xE5, 0x11] 0x0200).2

/-- Both are right as numbers from zero up, and overflow as signed ones. -/
theorem long_binary_arithmetic_halfRange :
    (littleEndian (results [halfRangeSum.after 2, halfRangeSum.after 5])
          + ((halfRangeSum.after 5).after 1).registers.p.carry.toNat * 256 ^ 2 = 0x8000
      ∧ ((halfRangeSum.after 5).after 1).registers.p.overflow = true)
    ∧ ((littleEndian (results [halfRangeDifference.after 2, halfRangeDifference.after 5]) : ℤ)
          - (1 - ((halfRangeDifference.after 5).after 1).registers.p.carry.toNat) * 256 ^ 2 = 0x7FFF
      ∧ ((halfRangeDifference.after 5).after 1).registers.p.overflow = true) := by
  have hsumLow : Poised (halfRangeSum.after 2) ⟨.adc, .immediate⟩ false 0xFF 0x01 false := by
    decide +kernel
  have hsumHigh : Poised (halfRangeSum.after 5) ⟨.adc, .zeroPage⟩ false 0x7F 0x00
      ((halfRangeSum.after 2).after 1).registers.p.carry := by
    decide +kernel
  have hdifferenceLow :
      Poised (halfRangeDifference.after 2) ⟨.sbc, .immediate⟩ false 0x00 0x01 true := by
    decide +kernel
  have hdifferenceHigh : Poised (halfRangeDifference.after 5) ⟨.sbc, .zeroPage⟩ false 0x80 0x00
      ((halfRangeDifference.after 2).after 1).registers.p.carry := by
    decide +kernel
  obtain ⟨-, hsum, hsumOverflow⟩ :=
    long_binary_arithmetic.1 (.more hsumLow (.last hsumHigh))
  obtain ⟨-, hdifference, hdifferenceOverflow⟩ :=
    long_binary_arithmetic.2 (.more hdifferenceLow (.last hdifferenceHigh))
  have hsumValue :
      littleEndian [0xFF, 0x7F] + littleEndian [0x01, 0x00] + false.toNat = 0x8000 := by
    decide +kernel
  have hdifferenceValue :
      (littleEndian [0x00, 0x80] : ℤ) - littleEndian [0x01, 0x00] - (1 - true.toNat) = 0x7FFF := by
    decide +kernel
  rw [hsumValue, show [(0xFF : UInt8), 0x7F].length = 2 from rfl] at hsum
  rw [hdifferenceValue, show [(0x00 : UInt8), 0x80].length = 2 from rfl] at hdifference
  exact ⟨⟨hsum, hsumOverflow.mpr (by decide +kernel)⟩,
    hdifference, hdifferenceOverflow.mpr (by decide +kernel)⟩

/-! ## §4. Decimal numbers. -/

/-- The number that a sequence of packed bytes denotes, the lowest byte first. -/
def packedNumber (bytes : List UInt8) : Nat := Nat.ofDigits 100 (bytes.map Decimal.value)

/-- **Decimal numbers of any length.**  Steps of ADC in decimal mode over two packed numbers leave
packed bytes, which denote their sum with the first carry; the last Carry is what they have no
byte for. -/
theorem long_decimal_addition {a b : List UInt8} {carry : Bool} {machines : List Machine}
    {final : Machine} (h : ByteByByte .adc true carry a b machines final)
    (packedA : ∀ byte ∈ a, Decimal.IsPacked byte) (packedB : ∀ byte ∈ b, Decimal.IsPacked byte) :
    (∀ machine ∈ machines, machine.succeeds = true)
    ∧ (∀ byte ∈ results machines, Decimal.IsPacked byte)
    ∧ packedNumber (results machines) + final.registers.p.carry.toNat * 100 ^ a.length
        = packedNumber a + packedNumber b + carry.toNat := by
  have hlaw : ∀ machine mode a b carry, Poised machine ⟨.adc, mode⟩ true a b carry →
      Decimal.IsPacked a → Decimal.IsPacked b →
        Decimal.IsPacked (machine.after 1).registers.a
        ∧ Decimal.value (machine.after 1).registers.a
            + 100 * (machine.after 1).registers.p.carry.toNat
          = Decimal.value a + Decimal.value b + carry.toNat := by
    intro machine mode a b carry poised ha hb
    obtain ⟨registers, hregisters⟩ := poised.leavesDecimal_adc
    rw [hregisters]
    exact Decimal.add_of_packed ha hb carry
  exact ⟨h.succeeds, h.ofDigits_results hlaw packedA packedB⟩

/-- The sum of 5899 and 4612, low bytes first, with a store and a load between the additions. -/
def decimalSum : Machine :=
  (new.loadProgram
    [0xF8, 0x18, 0xA9, 0x99, 0x69, 0x12, 0x85, 0x10, 0xA9, 0x58, 0x69, 0x46] 0x0200).2

theorem long_decimal_addition_decimalSum :
    (∀ byte ∈ results [decimalSum.after 3, decimalSum.after 6], Decimal.IsPacked byte)
    ∧ packedNumber (results [decimalSum.after 3, decimalSum.after 6])
        + ((decimalSum.after 6).after 1).registers.p.carry.toNat * 100 ^ 2 = 10511 := by
  have hlow : Poised (decimalSum.after 3) ⟨.adc, .immediate⟩ true 0x99 0x12 false := by
    decide +kernel
  have hhigh : Poised (decimalSum.after 6) ⟨.adc, .immediate⟩ true 0x58 0x46
      ((decimalSum.after 3).after 1).registers.p.carry := by
    decide +kernel
  have packedA : ∀ byte ∈ [0x99, 0x58], Decimal.IsPacked byte :=
    List.forall_mem_cons.mpr ⟨by decide, List.forall_mem_singleton.mpr (by decide)⟩
  have packedB : ∀ byte ∈ [0x12, 0x46], Decimal.IsPacked byte :=
    List.forall_mem_cons.mpr ⟨by decide, List.forall_mem_singleton.mpr (by decide)⟩
  obtain ⟨-, hpacked, hsum⟩ :=
    long_decimal_addition (.more hlow (.last hhigh)) packedA packedB
  have hvalue : packedNumber [0x99, 0x58] + packedNumber [0x12, 0x46] + false.toNat = 10511 := by
    decide +kernel
  rw [hvalue, show [(0x99 : UInt8), 0x58].length = 2 from rfl] at hsum
  exact ⟨hpacked, hsum⟩

end Mos6502.Machine
