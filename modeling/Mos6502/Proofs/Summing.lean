/-
  Mos6502.Proofs.Summing — binary sums, differences and comparisons

  Outside decimal mode ADC and SBC are one sum: what is added is the operand, or for a
  difference its complement, and Carry goes in as it stands and comes out as the ninth bit.
  A comparison is told by flags alone and has a rule of its own for each of them.  The
  rules say the same as the difference with nothing borrowed, whatever mode the machine
  is in and whatever Carry was, so that a program may compare where it need not subtract.

  Main statements:
    * `toNat_result_add`, `carry_add_iff` — a sum as a number
    * `result_subtract`, `carry_subtract` — a difference with nothing borrowed
    * `binary_sum`                        — a step of ADC or SBC outside decimal mode
    * `comparison_subtracts`              — a step of CMP, CPX or CPY, beside one of SBC
-/
import Mos6502.Proofs.Addressing
import Mos6502.Proofs.LittleEndian
import Mos6502.Proofs.StatusBits

namespace Mos6502

/-! ## §1. Sums and differences of bytes. -/

namespace Binary

theorem toNat_result_add (a v : UInt8) (carry : Bool) :
    (add a v carry).result.toNat = (a.toNat + v.toNat + carry.toNat) % 256 := by
  have hsum := toNat_add a v carry
  have hresult := (add a v carry).result.toNat_lt
  omega

theorem carry_add_iff (a v : UInt8) (carry : Bool) :
    (add a v carry).carry = true ↔ 255 < a.toNat + v.toNat + carry.toNat :=
  decide_eq_true_iff

/-- With nothing borrowed, the complement and the carry together are the negative. -/
theorem result_subtract (r v : UInt8) : (subtract r v true).result = r - v := by
  have hr := r.toNat_lt
  have hv := v.toNat_lt
  have hnot : (~~~v).toNat = 255 - v.toNat := UInt8.toNat_not v
  apply UInt8.toNat_inj.mp
  rw [subtract, toNat_result_add, hnot, UInt8.toNat_sub, Bool.toNat_true]
  -- Both sides are `r + (256 - v)` modulo 256.
  omega

/-- Nothing has to be borrowed if the minuend is not less. -/
theorem carry_subtract (r v : UInt8) : (subtract r v true).carry = decide (v ≤ r) := by
  have hv := v.toNat_lt
  have hnot : (~~~v).toNat = 255 - v.toNat := UInt8.toNat_not v
  rw [Bool.eq_iff_iff, decide_eq_true_iff, subtract, carry_add_iff, hnot, UInt8.le_iff_toNat_le,
    Bool.toNat_true]
  omega

end Binary

/-! ## §2. Sums and comparisons in the registers. -/

open Status

/-- What a sum leaves in the four flags that tell about it does not depend on the status before. -/
theorem Registers.test_acceptBinary (registers other : Registers) (sum : Binary.Sum) {flag : Flag}
    (h : flag ∈ [.carry, .overflow, .zero, .negative]) :
    (registers.acceptBinary sum).p.test flag = (other.acceptBinary sum).p.test flag := by
  simp only [List.mem_cons, List.not_mem_nil, or_false] at h
  rcases h with rfl | rfl | rfl | rfl <;> rfl

/-- The rules of a comparison say what the difference with nothing borrowed says. -/
theorem Registers.test_compare (registers other : Registers) (register : Register) (value : UInt8)
    {flag : Flag} (h : flag ∈ [.negative, .zero, .carry]) :
    (registers.compare register value).p.test flag
      = (other.acceptBinary (Binary.subtract (registers.get register) value true)).p.test flag := by
  simp only [List.mem_cons, List.not_mem_nil, or_false] at h
  rcases h with rfl | rfl | rfl
  · show (registers.get register - value &&& 0x80 != 0)
      = ((Binary.subtract (registers.get register) value true).result &&& 0x80 != 0)
    rw [Binary.result_subtract]
  · show (registers.get register - value == 0)
      = ((Binary.subtract (registers.get register) value true).result == 0)
    rw [Binary.result_subtract]
  · exact (Binary.carry_subtract (registers.get register) value).symm

/-! ## §3. By mnemonic. -/

namespace Mnemonic

/-- The byte that a binary sum adds to the accumulator: the operand, or for a difference its
complement. -/
def addend? (operand : UInt8) : Mnemonic → Option UInt8
  | .adc => some operand
  | .sbc => some (~~~operand)
  | _ => none

/-- The register that a comparison looks at. -/
def compared? : Mnemonic → Option Register
  | .cmp => some .a
  | .cpx => some .x
  | .cpy => some .y
  | _ => none

theorem operation_of_compared? {mnemonic : Mnemonic} {register : Register}
    (h : mnemonic.compared? = some register) :
    mnemonic.operation = .reading (.compare register) := by
  revert h
  cases mnemonic <;> simp [compared?, operation]

end Mnemonic

namespace Machine

open ByteStream

section Instructions

variable {machine : Machine} {e : Encoding}

/-- Outside decimal mode both ADC and SBC take over the sum of their addend. -/
theorem perform_of_addend {v : UInt8} (binary : machine.registers.p.decimal = false)
    (adds : e.mnemonic.addend? (machine.designated e.mode) = some v) :
    machine.perform e
      = (advance machine e.size).onRegisters
          (·.acceptBinary (Binary.add machine.registers.a v machine.registers.p.carry)) := by
  have hdecimal : (advance machine e.size).registers.p.decimal ≠ true :=
    Bool.eq_false_iff.mp binary
  cases hm : e.mnemonic with
  | adc | sbc =>
    rw [hm] at adds
    cases adds
    rw [perform_of_reading hm rfl, operand_eq_designated]
    exact congrArg (fun registers => { advance machine e.size with registers }) (if_neg hdecimal)
  | _ =>
    rw [hm] at adds
    cases adds

theorem perform_of_compared {register : Register}
    (compares : e.mnemonic.compared? = some register) :
    machine.perform e
      = (advance machine e.size).onRegisters
          (·.compare register (machine.designated e.mode)) := by
  rw [perform_of_reading rfl (Mnemonic.operation_of_compared? compares), operand_eq_designated]
  rfl

end Instructions

/-! ## §4. Steps. -/

/-- **A binary sum**, in every addressing mode of ADC and SBC.  The accumulator, the addend and
Carry are added as numbers; the accumulator keeps the sum modulo 256, Carry tells that it passed
255, and Overflow that the sum of the signed numbers is out of range.  No other bit of the status
changes.  Any other step with the same accumulator, addend and Carry, be it ADC or SBC, leaves
the same accumulator and the same flags. -/
theorem binary_sum {machine : Machine} {e : Encoding} {v : UInt8} (stands : machine.StandsAt e)
    (binary : machine.registers.p.decimal = false)
    (adds : e.mnemonic.addend? (machine.designated e.mode) = some v) :
    let a := machine.registers.a
    let c := machine.registers.p.carry
    ∃ next, step machine = .ok () next
      ∧ next.registers.a.toNat = (a.toNat + v.toNat + c.toNat) % 256
      ∧ (next.registers.p.carry = true ↔ 255 < a.toNat + v.toNat + c.toNat)
      ∧ (next.registers.p.overflow = true
          ↔ ¬ (-128 ≤ signed [a] + signed [v] + c.toNat
            ∧ signed [a] + signed [v] + c.toNat ≤ 127))
      ∧ next.registers.p.Reflects next.registers.a.toNat
      ∧ ChangesOnly [.carry, .overflow, .zero, .negative] machine.registers.p next.registers.p
      ∧ ∀ (other : Machine) (f : Encoding), other.StandsAt f →
          other.registers.p.decimal = false →
          f.mnemonic.addend? (other.designated f.mode) = some v →
          other.registers.a = a → other.registers.p.carry = c →
          ∃ final, step other = .ok () final
            ∧ final.registers.a = next.registers.a
            ∧ ∀ flag ∈ [.carry, .overflow, .zero, .negative],
                final.registers.p.test flag = next.registers.p.test flag := by
  intro a c
  have hstep := stands.step_eq
  rw [perform_of_addend binary adds] at hstep
  refine ⟨_, hstep, Binary.toNat_result_add a v c, Binary.carry_add_iff a v c,
    Binary.overflow_add_iff a v c, reflects_reflect _ _,
    (advance machine e.size).registers.changesOnly_acceptBinary _, ?_⟩
  intro other f standsOther binaryOther addsOther ha hc
  have hother := standsOther.step_eq
  rw [perform_of_addend binaryOther addsOther, ha, hc] at hother
  -- Both steps take over the same sum now, each into registers of its own.
  refine ⟨_, hother, rfl, ?_⟩
  intro flag hflag
  exact Registers.test_acceptBinary _ _ _ hflag

/-- The difference of 0x50 and 0xB0, with the second behind a pointer in page zero. -/
def overflowingDifference : Machine :=
  (new.loadProgram [0xF1, 0x02, 0x00, 0x00, 0x00, 0xB0] 0x0000).2.update
    { a := some 0x50, y := some 0x05, p := some { carry := true } }

/-- The sum of the same number with the complement of 0xB0. -/
def overflowingSum : Machine :=
  (new.loadProgram [0x69, 0x4F] 0x0200).2.update { a := some 0x50, p := some { carry := true } }

/-- Unsigned, 0xB0 has to be borrowed for; signed, it is -80, and 80 + 80 is out of range. -/
theorem binary_sum_overflowing :
    ∃ difference sum, step overflowingDifference = .ok () difference
      ∧ step overflowingSum = .ok () sum
      ∧ difference.registers.a.toNat = 0xA0
      ∧ difference.registers.p.carry ≠ true ∧ difference.registers.p.overflow = true
      ∧ sum.registers.a = difference.registers.a
      ∧ ∀ flag ∈ [.carry, .overflow, .zero, .negative],
          sum.registers.p.test flag = difference.registers.p.test flag := by
  have hdifference : overflowingDifference.StandsAt ⟨.sbc, .indirectY⟩ := by decide +kernel
  have hsum : overflowingSum.StandsAt ⟨.adc, .immediate⟩ := by decide +kernel
  have hoperand : overflowingDifference.designated .indirectY = 0xB0 := by decide +kernel
  have haddend : Mnemonic.sbc.addend? (overflowingDifference.designated .indirectY)
      = some 0x4F := by
    rw [hoperand]
    rfl
  obtain ⟨difference, hstep, ha, hcarry, hoverflow, -, -, hother⟩ :=
    binary_sum hdifference (by decide +kernel) haddend
  obtain ⟨sum, hstep', hsame, hflags⟩ :=
    hother _ _ hsum (by decide +kernel) (by decide +kernel) rfl rfl
  exact ⟨difference, sum, hstep, hstep', ha, mt hcarry.mp (by decide),
    hoverflow.mpr (by decide +kernel), hsame, hflags⟩

/-- **A comparison**, in every addressing mode of CMP, CPX and CPY.  Only the program counter and
the status change, and of the status only Negative, Zero and Carry.  These are what they are after
any step of SBC outside decimal mode that takes the operand from the register with nothing
borrowed, whatever decimal mode and Carry were before the comparison. -/
theorem comparison_subtracts {machine : Machine} {e : Encoding} {register : Register}
    (stands : machine.StandsAt e) (compares : e.mnemonic.compared? = some register) :
    let r := machine.registers.get register
    let v := machine.designated e.mode
    ∃ status : Status,
      step machine = .ok () ({ machine with registers.p := status }.goto
          (machine.registers.pc + UInt16.ofNat e.size))
      ∧ ChangesOnly [.carry, .zero, .negative] machine.registers.p status
      ∧ (status.carry = true ↔ v ≤ r)
      ∧ (status.zero = true ↔ r = v)
      ∧ status.negative = (r - v).toNat.testBit 7
      ∧ ∀ (other : Machine) (f : Encoding), other.StandsAt f → f.mnemonic = .sbc →
          other.registers.p.decimal = false →
          other.registers.a = r → other.registers.p.carry = true → other.designated f.mode = v →
          ∃ difference, step other = .ok () difference
            ∧ ∀ flag ∈ [.negative, .zero, .carry],
                status.test flag = difference.registers.p.test flag := by
  intro r v
  have hstep := stands.step_eq
  rw [perform_of_compared compares] at hstep
  have hreflects : (machine.registers.compare register v).p.Reflects (r - v).toNat :=
    reflects_reflect _ (r - v)
  refine ⟨(machine.registers.compare register v).p, hstep,
    machine.registers.changesOnly_compare register v, decide_eq_true_iff, ?zero,
    hreflects.negative_eq, ?difference⟩
  case zero =>
    have hr := r.toNat_lt
    have hv := v.toNat_lt
    rw [hreflects.zero_iff, UInt8.toNat_sub, ← UInt8.toNat_inj]
    omega
  case difference =>
    intro other f standsOther hsbc binary ha hc hv
    have hother := standsOther.step_eq
    have hadds : f.mnemonic.addend? (other.designated f.mode) = some (~~~v) := by
      rw [hsbc, hv]
      rfl
    rw [perform_of_addend binary hadds, ha, hc] at hother
    refine ⟨_, hother, ?_⟩
    intro flag hflag
    exact machine.registers.test_compare _ register v hflag

/-- A comparison of X with a greater byte, in decimal mode and with Carry clear. -/
def decimalComparison : Machine :=
  (new.loadProgram [0xEC, 0x03, 0x02, 0x20] 0x0200).2.update
    { x := some 0x10, p := some { decimal := true, overflow := true } }

/-- The difference of the same bytes outside decimal mode, with nothing borrowed. -/
def binaryDifference : Machine :=
  (new.loadProgram [0xE9, 0x20] 0x0200).2.update { a := some 0x10, p := some { carry := true } }

theorem comparison_subtracts_decimalComparison :
    ∃ compared difference, step decimalComparison = .ok () compared
      ∧ step binaryDifference = .ok () difference
      ∧ compared.registers.p.carry ≠ true
      ∧ compared.registers.p.overflow = true ∧ compared.registers.p.decimal = true
      ∧ ∀ flag ∈ [.negative, .zero, .carry],
          compared.registers.p.test flag = difference.registers.p.test flag := by
  have hcomparison : decimalComparison.StandsAt ⟨.cpx, .absolute⟩ := by decide +kernel
  have hdifference : binaryDifference.StandsAt ⟨.sbc, .immediate⟩ := by decide +kernel
  obtain ⟨status, hstep, hkept, hcarry, -, -, hother⟩ := comparison_subtracts hcomparison rfl
  obtain ⟨difference, hstep', hflags⟩ := hother _ _ hdifference rfl (by decide +kernel)
    (by decide +kernel) (by decide +kernel) (by decide +kernel)
  exact ⟨_, difference, hstep, hstep', mt hcarry.mp (by decide +kernel),
    hkept.test_eq .overflow (by decide), hkept.test_eq .decimal (by decide), hflags⟩

end Machine

end Mos6502
