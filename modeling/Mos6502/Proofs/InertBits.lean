/-
  Mos6502.Proofs.InertBits — the status bits that decide nothing

  No branch asks for Interrupt, Decimal, Break or bit 5, and no address or result is made from
  them, with two exceptions: PHP pushes all four, and sums ask whether they are decimal.  Two
  machines that differ in these bits only go on side by side, for as long as they meet neither
  exception.  Instructions that set one of the bits, or pull the whole status, set it in both
  machines, so that a difference in Decimal may come to an end and then never comes back.

  Main statements:
    * `perform_withInert` — an instruction on a machine with other inert bits
    * `Akin.step`         — one step of two machines side by side
    * `inert_bits`        — any number of steps
-/
import Mos6502.Proofs.Footprint

namespace Mos6502

/-! ## §1. Machines that differ in the inert bits. -/

/-- Values for the bits of a status that no condition is about. -/
structure InertBits where
  interrupt : Bool
  decimal : Bool
  brk : Bool
  unused : Bool
  deriving Repr, DecidableEq

/-- The inert bits of a status. -/
def Status.inert (status : Status) : InertBits :=
  ⟨status.interrupt, status.decimal, status.brk, status.unused⟩

/-- The status with other inert bits. -/
def Status.withInert (status : Status) (bits : InertBits) : Status :=
  { status with
    interrupt := bits.interrupt
    decimal := bits.decimal
    brk := bits.brk
    unused := bits.unused }

/-- The registers with other inert bits. -/
def Registers.withInert (registers : Registers) (bits : InertBits) : Registers :=
  { registers with p := registers.p.withInert bits }

/-- The machine with other inert bits. -/
def Machine.withInert (machine : Machine) (bits : InertBits) : Machine :=
  { machine with registers := machine.registers.withInert bits }

/-- The inert bits after a flag was assigned. -/
def InertBits.assign (bits : InertBits) (flag : Flag) (value : Bool) : InertBits :=
  match flag with
  | .interrupt => { bits with interrupt := value }
  | .decimal => { bits with decimal := value }
  | .brk => { bits with brk := value }
  | .carry | .zero | .overflow | .negative => bits

/-- Whether a flag is one of the inert bits. -/
def Flag.isInert : Flag → Bool
  | .interrupt | .decimal | .brk => true
  | .carry | .zero | .overflow | .negative => false

theorem Status.test_withInert (status : Status) (bits : InertBits) {flag : Flag}
    (h : flag.isInert = false) : (status.withInert bits).test flag = status.test flag := by
  cases flag with
  | interrupt | decimal | brk => cases h
  | _ => rfl

/-! ## §2. Operations. -/

/-- Sums ask whether they are decimal; no other reading asks for an inert bit. -/
theorem Reading.apply_withInert {action : Reading} (registers : Registers) {bits : InertBits}
    (h : action = .add ∨ action = .subtract → bits.decimal = registers.p.decimal)
    (value : UInt8) :
    action.apply value (registers.withInert bits)
      = (action.apply value registers).withInert bits := by
  cases action with
  | load register => cases register <;> rfl
  | add =>
    show (if bits.decimal then _ else _ : Registers)
      = (if registers.p.decimal then _ else _ : Registers).withInert bits
    rw [h (.inl rfl)]
    split <;> rfl
  | subtract =>
    show (if bits.decimal then _ else _ : Registers)
      = (if registers.p.decimal then _ else _ : Registers).withInert bits
    rw [h (.inr rfl)]
    split <;> rfl
  | compare register => cases register <;> rfl
  | _ => rfl

/-- The inert bits after an operation without an operand: assigned, pulled with the whole
status, or as they were. -/
def Implied.inertAfter (machine : Machine) (bits : InertBits) : Implied → InertBits
  | .assign flag value => bits.assign flag value
  | .pullStatus => (Status.ofByte machine.pop.1).inert
  | _ => bits

theorem Implied.apply_withInert {action : Implied} (h : action ≠ .pushStatus)
    (machine : Machine) (bits : InertBits) :
    action.apply (machine.withInert bits)
      = (action.apply machine).withInert (action.inertAfter machine bits) := by
  cases action with
  | transfer source target => cases source <;> cases target <;> rfl
  | alter register change => cases register <;> cases change <;> rfl
  | assign flag value => cases flag <;> rfl
  | pushStatus => exact absurd rfl h
  | ret =>
    show (machine.withInert bits).ret = machine.ret.withInert bits
    rw [Machine.ret_eq, Machine.ret_eq]
    show (if machine.callDepth = 0 then _ else _ : Machine)
      = (if machine.callDepth = 0 then _ else _ : Machine).withInert bits
    split <;> rfl
  | _ => rfl

/-- A branch asks for its flag, and that is no inert bit in any instruction. -/
theorem Targeting.apply_withInert {action : Targeting}
    (h : ∀ flag value, action = .branch flag value → flag.isInert = false) (address : UInt16)
    (machine : Machine) (bits : InertBits) :
    action.apply address (machine.withInert bits)
      = (action.apply address machine).withInert bits := by
  cases action with
  | store register => cases register <;> rfl
  | branch flag value =>
    have htest := machine.registers.p.test_withInert bits (h flag value rfl)
    show (if (machine.registers.p.withInert bits).test flag = value then _ else _ : Machine)
      = (if machine.registers.p.test flag = value then _ else _ : Machine).withInert bits
    rw [htest]
    split <;> rfl
  | _ => rfl

/-- The inert bits after an operation. -/
def Operation.inertAfter (machine : Machine) (bits : InertBits) : Operation → InertBits
  | .implied action => action.inertAfter machine bits
  | .reading _ | .shifting _ | .changing _ | .targeting _ => bits

/-- Where Decimal was the same before an operation, it is the same after it. -/
theorem Operation.decimal_inertAfter {bits other : InertBits} (h : bits.decimal = other.decimal)
    (machine : Machine) (operation : Operation) :
    (operation.inertAfter machine bits).decimal
      = (operation.inertAfter machine other).decimal := by
  cases operation with
  | implied action =>
    cases action with
    | assign flag value =>
      cases flag with
      | decimal => rfl
      | _ => exact h
    | pullStatus => rfl
    | _ => exact h
  | _ => exact h

/-! ## §3. Instructions. -/

namespace Mnemonic

theorem operation_eq_pushStatus_iff {mnemonic : Mnemonic} :
    mnemonic.operation = .implied .pushStatus ↔ mnemonic = .php := by
  cases mnemonic <;> decide

theorem operation_eq_add_iff {mnemonic : Mnemonic} :
    mnemonic.operation = .reading .add ↔ mnemonic = .adc := by
  cases mnemonic <;> decide

theorem operation_eq_subtract_iff {mnemonic : Mnemonic} :
    mnemonic.operation = .reading .subtract ↔ mnemonic = .sbc := by
  cases mnemonic <;> decide

theorem isInert_of_branch {mnemonic : Mnemonic} {flag : Flag} {value : Bool}
    (h : mnemonic.operation = .targeting (.branch flag value)) : flag.isInert = false := by
  revert h
  cases mnemonic <;> cases flag <;> simp [operation, Flag.isInert]

end Mnemonic

namespace Machine

open ByteStream

theorem target_withInert (machine : Machine) (bits : InertBits) (mode : AddressingMode) :
    (machine.withInert bits).target mode = machine.target mode := by
  cases mode <;> rfl

theorem operand_withInert (machine : Machine) (bits : InertBits) (mode : AddressingMode) :
    (machine.withInert bits).operand mode = machine.operand mode := by
  cases mode <;> rfl

/-- **An instruction on a machine with other inert bits.**  Unless it pushes the status, or is a
sum and the machines differ in Decimal, it does the same. -/
theorem perform_withInert (machine : Machine) {e : Encoding} (bits : InertBits)
    (hpush : e.mnemonic ≠ .php)
    (hsum : e.mnemonic = .adc ∨ e.mnemonic = .sbc →
      bits.decimal = machine.registers.p.decimal) :
    (machine.withInert bits).perform e
      = (machine.perform e).withInert (e.mnemonic.operation.inertAfter machine bits) := by
  unfold perform
  rw [target_withInert, operand_withInert]
  cases hop : e.mnemonic.operation with
  | implied action =>
    have haction : action ≠ .pushStatus := by
      rintro rfl
      exact hpush (Mnemonic.operation_eq_pushStatus_iff.mp hop)
    exact Implied.apply_withInert haction (advance machine e.size) bits
  | reading action =>
    have hdecimal : action = .add ∨ action = .subtract →
        bits.decimal = machine.registers.p.decimal := by
      rintro (rfl | rfl)
      · exact hsum (.inl (Mnemonic.operation_eq_add_iff.mp hop))
      · exact hsum (.inr (Mnemonic.operation_eq_subtract_iff.mp hop))
    exact congrArg (fun registers => { advance machine e.size with registers })
      (Reading.apply_withInert (advance machine e.size).registers hdecimal _)
  | shifting change => cases change <;> cases e.mode <;> rfl
  | changing change => cases change <;> rfl
  | targeting action =>
    have hbranch : ∀ flag value, action = .branch flag value → flag.isInert = false := by
      rintro flag value rfl
      exact Mnemonic.isInert_of_branch hop
    exact Targeting.apply_withInert hbranch _ (advance machine e.size) bits

/-- The machine's own inert bits go the same way. -/
theorem inert_perform (machine : Machine) {e : Encoding} (hpush : e.mnemonic ≠ .php) :
    (machine.perform e).registers.p.inert
      = e.mnemonic.operation.inertAfter machine machine.registers.p.inert := by
  have h := machine.perform_withInert machine.registers.p.inert hpush fun _ => rfl
  exact congrArg (fun next : Machine => next.registers.p.inert) h

/-! ## §4. Side by side. -/

/-- The second machine is the first one, but for the inert bits. -/
def Akin (first second : Machine) : Prop := ∃ bits, second = first.withInert bits

/-- **One step side by side.**  The second machine follows the first, unless that looks at a bit
in which they differ. -/
theorem Akin.step {first second next : Machine} (h : Akin first second)
    (hstep : Machine.step first = .ok () next) (hpush : first.mnemonic? ≠ some .php)
    (hsum : first.mnemonic? = some .adc ∨ first.mnemonic? = some .sbc →
      first.registers.p.decimal = second.registers.p.decimal) :
    ∃ next', Machine.step second = .ok () next' ∧ Akin next next'
      ∧ (first.registers.p.decimal = second.registers.p.decimal →
          next.registers.p.decimal = next'.registers.p.decimal) := by
  obtain ⟨bits, rfl⟩ := h
  obtain ⟨e, hinstr, hreach, rfl⟩ := step_eq_ok_iff.mp hstep
  rw [mnemonic?_of_instruction hinstr] at hpush hsum
  have hpush' : e.mnemonic ≠ .php := fun hm => hpush (congrArg some hm)
  have hperform := first.perform_withInert bits hpush' fun hm =>
    (hsum (hm.imp (congrArg some) (congrArg some))).symm
  have hinstr' : (first.withInert bits).instruction? = some e := hinstr
  have hreach' : InReach (first.withInert bits) e.size := hreach
  refine ⟨_, step_of_complete hinstr' hreach', ⟨_, hperform⟩, ?_⟩
  intro hdecimal
  rw [hperform]
  have hown := congrArg InertBits.decimal (inert_perform first hpush')
  exact hown.trans (Operation.decimal_inertAfter hdecimal first _)

/-! ## §5. Any number of steps. -/

/-- After a number of steps the machines are akin, and differ in Decimal only if they have done
so all the time. -/
structure SideBySide (first second : Machine) (count : Nat) : Prop where
  akin : Akin (first.after count) (second.after count)
  decimal_eq : ∀ j ≤ count,
    (first.after j).registers.p.decimal = (second.after j).registers.p.decimal →
      (first.after count).registers.p.decimal = (second.after count).registers.p.decimal

theorem SideBySide.step {first second : Machine} {count : Nat}
    (h : SideBySide first second count) (hsucceeds : (first.after count).succeeds = true)
    (hpush : (first.after count).mnemonic? ≠ some .php)
    (hsum : (∀ j ≤ count,
        (first.after j).registers.p.decimal ≠ (second.after j).registers.p.decimal) →
      (first.after count).mnemonic? ≠ some .adc ∧ (first.after count).mnemonic? ≠ some .sbc) :
    (second.after count).succeeds = true ∧ SideBySide first second (count + 1) := by
  have hdecimal : (first.after count).mnemonic? = some .adc
      ∨ (first.after count).mnemonic? = some .sbc →
      (first.after count).registers.p.decimal = (second.after count).registers.p.decimal := by
    intro hm
    -- Had Decimal been the same at any time before, it would be the same now.
    by_contra hne
    obtain ⟨hadc, hsbc⟩ := hsum fun j hj heq => hne (h.decimal_eq j hj heq)
    exact hm.elim hadc hsbc
  obtain ⟨next', hstep', hakin, hkept⟩ := h.akin.step (step_after hsucceeds) hpush hdecimal
  refine ⟨succeeds_of_step hstep', ?_, ?_⟩
  · rw [after_succ_of_step hstep']
    exact hakin
  · intro j hj heq
    rcases Nat.lt_or_eq_of_le hj with hlt | rfl
    · rw [after_succ_of_step hstep']
      exact hkept (h.decimal_eq j (Nat.le_of_lt_succ hlt) heq)
    · exact heq

/-- **The inert status bits.**  Let two machines differ in Interrupt, Decimal, Break and bit 5 at
most.  As long as the steps of the first succeed and push no status, and no sum is met before
Decimal is the same in both, the steps of the second succeed as well, at the same addresses
and with the same opcodes, and the machines differ in these bits at most. -/
theorem inert_bits {first second : Machine} (akin : Akin first second) (count : Nat)
    (succeed : ∀ i < count, (first.after i).succeeds = true)
    (noPush : ∀ i < count, (first.after i).mnemonic? ≠ some .php)
    (noSum : ∀ i < count,
      (∀ j ≤ i, (first.after j).registers.p.decimal ≠ (second.after j).registers.p.decimal) →
        (first.after i).mnemonic? ≠ some .adc ∧ (first.after i).mnemonic? ≠ some .sbc) :
    (∀ i < count, (second.after i).succeeds = true
      ∧ (second.after i).registers.pc = (first.after i).registers.pc
      ∧ (second.after i).memory.read (second.after i).registers.pc
          = (first.after i).memory.read (first.after i).registers.pc)
    ∧ Akin (first.after count) (second.after count) := by
  -- By induction on the steps taken.  That the machines are akin is too little to carry along:
  -- whether a sum is allowed depends on all the times at which Decimal could have met.
  have hside : ∀ i ≤ count, SideBySide first second i := by
    intro i hi
    induction i with
    | zero =>
      refine ⟨akin, ?_⟩
      intro j hj heq
      obtain rfl := Nat.le_zero.mp hj
      exact heq
    | succ i ih =>
      exact ((ih (Nat.le_of_succ_le hi)).step (succeed i hi) (noPush i hi) (noSum i hi)).2
  refine ⟨?_, (hside count (Nat.le_refl count)).akin⟩
  intro i hi
  have hi' := hside i (Nat.le_of_lt hi)
  obtain ⟨bits, hbits⟩ := hi'.akin
  refine ⟨(hi'.step (succeed i hi) (noPush i hi) (noSum i hi)).1, ?_, ?_⟩
  · rw [hbits]
    rfl
  · rw [hbits]
    rfl

/-- A program that leaves decimal mode before it adds. -/
def clearsDecimal : Machine :=
  (new.loadProgram [0x18, 0xA9, 0x05, 0xD8, 0x69, 0x07] 0x0200).2

/-- The same program on a machine in which all four bits are set. -/
def allInertSet : Machine := clearsDecimal.withInert ⟨true, true, true, true⟩

theorem inert_bits_clearsDecimal :
    clearsDecimal.registers.p.decimal ≠ allInertSet.registers.p.decimal
    ∧ (clearsDecimal.after 3).mnemonic? = some .adc
    ∧ (allInertSet.after 3).succeeds = true
    ∧ Akin (clearsDecimal.after 4) (allInertSet.after 4) := by
  have hakin : Akin clearsDecimal allInertSet := ⟨_, rfl⟩
  obtain ⟨hsteps, hlast⟩ := inert_bits hakin 4 (by decide +kernel) (by decide +kernel)
    (by decide +kernel)
  exact ⟨by decide +kernel, by decide +kernel, (hsteps 3 (by decide)).1, hlast⟩

end Machine

end Mos6502
