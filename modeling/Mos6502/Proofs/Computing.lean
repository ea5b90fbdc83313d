/-
  Mos6502.Proofs.Computing — the values that data instructions compute

  Loads, transfers, bitwise operations, counting and shifts have one thing in common: each
  puts one new value into one place, a register or a byte of memory, and lets Zero and
  Negative tell about it.  What is put where is written down as a table by the names of
  the instructions, with values as numbers, and the table is read off the state before
  the step.  So it does not matter if the byte that changes belongs to the instruction itself
  or to the pointer that leads to it.

  Main statements:
    * `toNat_apply`       — changes of a byte as arithmetic
    * `leaves_perform`    — an instruction puts the value of the table into the place of the table
    * `carry_perform`     — a shift puts the bit that it shifts out into Carry
    * `data_instructions` — the whole account of a step, with BIT and the stores
-/
import Mos6502.Proofs.Addressing
import Mos6502.Proofs.StatusBits

namespace Mos6502

/-! ## §1. Changes as arithmetic. -/

namespace Change

/-- The number of the changed byte, from the numbers of the byte and of Carry. -/
def number (change : Change) (byte carry : Nat) : Nat :=
  match change with
  | shiftLeft => 2 * byte % 256
  | shiftRight => byte / 2
  | rotateLeft => (2 * byte + carry) % 256
  | rotateRight => byte / 2 + 128 * carry
  | increment => (byte + 1) % 256
  | decrement => (byte + 255) % 256

theorem toNat_apply (change : Change) (byte : UInt8) (carry : Bool) :
    (change.apply byte carry).1.toNat = change.number byte.toNat carry.toNat := by
  have all : ∀ n : Fin 256, ∀ carry : Bool,
      (change.apply (UInt8.ofFin n) carry).1.toNat = change.number n.val carry.toNat := by
    -- Six changes, and 512 cases for each of them.
    cases change <;> decide +kernel
  exact all byte.toFin carry

end Change

/-! ## §2. Places. -/

/-- Where a value is left: in a register, or at an address of memory. -/
inductive Place where
  | register (register : Register)
  | memory (address : UInt16)
  deriving Repr, DecidableEq

namespace Machine

open ByteStream

/-- The byte that is held at a place. -/
def held (machine : Machine) : Place → UInt8
  | .register register => machine.registers.get register
  | .memory address => machine.memory.read address

/-- A value was put into a place, and Zero and Negative tell about it. -/
structure Leaves (next : Machine) (place : Place) (value : Nat) : Prop where
  held_eq : (next.held place).toNat = value
  reflects : next.registers.p.Reflects value

theorem leaves_of_setResult (registers : Registers) {next : Machine} {register : Register}
    {value : UInt8} {number : Nat} (h : next.registers = registers.setResult register value)
    (hnumber : value.toNat = number) : next.Leaves (.register register) number := by
  subst hnumber
  have hheld : next.held (.register register) = value := by
    show next.registers.get register = value
    rw [h]
    cases register <;> rfl
  have hp : next.registers.p = registers.p.reflect value := by
    rw [h]
    cases register <;> rfl
  exact ⟨congrArg UInt8.toNat hheld, hp ▸ Status.reflects_reflect registers.p value⟩

theorem leaves_of_outcome (change : Change) (byte : UInt8) (status : Status) {next : Machine}
    {place : Place} (hheld : next.held place = (change.outcome byte status).1)
    (hp : next.registers.p = (change.outcome byte status).2) :
    next.Leaves place (change.number byte.toNat status.carry.toNat) := by
  rw [← change.toNat_apply]
  exact ⟨congrArg UInt8.toNat hheld, hp ▸ Status.reflects_reflect _ _⟩

/-! ## §3. The table. -/

/-- The byte that is shifted where it stands: the accumulator in the accumulator mode, and the
byte at the effective address in the others. -/
def workplace (machine : Machine) (mode : AddressingMode) : Place :=
  match mode with
  | .accumulator => .register .a
  | mode => .memory (machine.effective mode)

/-- The place into which a data instruction puts a value, and the number of that value. -/
def computes? (machine : Machine) (e : Encoding) : Option (Place × Nat) :=
  let a := machine.registers.a.toNat
  let operand := (machine.designated e.mode).toNat
  let changed (change : Change) (place : Place) :=
    (place, change.number (machine.held place).toNat machine.registers.p.carry.toNat)
  match e.mnemonic with
  | .lda => some (.register .a, operand)
  | .ldx => some (.register .x, operand)
  | .ldy => some (.register .y, operand)
  | .tax => some (.register .x, a)
  | .tay => some (.register .y, a)
  | .txa => some (.register .a, machine.registers.x.toNat)
  | .tya => some (.register .a, machine.registers.y.toNat)
  | .tsx => some (.register .x, machine.registers.s.toNat)
  | .pla =>
    some (.register .a, machine.memory.byteAt (0x0100 + (machine.registers.s.toNat + 1) % 256))
  | .and => some (.register .a, a &&& operand)
  | .ora => some (.register .a, a ||| operand)
  | .eor => some (.register .a, a ^^^ operand)
  | .inx => some (changed .increment (.register .x))
  | .iny => some (changed .increment (.register .y))
  | .dex => some (changed .decrement (.register .x))
  | .dey => some (changed .decrement (.register .y))
  | .inc => some (changed .increment (.memory (machine.effective e.mode)))
  | .dec => some (changed .decrement (.memory (machine.effective e.mode)))
  | .asl => some (changed .shiftLeft (machine.workplace e.mode))
  | .lsr => some (changed .shiftRight (machine.workplace e.mode))
  | .rol => some (changed .rotateLeft (machine.workplace e.mode))
  | .ror => some (changed .rotateRight (machine.workplace e.mode))
  | _ => none

/-- The bit that a shift has no place for. -/
def shiftsOut? (machine : Machine) (e : Encoding) : Option Bool :=
  let byte := (machine.held (machine.workplace e.mode)).toNat
  match e.mnemonic with
  | .asl | .rol => some (byte.testBit 7)
  | .lsr | .ror => some (byte.testBit 0)
  | _ => none

end Machine

/-- The register that a store writes. -/
def Mnemonic.stored? : Mnemonic → Option Register
  | .sta => some .a
  | .stx => some .x
  | .sty => some .y
  | _ => none

theorem Mnemonic.operation_of_stored? {mnemonic : Mnemonic} {register : Register}
    (h : mnemonic.stored? = some register) :
    mnemonic.operation = .targeting (.store register) := by
  revert h
  cases mnemonic <;> simp [stored?, operation]

/-! ## §4. Instructions against the table. -/

namespace Machine

open ByteStream

section Instructions

variable {machine : Machine} {e : Encoding}

theorem leaves_of_reading {action : Reading} {register : Register} {value : UInt8} {number : Nat}
    (hop : e.mnemonic.operation = .reading action)
    (hresult : action.apply (machine.designated e.mode) (advance machine e.size).registers
      = (advance machine e.size).registers.setResult register value)
    (hnumber : value.toNat = number) : (machine.perform e).Leaves (.register register) number := by
  rw [perform_of_reading rfl hop, operand_eq_designated]
  exact leaves_of_setResult (advance machine e.size).registers hresult hnumber

/-- The instruction leaves at a place the outcome of a change of the byte that stood there, with
the status that tells about it. -/
def Changes (machine : Machine) (e : Encoding) (change : Change) (place : Place) : Prop :=
  (machine.perform e).held place = (change.outcome (machine.held place) machine.registers.p).1
    ∧ (machine.perform e).registers.p
      = (change.outcome (machine.held place) machine.registers.p).2

theorem Changes.leaves {change : Change} {place : Place} (h : machine.Changes e change place) :
    (machine.perform e).Leaves place
      (change.number (machine.held place).toNat machine.registers.p.carry.toNat) :=
  leaves_of_outcome change _ machine.registers.p h.1 h.2

/-- Nothing is written before the byte is read, even if it belongs to the instruction. -/
theorem changes_of_changeAt {change : Change}
    (h : machine.perform e
      = changeAt change (machine.target e.mode) (advance machine e.size)) :
    machine.Changes e change (.memory (machine.effective e.mode)) := by
  unfold Changes
  rw [h, target_eq_effective]
  exact ⟨Memory.read_write_self _ _ _, rfl⟩

theorem changes_of_changing {change : Change} (hop : e.mnemonic.operation = .changing change) :
    machine.Changes e change (.memory (machine.effective e.mode)) :=
  changes_of_changeAt (perform_of_changing rfl hop)

theorem changes_of_shifting {change : Change} (hop : e.mnemonic.operation = .shifting change) :
    machine.Changes e change (machine.workplace e.mode) := by
  by_cases hmode : e.mode = .accumulator
  · unfold Changes
    rw [perform_of_shifting_accumulator rfl hop hmode, hmode]
    exact ⟨rfl, rfl⟩
  · have hplace : machine.workplace e.mode = .memory (machine.effective e.mode) := by
      cases hm : e.mode with
      | accumulator => exact absurd hm hmode
      | _ => rfl
    rw [hplace]
    exact changes_of_changeAt (perform_of_shifting rfl hop hmode)

theorem leaves_of_alter {register : Register} {change : Change}
    (hop : e.mnemonic.operation = .implied (.alter register change)) :
    (machine.perform e).Leaves (.register register)
      (change.number (machine.registers.get register).toNat
        machine.registers.p.carry.toNat) := by
  rw [perform_of_implied rfl hop]
  apply leaves_of_outcome change _ machine.registers.p
  · cases register <;> rfl
  · cases register <;> rfl

/-- What PLA pulls is the byte above the stack pointer, round the page. -/
theorem toNat_pop (machine : Machine) :
    machine.pop.1.toNat
      = machine.memory.byteAt (0x0100 + (machine.registers.s.toNat + 1) % 256) := by
  have hplace : (Stack.address (machine.registers.s + 1)).toNat
      = 0x0100 + (machine.registers.s.toNat + 1) % 256 := by
    rw [Stack.toNat_address, UInt8.toNat_add, UInt8.toNat_one]
  rw [← hplace, Memory.byteAt_toNat]
  rfl

/-- **Instructions against the table.**  The value of the table stands at the place of the table,
and Zero and Negative tell about it. -/
theorem leaves_perform {place : Place} {value : Nat}
    (h : machine.computes? e = some (place, value)) : (machine.perform e).Leaves place value := by
  unfold computes? at h
  -- One case for each way in which the code gets at a value.
  cases hm : e.mnemonic with
  | lda | ldx | ldy =>
    rw [hm] at h
    cases h
    exact leaves_of_reading (congrArg Mnemonic.operation hm) rfl rfl
  | tax | tay | txa | tya | tsx =>
    rw [hm] at h
    cases h
    rw [perform_of_implied hm rfl]
    exact leaves_of_setResult (advance machine e.size).registers rfl rfl
  | pla =>
    rw [hm] at h
    cases h
    rw [perform_of_implied hm rfl]
    exact leaves_of_setResult (advance machine e.size).pop.2.registers rfl (toNat_pop machine)
  | and =>
    rw [hm] at h
    cases h
    exact leaves_of_reading (congrArg Mnemonic.operation hm) rfl (UInt8.toNat_and _ _)
  | ora =>
    rw [hm] at h
    cases h
    exact leaves_of_reading (congrArg Mnemonic.operation hm) rfl (UInt8.toNat_or _ _)
  | eor =>
    rw [hm] at h
    cases h
    exact leaves_of_reading (congrArg Mnemonic.operation hm) rfl (UInt8.toNat_xor _ _)
  | inx | iny | dex | dey =>
    rw [hm] at h
    cases h
    exact leaves_of_alter (congrArg Mnemonic.operation hm)
  | inc | dec =>
    rw [hm] at h
    cases h
    exact (changes_of_changing (congrArg Mnemonic.operation hm)).leaves
  | asl | lsr | rol | ror =>
    rw [hm] at h
    cases h
    exact (changes_of_shifting (congrArg Mnemonic.operation hm)).leaves
  | _ =>
    rw [hm] at h
    cases h

/-- A shift puts the bit that it shifts out into Carry. -/
theorem carry_perform {bit : Bool} (h : machine.shiftsOut? e = some bit) :
    (machine.perform e).registers.p.carry = bit := by
  unfold shiftsOut? at h
  cases hm : e.mnemonic with
  | asl | rol =>
    rw [hm] at h
    cases h
    rw [(changes_of_shifting (congrArg Mnemonic.operation hm)).2]
    exact and_bit_ne_zero _ 7
  | lsr | ror =>
    rw [hm] at h
    cases h
    rw [(changes_of_shifting (congrArg Mnemonic.operation hm)).2]
    exact and_bit_ne_zero _ 0
  | _ =>
    rw [hm] at h
    cases h

theorem perform_of_bit (hbit : e.mnemonic = .bit) :
    machine.perform e
      = (advance machine e.size).onRegisters (·.testBits (machine.designated e.mode)) := by
  rw [perform_of_reading hbit rfl, operand_eq_designated]
  rfl

theorem perform_of_stored {register : Register} (hstore : e.mnemonic.stored? = some register) :
    (machine.perform e).memory
      = machine.memory.write (machine.effective e.mode) (machine.registers.get register) := by
  rw [perform_of_targeting rfl (Mnemonic.operation_of_stored? hstore), target_eq_effective]
  cases register <;> rfl

end Instructions

/-! ## §5. Steps. -/

/-- **Data instructions.**  A step puts the value that the table has for its instruction into the
place that the table has for it, and Zero and Negative tell about it; a shift puts the bit that
it shifts out into Carry.  BIT tells about the operand and the accumulator and changes
neither, and a store leaves its register at the effective address.  All this is said from
the state before the step. -/
theorem data_instructions {machine next : Machine} (h : step machine = .ok () next) :
    ∃ e, machine.instruction? = some e
      ∧ (∀ place value, machine.computes? e = some (place, value) →
          (next.held place).toNat = value
          ∧ (next.registers.p.zero = true ↔ value = 0)
          ∧ next.registers.p.negative = value.testBit 7)
      ∧ (∀ bit, machine.shiftsOut? e = some bit → next.registers.p.carry = bit)
      ∧ (e.mnemonic = .bit →
          let m := (machine.designated e.mode).toNat
          (next.registers.p.zero = true ↔ machine.registers.a.toNat &&& m = 0)
          ∧ next.registers.p.negative = m.testBit 7
          ∧ next.registers.p.overflow = m.testBit 6
          ∧ next.registers.a = machine.registers.a
          ∧ next.memory = machine.memory)
      ∧ (∀ register, e.mnemonic.stored? = some register →
          next.memory.read (machine.effective e.mode) = machine.registers.get register) := by
  obtain ⟨e, stands, rfl⟩ := StandsAt.of_step h
  refine ⟨e, stands.instruction, ?value, fun bit => carry_perform, ?test, ?store⟩
  case value =>
    intro place value hcomputes
    obtain ⟨hheld, hzero, hnegative⟩ := leaves_perform hcomputes
    exact ⟨hheld, hzero, hnegative⟩
  case test =>
    intro hbit m
    rw [perform_of_bit hbit]
    refine ⟨?_, and_bit_ne_zero _ 7, and_bit_ne_zero _ 6, rfl, rfl⟩
    show (machine.registers.a &&& machine.designated e.mode == 0) = true ↔ _
    rw [beq_iff_eq, ← UInt8.toNat_inj, UInt8.toNat_and]
    rfl
  case store =>
    intro register hstore
    rw [perform_of_stored hstore, Memory.read_write_self]

/-- An increment of its own opcode, which makes it an undocumented one. -/
def selfIncrement : Machine := (new.loadProgram [0xE6, 0x10] 0x0010).2

theorem data_instructions_selfIncrement :
    ∃ next, step selfIncrement = .ok () next
      ∧ (next.held (.memory 0x0010)).toNat = 0xE7
      ∧ next.registers.p.zero ≠ true ∧ next.registers.p.negative = true := by
  have hstands : selfIncrement.StandsAt ⟨.inc, .zeroPage⟩ := by decide +kernel
  have hcomputes : selfIncrement.computes? ⟨.inc, .zeroPage⟩ = some (.memory 0x0010, 0xE7) := by
    decide +kernel
  obtain ⟨e, he, hvalue, -⟩ := data_instructions hstands.step_eq
  obtain rfl : e = ⟨.inc, .zeroPage⟩ := Option.some.inj (he.symm.trans hstands.instruction)
  obtain ⟨hheld, hzero, hnegative⟩ := hvalue _ _ hcomputes
  exact ⟨_, hstands.step_eq, hheld, mt hzero.mp (by decide), hnegative⟩

end Machine

end Mos6502
