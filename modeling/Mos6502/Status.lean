/-
  Mos6502.Status — the status byte

  Seven bits of the status byte are flags with a name; the eighth, bit 5, has
  no meaning to the processor but keeps whatever is put there.  A status is the
  eight bits side by side, so that an instruction that sets one flag visibly
  leaves the others alone.

  Main statements:
    * `ofByte_toByte`, `toByte_ofByte` — bits and byte say the same
    * `test_assign`                    — a flag after another was assigned
-/

namespace Mos6502

/-! ## §1. Flags. -/

/-- The named bits, from the lowest to the highest. -/
inductive Flag where
  /-- A carry out of an addition, or no borrow out of a subtraction. -/
  | carry
  /-- The last result was zero. -/
  | zero
  /-- Interrupts are disabled. -/
  | interrupt
  /-- Additions and subtractions are decimal. -/
  | decimal
  /-- A break instruction was met. -/
  | brk
  /-- The last signed result did not fit. -/
  | overflow
  /-- Bit 7 of the last result. -/
  | negative
  deriving Repr, DecidableEq

namespace Flag

/-- All flags, from the lowest bit to the highest. -/
def all : List Flag := [carry, zero, interrupt, decimal, brk, overflow, negative]

/-- The name under which a flag is shown. -/
def name : Flag → String
  | carry => "Carry"
  | zero => "Zero"
  | interrupt => "Interrupt"
  | decimal => "Decimal"
  | brk => "Break"
  | overflow => "Overflow"
  | negative => "Negative"

end Flag

/-! ## §2. The eight bits. -/

/-- The status bits, from the lowest to the highest. -/
structure Status where
  carry : Bool := false
  zero : Bool := false
  interrupt : Bool := false
  decimal : Bool := false
  brk : Bool := false
  /-- Bit 5, which no instruction reads or sets on its own. -/
  unused : Bool := false
  overflow : Bool := false
  negative : Bool := false
  deriving Repr, DecidableEq

namespace Status

/-- The status in which every bit is clear. -/
def clear : Status := {}

/-- Whether a flag is set. -/
def test (status : Status) : Flag → Bool
  | .carry => status.carry
  | .zero => status.zero
  | .interrupt => status.interrupt
  | .decimal => status.decimal
  | .brk => status.brk
  | .overflow => status.overflow
  | .negative => status.negative

/-- The status with one flag set or cleared. -/
def assign (status : Status) (flag : Flag) (value : Bool) : Status :=
  match flag with
  | .carry => { status with carry := value }
  | .zero => { status with zero := value }
  | .interrupt => { status with interrupt := value }
  | .decimal => { status with decimal := value }
  | .brk => { status with brk := value }
  | .overflow => { status with overflow := value }
  | .negative => { status with negative := value }

/-- The status with Zero and Negative telling about a value. -/
def reflect (status : Status) (value : UInt8) : Status :=
  { status with zero := value == 0, negative := value &&& 0x80 != 0 }

/-! ## §3. The byte. -/

/-- The status in one byte. -/
def toByte (status : Status) : UInt8 :=
  status.carry.toUInt8 ||| status.zero.toUInt8 <<< 1 ||| status.interrupt.toUInt8 <<< 2
    ||| status.decimal.toUInt8 <<< 3 ||| status.brk.toUInt8 <<< 4 ||| status.unused.toUInt8 <<< 5
    ||| status.overflow.toUInt8 <<< 6 ||| status.negative.toUInt8 <<< 7

/-- The status that a byte stands for; every bit counts. -/
def ofByte (byte : UInt8) : Status where
  carry := byte &&& 0x01 != 0
  zero := byte &&& 0x02 != 0
  interrupt := byte &&& 0x04 != 0
  decimal := byte &&& 0x08 != 0
  brk := byte &&& 0x10 != 0
  unused := byte &&& 0x20 != 0
  overflow := byte &&& 0x40 != 0
  negative := byte &&& 0x80 != 0

/-- The names of the flags that are set, lowest bit first, or `None`. -/
def text (status : Status) : String :=
  match (Flag.all.filter status.test).map Flag.name with
  | [] => "None"
  | names => " | ".intercalate names

/-! ## §4. Laws. -/

@[simp] theorem ofByte_toByte (status : Status) : ofByte status.toByte = status := by
  obtain ⟨c, z, i, d, b, u, v, n⟩ := status
  revert c z i d b u v n
  decide +kernel

@[simp] theorem toByte_ofByte (byte : UInt8) : (ofByte byte).toByte = byte := by
  have all : ∀ n : Fin 256, (ofByte (UInt8.ofFin n)).toByte = UInt8.ofFin n := by decide +kernel
  exact all byte.toFin

theorem test_assign (status : Status) (flag other : Flag) (value : Bool) :
    (status.assign flag value).test other = if flag = other then value else status.test other := by
  cases flag <;> cases other <;> rfl

end Status

end Mos6502
