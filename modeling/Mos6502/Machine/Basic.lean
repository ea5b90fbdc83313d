/-
  Mos6502.Machine.Basic — the machine and what its host does to it

  A machine is a processor with its memory.  It executes inside a window, the
  part of memory that executable data was last loaded into, and it counts the
  subroutine calls that are open.  The host loads data, sets registers
  and resets; instructions are in `Mos6502.Machine.Step`.

  Main statements:
    * `loadProgram_of_fits`, `loadProgram_of_not_fits` — programs that are accepted and refused
    * `loadProgram_fst`, `loadData_fst` — which loads are accepted
-/
import Mos6502.Registers
import Mos6502.ByteStream

namespace Mos6502

/-! ## §1. The machine. -/

/-- The part of memory that instructions are fetched from. -/
structure Window where
  /-- The first address. -/
  address : UInt16 := 0
  /-- The number of bytes. -/
  length : Nat := 0
  deriving Repr, DecidableEq

/-- The first address after the window. -/
def Window.limit (window : Window) : Nat := window.address.toNat + window.length

/-- A processor with its memory. -/
structure Machine where
  registers : Registers := {}
  memory : Memory := Memory.zero
  /-- Where instructions are fetched from. -/
  window : Window := {}
  /-- The number of subroutine calls that are open. -/
  callDepth : Nat := 0
  /-- Whether a return was met that no call was open for. -/
  returned : Bool := false
  deriving DecidableEq

namespace Machine

/-- The machine after it is switched on: all is zero, except the stack pointer. -/
def new : Machine := {}

/-- Puts the program counter somewhere. -/
@[inline] def goto (machine : Machine) (address : UInt16) : Machine :=
  { machine with registers.pc := address }

/-- A machine fetches at its program counter, up to the end of its window. -/
instance : ByteStream Machine where
  memory machine := machine.memory
  limit machine := machine.window.limit
  cursor machine := machine.registers.pc
  seek := goto

/-- Whether the program counter is at or beyond the end of the window.  Below the
window there is data to fetch, too. -/
def atEnd (machine : Machine) : Bool := ByteStream.atEnd machine

/-! ## §2. What the host does. -/

/-- Loads executable data into an emptied memory, makes it the window, and goes to
its first byte.  The registers keep their content.  Says whether the data was
accepted; a refusal changes nothing. -/
def loadProgram (machine : Machine) (data : List UInt8) (address : UInt16) :
    Bool × Machine :=
  match machine.memory.load data address true with
  | (true, memory) =>
    (true, { registers := { machine.registers with pc := address }
             memory
             window := ⟨address, data.length⟩
             callDepth := 0
             returned := false })
  | (false, _) => (false, machine)

/-- Loads data that is not executable, into an emptied memory if `clear` is set.
Says whether the data was accepted; a refusal changes nothing. -/
def loadData (machine : Machine) (data : List UInt8) (address : UInt16) (clear : Bool) :
    Bool × Machine :=
  let (accepted, memory) := machine.memory.load data address clear
  (accepted, { machine with memory })

/-- Brings the machine back to where it was when it was switched on: memory is cleared, the
registers get their first values, and the window, the open calls and the end of execution
are forgotten. -/
def reset (machine : Machine) : Machine :=
  { machine with
    memory := Memory.zero
    registers := machine.registers.reset
    window := { address := 0, length := 0 }
    callDepth := 0
    returned := false }

/-- Gives some of the registers new values. -/
def update (machine : Machine) (changes : RegisterUpdate) : Machine :=
  { machine with registers := machine.registers.update changes }

/-! ## §3. The stack. -/

/-- Pushes a byte. -/
@[inline] def push (machine : Machine) (value : UInt8) : Machine :=
  let stack := (Stack.mk machine.memory machine.registers.s).push value
  { machine with memory := stack.memory, registers.s := stack.pointer }

/-- Pops a byte. -/
@[inline] def pop (machine : Machine) : UInt8 × Machine :=
  let (value, stack) := (Stack.mk machine.memory machine.registers.s).pop
  (value, { machine with registers.s := stack.pointer })

/-! ## §4. Laws. -/

/-- A program that is accepted leaves the registers, except for the program counter. -/
theorem loadProgram_of_fits (machine : Machine) {data : List UInt8} {address : UInt16}
    (fits : address.toNat + data.length ≤ 0xFFFF) :
    machine.loadProgram data address
      = (true, { registers := { machine.registers with pc := address }
                 memory := Memory.zero.writeBytes address data
                 window := ⟨address, data.length⟩ }) := by
  unfold loadProgram
  rw [Memory.load_of_fits _ _ fits]
  rfl

theorem loadProgram_of_not_fits (machine : Machine) {data : List UInt8} {address : UInt16}
    (unfit : ¬ address.toNat + data.length ≤ 0xFFFF) :
    machine.loadProgram data address = (false, machine) := by
  unfold loadProgram
  rw [Memory.load_of_not_fits _ _ unfit]

theorem loadProgram_fst (machine : Machine) (data : List UInt8) (address : UInt16) :
    (machine.loadProgram data address).1
      = decide (address.toNat + data.length ≤ 0xFFFF) := by
  rw [← Memory.load_fst machine.memory data address true]
  unfold loadProgram
  split <;> simp [*]

theorem loadData_fst (machine : Machine) (data : List UInt8) (address : UInt16) (clear : Bool) :
    (machine.loadData data address clear).1
      = decide (address.toNat + data.length ≤ 0xFFFF) :=
  Memory.load_fst machine.memory data address clear

end Machine

end Mos6502
