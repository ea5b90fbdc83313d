/-
  Mos6502.Stack — the stack as a ring in page one

  The stack has the 256 bytes of page one and no more: pushing writes at the
  pointer and lowers it, popping raises it and reads there, and in both cases
  the pointer wraps inside the page.  Nothing is ever refused, so a push onto a
  full ring overwrites its oldest byte and a pop from an empty one reads whatever
  the cell holds.

  Main statements:
    * `pop_push`         — what was pushed is popped, at the pointer it began with
    * `read_push_of_ne`  — a push changes one cell of page one only
-/
import Mos6502.Memory.Basic

namespace Mos6502

/-! ## §1. The ring. -/

/-- A memory seen as a stack: `pointer` is the place in page one of the next free
cell. -/
structure Stack where
  memory : Memory
  pointer : UInt8
  deriving DecidableEq

namespace Stack

/-- The page that holds the stack. -/
def page : UInt8 := 0x01

/-- Where the pointer stands after a reset. -/
def initialPointer : UInt8 := 0xFF

/-- The address in page one of a place on the stack. -/
def address (pointer : UInt8) : UInt16 := Memory.inPage page pointer

/-- Writes a byte at the pointer and lowers the pointer. -/
@[inline] def push (stack : Stack) (value : UInt8) : Stack :=
  ⟨stack.memory.write (address stack.pointer) value, stack.pointer - 1⟩

/-- Raises the pointer and reads the byte there. -/
@[inline] def pop (stack : Stack) : UInt8 × Stack :=
  (stack.memory.read (address (stack.pointer + 1)), { stack with pointer := stack.pointer + 1 })

/-! ## §2. Laws. -/

theorem address_inj {p q : UInt8} : address p = address q ↔ p = q := by
  constructor
  · intro h
    have := congrArg lowByte h
    simpa [address, Memory.inPage] using this
  · rintro rfl
    rfl

theorem pop_push (stack : Stack) (value : UInt8) :
    (stack.push value).pop = (value, { stack.push value with pointer := stack.pointer }) := by
  have h : stack.pointer - 1 + 1 = stack.pointer := by simp
  simp [push, pop, h]

theorem read_push_of_ne (stack : Stack) (value : UInt8) {other : UInt16}
    (h : address stack.pointer ≠ other) :
    (stack.push value).memory.read other = stack.memory.read other := by
  simp [push, Memory.read_write_of_ne _ _ h]

end Stack

end Mos6502
