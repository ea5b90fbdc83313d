/-
  Mos6502.Registers — the registers of the processor

  The accumulator, the two index registers, the stack pointer, the program
  counter and the status.  The four byte registers can be named by a value of
  `Register`, which is how transfers, loads, stores and comparisons say which
  one they mean.

  Main statements:
    * `get_set`          — a register after another was set
    * `eq_of_get`        — registers that hold the same are the same
-/
import Mos6502.Hex
import Mos6502.Status
import Mos6502.Stack

namespace Mos6502

/-! ## §1. The register file. -/

/-- What the processor holds apart from memory. -/
structure Registers where
  /-- The accumulator. -/
  a : UInt8 := 0
  /-- The first index register. -/
  x : UInt8 := 0
  /-- The second index register. -/
  y : UInt8 := 0
  /-- The stack pointer. -/
  s : UInt8 := Stack.initialPointer
  /-- The program counter. -/
  pc : UInt16 := 0
  /-- The status. -/
  p : Status := {}
  deriving Repr, DecidableEq

/-- The byte registers. -/
inductive Register where
  | a
  | x
  | y
  | s
  deriving Repr, DecidableEq

namespace Registers

/-- The byte in a register. -/
def get (registers : Registers) : Register → UInt8
  | .a => registers.a
  | .x => registers.x
  | .y => registers.y
  | .s => registers.s

/-- Puts a byte into a register and touches nothing else. -/
def set (registers : Registers) (register : Register) (value : UInt8) : Registers :=
  match register with
  | .a => { registers with a := value }
  | .x => { registers with x := value }
  | .y => { registers with y := value }
  | .s => { registers with s := value }

/-- Puts a result into a register and lets Zero and Negative tell about it. -/
def setResult (registers : Registers) (register : Register) (value : UInt8) : Registers :=
  let registers := registers.set register value
  { registers with p := registers.p.reflect value }

/-- Moves the program counter by a signed byte. -/
def displace (registers : Registers) (offset : UInt8) : Registers :=
  { registers with pc := registers.pc + signExtend offset }

/-- Gives every register its first value: zero, or the top of its page for the stack pointer. -/
def reset (registers : Registers) : Registers :=
  { registers with a := 0, x := 0, y := 0, s := Stack.initialPointer, pc := 0, p := .clear }

theorem get_set (registers : Registers) (register other : Register) (value : UInt8) :
    (registers.set register value).get other
      = if register = other then value else registers.get other := by
  cases register <;> cases other <;> rfl

/-- The registers are the byte registers, the program counter and the status. -/
theorem eq_of_get {registers other : Registers}
    (h : ∀ register, registers.get register = other.get register)
    (pc : registers.pc = other.pc) (p : registers.p = other.p) : registers = other := by
  obtain ⟨a, x, y, s, place, status⟩ := registers
  obtain ⟨a', x', y', s', place', status'⟩ := other
  obtain rfl : a = a' := h .a
  obtain rfl : x = x' := h .x
  obtain rfl : y = y' := h .y
  obtain rfl : s = s' := h .s
  obtain rfl : place = place' := pc
  obtain rfl : status = status' := p
  rfl

end Registers

/-! ## §2. Changes from outside. -/

/-- New values for some of the registers. -/
structure RegisterUpdate where
  a : Option UInt8 := none
  x : Option UInt8 := none
  y : Option UInt8 := none
  s : Option UInt8 := none
  pc : Option UInt16 := none
  p : Option Status := none
  deriving Repr, DecidableEq

namespace Registers

/-- Takes over the values that an update has and keeps the others. -/
def update (registers : Registers) (changes : RegisterUpdate) : Registers where
  a := changes.a.getD registers.a
  x := changes.x.getD registers.x
  y := changes.y.getD registers.y
  s := changes.s.getD registers.s
  pc := changes.pc.getD registers.pc
  p := changes.p.getD registers.p

/-! ## §3. Text. -/

/-- A byte in hexadecimal and in decimal. -/
def byteText (value : UInt8) : String :=
  "0x" ++ hexByte value ++ " (" ++ toString value.toNat ++ ")"

/-- A word in hexadecimal and in decimal. -/
def wordText (value : UInt16) : String :=
  "0x" ++ hexWord value ++ " (" ++ toString value.toNat ++ ")"

/-- One line for each register; the last line ends like the others. -/
def text (registers : Registers) : String :=
  "A: " ++ byteText registers.a ++ "\n"
    ++ "X: " ++ byteText registers.x ++ "\n"
    ++ "Y: " ++ byteText registers.y ++ "\n"
    ++ "PC: " ++ wordText registers.pc ++ "\n"
    ++ "SP: " ++ byteText registers.s ++ "\n"
    ++ "Flags: " ++ registers.p.text ++ "\n"

end Registers

end Mos6502
