/-
  Mos6502.ByteStream — fetching bytes one after the other

  A running machine and a listing both take bytes from memory at a cursor that
  moves upward, as long as it stands below a limit.  Fetching is defined once for
  both: at the limit it fails where the cursor stands, and the cursor stays; below
  it the byte is handed out and the cursor moves on.  What was fetched before a
  failure stays fetched.

  Main statements:
    * `nextByte_of_atEnd`     — fetching at the limit fails and changes nothing
    * `nextByte_of_not_atEnd` — fetching below it gives the byte and moves the cursor
-/
import Mos6502.Fault
import Mos6502.Memory.Basic

namespace Mos6502

/-! ## §1. Streams. -/

/-- A state with a memory, a cursor into it, and a limit that the cursor must stay
below. -/
class ByteStream (σ : Type) where
  /-- The memory that is read. -/
  memory : σ → Memory
  /-- The first address that is out of reach; it may be beyond the top of memory. -/
  limit : σ → Nat
  /-- The address of the next byte. -/
  cursor : σ → UInt16
  /-- Puts the cursor somewhere else and leaves all else as it is. -/
  seek : σ → UInt16 → σ

/-- Computations that fetch: they may fail, and keep what they did before they
failed. -/
abbrev Fetch (σ : Type) := EStateM Fault σ

namespace ByteStream

variable {σ : Type} [ByteStream σ]

/-- Whether nothing is left to fetch. -/
def atEnd (s : σ) : Bool := decide (limit s ≤ (cursor s).toNat)

/-! ## §2. Fetching. -/

/-- The byte at the cursor, which moves on by one. -/
@[specialize] def nextByte : Fetch σ UInt8 := fun s =>
  if atEnd s then .error (.pastEnd (cursor s)) s
  else .ok ((memory s).read (cursor s)) (seek s (cursor s + 1))

/-- The two bytes at the cursor as a word, low byte first. -/
@[specialize] def nextWord : Fetch σ UInt16 := do
  let low ← nextByte
  let high ← nextByte
  return word low high

/-- The next `count` bytes. -/
@[specialize] def nextBytes : Nat → Fetch σ (List UInt8)
  | 0 => return []
  | count + 1 => do
    let byte ← nextByte
    let rest ← nextBytes count
    return byte :: rest

/-! ## §3. Laws. -/

theorem nextByte_of_atEnd {s : σ} (h : atEnd s = true) :
    (nextByte : Fetch σ UInt8) s = .error (.pastEnd (cursor s)) s := by
  simp [nextByte, h]

theorem nextByte_of_not_atEnd {s : σ} (h : atEnd s = false) :
    (nextByte : Fetch σ UInt8) s = .ok ((memory s).read (cursor s)) (seek s (cursor s + 1)) := by
  simp [nextByte, h]

end ByteStream

end Mos6502
