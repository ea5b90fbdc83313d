/-
  Mos6502.Memory.Basic — the 64 KB address space

  A memory holds one byte at each of the 65536 addresses.  Single bytes are
  read and written without any check, since every word is an address.  A block
  of data is loaded only if its bytes and the byte after them have addresses,
  so the last byte of memory is never loaded; a load that does not fit is
  refused as a whole.

  Main statements:
    * `read_write`              — a read after a write
    * `Memory.ext`              — a memory is what is read from it
    * `read_writeBytes`         — a read after a block is written
    * `read_writeBytes_of_inside`, `read_writeBytes_of_outside` — its two cases
    * `load_of_fits`, `load_of_not_fits` — loads that are accepted and refused
    * `load_fst`, `load_refused` — which loads are accepted, and that a refused
                                  one changes nothing
-/
import Mos6502.Word

namespace Mos6502

/-! ## §1. Bytes. -/

/-- One byte at each address. -/
structure Memory where
  /-- The bytes in the order of their addresses. -/
  bytes : Vector UInt8 0x10000
  deriving DecidableEq

namespace Memory

/-- The memory that holds zero everywhere. -/
def zero : Memory := ⟨Vector.replicate 0x10000 0⟩

/-- The byte at an address. -/
def read (memory : Memory) (address : UInt16) : UInt8 :=
  memory.bytes[address.toFin]

/-- The memory with one byte replaced. -/
def write (memory : Memory) (address : UInt16) (value : UInt8) : Memory :=
  ⟨memory.bytes.set address.toNat value address.toNat_lt⟩

/-- The address with the given page and the given place in it. -/
def inPage (page offset : UInt8) : UInt16 := word offset page

/-- The word whose low byte is at the first address and whose high byte is at
the second. -/
def readWord (memory : Memory) (low high : UInt16) : UInt16 :=
  word (memory.read low) (memory.read high)

/-- The word at a place in page zero.  After the last place comes the first. -/
def zeroPageWord (memory : Memory) (pointer : UInt8) : UInt16 :=
  memory.readWord pointer.toUInt16 (pointer + 1).toUInt16

/-! ## §2. Blocks. -/

/-- The `length` bytes from `address` on.  After the last address comes the first. -/
def readBytes (memory : Memory) (address : UInt16) (length : Nat) : List UInt8 :=
  (List.range length).map fun i => memory.read (address + UInt16.ofNat i)

/-- The memory with the bytes written from `address` on.  After the last address
comes the first. -/
def writeBytes (memory : Memory) (address : UInt16) : List UInt8 → Memory
  | [] => memory
  | b :: bs => (memory.write address b).writeBytes (address + 1) bs

/-- Loads a block of data, into an emptied memory if `clear` is set, and says
whether it was accepted.  A block that does not end below the last address is
refused, and a refusal leaves the memory as it is, `clear` or not. -/
def load (memory : Memory) (data : List UInt8) (address : UInt16) (clear : Bool) :
    Bool × Memory :=
  if address.toNat + data.length ≤ 0xFFFF then
    (true, (if clear then zero else memory).writeBytes address data)
  else
    (false, memory)

/-- The block of `length` bytes at `address`, or `none` if it would run past the
last address. -/
def dump (memory : Memory) (address : UInt16) (length : Nat) : Option (List UInt8) :=
  if address.toNat + length ≤ 0x10000 then some (memory.readBytes address length) else none

/-! ## §3. Laws of single bytes. -/

@[simp] theorem read_zero (address : UInt16) : zero.read address = 0 := by
  simp [zero, read]

theorem read_write (memory : Memory) (address other : UInt16) (value : UInt8) :
    (memory.write address value).read other
      = if address = other then value else memory.read other := by
  simp only [read, write, Fin.getElem_fin, Vector.getElem_set, UInt16.toFin_val,
    UInt16.toNat_inj]

@[simp] theorem read_write_self (memory : Memory) (address : UInt16) (value : UInt8) :
    (memory.write address value).read address = value := by
  simp [read_write]

theorem read_write_of_ne (memory : Memory) {address other : UInt16} (value : UInt8)
    (h : address ≠ other) : (memory.write address value).read other = memory.read other := by
  simp [read_write, h]

theorem ext {memory other : Memory} (h : ∀ address, memory.read address = other.read address) :
    memory = other := by
  obtain ⟨bytes⟩ := memory
  obtain ⟨bytes'⟩ := other
  congr 1
  apply Vector.ext
  intro i hi
  have := h (UInt16.ofNatLT i hi)
  simpa [read] using this

/-! ## §4. Laws of blocks. -/

@[simp] theorem length_readBytes (memory : Memory) (address : UInt16) (length : Nat) :
    (memory.readBytes address length).length = length := by
  simp [readBytes]

/-- A block that ends at or below the top of memory replaces exactly its own bytes. -/
theorem read_writeBytes (memory : Memory) (address other : UInt16) (data : List UInt8)
    (fits : address.toNat + data.length ≤ 0x10000) :
    (memory.writeBytes address data).read other
      = if address.toNat ≤ other.toNat then
          (data[other.toNat - address.toNat]?).getD (memory.read other)
        else memory.read other := by
  induction data generalizing memory address with
  | nil => simp [writeBytes]
  | cons b bs ih =>
    simp only [List.length_cons] at fits
    have ho := other.toNat_lt
    rcases Nat.eq_zero_or_pos bs.length with hbs | hbs
    · obtain rfl := List.length_eq_zero_iff.mp hbs
      simp only [writeBytes, read_write, ← UInt16.toNat_inj]
      split
      · next h => simp [h]
      · next h =>
        split
        · next hle =>
          have : other.toNat - address.toNat ≠ 0 := by omega
          simp [this]
        · rfl
    · have hone : (address + 1).toNat = address.toNat + 1 := by
        rw [UInt16.toNat_add, UInt16.toNat_one]; omega
      rw [writeBytes, ih _ _ (by omega), hone, read_write]
      simp only [← UInt16.toNat_inj]
      by_cases heq : address.toNat = other.toNat
      · have : ¬ other.toNat + 1 ≤ other.toNat := by omega
        simp [heq, this]
      · by_cases hle : address.toNat + 1 ≤ other.toNat
        · have hsub : other.toNat - address.toNat = other.toNat - (address.toNat + 1) + 1 := by
            omega
          simp [hle, heq, hsub, Nat.le_of_succ_le hle]
        · have : ¬ address.toNat ≤ other.toNat := by omega
          simp [hle, heq, this]

/-- Inside a block that was written is its data. -/
theorem read_writeBytes_of_inside (memory : Memory) {address place : UInt16} {data : List UInt8}
    (fits : address.toNat + data.length ≤ 0x10000) {i : Nat} (hi : i < data.length)
    (hplace : place.toNat = address.toNat + i) :
    (memory.writeBytes address data).read place = data[i] := by
  have hsub : place.toNat - address.toNat = i := by omega
  rw [read_writeBytes _ _ _ _ fits, if_pos (by omega), hsub, List.getElem?_eq_getElem hi,
    Option.getD_some]

/-- Outside of it is what was there before. -/
theorem read_writeBytes_of_outside (memory : Memory) {address place : UInt16} {data : List UInt8}
    (fits : address.toNat + data.length ≤ 0x10000)
    (outside : place.toNat < address.toNat ∨ address.toNat + data.length ≤ place.toNat) :
    (memory.writeBytes address data).read place = memory.read place := by
  rw [read_writeBytes _ _ _ _ fits]
  split
  · next hle =>
    have hlength : data.length ≤ place.toNat - address.toNat := by omega
    rw [List.getElem?_eq_none hlength, Option.getD_none]
  · rfl

theorem load_of_fits (memory : Memory) {data : List UInt8} {address : UInt16} (clear : Bool)
    (fits : address.toNat + data.length ≤ 0xFFFF) :
    memory.load data address clear
      = (true, (if clear then zero else memory).writeBytes address data) :=
  if_pos fits

theorem load_of_not_fits (memory : Memory) {data : List UInt8} {address : UInt16} (clear : Bool)
    (unfit : ¬ address.toNat + data.length ≤ 0xFFFF) :
    memory.load data address clear = (false, memory) :=
  if_neg unfit

theorem load_fst (memory : Memory) (data : List UInt8) (address : UInt16) (clear : Bool) :
    (memory.load data address clear).1 = decide (address.toNat + data.length ≤ 0xFFFF) := by
  unfold load
  split <;> simp [*]

theorem load_refused {memory : Memory} {data : List UInt8} {address : UInt16} {clear : Bool}
    (h : (memory.load data address clear).1 = false) :
    (memory.load data address clear).2 = memory := by
  unfold load at h ⊢
  split
  · next hfits => simp [hfits] at h
  · rfl

end Memory

end Mos6502
