/-
  Mos6502.Disassembly.Listing — listings of a block of memory

  A listing walks over a block of memory from its first byte to its last.  Where
  the cursor stands in a range that is registered as data, up to sixteen bytes of
  the range make one line; everywhere else one instruction does.  Bytes are fetched
  as a machine fetches them, so a line that would run past the end of the block
  fails, and the cursor stays where it failed.
-/
import Mos6502.ByteStream
import Mos6502.Disassembly.Instruction

namespace Mos6502

open ByteStream

/-! ## §1. Data. -/

/-- A part of memory that is data and not instructions. -/
structure DataRange where
  /-- The first address. -/
  address : UInt16
  /-- The number of bytes. -/
  length : UInt16
  deriving Repr, DecidableEq

namespace DataRange

/-- The first address after a range. -/
def limit (range : DataRange) : Nat := range.address.toNat + range.length.toNat

/-- Whether an address lies in a range. -/
def contains (range : DataRange) (address : UInt16) : Bool :=
  decide (range.address ≤ address) && decide (address.toNat < range.limit)

end DataRange

/-! ## §2. Listings. -/

/-- A block of memory that is being listed. -/
structure Listing where
  memory : Memory
  /-- The first address of the block. -/
  start : UInt16
  /-- The number of bytes in the block. -/
  length : UInt16
  /-- The address of the next byte to be fetched. -/
  cursor : UInt16 := start
  /-- The parts that are data, in the order in which they were registered. -/
  data : List DataRange := []
  deriving DecidableEq

/-- One line of a listing. -/
structure Line where
  /-- The address of the first byte. -/
  address : UInt16
  text : String
  deriving Repr, DecidableEq

namespace Listing

/-- The first address after the block. -/
def limit (listing : Listing) : Nat := listing.start.toNat + listing.length.toNat

/-- A listing fetches at its cursor, up to the end of its block. -/
instance : ByteStream Listing where
  memory listing := listing.memory
  limit listing := listing.limit
  cursor listing := listing.cursor
  seek listing address := { listing with cursor := address }

/-- Whether the cursor is at or beyond the end of the block. -/
def atEnd (listing : Listing) : Bool := ByteStream.atEnd listing

/-- Registers a range as data, after those there are. -/
def addData (listing : Listing) (range : DataRange) : Listing :=
  { listing with data := listing.data ++ [range] }

/-- Removes the range at an index and says whether there was one. -/
def removeData (listing : Listing) (index : Nat) : Bool × Listing :=
  if index < listing.data.length then
    (true, { listing with data := listing.data.eraseIdx index })
  else
    (false, listing)

/-- The first registered range that the cursor stands in. -/
def dataAtCursor? (listing : Listing) : Option DataRange :=
  listing.data.find? (·.contains listing.cursor)

/-! ## §3. Lines. -/

/-- The most bytes that a line of data shows. -/
def dataWidth : Nat := 16

/-- Bytes of data as a line. -/
def dataText (bytes : List UInt8) : String :=
  "DB " ++ ", ".intercalate (bytes.map fun byte => "0x" ++ hexByte byte)

/-- Fetches the bytes of a line of data, to the end of the range at most. -/
def nextData (range : DataRange) : Fetch Listing String := do
  let listing ← get
  let bytes ← nextBytes (min (range.limit - listing.cursor.toNat) dataWidth)
  return dataText bytes

/-- Fetches the bytes of an instruction. -/
def nextInstruction : Fetch Listing String := do
  let listing ← get
  let opcode ← nextByte
  let operands ← nextBytes (Opcode.mode opcode).operandLength
  let bytes := opcode :: operands
  let decoded := Instruction.decode? listing.cursor bytes
  return (decoded.getD (Instruction.unknown listing.cursor opcode)).text

/-- Fetches the line at the cursor. -/
def nextLine : Fetch Listing Line := do
  let listing ← get
  let text ← match listing.dataAtCursor? with
    | some range => nextData range
    | none => nextInstruction
  return ⟨listing.cursor, text⟩

/-! ## §4. The walk. -/

/-- Fetches lines up to the end of the block, and not more than `fuel` of them; `done`
holds the lines before them, the last one first.  `none` means that the end was not
reached when they were used up. -/
def walk (fuel : Nat) (done : List Line) : Fetch Listing (Option (List Line)) := do
  let listing ← get
  if listing.atEnd then
    return some done.reverse
  else
    match fuel with
    | 0 => return none
    | fuel + 1 =>
      let line ← nextLine
      walk fuel (line :: done)

/-- The lines of the block from its first byte on.  Every line has at least one byte, so
a block that ends below the top of memory has no more lines than bytes.  In any larger
block the cursor goes round memory and never meets the end, and the answer is `none`. -/
def lines : Fetch Listing (Option (List Line)) := do
  let listing ← get
  set { listing with cursor := listing.start }
  walk listing.length.toNat []

end Listing

end Mos6502
