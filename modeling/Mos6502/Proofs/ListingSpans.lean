/-
  Mos6502.Proofs.ListingSpans — what the lines of a listing stand for

  A listing names the first byte of each line only; the line stands for the bytes from
  there to the next line, or to the end of the block.  These spans cut the block into
  pieces without a gap or an overlap, and each line says exactly what the bytes of its
  span are.

  Main statements:
    * `exact_line`      — a line and the bytes it takes
    * `spans_of_lists`  — the spans of a walk
    * `lines_exact`     — a listing that succeeds covers its block and says what is there
-/
import Mos6502.Proofs.ListingWalk

namespace Mos6502

/-! ## §1. Spans. -/

/-- A line and the number of bytes that it stands for. -/
structure Span where
  line : Line
  /-- The number of bytes. -/
  length : Nat
  deriving Repr, DecidableEq

/-- The addresses of the bytes, in ascending order. -/
def Span.addresses (span : Span) : List Nat :=
  List.range' span.line.address.toNat span.length

theorem Span.mem_addresses {span : Span} {address : Nat} :
    address ∈ span.addresses
      ↔ span.line.address.toNat ≤ address ∧ address < span.line.address.toNat + span.length :=
  List.mem_range'_1

namespace Listing

open ByteStream

/-- Where the first of some lines begins; without lines, the end of the block. -/
def firstAddress (limit : Nat) : List Line → Nat
  | [] => limit
  | line :: _ => line.address.toNat

/-- The spans of lines: each reaches to the next line, the last to the end of the block. -/
def spans (limit : Nat) : List Line → List Span
  | [] => []
  | line :: rest => ⟨line, firstAddress limit rest - line.address.toNat⟩ :: spans limit rest

/-- The first registered range that an address lies in. -/
def rangeAt? (listing : Listing) (address : UInt16) : Option DataRange :=
  listing.data.find? (·.contains address)

/-- The bytes of a span. -/
def bytesOf (listing : Listing) (span : Span) : List UInt8 :=
  listing.memory.readBytes span.line.address span.length

/-- A line says what the bytes of its span are.  If it begins in registered data, they are
all that is left of the first range there, but not more than sixteen, written one after the
other; otherwise they are the instruction that they are decoded to. -/
def Exact (listing : Listing) (span : Span) : Prop :=
  match listing.rangeAt? span.line.address with
  | some range =>
    span.length = min 16 (range.limit - span.line.address.toNat)
    ∧ span.line.text = "DB " ++ ", ".intercalate
        ((listing.bytesOf span).map fun byte => "0x" ++ hexByte byte)
  | none =>
    span.length = Opcode.size (listing.memory.read span.line.address)
    ∧ ∃ instruction,
        Instruction.decode? span.line.address (listing.bytesOf span) = some instruction
        ∧ span.line.text = instruction.text

theorem exact_of_data {listing : Listing} {span : Span} {range : DataRange}
    (h : listing.rangeAt? span.line.address = some range) :
    listing.Exact span
      ↔ span.length = min 16 (range.limit - span.line.address.toNat)
        ∧ span.line.text = dataText (listing.bytesOf span) := by
  unfold Exact
  rw [h]
  rfl

theorem exact_of_code {listing : Listing} {span : Span}
    (h : listing.rangeAt? span.line.address = none) :
    listing.Exact span
      ↔ span.length = Opcode.size (listing.memory.read span.line.address)
        ∧ span.line.text = (listing.memory.instructionAt span.line.address).text := by
  unfold Exact
  rw [h]
  apply and_congr_right
  intro hlength
  -- As many bytes as the opcode asks for are decoded to the instruction there.
  have hdecode := Instruction.decode?_readBytes listing.memory span.line.address span.length
  rw [if_pos (Nat.le_of_eq hlength.symm)] at hdecode
  unfold bytesOf
  rw [hdecode]
  simp

/-- The line at the cursor is exact for the bytes that it takes. -/
theorem exact_line (listing : Listing) : listing.Exact ⟨listing.line, listing.lineLength⟩ := by
  cases hdata : listing.rangeAt? listing.cursor with
  | some range =>
    refine (exact_of_data hdata).mpr ⟨?_, ?_⟩
    · rw [lineLength_of_data hdata]
      exact Nat.min_comm _ _
    · rw [line_of_data hdata]
      rfl
  | none =>
    refine (exact_of_code hdata).mpr ⟨lineLength_of_code hdata, ?_⟩
    rw [line_of_code hdata]

/-! ## §2. The spans of a walk. -/

theorem firstAddress_of_lists {listing : Listing} {lines : List Line}
    (h : Lists listing lines) (below : listing.cursor.toNat ≤ listing.limit) :
    firstAddress listing.limit lines = listing.cursor.toNat := by
  cases h with
  | nil ended => exact Nat.le_antisymm (limit_le_of_atEnd ended) below
  | cons before complete tail => rfl

/-- The first span of a walk is what the line at the cursor takes. -/
theorem spans_cons {listing : Listing} {rest : List Line} (bound : listing.limit ≤ 0xFFFF)
    (complete : InReach listing listing.lineLength)
    (tail : Lists (advance listing listing.lineLength) rest) :
    spans listing.limit (listing.line :: rest)
      = ⟨listing.line, listing.lineLength⟩ :: spans listing.limit rest := by
  have hcursor := toNat_cursor_next bound complete
  have hinside := le_limit_of_complete bound complete
  -- The next line begins where this one has ended, and without one the block ends there.
  have hfirst : firstAddress listing.limit rest
      = listing.line.address.toNat + listing.lineLength :=
    (firstAddress_of_lists tail (Nat.le_trans (Nat.le_of_eq hcursor) hinside)).trans hcursor
  rw [spans, hfirst, Nat.add_sub_cancel_left]

/-- The spans of a walk are, one after the other, the bytes from the cursor to the end of
the block; none of them is empty, and each line is exact. -/
theorem spans_of_lists {listing : Listing} {lines : List Line} (h : Lists listing lines)
    (bound : listing.limit ≤ 0xFFFF) (below : listing.cursor.toNat ≤ listing.limit) :
    (spans listing.limit lines).flatMap Span.addresses
        = List.range' listing.cursor.toNat (listing.limit - listing.cursor.toNat)
    ∧ ∀ span ∈ spans listing.limit lines, 0 < span.length ∧ listing.Exact span := by
  -- Induction on the walk: the spans of the tail are the block from the next cursor on.
  induction h with
  | @nil listing ended =>
    have hnone : listing.limit - listing.cursor.toNat = 0 :=
      Nat.sub_eq_zero_of_le (limit_le_of_atEnd ended)
    rw [hnone]
    exact ⟨rfl, fun span hspan => nomatch hspan⟩
  | @cons listing rest before complete tail ih =>
    have hcursor := toNat_cursor_next bound complete
    have hinside := le_limit_of_complete bound complete
    obtain ⟨haddresses, hexact⟩ := ih bound (Nat.le_trans (Nat.le_of_eq hcursor) hinside)
    rw [spans_cons bound complete tail]
    refine ⟨?_, ?_⟩
    · -- What the line takes and what is left after it meet at the next cursor.
      have hlength : listing.limit - listing.cursor.toNat
          = listing.lineLength + (listing.limit - (listing.cursor.toNat + listing.lineLength)) := by
        omega
      have hrest : (spans listing.limit rest).flatMap Span.addresses
          = List.range' (listing.cursor.toNat + listing.lineLength)
              (listing.limit - (listing.cursor.toNat + listing.lineLength)) := by
        rw [← hcursor]
        exact haddresses
      rw [List.flatMap_cons, hrest, hlength]
      exact List.range'_append_1
    · intro span hspan
      rcases List.mem_cons.mp hspan with rfl | hrest
      · exact ⟨listing.lineLength_pos, exact_line listing⟩
      · exact hexact span hrest

/-! ## §3. The whole block. -/

/-- The lines of a listing that succeeds cut its block into spans, and each is exact. -/
theorem spans_of_lines {listing : Listing} {all : List Line} {final : Listing}
    (fits : listing.start.toNat + listing.length.toNat ≤ 0xFFFF)
    (h : lines listing = .ok (some all) final) :
    (spans listing.limit all).flatMap Span.addresses
        = List.range' listing.start.toNat listing.length.toNat
    ∧ ∀ span ∈ spans listing.limit all, 0 < span.length ∧ listing.Exact span := by
  have hlength : listing.limit - listing.start.toNat = listing.length.toNat :=
    Nat.add_sub_cancel_left _ _
  rcases lines_cases fits with ⟨walked, hlists, hok⟩ | herror
  · rw [hok] at h
    cases h
    have hbelow : listing.rewound.cursor.toNat ≤ listing.rewound.limit := Nat.le_add_right _ _
    rw [← hlength]
    exact spans_of_lists hlists fits hbelow
  · rw [herror] at h
    cases h

/-- **A listing that succeeds is exact.**  A listing of a block that ends below the top of
memory comes to the end of the block.  Either it fails there, or its lines cut the block
into spans that are not empty and make up the block one after the other, and each line says
what the bytes of its span are. -/
theorem lines_exact (listing : Listing)
    (fits : listing.start.toNat + listing.length.toNat ≤ 0xFFFF) :
    lines listing = .error (.pastEnd (UInt16.ofNat listing.limit)) listing.finished
    ∨ ∃ all, lines listing = .ok (some all) listing.finished
        ∧ (spans listing.limit all).flatMap Span.addresses
          = List.range' listing.start.toNat listing.length.toNat
        ∧ ∀ span ∈ spans listing.limit all, 0 < span.length ∧ listing.Exact span := by
  rcases lines_cases fits with ⟨all, -, hok⟩ | herror
  · exact .inr ⟨all, hok, spans_of_lines fits hok⟩
  · exact .inl herror

/-- The lines of a block, if it can be listed. -/
def lines? (listing : Listing) : Option (List Line) :=
  match lines listing with
  | .ok all _ => all
  | .error _ _ => none

theorem lines_of_lines? {listing : Listing} {all : List Line} (h : listing.lines? = some all) :
    ∃ final, lines listing = .ok (some all) final := by
  unfold lines? at h
  cases hlines : lines listing with
  | ok shown final =>
    rw [hlines] at h
    exact ⟨final, congrArg (EStateM.Result.ok · final) h⟩
  | error fault failed =>
    rw [hlines] at h
    cases h

/-- An instruction and eighteen bytes of data.  The ranges overlap; one of them lies outside
the block, and one in the operand has no bytes. -/
def overlapping : Listing where
  memory := Memory.zero.writeBytes 0x0200
    [0xA9, 0x10, 0, 1, 2, 3, 4, 5, 6, 7, 8, 9, 10, 11, 12, 13, 14, 15, 16, 17]
  start := 0x0200
  length := 20
  data := [⟨0x0300, 4⟩, ⟨0x0201, 0⟩, ⟨0x0202, 18⟩, ⟨0x0203, 5⟩]

/-- The lines of `overlapping`. -/
def overlappingLines : List Line :=
  [⟨0x0200, "LDA #$10"⟩,
    ⟨0x0202, "DB 0x00, 0x01, 0x02, 0x03, 0x04, 0x05, 0x06, 0x07, "
      ++ "0x08, 0x09, 0x0A, 0x0B, 0x0C, 0x0D, 0x0E, 0x0F"⟩,
    ⟨0x0212, "DB 0x10, 0x11"⟩]

theorem lines?_overlapping : overlapping.lines? = some overlappingLines := by
  decide +kernel

theorem lines_exact_overlapping :
    overlapping.start.toNat + overlapping.length.toNat ≤ 0xFFFF
    ∧ lines overlapping = .ok (some overlappingLines) overlapping.finished
    ∧ (spans overlapping.limit overlappingLines).map Span.length = [2, 16, 2]
    ∧ (spans overlapping.limit overlappingLines).flatMap Span.addresses = List.range' 0x0200 20
    ∧ ∀ span ∈ spans overlapping.limit overlappingLines, overlapping.Exact span := by
  have hfits : overlapping.start.toNat + overlapping.length.toNat ≤ 0xFFFF := by decide
  obtain ⟨final, hlines⟩ := lines_of_lines? lines?_overlapping
  rcases lines_exact overlapping hfits with herror | ⟨all, hok, haddresses, hexact⟩
  · rw [hlines] at herror
    cases herror
  · rw [hlines] at hok
    cases hok
    exact ⟨hfits, hlines, by decide, haddresses, fun span hspan => (hexact span hspan).2⟩

end Listing

end Mos6502
