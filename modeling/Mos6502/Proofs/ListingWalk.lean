/-
  Mos6502.Proofs.ListingWalk — the walk of a listing over its block

  Which bytes the next line takes and what it says is settled by the memory, the
  registered data and the cursor; fetching only decides whether the bytes are all
  there.  A walk is then a chain of lines, each beginning where the one before has
  ended, and as every line takes at least one byte it comes to the end of the block
  or to a line that does not fit.

  Main statements:
    * `nextLine_eq`     — one line
    * `walk_induction`  — what holds of a walk from line to line
    * `walk_cases`      — all lines from the cursor on
    * `lines_cases`     — all lines of the block
-/
import Mos6502.Disassembly.Listing
import Mos6502.Proofs.Decoding
import Mos6502.Proofs.Fetching

namespace Mos6502

/-! ## §1. Fetching many bytes. -/

namespace ByteStream

variable {σ : Type} [ByteStream σ]

/-- From a cursor that is not beyond the limit, fetching comes to its end at the limit. -/
theorem edge_of_le {s : σ} (h : (cursor s).toNat ≤ limit s) :
    edge s = UInt16.ofNat (limit s) := by
  rw [edge, Nat.max_eq_right h]

variable [LawfulByteStream σ]

theorem delivers_nextBytes (count : Nat) :
    Delivers (nextBytes count : Fetch σ (List UInt8)) count
      fun s => (memory s).readBytes (cursor s) count := by
  -- Induction on the count: one byte and the bytes after it are two fetches in sequence.
  induction count with
  | zero => exact delivers_pure []
  | succ count ih =>
    have hblock : ∀ s : σ, (memory s).readBytes (cursor s) (count + 1)
        = (memory s).read (cursor s)
          :: (memory (advance s 1)).readBytes (cursor (advance s 1)) count := by
      intro s
      rw [Memory.readBytes_succ, memory_advance, cursor_advance]
      rfl
    have hbind := delivers_nextByte (σ := σ).bind fun byte =>
      ih.bind fun rest => delivers_pure (byte :: rest)
    unfold nextBytes
    rw [funext hblock, show count + 1 = 1 + (count + 0) from Nat.add_comm count 1]
    exact hbind

end ByteStream

theorem DataRange.contains_iff {range : DataRange} {address : UInt16} :
    range.contains address = true
      ↔ range.address.toNat ≤ address.toNat ∧ address.toNat < range.limit := by
  unfold contains
  rw [Bool.and_eq_true, decide_eq_true_eq, decide_eq_true_eq, UInt16.le_iff_toNat_le]

namespace Listing

open ByteStream

instance : LawfulByteStream Listing where
  cursor_seek _ _ := rfl
  memory_seek _ _ := rfl
  limit_seek _ _ := rfl
  seek_seek _ _ _ := rfl
  seek_cursor _ := rfl

/-! ## §2. One line. -/

/-- The number of bytes that the line at the cursor takes. -/
def lineLength (listing : Listing) : Nat :=
  match listing.dataAtCursor? with
  | some range => min (range.limit - listing.cursor.toNat) dataWidth
  | none => Opcode.size (listing.memory.read listing.cursor)

/-- The line at the cursor, provided that its bytes are there. -/
def line (listing : Listing) : Line where
  address := listing.cursor
  text :=
    match listing.dataAtCursor? with
    | some _ => dataText (listing.memory.readBytes listing.cursor listing.lineLength)
    | none => (listing.memory.instructionAt listing.cursor).text

theorem cursor_lt_of_dataAtCursor? {listing : Listing} {range : DataRange}
    (h : listing.dataAtCursor? = some range) : listing.cursor.toNat < range.limit := by
  have hcontains := List.find?_some h
  exact (DataRange.contains_iff.mp hcontains).2

theorem lineLength_of_data {listing : Listing} {range : DataRange}
    (h : listing.dataAtCursor? = some range) :
    listing.lineLength = min (range.limit - listing.cursor.toNat) dataWidth := by
  unfold lineLength
  rw [h]

theorem lineLength_of_code {listing : Listing} (h : listing.dataAtCursor? = none) :
    listing.lineLength = Opcode.size (listing.memory.read listing.cursor) := by
  unfold lineLength
  rw [h]

theorem line_of_data {listing : Listing} {range : DataRange}
    (h : listing.dataAtCursor? = some range) :
    listing.line
      = ⟨listing.cursor,
          dataText (listing.memory.readBytes listing.cursor listing.lineLength)⟩ := by
  unfold line
  rw [h]

theorem line_of_code {listing : Listing} (h : listing.dataAtCursor? = none) :
    listing.line = ⟨listing.cursor, (listing.memory.instructionAt listing.cursor).text⟩ := by
  unfold line
  rw [h]

/-- Every line takes a byte. -/
theorem lineLength_pos (listing : Listing) : 0 < listing.lineLength := by
  cases hdata : listing.dataAtCursor? with
  | some range =>
    have hlt := cursor_lt_of_dataAtCursor? hdata
    rw [lineLength_of_data hdata, dataWidth]
    omega
  | none =>
    rw [lineLength_of_code hdata]
    exact Opcode.size_pos _

theorem nextData_eq (range : DataRange) (listing : Listing) :
    let count := min (range.limit - listing.cursor.toNat) dataWidth
    nextData range listing
      = delivery listing count
          (.ok (dataText (listing.memory.readBytes listing.cursor count))
            (advance listing count)) := by
  intro count
  unfold nextData
  rw [delivers_get.bind_apply, delivery_of_inReach (inReach_zero _), advance_zero,
    (delivers_nextBytes _).bind_apply]
  rfl

theorem nextInstruction_eq (listing : Listing) :
    let count := Opcode.size (listing.memory.read listing.cursor)
    nextInstruction listing
      = delivery listing count
          (.ok (listing.memory.instructionAt listing.cursor).text (advance listing count)) := by
  intro count
  have hcount : count = 1 + (Opcode.mode (listing.memory.read listing.cursor)).operandLength :=
    Opcode.size_eq _
  -- The opcode is fetched first and settles how many operand bytes are.
  unfold nextInstruction
  rw [delivers_get.bind_apply, delivery_of_inReach (inReach_zero _), advance_zero,
    delivers_nextByte.bind_apply, (delivers_nextBytes _).bind_apply,
    delivery_delivery_advance, advance_advance, hcount]
  show delivery listing _ (.ok (Option.getD (Instruction.decode? listing.cursor
    (listing.memory.read listing.cursor :: listing.memory.readBytes (listing.cursor + 1)
      (Opcode.mode (listing.memory.read listing.cursor)).operandLength)) _).text _) = _
  rw [Instruction.decode?_cons]
  rfl

/-- The line at the cursor is fetched as a whole or not at all. -/
theorem nextLine_eq (listing : Listing) :
    nextLine listing
      = delivery listing listing.lineLength
          (.ok listing.line (advance listing listing.lineLength)) := by
  -- Looking at the listing fetches nothing, so what is registered settles which line it is.
  have hnext : nextLine listing
      = (match listing.dataAtCursor? with
        | some range => nextData range >>= fun text => pure ⟨listing.cursor, text⟩
        | none => nextInstruction >>= fun text => pure ⟨listing.cursor, text⟩ :
        Fetch Listing Line) listing := by
    unfold nextLine
    rw [delivers_get.bind_apply, delivery_of_inReach (inReach_zero _), advance_zero]
    rfl
  cases hdata : listing.dataAtCursor? with
  | some range =>
    rw [hdata] at hnext
    rw [hnext, line_of_data hdata, lineLength_of_data hdata]
    exact bind_of_delivery (nextData_eq range listing)
      fun text => pure (Line.mk listing.cursor text)
  | none =>
    rw [hdata] at hnext
    rw [hnext, line_of_code hdata, lineLength_of_code hdata]
    exact bind_of_delivery (nextInstruction_eq listing)
      fun text => pure (Line.mk listing.cursor text)

/-! ## §3. All lines. -/

/-- The lines that a walk goes over from the cursor to the end of the block. -/
inductive Lists : Listing → List Line → Prop
  /-- At the end there are no lines. -/
  | nil {listing : Listing} (ended : listing.atEnd = true) : Lists listing []
  /-- Before it, the line at the cursor is followed by the lines after it. -/
  | cons {listing : Listing} {rest : List Line} (before : listing.atEnd = false)
      (complete : InReach listing listing.lineLength)
      (tail : Lists (advance listing listing.lineLength) rest) :
      Lists listing (listing.line :: rest)

/-- The listing with its cursor at the end of the block. -/
def finished (listing : Listing) : Listing := seek listing (UInt16.ofNat listing.limit)

theorem walk_of_atEnd {listing : Listing} (h : listing.atEnd = true) (fuel : Nat)
    (done : List Line) : walk fuel done listing = .ok (some done.reverse) listing := by
  rw [walk.eq_def]
  show (if listing.atEnd then _ else _ : Fetch Listing (Option (List Line))) listing = _
  rw [h]
  rfl

theorem walk_succ {listing : Listing} (h : listing.atEnd = false) (fuel : Nat)
    (done : List Line) :
    walk (fuel + 1) done listing
      = delivery listing listing.lineLength
          (walk fuel (listing.line :: done) (advance listing listing.lineLength)) := by
  rw [walk.eq_def]
  show (if listing.atEnd then _ else _ : Fetch Listing (Option (List Line))) listing = _
  rw [h]
  exact bind_of_delivery (nextLine_eq listing) fun line => walk fuel (line :: done)

section Bounded

variable {listing : Listing} (bound : listing.limit ≤ 0xFFFF)

include bound in
/-- A line that is complete moves the cursor on by its bytes. -/
theorem toNat_cursor_next (complete : InReach listing listing.lineLength) :
    (advance listing listing.lineLength).cursor.toNat = listing.cursor.toNat + listing.lineLength :=
  toNat_cursor_advance complete bound

include bound in
/-- A line that is complete ends inside the block. -/
theorem le_limit_of_complete (complete : InReach listing listing.lineLength) :
    listing.cursor.toNat + listing.lineLength ≤ listing.limit := by
  have hpos := listing.lineLength_pos
  have hreach : listing.lineLength = 0 ∨ listing.cursor.toNat + listing.lineLength ≤ listing.limit
      ∨ 0xFFFF < listing.limit := complete
  omega

end Bounded

theorem limit_le_of_atEnd {listing : Listing} (h : listing.atEnd = true) :
    listing.limit ≤ listing.cursor.toNat :=
  of_decide_eq_true h

theorem finished_of_atEnd {listing : Listing} (h : listing.atEnd = true)
    (below : listing.cursor.toNat ≤ listing.limit) : listing.finished = listing := by
  have hcursor : UInt16.ofNat listing.limit = listing.cursor := by
    rw [Nat.le_antisymm (limit_le_of_atEnd h) below, UInt16.ofNat_toNat]
  unfold finished
  rw [hcursor]
  exact LawfulByteStream.seek_cursor listing

/-- A walk that stands at the end of the block has no lines to go. -/
theorem walk_ended {listing : Listing} (h : listing.atEnd = true)
    (below : listing.cursor.toNat ≤ listing.limit) (fuel : Nat) (done : List Line) :
    walk fuel done listing = .ok (some done.reverse) listing.finished := by
  rw [walk_of_atEnd h, finished_of_atEnd h below]

/-- What holds at the end of the block, where a line does not fit, and before a line that fits
whenever it holds behind it, holds of every walk with a step for each byte that is left. -/
theorem walk_induction
    {P : List Line → Listing → EStateM.Result Fault Listing (Option (List Line)) → Prop}
    (ended : ∀ done listing, listing.atEnd = true →
      P done listing (.ok (some done.reverse) listing.finished))
    (fits : ∀ done listing answer, listing.atEnd = false → listing.limit ≤ 0xFFFF →
      InReach listing listing.lineLength →
      P (listing.line :: done) (advance listing listing.lineLength) answer →
      P done listing answer)
    (short : ∀ done listing, listing.atEnd = false → ¬ InReach listing listing.lineLength →
      P done listing (.error (.pastEnd (UInt16.ofNat listing.limit)) listing.finished))
    (fuel : Nat) (done : List Line) {listing : Listing} (bound : listing.limit ≤ 0xFFFF)
    (below : listing.cursor.toNat ≤ listing.limit)
    (enough : listing.limit - listing.cursor.toNat ≤ fuel) :
    P done listing (walk fuel done listing) := by
  -- Induction on the fuel; what is left of the block stays covered by what is left of it.
  induction fuel generalizing done listing with
  | zero =>
    have hlimit : listing.limit ≤ listing.cursor.toNat := by omega
    have hend : listing.atEnd = true := decide_eq_true hlimit
    rw [walk_ended hend below]
    exact ended done listing hend
  | succ fuel ih =>
    cases hend : listing.atEnd with
    | true =>
      rw [walk_ended hend below]
      exact ended done listing hend
    | false =>
      rw [walk_succ hend]
      by_cases hcomplete : InReach listing listing.lineLength
      · -- The line takes at least one byte, so a step less is enough for the bytes after it.
        have hpos := listing.lineLength_pos
        have hcursor := toNat_cursor_next bound hcomplete
        have hinside := le_limit_of_complete bound hcomplete
        have hlimit : (advance listing listing.lineLength).limit = listing.limit := rfl
        rw [delivery_of_inReach hcomplete]
        exact fits done listing _ hend bound hcomplete
          (ih (listing.line :: done) bound (by omega) (by omega))
      · rw [delivery_of_not_inReach hcomplete, edge_of_le below]
        exact short done listing hend hcomplete

/-- A walk comes to its end: with a step for each byte that is left it goes over all lines
to the end of the block, or fails there. -/
theorem walk_cases (fuel : Nat) (done : List Line) {listing : Listing}
    (bound : listing.limit ≤ 0xFFFF) (below : listing.cursor.toNat ≤ listing.limit)
    (enough : listing.limit - listing.cursor.toNat ≤ fuel) :
    (∃ lines, Lists listing lines
      ∧ walk fuel done listing = .ok (some (done.reverse ++ lines)) listing.finished)
    ∨ walk fuel done listing
        = .error (.pastEnd (UInt16.ofNat listing.limit)) listing.finished := by
  refine walk_induction (P := fun done listing answer =>
    (∃ lines, Lists listing lines ∧ answer = .ok (some (done.reverse ++ lines)) listing.finished)
    ∨ answer = .error (.pastEnd (UInt16.ofNat listing.limit)) listing.finished)
    ?ended ?fits ?short fuel done bound below enough
  case ended =>
    intro done listing hend
    refine .inl ⟨[], .nil hend, ?_⟩
    rw [List.append_nil]
  case fits =>
    rintro done listing answer hend - hcomplete (⟨rest, hrest, rfl⟩ | rfl)
    · refine .inl ⟨listing.line :: rest, .cons hend hcomplete hrest, ?_⟩
      rw [List.reverse_cons, List.append_assoc]
      rfl
    · exact .inr rfl
  case short =>
    intro done listing _ _
    exact .inr rfl

/-- The listing with its cursor at the beginning of the block. -/
def rewound (listing : Listing) : Listing := { listing with cursor := listing.start }

/-- The lines of a block that ends below the top of memory: the walk from its first byte
on goes over all of them, or fails at its end. -/
theorem lines_cases {listing : Listing} (bound : listing.limit ≤ 0xFFFF) :
    (∃ all, Lists listing.rewound all ∧ lines listing = .ok (some all) listing.finished)
    ∨ lines listing = .error (.pastEnd (UInt16.ofNat listing.limit)) listing.finished := by
  have hbelow : listing.rewound.cursor.toNat ≤ listing.rewound.limit := Nat.le_add_right _ _
  have henough : listing.rewound.limit - listing.rewound.cursor.toNat ≤ listing.length.toNat := by
    show listing.start.toNat + listing.length.toNat - listing.start.toNat ≤ _
    omega
  exact walk_cases listing.length.toNat [] bound hbelow henough

end Listing

end Mos6502
