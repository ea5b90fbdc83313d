/-
  Mos6502.Proofs.DataOrder — registered data as a set

  Data is registered in a list, and where a line begins the first range that has the
  address settles what is shown.  If no address lies in two ranges there is no more than
  one range to be found, so the order of the list does not matter.  Nor do ranges that
  have no byte in the block, since no line begins in them.  And a range that is taken
  back leaves no trace, wherever the cursor was moved in the meantime.

  Main statements:
    * `rangeAt?_of_perm`  — the range at an address does not depend on the order
    * `walk_withData`     — all lines from the cursor on, under other data
    * `lines_of_disjoint` — all lines of the block
-/
import Mathlib.Data.List.Find
import Mathlib.Data.List.Pairwise
import Mathlib.Tactic.ByContra
import Mos6502.Proofs.ListingOverrun

namespace Mos6502

/-! ## §1. Ranges. -/

namespace DataRange

/-- No address lies in both ranges. -/
def Disjoint (range other : DataRange) : Prop :=
  ∀ address, range.contains address = true → other.contains address = false

theorem Disjoint.symm {range other : DataRange} (h : range.Disjoint other) :
    other.Disjoint range := by
  intro address hother
  cases hrange : range.contains address with
  | false => rfl
  | true =>
    rw [h address hrange] at hother
    cases hother

instance : Std.Symm Disjoint := ⟨fun _ _ => Disjoint.symm⟩

/-- A range that ends before another begins has no address of it. -/
theorem disjoint_of_limit_le {range other : DataRange} (h : range.limit ≤ other.address.toNat) :
    range.Disjoint other := by
  intro address hrange
  rw [contains_iff] at hrange
  rw [Bool.eq_false_iff, ne_eq, contains_iff]
  omega

theorem contains_of_length_eq_zero {range : DataRange} (h : range.length = 0) (address : UInt16) :
    range.contains address = false := by
  rw [Bool.eq_false_iff, ne_eq, contains_iff, limit, h]
  rintro ⟨hfrom, hbelow⟩
  exact absurd hbelow (Nat.not_lt_of_le hfrom)

end DataRange

namespace Listing

open ByteStream

/-- Registers ranges one after the other. -/
def register (listing : Listing) (ranges : List DataRange) : Listing :=
  ranges.foldl addData listing

/-- The same listing with other data. -/
def withData (listing : Listing) (data : List DataRange) : Listing := { listing with data }

theorem register_eq (listing : Listing) (ranges : List DataRange) :
    listing.register ranges = listing.withData (listing.data ++ ranges) := by
  induction ranges generalizing listing with
  | nil =>
    rw [List.append_nil]
    rfl
  | cons range ranges ih =>
    show (listing.addData range).register ranges = _
    rw [ih, List.append_cons]
    rfl

/-- Whether an address is one of the block. -/
def Covers (listing : Listing) (address : UInt16) : Prop :=
  listing.start.toNat ≤ address.toNat ∧ address.toNat < listing.limit

/-- No byte of the block lies in the range. -/
def Misses (listing : Listing) (range : DataRange) : Prop :=
  ∀ address, listing.Covers address → range.contains address = false

/-- A range that ends where the block begins, or begins where it ends, has no byte of it. -/
theorem misses_of_outside {listing : Listing} {range : DataRange}
    (h : range.limit ≤ listing.start.toNat ∨ listing.limit ≤ range.address.toNat) :
    listing.Misses range := by
  rintro address ⟨hfrom, hbelow⟩
  rw [Bool.eq_false_iff, ne_eq, DataRange.contains_iff]
  omega

theorem misses_of_length_eq_zero (listing : Listing) {range : DataRange} (h : range.length = 0) :
    listing.Misses range :=
  fun address _ => DataRange.contains_of_length_eq_zero h address

/-! ## §2. The range at an address. -/

section Ranges

variable {listing : Listing} {ranges idle registered : List DataRange}

/-- **The order does not matter.**  At an address of the block that range is found that has it,
whatever is registered before it. -/
theorem rangeAt?_of_perm (disjoint : ranges.Pairwise DataRange.Disjoint)
    (misses : ∀ range ∈ idle, listing.Misses range) (order : registered.Perm (ranges ++ idle))
    {address : UInt16} (covers : listing.Covers address) :
    (listing.withData registered).rangeAt? address
      = (listing.withData ranges).rangeAt? address := by
  have hidle : idle.find? (·.contains address) = none := by
    rw [List.find?_eq_none]
    intro range hrange
    rw [misses range hrange address covers]
    exact Bool.false_ne_true
  -- Two ranges that have the address are both from `ranges`, and there they would be disjoint.
  have hone : {range ∈ ranges ++ idle | range.contains address = true}.Subsingleton := by
    have hfrom : ∀ range ∈ ranges ++ idle, range.contains address = true → range ∈ ranges := by
      intro range hrange hcontains
      refine (List.mem_append.mp hrange).resolve_right fun hmem => ?_
      rw [misses range hmem address covers] at hcontains
      cases hcontains
    rintro range ⟨hrange, hcontains⟩ other ⟨hother, hcontains'⟩
    by_contra hne
    have hapart := disjoint.forall (hfrom range hrange hcontains)
      (hfrom other hother hcontains') hne
    rw [hapart address hcontains] at hcontains'
    cases hcontains'
  show registered.find? _ = ranges.find? _
  rw [← List.find?_eq_find?_of_perm order.symm hone, List.find?_append, hidle, Option.or_none]

end Ranges

/-! ## §3. The walk. -/

theorem walk_zero {listing : Listing} (h : listing.atEnd = false) (done : List Line) :
    walk 0 done listing = .ok none listing := by
  rw [walk.eq_def]
  show (if listing.atEnd then _ else _ : Fetch Listing (Option (List Line))) listing = _
  rw [h]
  rfl

/-- At the end of the block the lines are all there. -/
theorem walk_withData_of_atEnd {listing : Listing} (h : listing.atEnd = true) (fuel : Nat)
    (done : List Line) (data : List DataRange) :
    answer (walk fuel done) (listing.withData data) = answer (walk fuel done) listing := by
  have h' : (listing.withData data).atEnd = true := h
  rw [answer_of_ok (walk_of_atEnd h fuel done), answer_of_ok (walk_of_atEnd h' fuel done)]

/-- The line at a cursor in the block is the same. -/
theorem line_withData {listing : Listing} {data : List DataRange}
    (same : ∀ address, listing.Covers address →
      (listing.withData data).rangeAt? address = listing.rangeAt? address)
    (covers : listing.Covers listing.cursor) :
    (listing.withData data).lineLength = listing.lineLength
      ∧ (listing.withData data).line = listing.line := by
  have hdata : (listing.withData data).dataAtCursor? = listing.dataAtCursor? :=
    same listing.cursor covers
  have hlength : (listing.withData data).lineLength = listing.lineLength := by
    unfold lineLength
    rw [hdata]
    rfl
  refine ⟨hlength, ?_⟩
  unfold line
  rw [hdata, hlength]
  rfl

/-- **All lines from the cursor on, under other data.**  If at every address of the block the same
range is found, a walk inside the block gives the same. -/
theorem walk_withData (fuel : Nat) (done : List Line) {listing : Listing} {data : List DataRange}
    (same : ∀ address, listing.Covers address →
      (listing.withData data).rangeAt? address = listing.rangeAt? address)
    (bound : listing.limit ≤ 0xFFFF) (above : listing.start.toNat ≤ listing.cursor.toNat) :
    answer (walk fuel done) (listing.withData data) = answer (walk fuel done) listing := by
  induction fuel generalizing done listing with
  | zero =>
    cases hend : listing.atEnd with
    | true => exact walk_withData_of_atEnd hend 0 done data
    | false =>
      have hend' : (listing.withData data).atEnd = false := hend
      rw [answer_of_ok (walk_zero hend done), answer_of_ok (walk_zero hend' done)]
  | succ fuel ih =>
    cases hend : listing.atEnd with
    | true => exact walk_withData_of_atEnd hend (fuel + 1) done data
    | false =>
      have hend' : (listing.withData data).atEnd = false := hend
      have hbelow : ¬ listing.limit ≤ listing.cursor.toNat := of_decide_eq_false hend
      obtain ⟨hlength, hline⟩ := line_withData same ⟨above, by omega⟩
      have hwalk := walk_succ hend fuel done
      have hwalk' := walk_succ hend' fuel done
      rw [hlength, hline] at hwalk'
      by_cases hcomplete : InReach listing listing.lineLength
      -- The line fits: both walks go on behind it with the data as it was.
      · have hcomplete' : InReach (listing.withData data) listing.lineLength := hcomplete
        have hcursor := toNat_cursor_next bound hcomplete
        have habove : (advance listing listing.lineLength).start.toNat
            ≤ (advance listing listing.lineLength).cursor.toNat := by
          show listing.start.toNat ≤ _
          omega
        have hsame : ∀ address, (advance listing listing.lineLength).Covers address →
            ((advance listing listing.lineLength).withData data).rangeAt? address
              = (advance listing listing.lineLength).rangeAt? address := same
        have hrest := ih (listing.line :: done) hsame bound habove
        rw [delivery_of_inReach hcomplete] at hwalk
        rw [delivery_of_inReach hcomplete'] at hwalk'
        unfold answer at hrest ⊢
        rw [hwalk, hwalk']
        exact hrest
      -- It does not, and both fail at the end of the block.
      · have hcomplete' : ¬ InReach (listing.withData data) listing.lineLength := hcomplete
        rw [delivery_of_not_inReach hcomplete] at hwalk
        rw [delivery_of_not_inReach hcomplete'] at hwalk'
        rw [answer_of_error hwalk, answer_of_error hwalk']
        rfl

/-! ## §4. The whole block. -/

/-- A range that is taken back leaves no trace, wherever the cursor is by then. -/
theorem removeData_addData (listing : Listing) (range : DataRange) (address : UInt16) :
    (seek (listing.addData range) address).removeData listing.data.length
      = (true, seek listing address) := by
  have hindex : listing.data.length < (listing.data ++ [range]).length := by
    rw [List.length_append]
    exact Nat.lt_succ_self _
  have hrest : (listing.data ++ [range]).eraseIdx listing.data.length = listing.data := by
    rw [List.eraseIdx_append_of_length_le (Nat.le_refl _), Nat.sub_self, List.eraseIdx_cons_zero,
      List.append_nil]
  show (if listing.data.length < (listing.data ++ [range]).length
    then (true, (seek listing address).withData
      ((listing.data ++ [range]).eraseIdx listing.data.length))
    else _) = _
  rw [if_pos hindex, hrest]
  rfl

/-- **Data is a set.**  In a block that ends below the top of memory, ranges of which no two
overlap, with those there are, give the same lines or the same fault in any order, and so they do
among empty ranges and ranges outside the block.  A range that is registered and taken back gives
the same as none, whatever the others are. -/
theorem lines_of_disjoint (listing : Listing) :
    (listing.start.toNat + listing.length.toNat ≤ 0xFFFF →
      ∀ ranges idle registered : List DataRange,
        (listing.data ++ ranges).Pairwise DataRange.Disjoint →
        (∀ range ∈ idle, range.length = 0 ∨ listing.Misses range) →
        registered.Perm (ranges ++ idle) →
        answer lines (listing.register registered) = answer lines (listing.register ranges))
    ∧ ∀ (range : DataRange) (address : UInt16),
        (seek (listing.addData range) address).removeData listing.data.length
          = (true, seek listing address)
        ∧ lines ((seek (listing.addData range) address).removeData listing.data.length).2
            = lines listing := by
  refine ⟨?_, ?_⟩
  · intro fits ranges idle registered disjoint hidle order
    have hmisses : ∀ range ∈ idle, listing.Misses range := fun range hrange =>
      (hidle range hrange).elim (misses_of_length_eq_zero listing) id
    have horder : (listing.data ++ registered).Perm ((listing.data ++ ranges) ++ idle) := by
      rw [List.append_assoc]
      exact order.append_left listing.data
    let block := (listing.withData (listing.data ++ ranges)).rewound
    have hsame : ∀ address, block.Covers address →
        (block.withData (listing.data ++ registered)).rangeAt? address = block.rangeAt? address :=
      fun _ covers => rangeAt?_of_perm disjoint hmisses horder covers
    rw [register_eq, register_eq]
    exact walk_withData listing.length.toNat [] hsame fits (Nat.le_refl _)
  · intro range address
    have hremoved := removeData_addData listing range address
    refine ⟨hremoved, ?_⟩
    rw [hremoved]
    exact lines_seek listing address

/-- Two instructions around data. -/
def dataWithin : Listing where
  memory := Memory.zero.writeBytes 0x0020 [0xA9, 0x10, 0x01, 0x02, 0x03, 0xEA]
  start := 0x0020
  length := 6

/-- Two ranges side by side, among an empty one that is inside the load and one that reaches over
the top of memory. -/
theorem lines_of_disjoint_adjacent :
    answer lines (dataWithin.register [⟨0xFFF0, 0x20⟩, ⟨0x0024, 1⟩, ⟨0x0021, 0⟩, ⟨0x0022, 2⟩])
        = answer lines (dataWithin.register [⟨0x0022, 2⟩, ⟨0x0024, 1⟩])
    ∧ answer lines (dataWithin.register [⟨0x0022, 2⟩, ⟨0x0024, 1⟩])
        = .ok (some [⟨0x0020, "LDA #$10"⟩, ⟨0x0022, "DB 0x01, 0x02"⟩, ⟨0x0024, "DB 0x03"⟩,
            ⟨0x0025, "NOP"⟩]) := by
  have hfits : dataWithin.start.toNat + dataWithin.length.toNat ≤ 0xFFFF := by decide
  have hapart : [(⟨0x0022, 2⟩ : DataRange), ⟨0x0024, 1⟩].Pairwise DataRange.Disjoint :=
    List.pairwise_pair.mpr (DataRange.disjoint_of_limit_le (by decide))
  have hidle : ∀ range ∈ [(⟨0x0021, 0⟩ : DataRange), ⟨0xFFF0, 0x20⟩],
      range.length = 0 ∨ dataWithin.Misses range :=
    List.forall_mem_cons.mpr ⟨.inl rfl, List.forall_mem_singleton.mpr
      (.inr (misses_of_outside (.inr (by decide))))⟩
  refine ⟨(lines_of_disjoint dataWithin).1 hfits _ [⟨0x0021, 0⟩, ⟨0xFFF0, 0x20⟩] _ hapart hidle
    (by decide), ?_⟩
  decide +kernel

end Listing

end Mos6502
