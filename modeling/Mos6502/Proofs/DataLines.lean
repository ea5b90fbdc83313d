/-
  Mos6502.Proofs.DataLines — registered data in a listing

  Whether a line shows data or code is settled where it begins.  A line of code never
  begins in registered data, but an instruction that begins right before a range takes
  the first bytes of the range for its operand, and the range is shown only from the next
  line on.  Registered data is therefore shown as data throughout exactly if no range
  begins inside a line of code; and no range loses more than its first two bytes.

  Main statements:
    * `not_isData_iff_of_exact` — the text tells data from code
    * `begins_in_span`       — code that takes registered data takes the beginning of it
    * `shownAsData_iff`      — when registered data is shown as data
-/
import Mos6502.Proofs.ListingSpans

namespace Mos6502

/-! ## §1. Lines of data. -/

/-- A line of data begins with the directive for bytes. -/
def Line.IsData (line : Line) : Prop := "DB ".toList <+: line.text.toList

instance (line : Line) : Decidable line.IsData := inferInstanceAs (Decidable (_ <+: _))

/-- The directive is as long as the names of mnemonics are, and is none of them. -/
theorem Opcode.name_ne_directive (opcode : UInt8) :
    (name opcode).toList.length = 3 ∧ (name opcode).toList ≠ "DB ".toList := by
  have hmnemonic : ∀ mnemonic : Mnemonic,
      mnemonic.name.toList.length = 3 ∧ mnemonic.name.toList ≠ "DB ".toList := by
    intro mnemonic
    cases mnemonic <;> decide
  unfold name
  cases encoding opcode with
  | none => decide
  | some e => exact hmnemonic e.mnemonic

namespace Listing

theorem isData_dataText (address : UInt16) (bytes : List UInt8) :
    Line.IsData ⟨address, dataText bytes⟩ := by
  unfold Line.IsData dataText
  rw [String.toList_append]
  exact List.prefix_append _ _

/-- The text of an instruction begins with three letters, so it cannot begin with the
directive. -/
theorem not_isData_text (memory : Memory) (address : UInt16) :
    ¬ Line.IsData ⟨address, (memory.instructionAt address).text⟩ := by
  obtain ⟨hlength, hname⟩ := Opcode.name_ne_directive (memory.read address)
  unfold Line.IsData Instruction.text
  rw [String.toList_append]
  intro hdirective
  -- Directive and name both begin the text and are equally long, so they would be the same.
  have hfront := List.prefix_of_prefix_length_le hdirective (List.prefix_append _ _)
    (Nat.le_of_eq hlength.symm)
  exact hname (hfront.eq_of_length hlength.symm).symm

variable {listing : Listing}

theorem rangeAt?_eq_none_iff {address : UInt16} :
    listing.rangeAt? address = none ↔ ∀ range ∈ listing.data, range.contains address = false := by
  unfold rangeAt?
  simp only [List.find?_eq_none, Bool.not_eq_true]

/-- A line that is exact shows code if it begins in no registered data, and data otherwise. -/
theorem not_isData_iff_of_exact {span : Span} (h : listing.Exact span) :
    ¬ span.line.IsData ↔ listing.rangeAt? span.line.address = none := by
  cases hrange : listing.rangeAt? span.line.address with
  | some range =>
    have htext := ((exact_of_data hrange).mp h).2
    have hdata := isData_dataText span.line.address (listing.bytesOf span)
    rw [← htext] at hdata
    exact ⟨fun hcode => absurd hdata hcode, fun hnone => nomatch hnone⟩
  | none =>
    have htext := ((exact_of_code hrange).mp h).2
    have hcode := not_isData_text listing.memory span.line.address
    rw [← htext] at hcode
    exact ⟨fun _ => rfl, fun _ => hcode⟩

/-! ## §2. Data that code takes. -/

section Code

variable {span : Span} (hexact : listing.Exact span) (hcode : ¬ span.line.IsData)

include hexact hcode in
/-- A line of code begins in no range. -/
theorem contains_eq_false_of_code {range : DataRange} (hrange : range ∈ listing.data) :
    range.contains span.line.address = false := by
  have hnone := (not_isData_iff_of_exact hexact).mp hcode
  exact rangeAt?_eq_none_iff.mp hnone range hrange

include hexact hcode in
/-- An instruction has three bytes at most. -/
theorem length_le_of_code : span.length ≤ 3 := by
  have hnone := (not_isData_iff_of_exact hexact).mp hcode
  rw [((exact_of_code hnone).mp hexact).1]
  exact Opcode.size_le _

include hexact hcode in
/-- A line of code that takes a byte of a range began before the range, and so takes all
bytes of the range up to that one: the range begins behind the opcode. -/
theorem begins_in_span {range : DataRange} (hrange : range ∈ listing.data) {address : UInt16}
    (hcontains : range.contains address = true) (htaken : address.toNat ∈ span.addresses) :
    range.address.toNat ∈ span.addresses
      ∧ span.line.address.toNat < range.address.toNat
      ∧ address.toNat < range.address.toNat + 2 := by
  obtain ⟨hfrom, hbelow⟩ := DataRange.contains_iff.mp hcontains
  obtain ⟨hbegin, hend⟩ := Span.mem_addresses.mp htaken
  have hlength := length_le_of_code hexact hcode
  have hbefore : span.line.address.toNat < range.address.toNat := by
    apply Nat.lt_of_not_le
    intro hafter
    -- Otherwise the line would begin inside the range, and be a line of data.
    have hinside : range.contains span.line.address = true :=
      DataRange.contains_iff.mpr ⟨hafter, Nat.lt_of_le_of_lt hbegin hbelow⟩
    rw [contains_eq_false_of_code hexact hcode hrange] at hinside
    cases hinside
  refine ⟨Span.mem_addresses.mpr ⟨?_, ?_⟩, hbefore, ?_⟩ <;> omega

end Code

/-! ## §3. A whole listing. -/

/-- The lines show all registered data of the block as data: each byte of it is covered by a
line of data, and by no line of code. -/
def ShownAsData (listing : Listing) (all : List Line) : Prop :=
  ∀ range ∈ listing.data, ∀ address : UInt16, range.contains address = true →
    listing.start.toNat ≤ address.toNat → address.toNat < listing.limit →
      (∃ span ∈ spans listing.limit all, address.toNat ∈ span.addresses ∧ span.line.IsData)
      ∧ ∀ span ∈ spans listing.limit all, address.toNat ∈ span.addresses → span.line.IsData

/-- A range that has bytes begins inside a line of code. -/
def BeginsInCode (listing : Listing) (all : List Line) : Prop :=
  ∃ range ∈ listing.data, 0 < range.length.toNat
    ∧ ∃ span ∈ spans listing.limit all, ¬ span.line.IsData
      ∧ range.address.toNat ∈ span.addresses

instance (listing : Listing) (all : List Line) : Decidable (listing.BeginsInCode all) :=
  inferInstanceAs (Decidable (∃ range ∈ _, _ ∧ ∃ span ∈ _, _))

section Listed

variable {all : List Line} {final : Listing}
  (fits : listing.start.toNat + listing.length.toNat ≤ 0xFFFF)
  (h : lines listing = .ok (some all) final)

include fits h in
/-- The lines of a listing leave no byte of the block out. -/
theorem exists_span_of_lines {address : Nat} (hstart : listing.start.toNat ≤ address)
    (hlimit : address < listing.limit) :
    ∃ span ∈ spans listing.limit all, address ∈ span.addresses := by
  have hmem : address ∈ List.range' listing.start.toNat listing.length.toNat :=
    List.mem_range'_1.mpr ⟨hstart, hlimit⟩
  rw [← (spans_of_lines fits h).1] at hmem
  exact List.mem_flatMap.mp hmem

include fits h in
theorem shownAsData_of_not_beginsInCode (hnone : ¬ listing.BeginsInCode all) :
    listing.ShownAsData all := by
  intro range hrange address hcontains hstart hlimit
  have hall : ∀ span ∈ spans listing.limit all, address.toNat ∈ span.addresses →
      span.line.IsData := by
    intro span hspan htaken
    apply Decidable.byContradiction
    intro hcode
    -- A line of code with a byte of the range has the first byte of the range as well.
    have hexact := ((spans_of_lines fits h).2 span hspan).2
    have hbytes : 0 < range.length.toNat := by
      have hinside : _ ∧ _ < range.address.toNat + range.length.toNat :=
        DataRange.contains_iff.mp hcontains
      omega
    have hbegins := (begins_in_span hexact hcode hrange hcontains htaken).1
    exact hnone ⟨range, hrange, hbytes, span, hspan, hcode, hbegins⟩
  obtain ⟨span, hspan, htaken⟩ := exists_span_of_lines fits h hstart hlimit
  exact ⟨⟨span, hspan, htaken, hall span hspan htaken⟩, hall⟩

include fits h in
/-- If a range begins in code, its first byte is not shown as data. -/
theorem not_beginsInCode_of_shownAsData (hshown : listing.ShownAsData all) :
    ¬ listing.BeginsInCode all := by
  rintro ⟨range, hrange, hbytes, span, hspan, hcode, htaken⟩
  have hfirst : range.contains range.address = true :=
    DataRange.contains_iff.mpr ⟨Nat.le_refl _, Nat.lt_add_of_pos_right hbytes⟩
  have hblock : range.address.toNat
      ∈ List.range' listing.start.toNat listing.length.toNat := by
    rw [← (spans_of_lines fits h).1]
    exact List.mem_flatMap.mpr ⟨span, hspan, htaken⟩
  obtain ⟨hstart, hlimit⟩ := List.mem_range'_1.mp hblock
  exact hcode ((hshown range hrange range.address hfirst hstart hlimit).2 span hspan htaken)

end Listed

/-- **Registered data in a listing.**  Where a listing of a block that ends below the top of
memory succeeds, all registered data of the block is shown as data exactly if no range
begins inside a line of code.  In any case no line of code begins in a range, and a line of
code that takes bytes of a range takes the first of them, and two at most. -/
theorem shownAsData_iff {listing : Listing}
    (fits : listing.start.toNat + listing.length.toNat ≤ 0xFFFF)
    {all : List Line} {final : Listing} (h : lines listing = .ok (some all) final) :
    (listing.ShownAsData all ↔ ¬ listing.BeginsInCode all)
    ∧ ∀ span ∈ spans listing.limit all, ¬ span.line.IsData → ∀ range ∈ listing.data,
        range.contains span.line.address = false
        ∧ ∀ address : UInt16, range.contains address = true → address.toNat ∈ span.addresses →
            range.address.toNat ∈ span.addresses
            ∧ address.toNat < range.address.toNat + 2 := by
  refine ⟨⟨not_beginsInCode_of_shownAsData fits h, shownAsData_of_not_beginsInCode fits h⟩, ?_⟩
  intro span hspan hcode range hrange
  have hexact := ((spans_of_lines fits h).2 span hspan).2
  refine ⟨contains_eq_false_of_code hexact hcode hrange, ?_⟩
  intro address hcontains htaken
  obtain ⟨hfirst, -, htwo⟩ := begins_in_span hexact hcode hrange hcontains htaken
  exact ⟨hfirst, htwo⟩

theorem shownAsData_iff_overlapping :
    ∃ final, lines overlapping = .ok (some overlappingLines) final
      ∧ overlapping.ShownAsData overlappingLines := by
  obtain ⟨final, hlines⟩ := lines_of_lines? lines?_overlapping
  exact ⟨final, hlines, (shownAsData_iff (by decide) hlines).1.mpr (by decide)⟩

/-- An instruction whose operand is registered as data. -/
def dataInOperand : Listing where
  memory := Memory.zero.writeBytes 0x0200 [0xA9, 0x00]
  start := 0x0200
  length := 2
  data := [⟨0x0201, 1⟩]

theorem lines?_dataInOperand : dataInOperand.lines? = some [⟨0x0200, "LDA #$00"⟩] := by
  decide +kernel

/-- The listing succeeds, and its one line is the instruction. -/
theorem not_shownAsData_dataInOperand :
    dataInOperand.start.toNat + dataInOperand.length.toNat ≤ 0xFFFF
    ∧ (∃ final, lines dataInOperand = .ok (some [⟨0x0200, "LDA #$00"⟩]) final)
    ∧ ¬ dataInOperand.ShownAsData [⟨0x0200, "LDA #$00"⟩] := by
  refine ⟨by decide, lines_of_lines? lines?_dataInOperand, ?_⟩
  intro hshown
  have hoperand := hshown ⟨0x0201, 1⟩ List.mem_cons_self 0x0201 (by decide) (by decide) (by decide)
  have hinstruction := hoperand.2 ⟨⟨0x0200, "LDA #$00"⟩, 2⟩ List.mem_cons_self (by decide)
  exact absurd hinstruction (by decide)

end Listing

end Mos6502
