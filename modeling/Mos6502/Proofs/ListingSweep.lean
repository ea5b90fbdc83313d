/-
  Mos6502.Proofs.ListingSweep — a listing of instructions against a sweep of their bytes

  A listing fetches its instructions one byte after the other and fails where the block
  ends before an instruction does.  A sweep has all bytes in hand and takes such an
  instruction apart, byte by byte.  Without registered data the two go the same way: as
  long as instructions are complete, both find the same one and go on at the same address,
  and the first that is not complete is the first that the sweep cuts off.

  Main statements:
    * `cutOff_first_iff`     — when an instruction is cut off
    * `walk_eq_outcome`      — all lines from the cursor on
    * `lines_eq_sweep`       — all lines of the block
-/
import Mos6502.Proofs.ListingWalk
import Mos6502.Proofs.Sweeping

namespace Mos6502

/-! ## §1. Instructions that are cut off. -/

namespace Instruction

/-- The line of a listing that shows the instruction. -/
def line (i : Instruction) : Line := ⟨i.address, i.text⟩

/-- The instruction is shown as unknown although its opcode stands for one. -/
def CutOff (i : Instruction) : Prop := i.mnemonic = "???" ∧ Opcode.encoding i.opcode ≠ none

instance : DecidablePred CutOff := fun _ => inferInstanceAs (Decidable (_ ∧ _))

/-- A sweep cuts off the instructions that have too few bytes left, and no others. -/
theorem cutOff_first_iff (address : UInt16) (opcode : UInt8) (rest : List UInt8) :
    (first address opcode rest).CutOff ↔ rest.length + 1 < Opcode.size opcode := by
  have hunknown : (first address opcode rest).mnemonic = "???"
      ↔ Opcode.encoding opcode = none ∨ rest.length + 1 < Opcode.size opcode :=
    mnemonic_first_eq_unknownName_iff address opcode rest
  unfold CutOff
  rw [hunknown, opcode_first]
  constructor
  · rintro ⟨hnone | hshort, hencoding⟩
    · exact absurd hnone hencoding
    · exact hshort
  · intro hshort
    refine ⟨.inr hshort, fun hnone => ?_⟩
    rw [Opcode.size_of_encoding_eq_none hnone] at hshort
    omega

theorem not_cutOff_instructionAt (memory : Memory) (address : UInt16) :
    ¬ (memory.instructionAt address).CutOff := by
  rintro ⟨hname, hencoding⟩
  obtain ⟨e, he⟩ := Option.ne_none_iff_exists'.mp hencoding
  have hnamed : e.mnemonic.name = Opcode.unknownName :=
    (Opcode.name_of_encoding he).symm.trans hname
  exact e.mnemonic.name_ne_unknownName hnamed

/-- An instruction that is not complete is cut off. -/
theorem exists_cutOff_of_short {memory : Memory} {address : UInt16} {length : Nat}
    (nonempty : 0 < length)
    (short : length < Opcode.size (memory.read address)) :
    ∃ i ∈ sweep address (memory.readBytes address length), i.CutOff := by
  obtain ⟨count, rfl⟩ : ∃ count, length = count + 1 := ⟨length - 1, by omega⟩
  rw [Memory.readBytes_succ, sweep_cons]
  refine ⟨_, List.mem_cons_self, (cutOff_first_iff _ _ _).mpr ?_⟩
  rwa [Memory.length_readBytes]

end Instruction

/-! ## §2. Listings without data. -/

namespace Listing

open ByteStream

/-- What a sweep finds from the cursor to the end of the block. -/
def swept (listing : Listing) : List Instruction :=
  Instruction.sweep listing.cursor
    (listing.memory.readBytes listing.cursor (listing.limit - listing.cursor.toNat))

/-- What becomes of a walk, going by what a sweep finds; `done` holds the lines before it, the last
one first. -/
def outcome (done : List Line) (listing : Listing) :
    EStateM.Result Fault Listing (Option (List Line)) :=
  if ∃ i ∈ listing.swept, i.CutOff then
    .error (.pastEnd (UInt16.ofNat listing.limit)) listing.finished
  else
    .ok (some (done.reverse ++ listing.swept.map Instruction.line)) listing.finished

section Code

variable {listing : Listing} (code : listing.data = [])

include code in
theorem dataAtCursor?_eq_none : listing.dataAtCursor? = none := by
  unfold dataAtCursor?
  rw [code, List.find?_nil]

theorem outcome_of_atEnd (h : listing.atEnd = true) (done : List Line) :
    outcome done listing = .ok (some done.reverse) listing.finished := by
  have hswept : listing.swept = [] := by
    unfold swept
    rw [Nat.sub_eq_zero_of_le (limit_le_of_atEnd h)]
    exact Instruction.sweep_nil _
  unfold outcome
  rw [hswept, if_neg (fun ⟨i, hi, _⟩ => List.not_mem_nil hi), List.map_nil, List.append_nil]

include code in
/-- From a complete instruction both go on, having found the same. -/
theorem outcome_of_complete (bound : listing.limit ≤ 0xFFFF)
    (complete : InReach listing listing.lineLength) (done : List Line) :
    outcome done listing
      = outcome (listing.line :: done) (advance listing listing.lineLength) := by
  have hdata := dataAtCursor?_eq_none code
  have hlength := lineLength_of_code hdata
  have hinside := le_limit_of_complete bound complete
  have hcursor := toNat_cursor_next bound complete
  have hline : listing.line = (listing.memory.instructionAt listing.cursor).line :=
    line_of_code hdata
  have hswept : listing.swept
      = listing.memory.instructionAt listing.cursor
        :: (advance listing listing.lineLength).swept := by
    unfold swept
    rw [hcursor, Instruction.sweep_readBytes_of_complete (by omega), ← hlength, Nat.sub_add_eq]
    rfl
  have hcut : (∃ i ∈ listing.swept, i.CutOff)
      ↔ ∃ i ∈ (advance listing listing.lineLength).swept, i.CutOff := by
    rw [hswept, List.exists_mem_cons_iff]
    exact or_iff_right (Instruction.not_cutOff_instructionAt _ _)
  unfold outcome
  refine if_congr hcut rfl ?_
  rw [hswept, hline, List.map_cons, List.reverse_cons, List.append_assoc]
  rfl

include code in
/-- An instruction that does not fit is the end of the walk, and the sweep cuts it off. -/
theorem outcome_of_short (h : listing.atEnd = false)
    (short : ¬ InReach listing listing.lineLength) (done : List Line) :
    outcome done listing
      = .error (.pastEnd (UInt16.ofNat listing.limit)) listing.finished := by
  have hlength := lineLength_of_code (dataAtCursor?_eq_none code)
  have hbefore : ¬ listing.limit ≤ listing.cursor.toNat := of_decide_eq_false h
  have hshort : ¬ (listing.lineLength = 0
      ∨ listing.cursor.toNat + listing.lineLength ≤ listing.limit
      ∨ 0xFFFF < listing.limit) := short
  have hcut : ∃ i ∈ listing.swept, i.CutOff :=
    Instruction.exists_cutOff_of_short (by omega) (by omega)
  exact if_pos hcut

end Code

/-- **All lines from the cursor on.**  With a step for each byte that is left, a walk becomes what
the sweep says. -/
theorem walk_eq_outcome (fuel : Nat) (done : List Line) {listing : Listing}
    (code : listing.data = []) (bound : listing.limit ≤ 0xFFFF)
    (below : listing.cursor.toNat ≤ listing.limit)
    (enough : listing.limit - listing.cursor.toNat ≤ fuel) :
    walk fuel done listing = outcome done listing := by
  refine walk_induction (P := fun done listing answer =>
    listing.data = [] → answer = outcome done listing)
    ?ended ?fits ?short fuel done bound below enough code
  case ended =>
    intro done listing hend _
    rw [outcome_of_atEnd hend]
  case fits =>
    intro done listing answer _ bound complete ih code
    rw [outcome_of_complete code bound complete]
    exact ih code
  case short =>
    intro done listing hend short code
    rw [outcome_of_short code hend short]

/-- **A listing without data is a sweep.**  In a block that ends below the top of memory, the lines
are the instructions that a sweep of the block finds.  If the sweep cuts one off there are none,
and the listing fails at the end of the block. -/
theorem lines_eq_sweep {listing : Listing} (code : listing.data = [])
    (bound : listing.start.toNat + listing.length.toNat ≤ 0xFFFF) :
    let swept := Instruction.sweep listing.start
      (listing.memory.readBytes listing.start listing.length.toNat)
    lines listing
      = if ∃ i ∈ swept, i.CutOff then
          .error (.pastEnd (listing.start + listing.length)) listing.finished
        else
          .ok (some (swept.map Instruction.line)) listing.finished := by
  intro swept
  have hcode : listing.rewound.data = [] := code
  have hbelow : listing.rewound.cursor.toNat ≤ listing.rewound.limit := Nat.le_add_right _ _
  have hleft : listing.rewound.limit - listing.rewound.cursor.toNat = listing.length.toNat :=
    Nat.add_sub_cancel_left _ _
  have hswept : listing.rewound.swept = swept := by
    unfold Listing.swept
    rw [hleft]
    rfl
  have hend : listing.start + listing.length = UInt16.ofNat listing.limit := by
    unfold limit
    rw [UInt16.ofNat_add, UInt16.ofNat_toNat, UInt16.ofNat_toNat]
  have hlines : lines listing = walk listing.length.toNat [] listing.rewound := rfl
  rw [hlines, walk_eq_outcome _ [] hcode bound hbelow (Nat.le_of_eq hleft), hend]
  unfold outcome
  rw [hswept]
  rfl

/-- A block of two loads, with an opcode between them that stands for nothing, or so many bytes of
it as are to be listed. -/
def twoLoads (length : UInt16) : Listing where
  memory := Memory.zero.writeBytes 0x0200 [0xA9, 0x10, 0x02, 0xAD, 0x34, 0x12]
  start := 0x0200
  length := length

/-- Without its last byte the second load is cut off and the listing fails; the opcode that stands
for nothing is shown either way. -/
theorem lines_eq_sweep_twoLoads :
    lines (twoLoads 6)
      = .ok (some [⟨0x0200, "LDA #$10"⟩, ⟨0x0202, "???"⟩, ⟨0x0203, "LDA $1234"⟩])
          (twoLoads 6).finished
    ∧ lines (twoLoads 5) = .error (.pastEnd 0x0205) (twoLoads 5).finished := by
  have hwhole : Instruction.sweep (twoLoads 6).start
        ((twoLoads 6).memory.readBytes (twoLoads 6).start (twoLoads 6).length.toNat)
      = [⟨0x0200, 0xA9, "LDA", .immediate, [0x10], 2⟩, ⟨0x0202, 0x02, "???", .implicit, [], 1⟩,
        ⟨0x0203, 0xAD, "LDA", .absolute, [0x34, 0x12], 3⟩] := by
    decide +kernel
  have hshort : Instruction.sweep (twoLoads 5).start
        ((twoLoads 5).memory.readBytes (twoLoads 5).start (twoLoads 5).length.toNat)
      = [⟨0x0200, 0xA9, "LDA", .immediate, [0x10], 2⟩, ⟨0x0202, 0x02, "???", .implicit, [], 1⟩,
        ⟨0x0203, 0xAD, "???", .implicit, [], 1⟩, ⟨0x0204, 0x34, "???", .implicit, [], 1⟩] := by
    decide +kernel
  constructor
  · rw [lines_eq_sweep rfl (by decide), hwhole, if_neg (by decide)]
    rfl
  · rw [lines_eq_sweep rfl (by decide), hshort, if_pos (by decide)]
    rfl

end Listing

end Mos6502
