/-
  Mos6502.Proofs.ListingOverrun — when a listing fails, and what it leaves

  Where the lines of a block begin can be told from the addresses alone: each line is
  followed by the one that begins where it ends.  A listing fails exactly if these
  addresses lead to a line that would go on behind the block, be it an instruction or
  data, and however many lines are before it.  It fails at the end of the block, and
  that is where the cursor is in any case; nothing else has changed, so the next listing
  comes to the same, whatever was fetched in between.

  Main statements:
    * `exists_seek_of_calls` — fetching moves the cursor and nothing else
    * `overrunsFrom_iff`     — one line of the way to a line that does not fit
    * `walk_overrun`         — all lines from the cursor on
    * `lines_overrun`        — all lines of the block
-/
import Mathlib.Logic.Relation
import Mos6502.Proofs.ListingSpans
import Mos6502.Proofs.Session

namespace Mos6502

/-! ## §1. Calls in between. -/

namespace ByteStream

/-- A call by which bytes are fetched. -/
inductive Call where
  | nextByte
  | nextWord
  deriving Repr, DecidableEq

variable {σ : Type} [ByteStream σ]

/-- The stream after a call, whether it was granted or failed. -/
def called (s : σ) : Call → σ
  | .nextByte => leave nextByte s
  | .nextWord => leave nextWord s

/-- Any number of calls move the cursor and nothing else. -/
theorem exists_seek_of_calls [LawfulByteStream σ] (s : σ) (calls : List Call) :
    ∃ address, calls.foldl called s = seek s address := by
  induction calls generalizing s with
  | nil => exact ⟨cursor s, (LawfulByteStream.seek_cursor s).symm⟩
  | cons call calls ih =>
    have hcall : ∃ address, called s call = seek s address := by
      cases call with
      | nextByte => exact delivers_nextByte.leave_eq s
      | nextWord => exact delivers_nextWord.leave_eq s
    obtain ⟨first, hfirst⟩ := hcall
    obtain ⟨last, hlast⟩ := ih (called s call)
    refine ⟨last, ?_⟩
    rw [List.foldl_cons, hlast, hfirst, LawfulByteStream.seek_seek]

end ByteStream

namespace Listing

open ByteStream

/-! ## §2. Where lines begin. -/

/-- The number of bytes of a line that begins at an address: in registered data all that is left
of the first range there, but not more than sixteen; elsewhere as many as the opcode matrix says. -/
def lengthAt (listing : Listing) (address : UInt16) : Nat :=
  match listing.rangeAt? address with
  | some range => min 16 (range.limit - address.toNat)
  | none => Opcode.size (listing.memory.read address)

/-- The line that begins at an address of the block is followed by the one that begins where it
ends. -/
def Follows (listing : Listing) (address next : UInt16) : Prop :=
  address.toNat < listing.limit ∧ next.toNat = address.toNat + listing.lengthAt address

/-- The line that begins at an address of the block goes on behind the block. -/
def LineOverruns (listing : Listing) (address : UInt16) : Prop :=
  address.toNat < listing.limit ∧ listing.limit < address.toNat + listing.lengthAt address

instance (listing : Listing) (address next : UInt16) :
    Decidable (listing.Follows address next) :=
  inferInstanceAs (Decidable (_ ∧ _))

instance (listing : Listing) (address : UInt16) : Decidable (listing.LineOverruns address) :=
  inferInstanceAs (Decidable (_ ∧ _))

/-- Line after line, an address leads to a line that goes on behind the block. -/
def OverrunsFrom (listing : Listing) (address : UInt16) : Prop :=
  ∃ last, Relation.ReflTransGen listing.Follows address last ∧ listing.LineOverruns last

/-- The line at an address is that line, or the next one leads there. -/
theorem overrunsFrom_iff {listing : Listing} {address : UInt16} :
    listing.OverrunsFrom address
      ↔ listing.LineOverruns address
        ∨ ∃ next, listing.Follows address next ∧ listing.OverrunsFrom next := by
  constructor
  · rintro ⟨last, hway, hlast⟩
    rcases hway.cases_head with rfl | ⟨next, hnext, hrest⟩
    · exact .inl hlast
    · exact .inr ⟨next, hnext, last, hrest, hlast⟩
  · rintro (hline | ⟨next, hnext, last, hrest, hlast⟩)
    · exact ⟨address, .refl, hline⟩
    · exact ⟨last, .head hnext hrest, hlast⟩

/-- Where lines begin has nothing to do with the cursor. -/
theorem overrunsFrom_seek (listing : Listing) (address : UInt16) :
    (seek listing address).OverrunsFrom = listing.OverrunsFrom :=
  rfl

/-- The line at the cursor is as long as its address says. -/
theorem lengthAt_cursor (listing : Listing) :
    listing.lengthAt listing.cursor = listing.lineLength := by
  unfold lengthAt
  cases hdata : listing.rangeAt? listing.cursor with
  | some range =>
    rw [lineLength_of_data hdata]
    exact Nat.min_comm _ _
  | none => rw [lineLength_of_code hdata]

/-! ## §3. The walk. -/

section Cursor

variable {listing : Listing}

/-- From the end of the block no line begins. -/
theorem not_overrunsFrom_of_atEnd (h : listing.atEnd = true) :
    ¬ listing.OverrunsFrom listing.cursor := by
  have hend := limit_le_of_atEnd h
  rw [overrunsFrom_iff]
  rintro (⟨hinside, -⟩ | ⟨next, ⟨hinside, -⟩, -⟩) <;> omega

/-- A line that cannot be fetched goes on behind the block. -/
theorem overrunsFrom_of_short (h : listing.atEnd = false)
    (short : ¬ InReach listing listing.lineLength) :
    listing.OverrunsFrom listing.cursor := by
  have hinside : ¬ listing.limit ≤ listing.cursor.toNat := of_decide_eq_false h
  have hshort : ¬ (listing.lineLength = 0
      ∨ listing.cursor.toNat + listing.lineLength ≤ listing.limit
      ∨ 0xFFFF < listing.limit) := short
  refine overrunsFrom_iff.mpr (.inl ⟨by omega, ?_⟩)
  rw [lengthAt_cursor]
  omega

/-- From a line that can be fetched the way goes on behind it. -/
theorem overrunsFrom_iff_of_complete (h : listing.atEnd = false) (bound : listing.limit ≤ 0xFFFF)
    (complete : InReach listing listing.lineLength) :
    listing.OverrunsFrom listing.cursor
      ↔ (advance listing listing.lineLength).OverrunsFrom
          (advance listing listing.lineLength).cursor := by
  have hseek : (advance listing listing.lineLength).OverrunsFrom = listing.OverrunsFrom :=
    overrunsFrom_seek listing _
  have hinside : ¬ listing.limit ≤ listing.cursor.toNat := of_decide_eq_false h
  have hnext := toNat_cursor_next bound complete
  have hlimit := le_limit_of_complete bound complete
  have hlength := listing.lengthAt_cursor
  rw [hseek, overrunsFrom_iff]
  constructor
  · rintro (⟨-, hbeyond⟩ | ⟨next, ⟨-, hfollows⟩, hlater⟩)
    · omega
    · have heq : next = (advance listing listing.lineLength).cursor := by
        apply UInt16.toNat_inj.mp
        omega
      rwa [heq] at hlater
  · intro hlater
    exact .inr ⟨_, ⟨by omega, by omega⟩, hlater⟩

end Cursor

/-- **All lines from the cursor on.**  With a step for each byte that is left, a walk fails at the
end of the block if the cursor leads to a line that goes on behind it, and succeeds if not. -/
theorem walk_overrun (fuel : Nat) (done : List Line) {listing : Listing}
    (bound : listing.limit ≤ 0xFFFF) (below : listing.cursor.toNat ≤ listing.limit)
    (enough : listing.limit - listing.cursor.toNat ≤ fuel) :
    (listing.OverrunsFrom listing.cursor
      ∧ walk fuel done listing
          = .error (.pastEnd (UInt16.ofNat listing.limit)) listing.finished)
    ∨ (¬ listing.OverrunsFrom listing.cursor
      ∧ ∃ all, walk fuel done listing = .ok (some all) listing.finished) := by
  refine walk_induction (P := fun _ listing answer =>
    (listing.OverrunsFrom listing.cursor
      ∧ answer = .error (.pastEnd (UInt16.ofNat listing.limit)) listing.finished)
    ∨ (¬ listing.OverrunsFrom listing.cursor
      ∧ ∃ all, answer = .ok (some all) listing.finished))
    ?ended ?fits ?short fuel done bound below enough
  case ended =>
    intro done listing hend
    exact .inr ⟨not_overrunsFrom_of_atEnd hend, _, rfl⟩
  case fits =>
    intro done listing answer hend bound hcomplete ih
    rw [overrunsFrom_iff_of_complete hend bound hcomplete]
    exact ih
  case short =>
    intro done listing hend hshort
    exact .inl ⟨overrunsFrom_of_short hend hshort, rfl⟩

/-! ## §4. The whole block. -/

/-- A listing begins at the first byte of its block, wherever the cursor stands. -/
theorem lines_seek (listing : Listing) (address : UInt16) :
    lines (seek listing address) = lines listing :=
  rfl

/-- **When a listing fails, and what it leaves.**  In a block that ends below the top of memory, a
listing fails exactly if the first address leads to a line that goes on behind the block, and
then at the end of the block.  Either way the cursor is there afterwards and nothing else has
changed, and after any calls in between a further listing comes to the same. -/
theorem lines_overrun (listing : Listing)
    (fits : listing.start.toNat + listing.length.toNat ≤ 0xFFFF) :
    ((∃ fault, answer lines listing = .error fault) ↔ listing.OverrunsFrom listing.start)
    ∧ (∀ fault, answer lines listing = .error fault →
        fault = .pastEnd (listing.start + listing.length))
    ∧ (¬ listing.OverrunsFrom listing.start → ∃ all, answer lines listing = .ok (some all))
    ∧ leave lines listing = { listing with cursor := listing.start + listing.length }
    ∧ (listing.start + listing.length).toNat = listing.start.toNat + listing.length.toNat
    ∧ ∀ calls : List Call,
        answer lines (calls.foldl called (leave lines listing)) = answer lines listing := by
  have hend : UInt16.ofNat listing.limit = listing.start + listing.length := by
    unfold limit
    rw [UInt16.ofNat_add, UInt16.ofNat_toNat, UInt16.ofNat_toNat]
  have htoNat : (listing.start + listing.length).toNat
      = listing.start.toNat + listing.length.toNat := by
    rw [UInt16.toNat_add]
    omega
  have hbelow : listing.rewound.cursor.toNat ≤ listing.rewound.limit := Nat.le_add_right _ _
  have henough : listing.rewound.limit - listing.rewound.cursor.toNat ≤ listing.length.toNat :=
    Nat.le_of_eq (Nat.add_sub_cancel_left _ _)
  have hwalk : (listing.OverrunsFrom listing.start
        ∧ lines listing = .error (.pastEnd (UInt16.ofNat listing.limit)) listing.finished)
      ∨ (¬ listing.OverrunsFrom listing.start
        ∧ ∃ all, lines listing = .ok (some all) listing.finished) :=
    @walk_overrun listing.length.toNat [] listing.rewound fits hbelow henough
  have hleave : leave lines listing
      = { listing with cursor := listing.start + listing.length } := by
    rw [← hend]
    rcases hwalk with ⟨-, herror⟩ | ⟨-, all, hok⟩
    · exact leave_of_error herror
    · exact leave_of_ok hok
  have hagain : ∀ calls : List Call,
      answer lines (calls.foldl called (leave lines listing)) = answer lines listing := by
    intro calls
    obtain ⟨address, hseek⟩ := exists_seek_of_calls (leave lines listing) calls
    have hlines : lines (calls.foldl called (leave lines listing)) = lines listing := by
      rw [hseek, lines_seek, hleave]
      exact lines_seek listing _
    unfold answer
    rw [hlines]
  rcases hwalk with ⟨hoverruns, herror⟩ | ⟨hfits, all, hok⟩
  · have hanswer := answer_of_error herror
    refine ⟨⟨fun _ => hoverruns, fun _ => ⟨_, hanswer⟩⟩, ?_, fun hfits => absurd hoverruns hfits,
      hleave, htoNat, hagain⟩
    intro fault hfault
    rw [hanswer, hend] at hfault
    exact (Except.error.inj hfault).symm
  · have hanswer := answer_of_ok hok
    have hnone : ∀ fault, answer lines listing ≠ .error fault := by
      intro fault hfault
      rw [hanswer] at hfault
      cases hfault
    exact ⟨⟨fun ⟨fault, hfault⟩ => absurd hfault (hnone fault), fun hoverruns =>
        absurd hoverruns hfits⟩,
      fun fault hfault => absurd hfault (hnone fault), fun _ => ⟨all, hanswer⟩,
      hleave, htoNat, hagain⟩

/-- A load, and data that is registered two bytes beyond the end of the block. -/
def dataBeyond : Listing where
  memory := Memory.zero.writeBytes 0x0020 [0xA9, 0x10, 0x01, 0x02, 0x03]
  start := 0x0020
  length := 3
  data := [⟨0x0022, 3⟩]

/-- The first line leads to one that does not fit, now and again after two calls, which fail since
nothing is left to be fetched. -/
theorem lines_overrun_dataBeyond :
    answer lines dataBeyond = .error (.pastEnd 0x0023)
    ∧ leave lines dataBeyond = { dataBeyond with cursor := 0x0023 }
    ∧ answer lines ([Call.nextWord, Call.nextWord].foldl called (leave lines dataBeyond))
        = .error (.pastEnd 0x0023) := by
  have hfits : dataBeyond.start.toNat + dataBeyond.length.toNat ≤ 0xFFFF := by decide
  have hfollows : dataBeyond.Follows 0x0020 0x0022 := by decide +kernel
  have hbeyond : dataBeyond.LineOverruns 0x0022 := by decide +kernel
  obtain ⟨hfails, hfault, -, hleave, -, hagain⟩ := lines_overrun dataBeyond hfits
  obtain ⟨fault, hanswer⟩ := hfails.mpr ⟨0x0022, .single hfollows, hbeyond⟩
  have hend : answer lines dataBeyond = .error (.pastEnd 0x0023) := by
    rw [hanswer, hfault fault hanswer]
    rfl
  exact ⟨hend, hleave, (hagain _).trans hend⟩

end Listing

end Mos6502
