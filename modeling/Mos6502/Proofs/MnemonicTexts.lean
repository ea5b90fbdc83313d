/-
  Mos6502.Proofs.MnemonicTexts — the texts that name a mnemonic

  A mnemonic is read without regard to case, and case is a matter of the 26 letters from A
  to Z only.  A text names a mnemonic if it is the name once these letters are put in upper
  case; letter by letter, this means that each character is the letter of the name or the
  lower-case form of it.  No two names are the same, so that a text names one mnemonic at
  most, and the first that is found is the only one there is to find.

  Main statements:
    * `toNat_toUpper`, `toNat_toLower` — the change of case on numbers of characters
    * `spells_iff`           — the texts that name a mnemonic, letter by letter
    * `sameLetters_name_iff` — what is compared with a name when a text is read
    * `parse_cases`          — a text is read as what it names, or refused unchanged
    * `parse_exact`          — the texts that are read, and the texts that are refused
-/
import Mathlib.Data.List.Forall2
import Mos6502.Proofs.AssemblyText

namespace Mos6502

/-! ## §1. Letters in either case. -/

theorem between_iff_toNat {low c high : Char} :
    low.val ≤ c.val ∧ c.val ≤ high.val ↔ low.toNat ≤ c.toNat ∧ c.toNat ≤ high.toNat := by
  rw [UInt32.le_iff_toNat_le, UInt32.le_iff_toNat_le]
  rfl

theorem isUpper_iff_toNat {c : Char} : c.isUpper = true ↔ 65 ≤ c.toNat ∧ c.toNat ≤ 90 := by
  unfold Char.isUpper
  rw [decide_eq_true_eq]
  exact between_iff_toNat

theorem isLower_iff_toNat {c : Char} : c.isLower = true ↔ 97 ≤ c.toNat ∧ c.toNat ≤ 122 := by
  unfold Char.isLower
  rw [Bool.and_eq_true, decide_eq_true_eq, decide_eq_true_eq]
  exact between_iff_toNat

/-- Only the letters from a to z have another character in upper case. -/
theorem toNat_toUpper (c : Char) :
    c.toUpper.toNat = if 97 ≤ c.toNat ∧ c.toNat ≤ 122 then c.toNat - 32 else c.toNat := by
  have hrange : 'a'.val ≤ c.val ∧ c.val ≤ 'z'.val ↔ 97 ≤ c.toNat ∧ c.toNat ≤ 122 :=
    between_iff_toNat
  unfold Char.toUpper
  split
  · next h =>
    have hlower := hrange.mp h
    rw [if_pos hlower]
    -- The distance to the upper-case letters is negative, so the sum goes round.
    show (c.val + 4294967264).toNat = c.toNat - 32
    rw [UInt32.toNat_add]
    show (c.toNat + 4294967264) % 4294967296 = c.toNat - 32
    omega
  · next h => rw [if_neg (mt hrange.mpr h)]

/-- Only the letters from A to Z have another character in lower case. -/
theorem toNat_toLower (c : Char) :
    c.toLower.toNat = if 65 ≤ c.toNat ∧ c.toNat ≤ 90 then c.toNat + 32 else c.toNat := by
  have hrange : 'A'.val ≤ c.val ∧ c.val ≤ 'Z'.val ↔ 65 ≤ c.toNat ∧ c.toNat ≤ 90 :=
    between_iff_toNat
  unfold Char.toLower
  split
  · next h =>
    have hupper := hrange.mp h
    rw [if_pos hupper]
    show (c.val + 32).toNat = c.toNat + 32
    rw [UInt32.toNat_add]
    show (c.toNat + 32) % 4294967296 = c.toNat + 32
    omega
  · next h => rw [if_neg (mt hrange.mpr h)]

namespace Mnemonic

/-- The character is the letter or the lower-case form of it. -/
def EitherCase (c letter : Char) : Prop := c = letter ∨ c = letter.toLower

section Letters

variable {c letter : Char}

theorem eitherCase_iff_toNat (upper : letter.isUpper = true) :
    EitherCase c letter ↔ c.toNat = letter.toNat ∨ c.toNat = letter.toNat + 32 := by
  have hlower := toNat_toLower letter
  rw [if_pos (isUpper_iff_toNat.mp upper)] at hlower
  unfold EitherCase
  rw [← Char.toNat_inj, ← Char.toNat_inj, hlower]

/-- Only an upper-case letter itself and its lower-case form become that letter. -/
theorem toUpper_eq_iff_eitherCase (upper : letter.isUpper = true) :
    c.toUpper = letter ↔ EitherCase c letter := by
  have hletter := isUpper_iff_toNat.mp upper
  rw [eitherCase_iff_toNat upper, ← Char.toNat_inj, toNat_toUpper]
  split <;> omega

/-- The same two characters have the lower-case form of the letter for theirs. -/
theorem toLower_eq_iff_eitherCase (upper : letter.isUpper = true) :
    c.toLower = letter.toLower ↔ EitherCase c letter := by
  have hletter := isUpper_iff_toNat.mp upper
  rw [eitherCase_iff_toNat upper, ← Char.toNat_inj, toNat_toLower, toNat_toLower, if_pos hletter]
  split <;> omega

theorem isAlpha_of_eitherCase (upper : letter.isUpper = true) (h : EitherCase c letter) :
    c.isAlpha = true := by
  have hletter := isUpper_iff_toNat.mp upper
  rw [eitherCase_iff_toNat upper] at h
  unfold Char.isAlpha
  rw [Bool.or_eq_true, isUpper_iff_toNat, isLower_iff_toNat]
  omega

end Letters

/-- What holds of characters beside letters holds of texts letter by letter; the texts are then
equally long. -/
theorem map_eq_map_iff_forall₂ {f g : Char → Char} {letters : List Char}
    (h : ∀ letter ∈ letters, ∀ c, f c = g letter ↔ EitherCase c letter) (text : List Char) :
    text.map f = letters.map g ↔ List.Forall₂ EitherCase text letters := by
  -- Induction on the letters, since it is these that the comparison is known for.
  induction letters generalizing text with
  | nil => rw [List.map_nil, List.map_eq_nil_iff, List.forall₂_nil_right_iff]
  | cons letter letters ih =>
    cases text with
    | nil => exact ⟨(nomatch ·), (nomatch ·)⟩
    | cons c text =>
      have hfirst := h letter List.mem_cons_self c
      have hrest := ih (fun other hother => h other (List.mem_cons_of_mem _ hother)) text
      rw [List.map_cons, List.map_cons, List.cons.injEq, List.forall₂_cons, hfirst, hrest]

/-! ## §2. Texts that name a mnemonic. -/

/-- The text is the name of the mnemonic, each letter in either case. -/
def Spells (text : String) (mnemonic : Mnemonic) : Prop :=
  List.Forall₂ EitherCase text.toList mnemonic.name.toList

section Naming

variable {text : String} {mnemonic other : Mnemonic}

theorem isUpper_of_mem_name {letter : Char} (h : letter ∈ mnemonic.name.toList) :
    letter.isUpper = true := by
  have letters : mnemonic.name.toList.all Char.isUpper = true := by
    cases mnemonic <;> decide
  exact List.all_eq_true.mp letters letter h

theorem spells_iff : Spells text mnemonic ↔ text.map Char.toUpper = mnemonic.name := by
  have hletters : text.toList.map Char.toUpper = mnemonic.name.toList.map id
      ↔ Spells text mnemonic :=
    map_eq_map_iff_forall₂
      (fun _ hletter _ => toUpper_eq_iff_eitherCase (isUpper_of_mem_name hletter)) text.toList
  rw [List.map_id] at hletters
  rw [← String.toList_inj, String.toList_map]
  exact hletters.symm

instance : Decidable (Spells text mnemonic) := decidable_of_iff _ spells_iff.symm

/-- A text names one mnemonic at most. -/
theorem Spells.unique (h : Spells text mnemonic) (hother : Spells text other) :
    mnemonic = other :=
  name_inj.mp ((spells_iff.mp h).symm.trans (spells_iff.mp hother))

theorem Spells.length_eq (h : Spells text mnemonic) : text.toList.length = 3 :=
  (List.Forall₂.length_eq h).trans (length_name mnemonic)

/-- A text that names a mnemonic consists of letters from A to Z, in upper or lower case. -/
theorem Spells.isAlpha (h : Spells text mnemonic) {c : Char} (hc : c ∈ text.toList) :
    c.isAlpha = true := by
  have hmem : c.toUpper ∈ mnemonic.name.toList := by
    rw [← spells_iff.mp h, String.toList_map]
    exact List.mem_map_of_mem hc
  have hupper := isUpper_of_mem_name hmem
  exact isAlpha_of_eitherCase hupper ((toUpper_eq_iff_eitherCase hupper).mp rfl)

/-- What is compared with a name when a text is read. -/
theorem sameLetters_name_iff : sameLetters mnemonic.name text = true ↔ Spells text mnemonic := by
  unfold sameLetters
  rw [beq_iff_eq, eq_comm]
  exact map_eq_map_iff_forall₂
    (fun _ hletter _ => toLower_eq_iff_eitherCase (isUpper_of_mem_name hletter)) text.toList

end Naming

/-! ## §3. Reading. -/

/-- A text is read as a mnemonic that it names, and refused unchanged if it names none. -/
theorem parse_cases (text : String) :
    (∃ mnemonic, parse text = .ok mnemonic ∧ Spells text mnemonic)
    ∨ (parse text = .error ⟨text⟩ ∧ ∀ mnemonic, ¬ Spells text mnemonic) := by
  unfold parse
  -- The search ends at the first name with the letters of the text.  It matters only that there
  -- is one in the list, not which one comes first.
  cases hfound : all.find? fun mnemonic => sameLetters mnemonic.name text with
  | some mnemonic =>
    have hsame := List.find?_some hfound
    exact Or.inl ⟨mnemonic, rfl, sameLetters_name_iff.mp hsame⟩
  | none =>
    have hnone := List.find?_eq_none.mp hfound
    refine Or.inr ⟨rfl, ?_⟩
    intro mnemonic hspells
    exact hnone mnemonic (mem_all mnemonic) (sameLetters_name_iff.mpr hspells)

theorem parse_eq_ok_iff {text : String} {mnemonic : Mnemonic} :
    parse text = .ok mnemonic ↔ Spells text mnemonic := by
  rcases parse_cases text with ⟨found, hparse, hspells⟩ | ⟨hparse, hnone⟩
  · rw [hparse, Except.ok.injEq]
    constructor
    · rintro rfl
      exact hspells
    · exact hspells.unique
  · rw [hparse]
    exact ⟨(nomatch ·), fun h => absurd h (hnone mnemonic)⟩

theorem parse_eq_error_iff {text : String} {unknown : UnknownMnemonic} :
    parse text = .error unknown ↔ unknown = ⟨text⟩ ∧ ∀ mnemonic, ¬ Spells text mnemonic := by
  rcases parse_cases text with ⟨found, hparse, hspells⟩ | ⟨hparse, hnone⟩
  · rw [hparse]
    exact ⟨(nomatch ·), fun h => absurd hspells (h.2 found)⟩
  · rw [hparse, Except.error.injEq, eq_comm]
    exact ⟨fun h => ⟨h, hnone⟩, fun h => h.1⟩

/-- **A mnemonic is read from its name in any mix of cases, and from nothing else.**  A text is
read as a mnemonic exactly if it is the name of it once its letters from A to Z are in upper
case, that is, if letter by letter it is the name in either case; this holds of one mnemonic at
most.  Any other text is refused and given back as it was.  So is every text that is not of
three characters, and every text with a character in it that is no letter from A to Z: a blank,
or a letter of another alphabet that has one of these for its upper or lower case. -/
theorem parse_exact (text : String) :
    (∀ mnemonic : Mnemonic, parse text = .ok mnemonic ↔ text.map Char.toUpper = mnemonic.name)
    ∧ (∀ mnemonic, parse text = .ok mnemonic ↔ Spells text mnemonic)
    ∧ (∀ mnemonic other : Mnemonic, text.map Char.toUpper = mnemonic.name →
        text.map Char.toUpper = other.name → mnemonic = other)
    ∧ (∀ unknown, parse text = .error unknown
        ↔ unknown = ⟨text⟩ ∧ ∀ mnemonic : Mnemonic, text.map Char.toUpper ≠ mnemonic.name)
    ∧ (text.toList.length ≠ 3 ∨ (∃ c ∈ text.toList, c.isAlpha = false) →
        parse text = .error ⟨text⟩) := by
  refine ⟨fun mnemonic => parse_eq_ok_iff.trans spells_iff, fun mnemonic => parse_eq_ok_iff,
    fun mnemonic other h hother => (spells_iff.mpr h).unique (spells_iff.mpr hother), ?_, ?_⟩
  · intro unknown
    rw [parse_eq_error_iff]
    exact and_congr_right' (forall_congr' fun mnemonic => not_congr spells_iff)
  · intro hforeign
    refine parse_eq_error_iff.mpr ⟨rfl, fun mnemonic hspells => ?_⟩
    rcases hforeign with hlength | ⟨c, hc, hletter⟩
    · exact hlength hspells.length_eq
    · rw [hspells.isAlpha hc] at hletter
      exact Bool.noConfusion hletter

/-- The case of a letter makes no difference.  A long s has S for its upper case and is no
letter from A to Z, no more than a blank is. -/
theorem parse_exact_sei :
    parse "sEi" = .ok .sei ∧ parse "ſEI" = .error ⟨"ſEI"⟩
    ∧ parse " SEI" = .error ⟨" SEI"⟩ ∧ parse "SE" = .error ⟨"SE"⟩ := by
  have hmixed : Spells "sEi" .sei := by decide +kernel
  exact ⟨((parse_exact "sEi").2.1 .sei).mpr hmixed,
    (parse_exact "ſEI").2.2.2.2 (Or.inr ⟨'ſ', by decide, by decide⟩),
    (parse_exact " SEI").2.2.2.2 (Or.inr ⟨' ', by decide, by decide⟩),
    (parse_exact "SE").2.2.2.2 (Or.inl (by decide))⟩

end Mnemonic

end Mos6502
