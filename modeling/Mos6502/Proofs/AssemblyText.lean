/-
  Mos6502.Proofs.AssemblyText — the bytes behind a text

  The text of an instruction leaves something out: operands in page zero, distances
  and addresses are shown alike, and a branch is shown with the address it goes to.
  Still the text of a complete instruction tells all its bytes, once its own address is
  known.  With a zero in place of each digit the operand shows a layout, and the layout
  tells the mode, up to a confusion of relative and absolute operands that no mnemonic
  admits.  The digits then tell the operand bytes.  In a listing every address follows
  from the address before, so that the texts tell all bytes of the code.

  Main statements:
    * `mode_of_layout`    — modes with one layout
    * `eq_of_text`        — instructions at one address with one text
    * `sweep_text_inj`    — the texts of a sweep tell its bytes
-/
import Mos6502.Proofs.Agreement
import Mos6502.Proofs.Sweeping

namespace Mos6502

/-! ## §1. Layouts. -/

/-- A hexadecimal digit becomes a zero, any other character stays. -/
def maskDigit (c : Char) : Char :=
  if c.isDigit || 'A' ≤ c && c ≤ 'F' then '0' else c

/-- A text with a zero in place of each digit. -/
def masked (text : String) : List Char := text.toList.map maskDigit

theorem masked_append (s t : String) : masked (s ++ t) = masked s ++ masked t := by
  unfold masked
  rw [String.toList_append, List.map_append]

theorem maskDigit_hexDigit {n : Nat} (h : n < 16) : maskDigit (hexDigit n) = '0' := by
  have digits : ∀ n < 16, maskDigit (hexDigit n) = '0' := by decide
  exact digits n h

theorem map_maskDigit_byteDigits (b : UInt8) : (byteDigits b).map maskDigit = ['0', '0'] := by
  have hb := b.toNat_lt
  unfold byteDigits
  rw [List.map_cons, List.map_cons, maskDigit_hexDigit (by omega), maskDigit_hexDigit (by omega),
    List.map_nil]

theorem masked_hexByte (b : UInt8) : masked (hexByte b) = ['0', '0'] := by
  unfold masked hexByte
  rw [String.toList_ofList, map_maskDigit_byteDigits]

theorem masked_hexWord (w : UInt16) : masked (hexWord w) = ['0', '0', '0', '0'] := by
  unfold masked hexWord
  rw [String.toList_ofList, List.map_append, map_maskDigit_byteDigits, map_maskDigit_byteDigits]
  rfl

namespace AddressingMode

/-- An operand of zeros with as many digits as the mode shows. -/
def zeros (mode : AddressingMode) : String :=
  match mode with
  | implicit | accumulator => ""
  | immediate | zeroPage | zeroPageX | zeroPageY | indirectX | indirectY => "00"
  | relative | absolute | absoluteX | absoluteY | indirect => "0000"

/-- What a mode shows after the mnemonic, with a zero in place of each digit. -/
def layout (mode : AddressingMode) : List Char := masked (mode.display mode.zeros)

/-- Only the operand differs between two texts of one mode. -/
theorem masked_display (mode : AddressingMode) {s t : String} (h : masked s = masked t) :
    masked (mode.display s) = masked (mode.display t) := by
  cases mode <;> simp only [display, masked_append, h]

/-- Relative and absolute operands look alike; all other modes tell themselves apart. -/
theorem mode_of_layout {mode other : AddressingMode} (h : mode.layout = other.layout) :
    mode = other ∨ mode = relative ∧ other = absolute ∨ mode = absolute ∧ other = relative := by
  have pairs : ∀ m ∈ all, ∀ n ∈ all, m.layout = n.layout →
      m = n ∨ m = relative ∧ n = absolute ∨ m = absolute ∧ n = relative := by
    decide +kernel
  exact pairs mode (mem_all mode) other (mem_all other) h

/-- A mode that has an operand shows all of it. -/
theorem display_inj {mode : AddressingMode} (hoperand : 0 < mode.operandLength) {s t : String}
    (h : mode.display s = mode.display t) : s = t := by
  have hchars := congrArg String.toList h
  cases mode with
  | implicit => exact absurd hoperand (Nat.lt_irrefl 0)
  | accumulator => exact absurd hoperand (Nat.lt_irrefl 0)
  | _ =>
    simp only [display, String.toList_append, List.append_cancel_left_eq,
      List.append_cancel_right_eq, String.toList_inj] at hchars
    exact hchars

end AddressingMode

/-! ## §2. One instruction. -/

/-- All names of mnemonics are equally long. -/
theorem Mnemonic.length_name (mnemonic : Mnemonic) : mnemonic.name.toList.length = 3 := by
  cases mnemonic <;> decide

namespace Instruction

/-- What is shown in the place of the operand. -/
def shownOperand (i : Instruction) : String :=
  i.operandText.getD AddressingMode.placeholder

section Operands

variable {i : Instruction}

theorem shownOperand_of_relative {offset : UInt8} (hmode : i.mode = .relative)
    (hoperands : i.operands = [offset]) :
    i.shownOperand = hexWord (i.next + signExtend offset) := by
  unfold shownOperand operandText
  rw [hmode, hoperands]
  rfl

theorem shownOperand_of_byte {value : UInt8} (hmode : i.mode ≠ .relative)
    (hoperands : i.operands = [value]) : i.shownOperand = hexByte value := by
  unfold shownOperand operandText
  rw [hoperands]
  cases hm : i.mode with
  | relative => exact absurd hm hmode
  | _ => rfl

theorem shownOperand_of_word {low high : UInt8} (hoperands : i.operands = [low, high]) :
    i.shownOperand = hexWord (word low high) := by
  unfold shownOperand operandText
  rw [hoperands]
  cases i.mode <;> rfl

end Operands

section Encoded

variable {i j : Instruction} {e f : Encoding}

/-- The operand of a complete instruction is shown with as many digits as its mode has. -/
theorem Encodes.masked_display (h : i.Encodes e) :
    masked (e.mode.display i.shownOperand) = e.mode.layout := by
  have hlength := h.operands
  have hmode := h.mode
  have hlayout : masked i.shownOperand = masked e.mode.zeros →
      masked (e.mode.display i.shownOperand) = e.mode.layout := e.mode.masked_display
  cases hm : e.mode with
  | implicit => rfl
  | accumulator => rfl
  | relative =>
    rw [hm] at hlength hmode hlayout
    obtain ⟨offset, hoperands⟩ := List.length_eq_one_iff.mp hlength
    apply hlayout
    rw [shownOperand_of_relative hmode hoperands, masked_hexWord]
    rfl
  | absolute | absoluteX | absoluteY | indirect =>
    rw [hm] at hlength hlayout
    obtain ⟨low, high, hoperands⟩ := List.length_eq_two.mp hlength
    apply hlayout
    rw [shownOperand_of_word hoperands, masked_hexWord]
    rfl
  | _ =>
    rw [hm] at hlength hmode hlayout
    obtain ⟨value, hoperands⟩ := List.length_eq_one_iff.mp hlength
    have hne : i.mode ≠ .relative := by rw [hmode]; decide
    apply hlayout
    rw [shownOperand_of_byte hne hoperands, masked_hexByte]
    rfl

/-- What is shown of the operand tells its bytes, given the address that a branch counts
from. -/
theorem Encodes.operands_eq (hi : i.Encodes e) (hj : j.Encodes e) (hnext : i.next = j.next)
    (h : i.shownOperand = j.shownOperand) : i.operands = j.operands := by
  have hlength : e.mode.operandLength = 0 ∨ e.mode.operandLength = 1
      ∨ e.mode.operandLength = 2 := by cases e.mode <;> decide
  rcases hlength with hlength | hlength | hlength
  · have hnone := hi.operands.trans hlength
    have hnone' := hj.operands.trans hlength
    rw [List.length_eq_zero_iff.mp hnone, List.length_eq_zero_iff.mp hnone']
  · obtain ⟨value, hv⟩ := List.length_eq_one_iff.mp (hi.operands.trans hlength)
    obtain ⟨value', hv'⟩ := List.length_eq_one_iff.mp (hj.operands.trans hlength)
    rw [hv, hv']
    congr 1
    by_cases hrelative : e.mode = .relative
    · rw [shownOperand_of_relative (hi.mode.trans hrelative) hv,
        shownOperand_of_relative (hj.mode.trans hrelative) hv', hnext] at h
      exact signExtend_inj.mp ((UInt16.add_right_inj _).mp (hexWord_inj.mp h))
    · rw [shownOperand_of_byte (hi.mode ▸ hrelative) hv,
        shownOperand_of_byte (hj.mode ▸ hrelative) hv'] at h
      exact hexByte_inj.mp h
  · obtain ⟨low, high, hw⟩ := List.length_eq_two.mp (hi.operands.trans hlength)
    obtain ⟨low', high', hw'⟩ := List.length_eq_two.mp (hj.operands.trans hlength)
    rw [shownOperand_of_word hw, shownOperand_of_word hw'] at h
    obtain ⟨rfl, rfl⟩ := word_inj.mp (hexWord_inj.mp h)
    rw [hw, hw']

/-- With one mnemonic, a layout belongs to one mode only: the mnemonics of relative operands
are branches. -/
theorem Encodes.mode_eq (hi : i.Encodes e) (hj : j.Encodes f)
    (hmnemonic : e.mnemonic = f.mnemonic) (hlayout : e.mode.layout = f.mode.layout) :
    e.mode = f.mode := by
  have hiff : e.mode = .relative ↔ f.mode = .relative := by
    rw [Encoding.relative_iff hi.encoding, Encoding.relative_iff hj.encoding, hmnemonic]
  rcases AddressingMode.mode_of_layout hlayout with hsame | ⟨hrelative, -⟩ | ⟨-, hrelative⟩
  · exact hsame
  · rw [hrelative, hiff.mp hrelative]
  · rw [hrelative, hiff.mpr hrelative]

/-- A complete instruction is its encoding with an address and operands. -/
theorem Encodes.eq (hi : i.Encodes e) (hj : j.Encodes e) (haddress : i.address = j.address)
    (hoperands : i.operands = j.operands) : i = j := by
  have hopcode : i.opcode = j.opcode := by
    have hfound := opcode?_of_encoding hi.encoding
    rw [opcode?_of_encoding hj.encoding] at hfound
    exact (Option.some.inj hfound).symm
  have hmnemonic := hi.mnemonic.trans hj.mnemonic.symm
  have hmode := hi.mode.trans hj.mode.symm
  have hsize := hi.size.trans hj.size.symm
  cases i
  cases j
  simp only at *
  subst_vars
  rfl

/-- Complete instructions at one address that have one text are the same. -/
theorem eq_of_text (hi : i.Encodes e) (hj : j.Encodes f) (haddress : i.address = j.address)
    (h : i.text = j.text) : i = j := by
  have htext : e.mnemonic.name.toList ++ (e.mode.display i.shownOperand).toList
      = f.mnemonic.name.toList ++ (f.mode.display j.shownOperand).toList := by
    rw [← String.toList_append, ← String.toList_append, ← hi.mnemonic, ← hj.mnemonic, ← hi.mode,
      ← hj.mode]
    exact congrArg String.toList h
  obtain ⟨hname, hdisplay⟩ := List.append_inj htext
    ((Mnemonic.length_name _).trans (Mnemonic.length_name _).symm)
  have hmnemonic : e.mnemonic = f.mnemonic := Mnemonic.name_inj.mp (String.toList_inj.mp hname)
  have hmode : e.mode = f.mode := by
    apply hi.mode_eq hj hmnemonic
    rw [← hi.masked_display, ← hj.masked_display]
    exact congrArg (List.map maskDigit) hdisplay
  obtain rfl : e = f := by
    cases e
    cases f
    exact congrArg₂ Encoding.mk hmnemonic hmode
  have hnext : i.next = j.next := by
    unfold next
    rw [haddress, hi.size, hj.size]
  refine hi.eq hj haddress ?_
  by_cases hoperand : 0 < e.mode.operandLength
  · exact hi.operands_eq hj hnext
      (AddressingMode.display_inj hoperand (String.toList_inj.mp hdisplay))
  · have hnone : e.mode.operandLength = 0 := by omega
    rw [List.length_eq_zero_iff.mp (hi.operands.trans hnone),
      List.length_eq_zero_iff.mp (hj.operands.trans hnone)]

end Encoded

/-! ## §3. A whole listing. -/

/-- **A listing's text tells its code.**  Two sequences of bytes from one address, swept into
complete instructions only, are equal if the texts of their instructions are. -/
theorem sweep_text_inj {start : UInt16} {bytes other : List UInt8}
    (known : ∀ i ∈ sweep start bytes, i.mnemonic ≠ "???")
    (knownOther : ∀ i ∈ sweep start other, i.mnemonic ≠ "???")
    (h : (sweep start bytes).map text = (sweep start other).map text) : bytes = other := by
  -- Induction on the instructions: equal texts at one address are equal instructions, and
  -- after these both sequences go on at one address again.
  induction start, bytes using sweep_induction generalizing other with
  | nil start =>
    cases other with
    | nil => rfl
    | cons opcode rest =>
      rw [sweep_nil, sweep_cons] at h
      cases h
  | cons start opcode rest ih =>
    cases other with
    | nil =>
      rw [sweep_nil, sweep_cons] at h
      cases h
    | cons opcode' rest' =>
      rw [sweep_cons] at known knownOther h
      rw [sweep_cons, List.map_cons, List.map_cons] at h
      obtain ⟨hfirst, hrest⟩ := List.cons.inj h
      obtain ⟨e, he⟩ := exists_encodes_first start opcode rest (known _ List.mem_cons_self)
      obtain ⟨f, hf⟩ := exists_encodes_first start opcode' rest'
        (knownOther _ List.mem_cons_self)
      have haddress := (address_first start opcode rest).trans
        (address_first start opcode' rest').symm
      have hsame := eq_of_text he hf haddress hfirst
      rw [← hsame] at hrest knownOther
      have hlater := ih (fun i hi => known i (List.mem_cons_of_mem _ hi))
        (fun i hi => knownOther i (List.mem_cons_of_mem _ hi)) hrest
      rw [← bytes_first_append_drop start opcode rest, hlater, hsame,
        bytes_first_append_drop start opcode' rest']

/-- A loop, with the offset of its branch as a distance back. -/
def endless : List UInt8 := [0xA9, 0x10, 0xD0, -4]

theorem sweep_endless :
    sweep 0x0200 endless
      = [⟨0x0200, 0xA9, "LDA", .immediate, [0x10], 2⟩,
        ⟨0x0202, 0xD0, "BNE", .relative, [0xFC], 2⟩] := by
  decide +kernel

/-- The branch is shown with the address it goes to, and the distance is found again. -/
theorem sweep_text_inj_endless :
    (∀ i ∈ sweep 0x0200 endless, i.mnemonic ≠ "???")
    ∧ (sweep 0x0200 endless).map text = ["LDA #$10", "BNE $0200"]
    ∧ endless = [0xA9, 0x10, 0xD0, 0xFC] := by
  have hother : sweep 0x0200 [0xA9, 0x10, 0xD0, 0xFC] = sweep 0x0200 endless := by decide +kernel
  have hknown : ∀ i ∈ sweep 0x0200 endless, i.mnemonic ≠ "???" := by
    rw [sweep_endless]
    decide
  refine ⟨hknown, by rw [sweep_endless]; decide +kernel, ?_⟩
  refine sweep_text_inj hknown ?_ (congrArg (List.map text) hother.symm)
  rw [hother]
  exact hknown

end Instruction

end Mos6502
