/-
  Mos6502.Proofs.Sweeping — what a sweep makes of its bytes

  A sweep takes a sequence of bytes apart and loses none of them: the bytes of its
  instructions, one after the other, are the sequence again, and each instruction is at
  the address where the one before has ended.  An instruction of a sweep is either
  complete, and then its opcode is found again from the mnemonic and the mode that it
  is shown with, or it is a single byte that begins no complete one.

  Main statements:
    * `parse_name`          — a mnemonic is read from its name
    * `first_cases`         — the first instruction of a sequence
    * `sweep_eq_append`     — an instruction of a sweep and the bytes from it on
    * `sweep_readBytes_of_complete` — a sweep of memory from a complete instruction on
    * `sweep_lossless`      — bytes, addresses and opcodes of a sweep
-/
import Mathlib.Data.List.Chain
import Mos6502.Disassembly.Sweep
import Mos6502.Proofs.Decoding
import Mos6502.Proofs.Stepping

namespace Mos6502

/-! ## §1. Names of mnemonics. -/

namespace Mnemonic

/-- A name is found at its own mnemonic first: no other name has the same letters. -/
theorem parse_name (mnemonic : Mnemonic) : parse mnemonic.name = .ok mnemonic := by
  have found : ∀ m ∈ all, all.find? (fun other => sameLetters other.name m.name) = some m := by
    decide +kernel
  unfold parse
  rw [found mnemonic (mem_all mnemonic)]

theorem name_inj {mnemonic other : Mnemonic} : mnemonic.name = other.name ↔ mnemonic = other := by
  constructor
  · intro h
    have hparse := parse_name mnemonic
    rw [h, parse_name] at hparse
    cases hparse
    rfl
  · rintro rfl
    rfl

end Mnemonic

namespace Instruction

/-! ## §2. The first instruction. -/

/-- The instruction is a complete one of the encoding: opcode, mnemonic and mode are
those of the opcode matrix, and the operands are as many as the mode asks for. -/
structure Encodes (i : Instruction) (e : Encoding) : Prop where
  encoding : Opcode.encoding i.opcode = some e
  mnemonic : i.mnemonic = e.mnemonic.name
  mode : i.mode = e.mode
  operands : i.operands.length = e.mode.operandLength
  size : i.size = UInt8.ofNat e.size

/-- The first instruction of a sequence is a complete one with the next bytes for its
operands, or its first byte alone: the byte stands for nothing or the operands are cut
off. -/
theorem first_cases (address : UInt16) (opcode : UInt8) (rest : List UInt8) :
    (∃ e, Opcode.encoding opcode = some e ∧ Opcode.size opcode ≤ rest.length + 1
      ∧ first address opcode rest
        = ⟨address, opcode, e.mnemonic.name, e.mode, rest.take e.mode.operandLength,
            UInt8.ofNat e.size⟩)
    ∨ ((Opcode.encoding opcode = none ∨ rest.length + 1 < Opcode.size opcode)
      ∧ first address opcode rest = unknown address opcode) := by
  have hsize := Opcode.size_eq opcode
  have hlength : (rest.take (Opcode.mode opcode).operandLength).length
      = min (Opcode.mode opcode).operandLength rest.length := List.length_take
  by_cases hfits : Opcode.size opcode ≤ rest.length + 1
  · have hdecode : decode? address (opcode :: rest)
        = some ⟨address, opcode, Opcode.name opcode, Opcode.mode opcode,
            rest.take (Opcode.mode opcode).operandLength, UInt8.ofNat (Opcode.size opcode)⟩ :=
      if_pos (by omega)
    unfold first
    rw [hdecode, Option.getD_some]
    cases hencoding : Opcode.encoding opcode with
    | some e =>
      refine .inl ⟨e, rfl, hfits, ?_⟩
      rw [Opcode.name_of_encoding hencoding, Opcode.mode_of_encoding hencoding,
        Opcode.size_of_encoding hencoding]
    | none =>
      -- Such an opcode has no operands, so that it is complete as it is.
      refine .inr ⟨.inl rfl, ?_⟩
      unfold Opcode.name Opcode.mode Opcode.size
      rw [hencoding]
      rfl
  · have hdecode : decode? address (opcode :: rest) = none := if_neg (by omega)
    unfold first
    rw [hdecode]
    exact .inr ⟨.inr (by omega), rfl⟩

section First

variable (address : UInt16) (opcode : UInt8) (rest : List UInt8)

theorem address_first : (first address opcode rest).address = address := by
  rcases first_cases address opcode rest with ⟨e, -, -, h⟩ | ⟨-, h⟩ <;> rw [h]
  rfl

theorem opcode_first : (first address opcode rest).opcode = opcode := by
  rcases first_cases address opcode rest with ⟨e, -, -, h⟩ | ⟨-, h⟩ <;> rw [h]
  rfl

/-- The first instruction and the bytes after it are the sequence. -/
theorem bytes_first_append_drop :
    (first address opcode rest).bytes ++ rest.drop (first address opcode rest).operands.length
      = opcode :: rest := by
  rcases first_cases address opcode rest with ⟨e, hencoding, hfits, h⟩ | ⟨-, h⟩
  · rw [Opcode.size_eq, Opcode.mode_of_encoding hencoding] at hfits
    have hlength : (rest.take e.mode.operandLength).length = e.mode.operandLength :=
      List.length_take_of_le (by omega)
    rw [h]
    show opcode :: (rest.take e.mode.operandLength
      ++ rest.drop (rest.take e.mode.operandLength).length) = _
    rw [hlength, List.take_append_drop]
  · rw [h]
    rfl

/-- Its size counts the opcode and the operands. -/
theorem toNat_size_first :
    (first address opcode rest).size.toNat = 1 + (first address opcode rest).operands.length
    ∧ (first address opcode rest).size.toNat ≤ 3 := by
  rcases first_cases address opcode rest with ⟨e, hencoding, hfits, h⟩ | ⟨-, h⟩
  · have hle := Opcode.size_le opcode
    have hsize : e.size = 1 + e.mode.operandLength := rfl
    rw [Opcode.size_of_encoding hencoding] at hfits hle
    have hlength : (rest.take e.mode.operandLength).length = e.mode.operandLength :=
      List.length_take_of_le (by omega)
    rw [h]
    show (UInt8.ofNat e.size).toNat = 1 + (rest.take e.mode.operandLength).length
      ∧ (UInt8.ofNat e.size).toNat ≤ 3
    rw [UInt8.toNat_ofNat', hlength]
    omega
  · rw [h]
    exact ⟨rfl, Nat.le_add_left 1 2⟩

/-- It is shown as unknown exactly if no complete instruction begins the sequence. -/
theorem mnemonic_first_eq_unknownName_iff :
    (first address opcode rest).mnemonic = Opcode.unknownName
      ↔ Opcode.encoding opcode = none ∨ rest.length + 1 < Opcode.size opcode := by
  rcases first_cases address opcode rest with ⟨e, hencoding, hfits, h⟩ | ⟨hnone, h⟩
  · rw [h, hencoding]
    refine ⟨fun hname => absurd hname (Mnemonic.name_ne_unknownName e.mnemonic), ?_⟩
    rintro (hnone | hshort)
    · cases hnone
    · omega
  · rw [h]
    exact ⟨fun _ => hnone, fun _ => rfl⟩

theorem exists_encodes_first (h : (first address opcode rest).mnemonic ≠ Opcode.unknownName) :
    ∃ e, (first address opcode rest).Encodes e := by
  rcases first_cases address opcode rest with ⟨e, hencoding, hfits, hfirst⟩ | ⟨-, hfirst⟩
  · rw [Opcode.size_eq, Opcode.mode_of_encoding hencoding] at hfits
    refine ⟨e, ?_⟩
    rw [hfirst]
    exact ⟨hencoding, rfl, rfl, List.length_take_of_le (by omega), rfl⟩
  · rw [hfirst] at h
    exact absurd rfl h

end First

/-! ## §3. The whole sweep. -/

/-- What holds of no bytes, and of bytes whenever it holds of those after their first
instruction, holds of all. -/
@[elab_as_elim]
theorem sweep_induction {P : UInt16 → List UInt8 → Prop} (nil : ∀ address, P address [])
    (cons : ∀ address opcode rest,
      P (first address opcode rest).next
        (rest.drop (first address opcode rest).operands.length) →
      P address (opcode :: rest))
    (address : UInt16) (bytes : List UInt8) : P address bytes :=
  sweepOnto.induct (fun _ address bytes => P address bytes) (fun _ => nil)
    (fun _ => cons) [] address bytes

/-- Put together again, the instructions are the bytes. -/
theorem flatMap_bytes_sweep (address : UInt16) (bytes : List UInt8) :
    (sweep address bytes).flatMap Instruction.bytes = bytes := by
  induction address, bytes using sweep_induction with
  | nil address => rw [sweep_nil, List.flatMap_nil]
  | cons address opcode rest ih =>
    rw [sweep_cons, List.flatMap_cons, ih, bytes_first_append_drop]

theorem address_of_mem_head?_sweep (address : UInt16) (bytes : List UInt8) :
    ∀ i ∈ (sweep address bytes).head?, i.address = address := by
  cases bytes with
  | nil =>
    rw [sweep_nil]
    exact fun i hi => nomatch hi
  | cons opcode rest =>
    rw [sweep_cons]
    rintro i ⟨⟩
    exact address_first address opcode rest

/-- Each instruction begins where the one before has ended. -/
theorem isChain_sweep (address : UInt16) (bytes : List UInt8) :
    (sweep address bytes).IsChain fun i j => j.address = i.next := by
  induction address, bytes using sweep_induction with
  | nil address =>
    rw [sweep_nil]
    exact .nil
  | cons address opcode rest ih =>
    rw [sweep_cons, List.isChain_cons]
    exact ⟨address_of_mem_head?_sweep _ _, ih⟩

/-- An instruction of a sweep is the first of the bytes that those before it leave. -/
theorem sweep_eq_append {address : UInt16} {bytes : List UInt8} {before after : List Instruction}
    {i : Instruction} (h : sweep address bytes = before ++ i :: after) :
    ∃ rest, bytes.drop (before.flatMap Instruction.bytes).length = i.opcode :: rest
      ∧ i = first i.address i.opcode rest := by
  -- Induction on the instructions before; the bytes of the first of them are dropped first.
  induction before generalizing address bytes with
  | nil =>
    cases bytes with
    | nil => rw [sweep_nil] at h; cases h
    | cons opcode rest =>
      rw [sweep_cons, List.nil_append] at h
      obtain ⟨hfirst, -⟩ := List.cons.inj h
      refine ⟨rest, ?_⟩
      rw [← hfirst, address_first, opcode_first]
      exact ⟨rfl, rfl⟩
  | cons j before ih =>
    cases bytes with
    | nil => rw [sweep_nil] at h; cases h
    | cons opcode rest =>
      rw [sweep_cons, List.cons_append] at h
      obtain ⟨rfl, htail⟩ := List.cons.inj h
      obtain ⟨later, hdrop, hi⟩ := ih htail
      refine ⟨later, ?_, hi⟩
      rw [List.flatMap_cons, List.length_append, ← List.drop_drop, ← hdrop]
      rfl

/-- A complete instruction is what a sweep finds first, and it goes on behind it. -/
theorem sweep_readBytes_of_complete {memory : Memory} {address : UInt16} {length : Nat}
    (complete : Opcode.size (memory.read address) ≤ length) :
    sweep address (memory.readBytes address length)
      = memory.instructionAt address
        :: sweep (address + UInt16.ofNat (Opcode.size (memory.read address)))
            (memory.readBytes (address + UInt16.ofNat (Opcode.size (memory.read address)))
              (length - Opcode.size (memory.read address))) := by
  have hsize := Opcode.size_eq (memory.read address)
  obtain ⟨count, rfl⟩ : ∃ count, length = count + 1 := ⟨length - 1, by omega⟩
  have hfirst : first address (memory.read address) (memory.readBytes (address + 1) count)
      = memory.instructionAt address := by
    unfold first
    rw [← Memory.readBytes_succ, decode?_readBytes, if_pos complete, Option.getD_some]
  have hnext : (memory.instructionAt address).next
      = address + UInt16.ofNat (Opcode.size (memory.read address)) := by
    show address + (memory.instructionAt address).size.toUInt16 = _
    rw [← toNat_size_instructionAt memory address]
    exact congrArg (address + ·) (UInt16.toNat_inj.mp (by simp))
  have hoperands : (memory.instructionAt address).operands.length
      = (Opcode.mode (memory.read address)).operandLength := Memory.length_readBytes _ _ _
  rw [Memory.readBytes_succ, sweep_cons, hfirst, hnext, hoperands, Memory.drop_readBytes, hsize,
    Nat.add_comm 1, Memory.add_ofNat_succ, Nat.add_sub_add_right]

/-- **A sweep loses nothing.**  The bytes of its instructions are the bytes swept, and the
addresses follow from the sizes.  An instruction is shown as unknown exactly if its opcode
stands for nothing or too few bytes were left for it; of any other one, the mnemonic is
read and the opcode found from what is shown. -/
theorem sweep_lossless (address : UInt16) (bytes : List UInt8) :
    (sweep address bytes).flatMap (fun i => i.opcode :: i.operands) = bytes
    ∧ (∀ i ∈ (sweep address bytes).head?, i.address = address)
    ∧ (sweep address bytes).IsChain (fun i j => j.address = i.address + i.size.toUInt16)
    ∧ ∀ before i after, sweep address bytes = before ++ i :: after →
        let remaining := bytes.length - (before.flatMap fun i => i.opcode :: i.operands).length
        i.size.toNat = 1 + i.operands.length ∧ 1 ≤ i.size.toNat ∧ i.size.toNat ≤ 3
        ∧ (i.mnemonic = "???"
            ↔ Opcode.encoding i.opcode = none ∨ remaining < Opcode.size i.opcode)
        ∧ (i.mnemonic ≠ "???" → ∃ mnemonic, Mnemonic.parse i.mnemonic = .ok mnemonic
            ∧ Encoding.opcode? ⟨mnemonic, i.mode⟩ = some i.opcode) := by
  refine ⟨flatMap_bytes_sweep address bytes, address_of_mem_head?_sweep address bytes,
    isChain_sweep address bytes, ?_⟩
  intro before i after h remaining
  obtain ⟨rest, hdrop, hfirst⟩ := sweep_eq_append h
  have hremaining : remaining = rest.length + 1 := by
    have hlength := congrArg List.length hdrop
    rwa [List.length_drop, List.length_cons] at hlength
  obtain ⟨hsize, hle⟩ := toNat_size_first i.address i.opcode rest
  have hunknown := mnemonic_first_eq_unknownName_iff i.address i.opcode rest
  have hencodes := exists_encodes_first i.address i.opcode rest
  rw [← hfirst] at hsize hle hunknown hencodes
  refine ⟨hsize, by omega, hle, ?_, ?_⟩
  · rw [hremaining]
    exact hunknown
  · intro hknown
    obtain ⟨e, he⟩ := hencodes hknown
    refine ⟨e.mnemonic, ?_, ?_⟩
    · rw [he.mnemonic, Mnemonic.parse_name]
    · rw [he.mode]
      exact opcode?_of_encoding he.encoding

/-- A branch over the top of memory, an opcode that stands for nothing, and a load that is
cut off. -/
def cutOff : List UInt8 := [0xD0, 0xFC, 0x02, 0xAD, 0x34]

theorem sweep_cutOff :
    sweep 0xFFFF cutOff
      = [⟨0xFFFF, 0xD0, "BNE", .relative, [0xFC], 2⟩, ⟨0x0001, 0x02, "???", .implicit, [], 1⟩,
        ⟨0x0002, 0xAD, "???", .implicit, [], 1⟩, ⟨0x0003, 0x34, "???", .implicit, [], 1⟩] := by
  decide +kernel

/-- The opcode of the branch is found again; the load is unknown, as two bytes are left
for three. -/
theorem sweep_lossless_cutOff :
    (∃ after, sweep 0xFFFF cutOff = [] ++ ⟨0xFFFF, 0xD0, "BNE", .relative, [0xFC], 2⟩ :: after)
    ∧ (∃ mnemonic, Mnemonic.parse "BNE" = .ok mnemonic
        ∧ Encoding.opcode? ⟨mnemonic, .relative⟩ = some 0xD0)
    ∧ (Opcode.encoding 0xAD = none ∨ 2 < Opcode.size 0xAD) := by
  obtain ⟨-, -, -, hentries⟩ := sweep_lossless 0xFFFF cutOff
  have hbranch := hentries [] _ _ sweep_cutOff
  have hload := hentries [⟨0xFFFF, 0xD0, "BNE", .relative, [0xFC], 2⟩,
    ⟨0x0001, 0x02, "???", .implicit, [], 1⟩] _ _ sweep_cutOff
  exact ⟨⟨_, sweep_cutOff⟩, hbranch.2.2.2.2 (by decide), hload.2.2.2.1.mp rfl⟩

end Instruction

end Mos6502
