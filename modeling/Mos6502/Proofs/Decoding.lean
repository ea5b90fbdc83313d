/-
  Mos6502.Proofs.Decoding — instructions decoded where they stand in memory

  From a block of memory an instruction is decoded exactly if the block is as long as
  the opcode matrix says; what is decoded then does not depend on what follows.
  Instructions whose operand is an address to go to are shown with the four
  digits of that address, and no text shows two addresses.

  Main statements:
    * `decode?_readBytes`   — decoding at the beginning of a block
    * `shows_of_relative`, `shows_of_absolute` — which address is shown
    * `Shows.iff_eq`        — the address that is shown is the only one
-/
import Mos6502.Disassembly.Instruction
import Mos6502.Memory.Basic

namespace Mos6502

/-! ## §1. Blocks. -/

namespace Memory

/-- Place i + 1 from an address is place i from the next one. -/
theorem add_ofNat_succ (address : UInt16) (i : Nat) :
    address + UInt16.ofNat (i + 1) = address + 1 + UInt16.ofNat i := by
  rw [UInt16.ofNat_add, UInt16.add_assoc, UInt16.add_comm (UInt16.ofNat i)]
  rfl

theorem readBytes_succ (memory : Memory) (address : UInt16) (length : Nat) :
    memory.readBytes address (length + 1)
      = memory.read address :: memory.readBytes (address + 1) length := by
  unfold readBytes
  rw [List.range_succ_eq_map, List.map_cons, List.map_map]
  congr 1
  · exact congrArg memory.read (UInt16.add_zero address)
  · apply List.map_congr_left
    intro i _
    exact congrArg memory.read (add_ofNat_succ address i)

theorem take_readBytes (memory : Memory) (address : UInt16) {count length : Nat}
    (h : count ≤ length) :
    (memory.readBytes address length).take count = memory.readBytes address count := by
  unfold readBytes
  rw [← List.map_take, List.take_range, Nat.min_eq_left h]

theorem drop_readBytes (memory : Memory) (address : UInt16) (count length : Nat) :
    (memory.readBytes address length).drop count
      = memory.readBytes (address + UInt16.ofNat count) (length - count) := by
  induction count generalizing address length with
  | zero =>
    rw [List.drop_zero, Nat.sub_zero]
    exact congrArg (memory.readBytes · length) (UInt16.add_zero address).symm
  | succ count ih =>
    cases length with
    | zero =>
      rw [Nat.zero_sub]
      rfl
    | succ length =>
      rw [readBytes_succ, List.drop_succ_cons, ih, add_ofNat_succ, Nat.add_sub_add_right]

end Memory

/-! ## §2. Decoding. -/

namespace Opcode

theorem size_eq (opcode : UInt8) : size opcode = 1 + (mode opcode).operandLength := by
  unfold size mode
  cases encoding opcode <;> rfl

theorem size_of_encoding_eq_none {opcode : UInt8} (h : encoding opcode = none) :
    size opcode = 1 := by
  unfold size
  rw [h]

theorem size_pos (opcode : UInt8) : 0 < size opcode := by
  rw [size_eq]
  omega

theorem size_le (opcode : UInt8) : size opcode ≤ 3 := by
  have hlength : (mode opcode).operandLength ≤ 2 := by
    cases mode opcode <;> decide
  rw [size_eq]
  omega

end Opcode

/-- No instruction is shown like an opcode that stands for none. -/
theorem Mnemonic.name_ne_unknownName (mnemonic : Mnemonic) :
    mnemonic.name ≠ Opcode.unknownName := by
  cases mnemonic <;> decide

/-- The instruction whose bytes stand in memory from an address on. -/
def Memory.instructionAt (memory : Memory) (address : UInt16) : Instruction :=
  let opcode := memory.read address
  { address, opcode, mnemonic := Opcode.name opcode, mode := Opcode.mode opcode
    operands := memory.readBytes (address + 1) (Opcode.mode opcode).operandLength
    size := UInt8.ofNat (Opcode.size opcode) }

namespace Instruction

/-- From the bytes at an address the instruction there is decoded, provided that they are
as many as its opcode asks for. -/
theorem decode?_readBytes (memory : Memory) (address : UInt16) (length : Nat) :
    decode? address (memory.readBytes address length)
      = if Opcode.size (memory.read address) ≤ length then some (memory.instructionAt address)
        else none := by
  have hsize := Opcode.size_eq (memory.read address)
  cases length with
  | zero =>
    rw [if_neg (by omega)]
    rfl
  | succ length =>
    rw [Memory.readBytes_succ]
    unfold decode?
    -- The block is long enough exactly if cutting out the operands cuts nothing short.
    by_cases hfits : Opcode.size (memory.read address) ≤ length + 1
    · have htake := memory.take_readBytes (address + 1)
        (show (Opcode.mode (memory.read address)).operandLength ≤ length by omega)
      rw [if_pos hfits]
      simp only [htake, Memory.length_readBytes, if_true]
      rfl
    · rw [if_neg hfits]
      apply if_neg
      rw [List.length_take, Memory.length_readBytes]
      omega

/-- The opcode and the bytes it asks for are the instruction. -/
theorem decode?_cons (memory : Memory) (address : UInt16) :
    decode? address (memory.read address
        :: memory.readBytes (address + 1) (Opcode.mode (memory.read address)).operandLength)
      = some (memory.instructionAt address) := by
  have hsize := Opcode.size_eq (memory.read address)
  rw [← Memory.readBytes_succ, decode?_readBytes, if_pos (by omega)]

theorem toNat_size_instructionAt (memory : Memory) (address : UInt16) :
    (memory.instructionAt address).size.toNat = Opcode.size (memory.read address) := by
  have hle := Opcode.size_le (memory.read address)
  show (UInt8.ofNat _).toNat = _
  rw [UInt8.toNat_ofNat']
  omega

/-! ## §3. Addresses in the text. -/

/-- The text is the mnemonic followed by four hexadecimal digits, and these stand for the
address. -/
def Shows (instruction : Instruction) (address : UInt16) : Prop :=
  ∃ digits : List Char, digits.length = 4
    ∧ hexNumber? digits = some address.toNat
    ∧ instruction.text = instruction.mnemonic ++ " $" ++ String.ofList digits

section Fields

variable {instruction : Instruction} {address other : UInt16}

theorem shows_of_text (h : instruction.text = instruction.mnemonic ++ " $" ++ hexWord address) :
    instruction.Shows address :=
  ⟨(hexWord address).toList, length_hexWord address, hexNumber?_hexWord address,
    by rw [String.ofList_toList]; exact h⟩

/-- The digits of the text are known, and they stand for one number. -/
theorem Shows.unique (h : instruction.Shows address) (hother : instruction.Shows other) :
    address = other := by
  obtain ⟨digits, -, hnumber, htext⟩ := h
  obtain ⟨digits', -, hnumber', htext'⟩ := hother
  have hdigits : digits = digits' :=
    String.ofList_inj.mp ((String.append_right_inj _).mp (htext.symm.trans htext'))
  rw [hdigits, hnumber'] at hnumber
  exact UInt16.toNat_inj.mp (Option.some.inj hnumber).symm

theorem Shows.iff_eq (h : instruction.Shows address) (other : UInt16) :
    instruction.Shows other ↔ other = address := by
  constructor
  · intro hother
    exact hother.unique h
  · rintro rfl
    exact h

theorem shows_of_offset {offset : UInt8} (hmode : instruction.mode = .relative)
    (hoperands : instruction.operands = [offset]) :
    instruction.Shows (instruction.next + signExtend offset) := by
  apply shows_of_text
  unfold text operandText
  rw [hmode, hoperands, String.append_assoc]
  rfl

theorem shows_of_word {low high : UInt8} (hmode : instruction.mode = .absolute)
    (hoperands : instruction.operands = [low, high]) : instruction.Shows (word low high) := by
  apply shows_of_text
  unfold text operandText
  rw [hmode, hoperands, String.append_assoc]
  rfl

end Fields

/-- A relative operand is shown as the address it leads to, counted from the next
instruction. -/
theorem shows_of_relative {memory : Memory} {address : UInt16}
    (h : Opcode.mode (memory.read address) = .relative) :
    (memory.instructionAt address).Shows
      (address + 2 + signExtend (memory.read (address + 1))) := by
  have hoperands : (memory.instructionAt address).operands = [memory.read (address + 1)] := by
    show memory.readBytes (address + 1) (Opcode.mode (memory.read address)).operandLength = _
    rw [h]
    exact memory.readBytes_succ (address + 1) 0
  have hnext : (memory.instructionAt address).next = address + 2 := by
    show address + (UInt8.ofNat (Opcode.size (memory.read address))).toUInt16 = _
    rw [Opcode.size_eq, h]
    rfl
  rw [← hnext]
  exact shows_of_offset h hoperands

/-- An absolute operand is shown as it is. -/
theorem shows_of_absolute {memory : Memory} {address : UInt16}
    (h : Opcode.mode (memory.read address) = .absolute) :
    (memory.instructionAt address).Shows
      (memory.readWord (address + 1) (address + 1 + 1)) := by
  have hoperands : (memory.instructionAt address).operands
      = [memory.read (address + 1), memory.read (address + 1 + 1)] := by
    show memory.readBytes (address + 1) (Opcode.mode (memory.read address)).operandLength = _
    rw [h]
    show memory.readBytes (address + 1) 2 = _
    rw [Memory.readBytes_succ, Memory.readBytes_succ]
    rfl
  exact shows_of_word h hoperands

end Instruction

end Mos6502
