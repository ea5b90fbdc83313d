/-
  Mos6502.Proofs.Resolving — where an operand leads, in numbers

  Addresses are worked out from operand bytes in words and bytes that wrap each in
  its own way: sums with an index stay in page zero or go round memory, pointers in
  page zero have their high byte in page zero, and a branch counts from the byte after its
  operand.  Here each mode is given the number of its address by a formula over
  natural numbers, with every wrap written as a remainder, and the fetching of operands is
  settled with it: what is answered, where the program counter stands, and that nothing
  else has changed.

  Main statements:
    * `toNat_operandAddress` — the address that is worked out has the number of its formula
    * `resolver_contract`    — how operands are resolved in all modes, and how that fails
-/
import Mos6502.Proofs.LittleEndian
import Mos6502.Proofs.Outcome
import Mos6502.Proofs.Session

namespace Mos6502

/-! ## §1. Memory by numbers. -/

namespace Memory

/-- The byte at an address that is given by its number. -/
def byteAt (memory : Memory) (place : Nat) : Nat := (memory.read (UInt16.ofNat place)).toNat

/-- The word whose low and high byte are at two addresses that are given by their numbers. -/
def wordAt (memory : Memory) (low high : Nat) : Nat :=
  memory.byteAt low + 256 * memory.byteAt high

theorem byteAt_toNat (memory : Memory) (address : UInt16) :
    memory.byteAt address.toNat = (memory.read address).toNat := by
  unfold byteAt
  rw [UInt16.ofNat_toNat]

theorem toNat_readWord (memory : Memory) (low high : UInt16) :
    (memory.readWord low high).toNat = memory.wordAt low.toNat high.toNat := by
  unfold readWord wordAt
  rw [toNat_word, byteAt_toNat, byteAt_toNat, Nat.add_comm]

/-- A word at an address goes round memory. -/
theorem toNat_readWord_succ (memory : Memory) (address : UInt16) :
    (memory.readWord address (address + 1)).toNat
      = memory.wordAt address.toNat ((address.toNat + 1) % 65536) := by
  rw [toNat_readWord, UInt16.toNat_add, UInt16.toNat_one]

/-- A word in page zero goes round the page. -/
theorem toNat_zeroPageWord (memory : Memory) (pointer : UInt8) :
    (memory.zeroPageWord pointer).toNat
      = memory.wordAt pointer.toNat ((pointer.toNat + 1) % 256) := by
  unfold zeroPageWord
  rw [toNat_readWord, UInt8.toNat_toUInt16, UInt8.toNat_toUInt16, UInt8.toNat_add,
    UInt8.toNat_one]

end Memory

/-- A signed byte moves an address forward or back, round memory at both ends. -/
theorem toNat_add_signExtend (address : UInt16) (offset : UInt8) :
    (address + signExtend offset).toNat
      = ((address.toNat + signed [offset]) % 65536).toNat := by
  have ho := offset.toNat_lt
  rw [UInt16.toNat_add, toNat_signExtend, signed_singleton]
  split <;> omega

/-! ## §2. The modes by numbers. -/

namespace Machine

open ByteStream

/-- The number of the address that the operand bytes at the program counter lead to, in the
modes where they lead to one. -/
def location (machine : Machine) (mode : AddressingMode) : Nat :=
  let pc := machine.registers.pc.toNat
  let x := machine.registers.x.toNat
  let y := machine.registers.y.toNat
  let byteAt := machine.memory.byteAt
  let wordAt := machine.memory.wordAt
  let byte := byteAt pc
  let operand := wordAt pc ((pc + 1) % 65536)
  match mode with
  | .implicit | .accumulator | .immediate => 0
  | .zeroPage => byte
  | .zeroPageX => (byte + x) % 256
  | .zeroPageY => (byte + y) % 256
  | .absolute => operand
  | .absoluteX => (operand + x) % 65536
  | .absoluteY => (operand + y) % 65536
  | .indirect => wordAt operand ((operand + 1) % 65536)
  | .indirectX => wordAt ((byte + x) % 256) (((byte + x) % 256 + 1) % 256)
  | .indirectY => (wordAt byte ((byte + 1) % 256) + y) % 65536
  | .relative =>
    (((pc + 1 : Nat) + signed [machine.memory.read machine.registers.pc]) % 65536).toNat

/-- The formula of every mode gives the number of the address that is worked out. -/
theorem toNat_operandAddress (machine : Machine) (mode : AddressingMode) :
    (machine.operandAddress mode).toNat = machine.location mode := by
  have hbyte := machine.memory.byteAt_toNat machine.registers.pc
  have hoperand := machine.memory.toNat_readWord_succ machine.registers.pc
  have hlow : lowByte (machine.memory.read machine.registers.pc).toUInt16
      = machine.memory.read machine.registers.pc := UInt8.toUInt8_toUInt16 _
  unfold operandAddress operandWord location
  cases mode with
  | implicit | accumulator | immediate => rfl
  | zeroPage =>
    simp only [AddressingMode.locate, AddressingMode.operandLength, UInt8.toNat_toUInt16, hbyte]
  | zeroPageX | zeroPageY =>
    simp only [AddressingMode.locate, AddressingMode.operandLength, hlow, UInt8.toNat_toUInt16,
      UInt8.toNat_add, hbyte]
    rfl
  | absolute => exact hoperand
  | absoluteX | absoluteY =>
    simp only [AddressingMode.locate, AddressingMode.operandLength, UInt16.toNat_add,
      UInt8.toNat_toUInt16, hoperand]
    rfl
  | indirect =>
    simp only [AddressingMode.locate, AddressingMode.operandLength, Memory.toNat_readWord_succ]
  | indirectX =>
    simp only [AddressingMode.locate, AddressingMode.operandLength, hlow,
      Memory.toNat_zeroPageWord, UInt8.toNat_add, hbyte]
    rfl
  | indirectY =>
    simp only [AddressingMode.locate, AddressingMode.operandLength, hlow, UInt16.toNat_add,
      UInt8.toNat_toUInt16, Memory.toNat_zeroPageWord, hbyte]
    rfl
  | relative =>
    have hpc : (advance machine AddressingMode.relative.operandLength).registers.pc.toNat
        = (machine.registers.pc.toNat + 1) % 65536 := UInt16.toNat_add _ _
    simp only [AddressingMode.locate, AddressingMode.operandLength, hlow] at hpc ⊢
    rw [toNat_add_signExtend, hpc]
    omega

end Machine

/-! ## §3. Fetches in numbers. -/

namespace AddressingMode

/-- The modes that lead to no address. -/
def unlocated : List AddressingMode := [implicit, accumulator, immediate]

theorem mem_unlocated_iff (mode : AddressingMode) : mode ∈ unlocated ↔ mode.locate = none := by
  rw [locate_eq_none_iff]
  simp [unlocated]

theorem operandLength_pos {mode : AddressingMode} (h : mode ∉ unlocated) :
    0 < mode.operandLength := by
  revert h
  cases mode <;> decide

end AddressingMode

namespace Machine

open ByteStream

section Delivered

variable {machine : Machine} {α : Type} {x : Exec α} {count : Nat} {value : Machine → α}
  (bound : machine.window.limit ≤ 0xFFFF) (hx : Delivers x count value) (pos : 0 < count)

include bound hx pos

/-- Bytes that all lie in the window are fetched, and the program counter goes over them. -/
theorem ok_of_delivers (inside : machine.registers.pc.toNat + count ≤ machine.window.limit) :
    ∃ next, x machine = .ok (value machine) (machine.goto next)
      ∧ next.toNat = machine.registers.pc.toNat + count := by
  have hreach : InReach machine count := (inReach_iff_of_le bound pos).mpr inside
  refine ⟨machine.registers.pc + UInt16.ofNat count, ?_, toNat_cursor_advance hreach bound⟩
  rw [hx, delivery_of_inReach hreach]
  rfl

/-- If some of them do not, fetching fails at the end of the window or beyond. -/
theorem error_of_delivers (outside : machine.window.limit < machine.registers.pc.toNat + count) :
    ∃ place, x machine = .error (.pastEnd place) (machine.goto place)
      ∧ place.toNat = max machine.registers.pc.toNat machine.window.limit := by
  have hreach : ¬ InReach machine count := by
    rw [inReach_iff_of_le bound pos]
    exact Nat.not_le_of_lt outside
  refine ⟨edge machine, ?_, toNat_edge bound⟩
  rw [hx, delivery_of_not_inReach hreach]
  rfl

end Delivered

/-! ## §4. Resolving. -/

/-- **How operands are resolved.**  A mode that leads to no address is refused.  In every other
mode the operand bytes are fetched if they all lie in the window, and the answer is the address
that the formula of the mode names; if not, fetching fails at the end of the window, or where
the program counter stands beyond it.  Nothing but the program counter changes.  A value is the
next byte in the immediate mode and the byte at the address in the others. -/
theorem resolver_contract {machine : Machine} (bound : machine.window.limit ≤ 0xFFFF)
    (mnemonic : Mnemonic) (mode : AddressingMode) :
    let pc := machine.registers.pc.toNat
    let limit := machine.window.limit
    (mode ∈ AddressingMode.unlocated →
      effectiveAddress mnemonic mode machine = .error (.unsupportedMode mnemonic mode) machine)
    ∧ (mode ∉ AddressingMode.unlocated →
      (pc + mode.operandLength ≤ limit → ∃ address next,
        effectiveAddress mnemonic mode machine = .ok address (machine.goto next)
        ∧ address.toNat = machine.location mode ∧ next.toNat = pc + mode.operandLength)
      ∧ (limit < pc + mode.operandLength → ∃ place,
        effectiveAddress mnemonic mode machine = .error (.pastEnd place) (machine.goto place)
        ∧ place.toNat = max pc limit))
    ∧ (mode = .immediate →
      (pc + 1 ≤ limit → ∃ value next,
        readOperand mnemonic mode machine = .ok value (machine.goto next)
        ∧ value.toNat = machine.memory.byteAt pc ∧ next.toNat = pc + 1)
      ∧ (limit < pc + 1 → ∃ place,
        readOperand mnemonic mode machine = .error (.pastEnd place) (machine.goto place)
        ∧ place.toNat = max pc limit))
    ∧ (mode ≠ .immediate →
      (∀ address next, effectiveAddress mnemonic mode machine = .ok address next →
        readOperand mnemonic mode machine = .ok (machine.memory.read address) next)
      ∧ (∀ fault failed, effectiveAddress mnemonic mode machine = .error fault failed →
        readOperand mnemonic mode machine = .error fault failed)) := by
  intro pc limit
  refine ⟨?refused, ?located, ?immediate, ?value⟩
  case refused =>
    intro hmode
    exact effectiveAddress_of_locate_eq_none mnemonic
      ((AddressingMode.mem_unlocated_iff mode).mp hmode) machine
  case located =>
    intro hmode
    have hlocate : mode.locate.isSome :=
      Option.isSome_iff_ne_none.mpr (mt (AddressingMode.mem_unlocated_iff mode).mpr hmode)
    have hdelivers := delivers_effectiveAddress mnemonic hlocate
    have hpos := AddressingMode.operandLength_pos hmode
    refine ⟨?_, error_of_delivers bound hdelivers hpos⟩
    intro inside
    obtain ⟨next, hok, hnext⟩ := ok_of_delivers bound hdelivers hpos inside
    exact ⟨_, next, hok, toNat_operandAddress machine mode, hnext⟩
  case immediate =>
    rintro rfl
    have hdelivers := @delivers_readOperand mnemonic .immediate (.inl rfl)
    refine ⟨?_, error_of_delivers bound hdelivers Nat.one_pos⟩
    intro inside
    obtain ⟨next, hok, hnext⟩ := ok_of_delivers bound hdelivers Nat.one_pos inside
    exact ⟨_, next, hok, (machine.memory.byteAt_toNat machine.registers.pc).symm, hnext⟩
  case value =>
    intro himm
    refine ⟨?_, fun fault failed h => readOperand_of_error himm h⟩
    intro address next h
    have hmemory : next.memory = machine.memory := by
      obtain ⟨place, hplace⟩ := leave_effectiveAddress mnemonic mode machine
      rw [leave_of_ok h] at hplace
      rw [hplace]
      rfl
    rw [readOperand_of_effectiveAddress himm h, hmemory]

/-- One operand byte, which with X leads to the last place of page zero, and a word there whose
high byte is at the first. -/
def pointerRoundPageZero : Machine :=
  new.serve [.loadProgram [0xFE] 0x0200, .write 0x00FF 0x34, .write 0x0000 0x12,
    .update { x := some 0x01 }]

/-- The one byte is enough for the pointer, but not for a word. -/
theorem resolver_contract_pointerRoundPageZero :
    pointerRoundPageZero.window.limit ≤ 0xFFFF
    ∧ (∃ address next, effectiveAddress .lda .indirectX pointerRoundPageZero
          = .ok address (pointerRoundPageZero.goto next)
        ∧ address.toNat = 0x1234 ∧ next.toNat = 0x0201)
    ∧ ∃ place, effectiveAddress .lda .absolute pointerRoundPageZero
          = .error (.pastEnd place) (pointerRoundPageZero.goto place)
        ∧ place.toNat = 0x0201 := by
  have bound : pointerRoundPageZero.window.limit ≤ 0xFFFF := by decide +kernel
  have hlocation : pointerRoundPageZero.location .indirectX = 0x1234 := by decide +kernel
  obtain ⟨-, hindirect, -⟩ := resolver_contract bound .lda .indirectX
  obtain ⟨address, next, hok, haddress, hnext⟩ :=
    (hindirect (by decide)).1 (by decide +kernel)
  obtain ⟨-, habsolute, -⟩ := resolver_contract bound .lda .absolute
  obtain ⟨place, herror, hplace⟩ := (habsolute (by decide)).2 (by decide +kernel)
  exact ⟨bound, ⟨address, next, hok, haddress.trans hlocation, hnext.trans (by decide +kernel)⟩,
    place, herror, hplace.trans (by decide +kernel)⟩

end Machine

end Mos6502
