/-
  Mos6502.Proofs.Fetching — computations that fetch a fixed number of bytes

  Everything that reads operands is put together from single fetches.  What all
  of it has in common is said once: a computation *delivers* when it needs a fixed
  number of bytes, hands out a value made from the state before it, and moves the
  cursor over those bytes; if they are not all there it stops at the edge of what
  can be fetched and has done nothing else.  Delivering computations in sequence
  deliver again, so that the fetches of words and of operands need no reasoning
  about cursors of their own.

  Main statements:
    * `Delivers.bind`               — fetches in sequence
    * `delivers_nextByte`, `delivers_nextWord`
    * `delivers_effectiveAddress`, `delivers_readOperand` — operands
-/
import Mos6502.ByteStream
import Mos6502.Machine.Operand

namespace Mos6502

namespace ByteStream

/-! ## §1. Cursors. -/

/-- A stream in which moving the cursor does nothing else. -/
class LawfulByteStream (σ : Type) [ByteStream σ] : Prop where
  cursor_seek : ∀ (s : σ) (address : UInt16), cursor (seek s address) = address
  memory_seek : ∀ (s : σ) (address : UInt16), memory (seek s address) = memory s
  limit_seek : ∀ (s : σ) (address : UInt16), limit (seek s address) = limit s
  seek_seek : ∀ (s : σ) (address other : UInt16), seek (seek s address) other = seek s other
  seek_cursor : ∀ s : σ, seek s (cursor s) = s

attribute [simp] LawfulByteStream.cursor_seek LawfulByteStream.memory_seek
  LawfulByteStream.limit_seek LawfulByteStream.seek_seek LawfulByteStream.seek_cursor

variable {σ : Type} [ByteStream σ]

/-- Whether `count` bytes can be fetched.  A limit above the last address is never met. -/
def InReach (s : σ) (count : Nat) : Prop :=
  count = 0 ∨ (cursor s).toNat + count ≤ limit s ∨ 0xFFFF < limit s

instance (s : σ) (count : Nat) : Decidable (InReach s count) :=
  inferInstanceAs (Decidable (_ ∨ _ ∨ _))

/-- Where fetching comes to its end: at the limit, or at the cursor if that is beyond. -/
def edge (s : σ) : UInt16 := UInt16.ofNat (max (cursor s).toNat (limit s))

/-- Moves the cursor over a number of bytes. -/
def advance (s : σ) (count : Nat) : σ := seek s (cursor s + UInt16.ofNat count)

theorem inReach_zero (s : σ) : InReach s 0 := Or.inl rfl

theorem inReach_one_iff (s : σ) : InReach s 1 ↔ atEnd s = false := by
  have hc := (cursor s).toNat_lt
  simp only [InReach, atEnd, decide_eq_false_iff_not]
  omega

theorem atEnd_of_not_inReach {s : σ} (h : ¬ InReach s 1) : atEnd s = true := by
  rw [inReach_one_iff] at h
  simpa using h

theorem inReach_of_add {s : σ} {m n : Nat} (h : InReach s (m + n)) : InReach s m := by
  simp only [InReach] at h ⊢
  omega

/-- With less than all bytes in reach the limit is an address. -/
theorem limit_le_of_not_inReach {s : σ} {count : Nat} (h : ¬ InReach s count) :
    limit s ≤ 0xFFFF := by
  simp only [InReach, not_or] at h
  omega

theorem toNat_edge {s : σ} (h : limit s ≤ 0xFFFF) :
    (edge s).toNat = max (cursor s).toNat (limit s) := by
  have hc := (cursor s).toNat_lt
  rw [edge, UInt16.toNat_ofNat']
  omega

/-! ## §2. Moving on. -/

section Lawful

variable [LawfulByteStream σ]

@[simp] theorem cursor_advance (s : σ) (count : Nat) :
    cursor (advance s count) = cursor s + UInt16.ofNat count := by
  simp [advance]

@[simp] theorem memory_advance (s : σ) (count : Nat) : memory (advance s count) = memory s := by
  simp [advance]

@[simp] theorem limit_advance (s : σ) (count : Nat) : limit (advance s count) = limit s := by
  simp [advance]

@[simp] theorem advance_zero (s : σ) : advance s 0 = s := by
  simp [advance]

@[simp] theorem seek_advance (s : σ) (count : Nat) (address : UInt16) :
    seek (advance s count) address = seek s address := by
  simp [advance]

theorem advance_advance (s : σ) (m n : Nat) :
    advance (advance s m) n = advance s (m + n) := by
  simp [advance, UInt16.ofNat_add, UInt16.add_assoc]

/-- Inside the window the cursor does not go round memory. -/
theorem toNat_cursor_advance {s : σ} {count : Nat} (h : InReach s count)
    (bound : limit s ≤ 0xFFFF) :
    (cursor (advance s count)).toNat = (cursor s).toNat + count := by
  have hc := (cursor s).toNat_lt
  rw [cursor_advance, UInt16.toNat_add, UInt16.toNat_ofNat']
  simp only [InReach] at h
  omega

theorem inReach_advance_iff {s : σ} {m n : Nat} (h : InReach s m) :
    InReach (advance s m) n ↔ InReach s (m + n) := by
  by_cases bound : limit s ≤ 0xFFFF
  · have hcursor := toNat_cursor_advance h bound
    simp only [InReach, limit_advance, hcursor] at h ⊢
    omega
  · simp only [InReach, limit_advance]
    omega

theorem edge_advance {s : σ} {m n : Nat} (hm : InReach s m) (hn : ¬ InReach s (m + n)) :
    edge (advance s m) = edge s := by
  have bound := limit_le_of_not_inReach hn
  apply UInt16.toNat_inj.mp
  rw [toNat_edge (by simpa using bound), toNat_edge bound, limit_advance,
    toNat_cursor_advance hm bound]
  simp only [InReach] at hm hn
  omega

end Lawful

/-! ## §3. Delivering. -/

variable {α β : Type}

/-- The result of a computation that needs `count` bytes and then does `done`: without
them it fails at the edge, where the cursor is left. -/
def delivery (s : σ) (count : Nat) (done : EStateM.Result Fault σ α) :
    EStateM.Result Fault σ α :=
  if InReach s count then done else .error (.pastEnd (edge s)) (seek s (edge s))

/-- The computation needs `count` bytes, moves the cursor over them, and hands out a
value that is settled by the state before. -/
def Delivers (x : Fetch σ α) (count : Nat) (value : σ → α) : Prop :=
  ∀ s, x s = delivery s count (.ok (value s) (advance s count))

theorem delivery_of_inReach {s : σ} {count : Nat} (h : InReach s count)
    (done : EStateM.Result Fault σ α) : delivery s count done = done :=
  if_pos h

theorem delivery_of_not_inReach {s : σ} {count : Nat} (h : ¬ InReach s count)
    (done : EStateM.Result Fault σ α) :
    delivery s count done = .error (.pastEnd (edge s)) (seek s (edge s)) :=
  if_neg h

omit [ByteStream σ] in
theorem bind_of_ok {x : Fetch σ α} {s next : σ} {value : α} (hx : x s = .ok value next)
    (g : α → Fetch σ β) : (x >>= g) s = g value next := by
  show EStateM.bind x g s = _
  unfold EStateM.bind
  rw [hx]

omit [ByteStream σ] in
theorem bind_of_error {x : Fetch σ α} {s failed : σ} {fault : Fault}
    (hx : x s = .error fault failed) (g : α → Fetch σ β) :
    (x >>= g) s = .error fault failed := by
  show EStateM.bind x g s = _
  unfold EStateM.bind
  rw [hx]

/-- What follows a delivery runs on the state it leaves, and is not reached if the bytes
are missing. -/
theorem bind_of_delivery {x : Fetch σ α} {s next : σ} {count : Nat} {value : α}
    (hx : x s = delivery s count (.ok value next)) (g : α → Fetch σ β) :
    (x >>= g) s = delivery s count (g value next) := by
  by_cases h : InReach s count
  · rw [delivery_of_inReach h] at hx ⊢
    exact bind_of_ok hx g
  · rw [delivery_of_not_inReach h] at hx ⊢
    exact bind_of_error hx g

theorem Delivers.bind_apply {x : Fetch σ α} {m : Nat} {f : σ → α} (hx : Delivers x m f)
    (g : α → Fetch σ β) (s : σ) :
    (x >>= g) s = delivery s m (g (f s) (advance s m)) :=
  bind_of_delivery (hx s) g

variable [LawfulByteStream σ]

theorem delivers_pure (value : α) : Delivers (pure value : Fetch σ α) 0 fun _ => value := by
  intro s
  rw [delivery_of_inReach (inReach_zero s), advance_zero]
  rfl

theorem delivers_get : Delivers (get : Fetch σ σ) 0 id := by
  intro s
  rw [delivery_of_inReach (inReach_zero s), advance_zero]
  rfl

theorem delivers_nextByte :
    Delivers (nextByte : Fetch σ UInt8) 1 fun s => (memory s).read (cursor s) := by
  intro s
  by_cases h : InReach s 1
  · rw [delivery_of_inReach h, nextByte_of_not_atEnd ((inReach_one_iff s).mp h)]
    rfl
  · have hedge : edge s = cursor s := by
      apply UInt16.toNat_inj.mp
      rw [toNat_edge (limit_le_of_not_inReach h)]
      simp only [InReach] at h
      omega
    rw [delivery_of_not_inReach h, nextByte_of_atEnd (atEnd_of_not_inReach h), hedge,
      LawfulByteStream.seek_cursor]

/-- A delivery after some bytes were fetched is a delivery of all of them together. -/
theorem delivery_advance {s : σ} {m : Nat} (h : InReach s m) (n : Nat)
    (done : EStateM.Result Fault σ α) :
    delivery (advance s m) n done = delivery s (m + n) done := by
  have hiff := inReach_advance_iff (n := n) h
  by_cases hmn : InReach s (m + n)
  · rw [delivery_of_inReach hmn, delivery_of_inReach (hiff.mpr hmn)]
  · rw [delivery_of_not_inReach hmn, delivery_of_not_inReach (mt hiff.mp hmn),
      edge_advance h hmn, seek_advance]

/-- To need some bytes and then more of them is to need them all. -/
theorem delivery_delivery_advance (s : σ) (m n : Nat) (done : EStateM.Result Fault σ α) :
    delivery s m (delivery (advance s m) n done) = delivery s (m + n) done := by
  by_cases h : InReach s m
  · rw [delivery_of_inReach h, delivery_advance h]
  · rw [delivery_of_not_inReach h, delivery_of_not_inReach fun hmore => h (inReach_of_add hmore)]

theorem Delivers.bind {x : Fetch σ α} {m : Nat} {f : σ → α} (hx : Delivers x m f)
    {g : α → Fetch σ β} {n : Nat} {h : α → σ → β} (hg : ∀ a, Delivers (g a) n (h a)) :
    Delivers (x >>= g) (m + n) fun s => h (f s) (advance s m) := by
  intro s
  rw [hx.bind_apply g s, hg (f s) (advance s m), advance_advance, delivery_delivery_advance]

theorem delivers_nextWord :
    Delivers (nextWord : Fetch σ UInt16) 2
      fun s => (memory s).readWord (cursor s) (cursor s + 1) := by
  have h := delivers_nextByte (σ := σ).bind fun low =>
    delivers_nextByte.bind fun high => delivers_pure (word low high)
  intro s
  rw [nextWord, h s]
  simp [Memory.readWord]

end ByteStream

/-! ## §4. Operands. -/

namespace Machine

open ByteStream

instance : LawfulByteStream Machine where
  cursor_seek _ _ := rfl
  memory_seek _ _ := rfl
  limit_seek _ _ := rfl
  seek_seek _ _ _ := rfl
  seek_cursor _ := rfl

/-- The operand bytes at the program counter, as one word. -/
def operandWord (machine : Machine) (mode : AddressingMode) : UInt16 :=
  match mode.operandLength with
  | 0 => 0
  | 1 => (machine.memory.read machine.registers.pc).toUInt16
  | _ => machine.memory.readWord machine.registers.pc (machine.registers.pc + 1)

/-- The address that the operand bytes at the program counter lead to. -/
def operandAddress (machine : Machine) (mode : AddressingMode) : UInt16 :=
  match mode.locate with
  | none => 0
  | some address =>
    address (machine.operandWord mode) (advance machine mode.operandLength).registers
      machine.memory

/-- The value that the operand bytes at the program counter stand for. -/
def operandValue (machine : Machine) (mode : AddressingMode) : UInt8 :=
  match mode with
  | .immediate => machine.memory.read machine.registers.pc
  | _ => machine.memory.read (machine.operandAddress mode)

theorem operandValue_of_ne_immediate (machine : Machine) {mode : AddressingMode}
    (h : mode ≠ .immediate) :
    machine.operandValue mode = machine.memory.read (machine.operandAddress mode) := by
  cases mode with
  | immediate => exact absurd rfl h
  | _ => rfl

theorem delivers_fetchOperand (mode : AddressingMode) :
    Delivers (fetchOperand mode) mode.operandLength fun machine => machine.operandWord mode := by
  have hlen : mode.operandLength = 0 ∨ mode.operandLength = 1 ∨ mode.operandLength = 2 := by
    cases mode <;> simp [AddressingMode.operandLength]
  unfold fetchOperand operandWord
  rcases hlen with hlen | hlen | hlen <;> rw [hlen]
  · exact delivers_pure 0
  · exact delivers_nextByte.bind fun byte => delivers_pure byte.toUInt16
  · exact delivers_nextWord

/-- A mode that leads to no address is refused before anything is fetched. -/
theorem effectiveAddress_of_locate_eq_none (mnemonic : Mnemonic) {mode : AddressingMode}
    (h : mode.locate = none) (machine : Machine) :
    effectiveAddress mnemonic mode machine = .error (.unsupportedMode mnemonic mode) machine := by
  unfold effectiveAddress
  rw [h]
  rfl

theorem delivers_effectiveAddress (mnemonic : Mnemonic) {mode : AddressingMode}
    (h : mode.locate.isSome) :
    Delivers (effectiveAddress mnemonic mode) mode.operandLength
      fun machine => machine.operandAddress mode := by
  obtain ⟨address, hlocate⟩ := Option.isSome_iff_exists.mp h
  unfold effectiveAddress operandAddress
  rw [hlocate]
  exact (delivers_fetchOperand mode).bind fun operand => delivers_get.bind fun machine =>
    delivers_pure (address operand machine.registers machine.memory)

theorem readOperand_of_ne_immediate (mnemonic : Mnemonic) {mode : AddressingMode}
    (h : mode ≠ .immediate) :
    readOperand mnemonic mode = do
      let address ← effectiveAddress mnemonic mode
      let machine ← get
      return machine.memory.read address := by
  cases mode with
  | immediate => exact absurd rfl h
  | _ => rfl

/-- Outside the immediate mode, a value is the byte at the effective address. -/
theorem readOperand_of_effectiveAddress {machine next : Machine} {mnemonic : Mnemonic}
    {mode : AddressingMode} {address : UInt16} (himm : mode ≠ .immediate)
    (h : effectiveAddress mnemonic mode machine = .ok address next) :
    readOperand mnemonic mode machine = .ok (next.memory.read address) next := by
  rw [readOperand_of_ne_immediate mnemonic himm]
  exact bind_of_ok h _

/-- Without an address there is no value either. -/
theorem readOperand_of_error {machine failed : Machine} {mnemonic : Mnemonic}
    {mode : AddressingMode} {fault : Fault} (himm : mode ≠ .immediate)
    (h : effectiveAddress mnemonic mode machine = .error fault failed) :
    readOperand mnemonic mode machine = .error fault failed := by
  rw [readOperand_of_ne_immediate mnemonic himm]
  exact bind_of_error h _

theorem delivers_readOperand (mnemonic : Mnemonic) {mode : AddressingMode}
    (h : mode = .immediate ∨ mode.locate.isSome) :
    Delivers (readOperand mnemonic mode) mode.operandLength
      fun machine => machine.operandValue mode := by
  by_cases himm : mode = .immediate
  · subst himm
    exact delivers_nextByte
  · rw [readOperand_of_ne_immediate mnemonic himm,
      funext fun machine => operandValue_of_ne_immediate machine himm]
    exact (delivers_effectiveAddress mnemonic (h.resolve_left himm)).bind fun address =>
      delivers_get.bind fun machine => delivers_pure (machine.memory.read address)

end Machine

end Mos6502
