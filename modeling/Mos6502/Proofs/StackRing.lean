/-
  Mos6502.Proofs.StackRing — what lies on the stack

  A stack holds a list of bytes if popping would yield them one after the other.
  As long as no more than 256 bytes are held, a push does not run into the oldest
  of them, wherever in the page the pointer stands and wraps.

  Main statements:
    * `Holds.pushAll`      — what was pushed lies above what was there
    * `holds_append`       — what is held falls into a top and a rest
    * `Holds.of_read_eq`   — only page one matters
-/
import Mos6502.Stack

namespace Mos6502.Stack

/-! ## §1. Cells. -/

/-- The byte that is popped after `depth` others. -/
def cell (stack : Stack) (depth : Nat) : UInt8 :=
  stack.memory.read (address (stack.pointer + 1 + UInt8.ofNat depth))

/-- The stack after a number of bytes were popped. -/
def drop (stack : Stack) (count : Nat) : Stack :=
  { stack with pointer := stack.pointer + UInt8.ofNat count }

/-- The stack after the bytes were pushed, the first of them last. -/
def pushAll (stack : Stack) (bytes : List UInt8) : Stack :=
  bytes.foldr (fun byte below => below.push byte) stack

theorem toNat_address (pointer : UInt8) : (address pointer).toNat = 0x100 + pointer.toNat := by
  unfold address Memory.inPage
  rw [toNat_word]
  rfl

theorem cell_zero (stack : Stack) : stack.cell 0 = stack.pop.1 := by
  show stack.memory.read (address (stack.pointer + 1 + 0)) = _
  rw [UInt8.add_zero]
  rfl

theorem cell_drop (stack : Stack) (count depth : Nat) :
    (stack.drop count).cell depth = stack.cell (count + depth) := by
  show stack.memory.read (address (stack.pointer + UInt8.ofNat count + 1 + UInt8.ofNat depth))
    = stack.memory.read (address (stack.pointer + 1 + UInt8.ofNat (count + depth)))
  rw [UInt8.ofNat_add, UInt8.add_assoc stack.pointer, UInt8.add_comm (UInt8.ofNat count),
    ← UInt8.add_assoc stack.pointer, UInt8.add_assoc]

theorem drop_one (stack : Stack) : stack.drop 1 = stack.pop.2 := rfl

theorem drop_drop (stack : Stack) (first second : Nat) :
    (stack.drop first).drop second = stack.drop (first + second) := by
  unfold drop
  rw [UInt8.ofNat_add, ← UInt8.add_assoc]

/-- Popping as many bytes as were pushed brings the pointer back, through every wrap. -/
theorem pointer_drop_pushAll (stack : Stack) (bytes : List UInt8) (count : Nat) :
    ((stack.pushAll bytes).drop (bytes.length + count)).pointer = (stack.drop count).pointer := by
  induction bytes with
  | nil =>
    rw [List.length_nil, Nat.zero_add]
    rfl
  | cons byte bytes ih =>
    have hone : bytes.length + 1 + count = 1 + (bytes.length + count) := by omega
    rw [List.length_cons, hone, ← drop_drop, ← ih]
    show (stack.pushAll bytes).pointer - 1 + 1 + _ = (stack.pushAll bytes).pointer + _
    rw [UInt8.sub_add_cancel]

/-! ## §2. What a stack holds. -/

/-- Whether the bytes lie on the stack, the first of them on top. -/
def Holds (stack : Stack) (bytes : List UInt8) : Prop :=
  ∀ depth (h : depth < bytes.length), stack.cell depth = bytes[depth]

theorem holds_nil (stack : Stack) : stack.Holds [] := by
  intro depth h
  exact absurd h (Nat.not_lt_zero depth)

theorem holds_append {stack : Stack} {top rest : List UInt8} :
    stack.Holds (top ++ rest) ↔ stack.Holds top ∧ (stack.drop top.length).Holds rest := by
  constructor
  · intro h
    refine ⟨?_, ?_⟩
    · intro depth hdepth
      have hlt : depth < (top ++ rest).length := by rw [List.length_append]; omega
      rw [h depth hlt, List.getElem_append_left hdepth]
    · intro depth hdepth
      have hlt : top.length + depth < (top ++ rest).length := by
        rw [List.length_append]; omega
      rw [cell_drop, h _ hlt, List.getElem_append_right (Nat.le_add_right _ _)]
      congr 1
      omega
  · rintro ⟨htop, hrest⟩ depth hdepth
    rw [List.length_append] at hdepth
    by_cases hlt : depth < top.length
    · rw [List.getElem_append_left hlt, htop depth hlt]
    · have hsplit : depth = top.length + (depth - top.length) := by omega
      rw [List.getElem_append_right (by omega), ← hrest (depth - top.length) (by omega),
        cell_drop, ← hsplit]

theorem holds_singleton {stack : Stack} {byte : UInt8} :
    stack.Holds [byte] ↔ stack.pop.1 = byte := by
  rw [← cell_zero]
  constructor
  · intro h
    exact h 0 Nat.one_pos
  · intro h depth hdepth
    obtain rfl : depth = 0 := Nat.lt_one_iff.mp hdepth
    exact h

/-- What a stack holds is a matter of page one and the pointer. -/
theorem Holds.of_read_eq {stack other : Stack} {bytes : List UInt8} (h : stack.Holds bytes)
    (hpointer : other.pointer = stack.pointer)
    (hread : ∀ pointer, other.memory.read (address pointer) = stack.memory.read (address pointer)) :
    other.Holds bytes := by
  intro depth hdepth
  unfold cell
  rw [hpointer, hread]
  exact h depth hdepth

/-- A push lies above what is held, unless the ring is full. -/
theorem Holds.push {stack : Stack} {bytes : List UInt8} (h : stack.Holds bytes)
    (room : bytes.length < 256) (byte : UInt8) : (stack.push byte).Holds (byte :: bytes) := by
  have htop : (stack.push byte).Holds [byte] := by
    rw [holds_singleton, pop_push]
  show (stack.push byte).Holds ([byte] ++ bytes)
  refine holds_append.mpr ⟨htop, ?_⟩
  rw [List.length_singleton, drop_one, pop_push]
  intro depth hdepth
  rw [← h depth hdepth]
  refine read_push_of_ne stack byte fun heq => ?_
  -- The cells in use are at distances from 1 to 255, so the ring does not close.
  have hptr : stack.pointer = stack.pointer + 1 + UInt8.ofNat depth := address_inj.mp heq
  have hnat := congrArg UInt8.toNat hptr
  have hlt := stack.pointer.toNat_lt
  rw [UInt8.toNat_add, UInt8.toNat_add, UInt8.toNat_ofNat', UInt8.toNat_one] at hnat
  omega

theorem Holds.pushAll {stack : Stack} {bytes : List UInt8} (h : stack.Holds bytes)
    (added : List UInt8) (room : (added ++ bytes).length ≤ 256) :
    (stack.pushAll added).Holds (added ++ bytes) := by
  induction added with
  | nil => exact h
  | cons byte added ih =>
    rw [List.cons_append, List.length_cons] at room
    exact (ih (Nat.le_of_succ_le room)).push room byte

end Mos6502.Stack
