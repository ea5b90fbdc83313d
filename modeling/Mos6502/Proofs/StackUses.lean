/-
  Mos6502.Proofs.StackUses — any number of pushes and pops, in any order

  The ring refuses nothing, so bytes may be pushed and popped in any order.  The pointer
  then tells by how many the pushes outnumber the pops, round the page, and each cell holds
  what was last pushed into it.  As long as no byte is popped that was not pushed and no
  more than 256 are left, this is all that a stack has to be: a pop gives the latest push
  that is left.  With 256 left the pointer has come round to the oldest, which the next
  push replaces.

  Main statements:
    * `toNat_pointer_after`  — the pointer, round the page
    * `read_after_of_latest`, `read_after_of_untouched` — what a cell holds
    * `Within.holds`         — the bytes that are left lie on the stack
    * `Holds.push_full`      — a push onto a full ring
    * `push_pop_ring`        — all of it, for every sequence of pushes and pops
-/
import Mathlib.Data.List.Induction
import Mos6502.Proofs.StackRing

namespace Mos6502.Stack

/-! ## §1. Uses of a stack. -/

/-- What can be done with a stack. -/
inductive Use where
  | push (value : UInt8)
  | pop
  deriving Repr, DecidableEq

/-- The stack after one use. -/
def Use.serve : Use → Stack → Stack
  | push value, stack => stack.push value
  | pop, stack => stack.pop.2

/-- Whether something is pushed. -/
def Use.isPush : Use → Bool
  | push _ => true
  | pop => false

/-- The stack after a number of uses. -/
def after (stack : Stack) (uses : List Use) : Stack :=
  uses.foldl (fun stack use => use.serve stack) stack

/-- How many bytes are pushed. -/
def pushes (uses : List Use) : Nat := uses.countP Use.isPush

/-- How many bytes are popped. -/
def pops (uses : List Use) : Nat := uses.count .pop

section Counts

variable (uses : List Use) (value : UInt8)

@[simp] theorem after_nil (stack : Stack) : stack.after [] = stack := rfl

@[simp] theorem after_concat (stack : Stack) (use : Use) :
    stack.after (uses ++ [use]) = use.serve (stack.after uses) := by
  simp [after]

@[simp] theorem pushes_push : pushes (uses ++ [.push value]) = pushes uses + 1 := by
  simp [pushes, Use.isPush]

@[simp] theorem pushes_pop : pushes (uses ++ [.pop]) = pushes uses := by
  simp [pushes, Use.isPush]

@[simp] theorem pops_push : pops (uses ++ [.push value]) = pops uses := by
  simp [pops]

@[simp] theorem pops_pop : pops (uses ++ [.pop]) = pops uses + 1 := by
  simp [pops]

end Counts

/-- The pointer goes down with every push and up with every pop, round the page. -/
theorem toNat_pointer_after (stack : Stack) (uses : List Use) :
    ((stack.after uses).pointer.toNat : Int)
      = ((stack.pointer.toNat : Int) - pushes uses + pops uses) % 256 := by
  have hlt := stack.pointer.toNat_lt
  induction uses using List.reverseRecOn with
  | nil =>
    simp only [after_nil, pushes, pops, List.countP_nil, List.count_nil]
    omega
  | append_singleton uses use ih =>
    rw [after_concat]
    cases use with
    | push value =>
      show (((stack.after uses).pointer - 1).toNat : Int) = _
      rw [pushes_push, pops_push, UInt8.toNat_sub, UInt8.toNat_one]
      omega
    | pop =>
      show (((stack.after uses).pointer + 1).toNat : Int) = _
      rw [pushes_pop, pops_pop, UInt8.toNat_add, UInt8.toNat_one]
      omega

/-! ## §2. What a cell holds. -/

/-- The use at an index pushes a value into the cell at a place in page one. -/
def PushesAt (stack : Stack) (uses : List Use) (i : Nat) (place value : UInt8) : Prop :=
  uses[i]? = some (.push value) ∧ (stack.after (uses.take i)).pointer = place

/-- A use changes the cell that it pushes into, if it does push, and nothing else. -/
theorem read_serve_of_ne {use : Use} {stack : Stack} {other : UInt16}
    (h : ∀ value, use = .push value → address stack.pointer ≠ other) :
    (use.serve stack).memory.read other = stack.memory.read other := by
  cases use with
  | push value => exact read_push_of_ne stack value (h value rfl)
  | pop => rfl

section Cell

variable {stack : Stack} {uses : List Use} {use : Use} {i : Nat} {place value : UInt8}

theorem PushesAt.lt_length (h : stack.PushesAt uses i place value) : i < uses.length :=
  (List.getElem?_eq_some_iff.mp h.1).1

theorem pushesAt_concat_of_lt (hi : i < uses.length) :
    stack.PushesAt (uses ++ [use]) i place value ↔ stack.PushesAt uses i place value := by
  unfold PushesAt
  rw [List.getElem?_append_left hi, List.take_append_of_le_length (Nat.le_of_lt hi)]

theorem pushesAt_concat_length :
    stack.PushesAt (uses ++ [use]) uses.length place value
      ↔ use = .push value ∧ (stack.after uses).pointer = place := by
  simp [PushesAt]

/-- A further use leaves a cell alone that it does not push into. -/
theorem read_serve_of_not_pushesAt
    (h : ∀ value, ¬ stack.PushesAt (uses ++ [use]) uses.length place value) :
    (use.serve (stack.after uses)).memory.read (address place)
      = (stack.after uses).memory.read (address place) := by
  refine read_serve_of_ne fun value hpush heq => ?_
  exact h value (pushesAt_concat_length.mpr ⟨hpush, address_inj.mp heq⟩)

/-- A cell holds the value of the latest push into it. -/
theorem read_after_of_latest (h : stack.PushesAt uses i place value)
    (latest : ∀ j > i, ∀ later, ¬ stack.PushesAt uses j place later) :
    (stack.after uses).memory.read (address place) = value := by
  -- Induction on the uses, the last of them taken off: it is the push at `i` or a later use.
  induction uses using List.reverseRecOn with
  | nil => exact absurd h.lt_length (Nat.not_lt_zero i)
  | append_singleton uses use ih =>
    have hlt := h.lt_length
    rw [List.length_append, List.length_singleton] at hlt
    rw [after_concat]
    rcases Nat.lt_or_eq_of_le (Nat.le_of_lt_succ hlt) with hi | rfl
    · rw [read_serve_of_not_pushesAt (latest uses.length hi)]
      refine ih ((pushesAt_concat_of_lt hi).mp h) fun j hj later hlater => ?_
      exact latest j hj later ((pushesAt_concat_of_lt hlater.lt_length).mpr hlater)
    · obtain ⟨rfl, rfl⟩ := pushesAt_concat_length.mp h
      simp [Use.serve, push]

/-- A cell that nothing was pushed into holds what it did before. -/
theorem read_after_of_untouched (h : ∀ i value, ¬ stack.PushesAt uses i place value) :
    (stack.after uses).memory.read (address place) = stack.memory.read (address place) := by
  induction uses using List.reverseRecOn with
  | nil => rfl
  | append_singleton uses use ih =>
    rw [after_concat, read_serve_of_not_pushesAt (h uses.length)]
    refine ih fun i value hpush => ?_
    exact h i value ((pushesAt_concat_of_lt hpush.lt_length).mpr hpush)

end Cell

/-- Nothing outside page one is ever touched. -/
theorem read_after_of_outside (stack : Stack) (uses : List Use) {other : UInt16}
    (outside : ¬ (0x0100 ≤ other.toNat ∧ other.toNat ≤ 0x01FF)) :
    (stack.after uses).memory.read other = stack.memory.read other := by
  have hcell : ∀ pointer, address pointer ≠ other := by
    intro pointer heq
    have hlt := pointer.toNat_lt
    rw [← heq, toNat_address] at outside
    omega
  induction uses using List.reverseRecOn with
  | nil => rfl
  | append_singleton uses use ih =>
    rw [after_concat, read_serve_of_ne fun _ _ => hcell _, ih]

/-! ## §3. What is left. -/

/-- The bytes that were pushed and are not yet popped, the latest first. -/
def unpopped (uses : List Use) : List UInt8 :=
  uses.foldl
    (fun left use =>
      match use with
      | .push value => value :: left
      | .pop => left.tail)
    []

/-- At no time are more bytes popped than were pushed, or more than 256 left. -/
def Within (uses : List Use) : Prop :=
  ∀ count ≤ uses.length, pops (uses.take count) ≤ pushes (uses.take count)
    ∧ pushes (uses.take count) ≤ pops (uses.take count) + 256

@[simp] theorem unpopped_push (uses : List Use) (value : UInt8) :
    unpopped (uses ++ [.push value]) = value :: unpopped uses := by
  simp [unpopped]

@[simp] theorem unpopped_pop (uses : List Use) :
    unpopped (uses ++ [.pop]) = (unpopped uses).tail := by
  simp [unpopped]

section Within

variable {uses : List Use} {use : Use}

theorem within_concat_iff :
    Within (uses ++ [use])
      ↔ Within uses ∧ pops (uses ++ [use]) ≤ pushes (uses ++ [use])
        ∧ pushes (uses ++ [use]) ≤ pops (uses ++ [use]) + 256 := by
  have hlength : (uses ++ [use]).length = uses.length + 1 := by simp
  constructor
  · intro h
    refine ⟨fun count hcount => ?_, ?_⟩
    · have hbefore := h count (by omega)
      rwa [List.take_append_of_le_length hcount] at hbefore
    · have hlast := h _ (Nat.le_refl _)
      rwa [List.take_length] at hlast
  · rintro ⟨hbefore, hlast⟩ count hcount
    rw [hlength] at hcount
    rcases Nat.lt_or_eq_of_le hcount with hlt | rfl
    · rw [List.take_append_of_le_length (by omega)]
      exact hbefore count (by omega)
    · rw [← hlength, List.take_length]
      exact hlast

/-- As many bytes are left as pushes outnumber pops. -/
theorem Within.length_unpopped (h : Within uses) :
    (unpopped uses).length + pops uses = pushes uses := by
  induction uses using List.reverseRecOn with
  | nil => rfl
  | append_singleton uses use ih =>
    obtain ⟨hbefore, hlast⟩ := within_concat_iff.mp h
    have hleft := ih hbefore
    cases use with
    | push value =>
      simp only [unpopped_push, pops_push, pushes_push, List.length_cons]
      omega
    | pop =>
      simp only [unpopped_pop, pops_pop, pushes_pop, List.length_tail] at hlast ⊢
      omega

end Within

/-- Popping takes the top off. -/
theorem Holds.pop {stack : Stack} {bytes : List UInt8} (h : stack.Holds bytes) :
    stack.pop.2.Holds bytes.tail := by
  cases bytes with
  | nil => exact holds_nil _
  | cons byte bytes => exact (@holds_append stack [byte] bytes |>.mp h).2

/-- The top is what the next pop gives. -/
theorem Holds.head?_eq {stack : Stack} {bytes : List UInt8} (h : stack.Holds bytes)
    (pos : 0 < bytes.length) : bytes.head? = some stack.pop.1 := by
  cases bytes with
  | nil => exact absurd pos (Nat.not_lt_zero 0)
  | cons byte bytes =>
    have htop := (@holds_append stack [byte] bytes |>.mp h).1
    rw [holds_singleton.mp htop, List.head?_cons]

/-- The bytes that are left lie on the stack, the latest on top. -/
theorem Within.holds {uses : List Use} (h : Within uses) (stack : Stack) :
    (stack.after uses).Holds (unpopped uses) := by
  induction uses using List.reverseRecOn with
  | nil => exact holds_nil stack
  | append_singleton uses use ih =>
    obtain ⟨hbefore, hlast⟩ := within_concat_iff.mp h
    have hlength := hbefore.length_unpopped
    rw [after_concat]
    cases use with
    | push value =>
      rw [pushes_push, pops_push] at hlast
      rw [unpopped_push]
      exact (ih hbefore).push (by omega) value
    | pop =>
      rw [unpopped_pop]
      exact (ih hbefore).pop

/-! ## §4. The full ring. -/

section Full

variable {stack : Stack} {bytes : List UInt8}

/-- On a full ring the oldest byte lies where the pointer stands. -/
theorem Holds.getLast?_eq (h : stack.Holds bytes) (full : bytes.length = 256) :
    bytes.getLast? = some (stack.memory.read (address stack.pointer)) := by
  have hround : stack.pointer + 1 + UInt8.ofNat 255 = stack.pointer := by
    rw [UInt8.add_assoc]
    exact UInt8.add_zero _
  have holdest := h 255 (by omega)
  unfold cell at holdest
  rw [hround] at holdest
  have hindex : bytes.length - 1 = 255 := by omega
  rw [List.getLast?_eq_getElem?, hindex, holdest]
  exact List.getElem?_eq_getElem _

/-- A push onto a full ring keeps all but the oldest byte. -/
theorem Holds.push_full (h : stack.Holds bytes) (full : bytes.length = 256) (value : UInt8) :
    (stack.push value).Holds (value :: bytes.dropLast) := by
  have hne : bytes ≠ [] := by
    rintro rfl
    cases full
  have hsplit := bytes.dropLast_concat_getLast hne
  rw [← hsplit] at h
  have hlength : bytes.dropLast.length < 256 := by
    rw [List.length_dropLast]
    omega
  exact (holds_append.mp h).1.push hlength value

end Full

/-- **The stack is a ring of 256 bytes.**  After any sequence of pushes and pops, the pointer is
where their numbers say, and no byte outside page one has changed.  The next pop gives the latest
value that was pushed into the cell it reads, or what the cell held at first.  While no more are
popped than were pushed and at most 256 are left, it gives the latest push that is left; with 256
left, the next push replaces the oldest of them and nothing else. -/
theorem push_pop_ring (stack : Stack) (uses : List Use) :
    let now := stack.after uses
    let place := now.pointer + 1
    (now.pointer.toNat : Int) = ((stack.pointer.toNat : Int) - pushes uses + pops uses) % 256
    ∧ (∀ other : UInt16, ¬ (0x0100 ≤ other.toNat ∧ other.toNat ≤ 0x01FF) →
        now.memory.read other = stack.memory.read other)
    ∧ (∀ i value, stack.PushesAt uses i place value →
        (∀ j > i, ∀ later, ¬ stack.PushesAt uses j place later) → now.pop.1 = value)
    ∧ ((∀ i value, ¬ stack.PushesAt uses i place value) →
        now.pop.1 = stack.memory.read (address place))
    ∧ (Within (uses ++ [.pop]) → (unpopped uses).head? = some now.pop.1)
    ∧ (Within uses → pushes uses = pops uses + 256 → ∀ value,
        (unpopped uses).getLast? = some (now.memory.read (address now.pointer))
        ∧ (now.push value).Holds (value :: (unpopped uses).dropLast)
        ∧ ∀ other, address now.pointer ≠ other →
            (now.push value).memory.read other = now.memory.read other) := by
  intro now place
  refine ⟨toNat_pointer_after stack uses, fun other => read_after_of_outside stack uses,
    fun i value => read_after_of_latest, read_after_of_untouched, ?next, ?full⟩
  case next =>
    intro hwithin
    obtain ⟨hbefore, hlast⟩ := within_concat_iff.mp hwithin
    have hlength := hbefore.length_unpopped
    rw [pops_pop, pushes_pop] at hlast
    exact (hbefore.holds stack).head?_eq (by omega)
  case full =>
    intro hwithin hcount value
    have hholds := hwithin.holds stack
    have hfull : (unpopped uses).length = 256 := by
      have hlength := hwithin.length_unpopped
      omega
    exact ⟨hholds.getLast?_eq hfull, hholds.push_full hfull value,
      fun other => read_push_of_ne now value⟩

theorem counts_map_push (bytes : List UInt8) :
    pushes (bytes.map .push) = bytes.length ∧ pops (bytes.map .push) = 0 := by
  refine ⟨?_, List.count_eq_zero.mpr (by simp)⟩
  unfold pushes
  rw [List.countP_map]
  exact List.countP_eq_length.mpr fun _ _ => rfl

/-- As many bytes as the ring has cells can be pushed in a row. -/
theorem within_map_push {bytes : List UInt8} (room : bytes.length ≤ 256) :
    Within (bytes.map .push) := by
  intro count _
  obtain ⟨hpushes, hpops⟩ := counts_map_push (bytes.take count)
  have hlength := List.length_take_le' count bytes
  rw [← List.map_take, hpushes, hpops]
  omega

/-- Every byte there is, pushed in a row from the middle of the page: a pop would give the last of
them, and another push replaces the first. -/
theorem push_pop_ring_full :
    let bytes := (List.range 256).map UInt8.ofNat
    let now := Stack.after ⟨Memory.zero, 0x7F⟩ (bytes.map .push)
    (Within (bytes.map .push ++ [.pop])
      ∧ pushes (bytes.map .push) = pops (bytes.map .push) + 256)
    ∧ now.pointer.toNat = 0x7F
    ∧ now.pop.1 = 0xFF
    ∧ now.memory.read (address now.pointer) = 0x00
    ∧ (now.push 0xEE).Holds (0xEE :: (unpopped (bytes.map .push)).dropLast) := by
  intro bytes now
  obtain ⟨hpushes, hpops⟩ := counts_map_push bytes
  rw [show bytes.length = 256 by simp [bytes]] at hpushes
  have hbefore : Within (bytes.map .push) := within_map_push (by simp [bytes])
  have hwithin : Within (bytes.map .push ++ [.pop]) := by
    refine within_concat_iff.mpr ⟨hbefore, ?_⟩
    rw [pushes_pop, pops_pop]
    omega
  have hends : (unpopped (bytes.map .push)).head? = some 0xFF
      ∧ (unpopped (bytes.map .push)).getLast? = some 0x00 := by decide +kernel
  obtain ⟨hpointer, -, -, -, hnext, hfull⟩ :=
    push_pop_ring ⟨Memory.zero, 0x7F⟩ (bytes.map .push)
  obtain ⟨holdest, hholds, -⟩ := hfull hbefore (by omega) 0xEE
  rw [hpushes, hpops] at hpointer
  refine ⟨⟨hwithin, by omega⟩, Int.ofNat.inj hpointer, ?_, ?_, hholds⟩
  · exact Option.some.inj ((hnext hwithin).symm.trans hends.1)
  · exact Option.some.inj (holdest.symm.trans hends.2)

end Mos6502.Stack
