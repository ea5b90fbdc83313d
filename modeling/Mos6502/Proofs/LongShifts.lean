/-
  Mos6502.Proofs.LongShifts — numbers of many bytes, shifted byte by byte

  A program doubles a number of many bytes by rotating the bytes up, the lowest one first,
  and halves it by rotating them down, the highest one first.  Carry takes the bit that
  leaves one byte to the next byte, so the whole number moves by one bit, and what the
  other end has no place for is left in Carry.  Where the bytes are, in which mode each
  instruction gets at its own, and what happens in between does not matter, as long as no
  two bytes share a cell, and cells and Carry are left alone between the shifts.

  Main statements:
    * `littleEndian_pass_rol`, `littleEndian_pass_ror` — from one byte to all bytes
    * `pass_ror_pass_rol`         — what went up comes down again
    * `CellByCell.contents_final` — shifts in memory are a pass over the bytes
    * `cellByCell_after`          — shifts by steps right one after the other
    * `long_shifts`               — long numbers shifted up, down, and back
-/
import Mathlib.Data.List.Nodup
import Mos6502.Proofs.Computing
import Mos6502.Proofs.LittleEndian
import Mos6502.Proofs.ReadFootprint

namespace Mos6502

/-! ## §1. One byte. -/

namespace Mnemonic

/-- What a shift makes of a byte and of Carry.  All other instructions leave both. -/
def shifted (mnemonic : Mnemonic) (byte : UInt8) (carry : Bool) : UInt8 × Bool :=
  match mnemonic.operation with
  | .shifting change => change.apply byte carry
  | _ => (byte, carry)

/-- Up: the number is doubled, Carry comes in at the low end and takes what leaves. -/
theorem toNat_shifted_rol (byte : UInt8) (carry : Bool) :
    (rol.shifted byte carry).1.toNat + 256 * (rol.shifted byte carry).2.toNat
      = 2 * byte.toNat + carry.toNat := by
  have all : ∀ n : Fin 256, ∀ carry : Bool,
      (rol.shifted (UInt8.ofFin n) carry).1.toNat
          + 256 * (rol.shifted (UInt8.ofFin n) carry).2.toNat
        = 2 * n.val + carry.toNat := by decide +kernel
  exact all byte.toFin carry

/-- Down: the number is halved, Carry comes in at the high end and takes what leaves. -/
theorem toNat_shifted_ror (byte : UInt8) (carry : Bool) :
    2 * (ror.shifted byte carry).1.toNat + (ror.shifted byte carry).2.toNat
      = byte.toNat + 256 * carry.toNat := by
  have all : ∀ n : Fin 256, ∀ carry : Bool,
      2 * (ror.shifted (UInt8.ofFin n) carry).1.toNat
          + (ror.shifted (UInt8.ofFin n) carry).2.toNat
        = n.val + 256 * carry.toNat := by decide +kernel
  exact all byte.toFin carry

/-- Down again, byte and Carry are as they were. -/
theorem shifted_ror_shifted_rol (byte : UInt8) (carry : Bool) :
    ror.shifted (rol.shifted byte carry).1 (rol.shifted byte carry).2 = (byte, carry) := by
  have all : ∀ n : Fin 256, ∀ carry : Bool,
      ror.shifted (rol.shifted (UInt8.ofFin n) carry).1 (rol.shifted (UInt8.ofFin n) carry).2
        = (UInt8.ofFin n, carry) := by decide +kernel
  exact all byte.toFin carry

theorem shifted_asl (byte : UInt8) (carry : Bool) :
    asl.shifted byte carry = rol.shifted byte false :=
  Prod.ext (UInt8.or_zero).symm rfl

theorem shifted_lsr (byte : UInt8) (carry : Bool) :
    lsr.shifted byte carry = ror.shifted byte false :=
  Prod.ext (UInt8.or_zero).symm rfl

theorem exists_change_of_mem_shifts {mnemonic : Mnemonic} (h : mnemonic ∈ shifts) :
    ∃ change, mnemonic.operation = .shifting change ∧ mnemonic.shifted = change.apply := by
  simp only [shifts, List.mem_cons, List.not_mem_nil, or_false] at h
  rcases h with rfl | rfl | rfl | rfl <;> exact ⟨_, rfl, rfl⟩

end Mnemonic

/-! ## §2. Many bytes. -/

/-- Bytes shifted one after the other, each by the instruction that stands beside it and with the
Carry that the one before has left: what becomes of the bytes, and the last Carry. -/
def pass (carry : Bool) : List (Mnemonic × UInt8) → List UInt8 × Bool
  | [] => ([], carry)
  | (mnemonic, byte) :: rest =>
    let done := mnemonic.shifted byte carry
    let others := pass done.2 rest
    (done.1 :: others.1, others.2)

theorem pass_append (carry : Bool) (before after : List (Mnemonic × UInt8)) :
    pass carry (before ++ after)
      = ((pass carry before).1 ++ (pass (pass carry before).2 after).1,
          (pass (pass carry before).2 after).2) := by
  induction before generalizing carry with
  | nil => rfl
  | cons item before ih =>
    rw [List.cons_append, pass, pass, ih]
    rfl

/-- One instruction for the first of some items, and another for all after it. -/
def led {α : Type} (first others : Mnemonic) : List α → List (Mnemonic × α)
  | [] => []
  | item :: rest => (first, item) :: rest.map (others, ·)

theorem led_self {α : Type} (mnemonic : Mnemonic) (items : List α) :
    led mnemonic mnemonic items = items.map (mnemonic, ·) := by
  cases items <;> rfl

theorem map_led {α β : Type} (first others : Mnemonic) (f : α → β) (items : List α) :
    (led first others items).map (fun item => (item.1, f item.2))
      = led first others (items.map f) := by
  cases items with
  | nil => rfl
  | cons item rest => simp [led]

theorem map_snd_led {α : Type} (first others : Mnemonic) (items : List α) :
    (led first others items).map Prod.snd = items := by
  cases items with
  | nil => rfl
  | cons item rest => simp [led]

/-- **Up, from the lowest byte on.**  The number is doubled. -/
theorem littleEndian_pass_rol (carry : Bool) (bytes : List UInt8) :
    let up := pass carry (bytes.map (.rol, ·))
    littleEndian up.1 + up.2.toNat * 256 ^ bytes.length
      = 2 * littleEndian bytes + carry.toNat := by
  -- Induction from the low end; the Carry of the first byte goes into the bytes above it.
  induction bytes generalizing carry with
  | nil => exact Nat.mul_one _
  | cons byte rest ih =>
    have hbyte := Mnemonic.toNat_shifted_rol byte carry
    have hrest := ih (Mnemonic.rol.shifted byte carry).2
    simp only [List.map_cons, pass, littleEndian_cons, List.length_cons, Nat.pow_succ,
      ← Nat.mul_assoc] at hrest ⊢
    omega

/-- **Down, from the highest byte on.**  The number is halved. -/
theorem littleEndian_pass_ror (carry : Bool) (bytes : List UInt8) :
    let down := pass carry (bytes.reverse.map (.ror, ·))
    2 * littleEndian down.1.reverse + down.2.toNat
      = littleEndian bytes + carry.toNat * 256 ^ bytes.length := by
  -- Induction from the low end again: the first byte is the last to be shifted.
  induction bytes with
  | nil => exact (Nat.mul_one _).symm
  | cons byte rest ih =>
    have hbyte := Mnemonic.toNat_shifted_ror byte
      (pass carry (rest.reverse.map (.ror, ·))).2
    simp only [List.reverse_cons, List.map_append, pass_append, List.map_cons, List.map_nil, pass,
      List.reverse_append, List.reverse_nil, List.nil_append, List.singleton_append,
      littleEndian_cons, List.length_cons, Nat.pow_succ, ← Nat.mul_assoc] at ih ⊢
    omega

/-- **What went up comes down again**, to the last bit. -/
theorem pass_ror_pass_rol (carry : Bool) (bytes : List UInt8) :
    let up := pass carry (bytes.map (.rol, ·))
    pass up.2 (up.1.reverse.map (.ror, ·)) = (bytes.reverse, carry) := by
  induction bytes generalizing carry with
  | nil => rfl
  | cons byte rest ih =>
    have hbyte := Mnemonic.shifted_ror_shifted_rol byte carry
    have hrest := ih (Mnemonic.rol.shifted byte carry).2
    simp only [List.map_cons, pass, List.reverse_cons, List.map_append, pass_append, List.map_nil]
      at hrest ⊢
    rw [hrest, hbyte]

/-- An arithmetic shift at the low end leads a pass as a rotation does when Carry is clear. -/
theorem pass_led_asl (carry : Bool) {bytes : List UInt8} (nonempty : bytes ≠ []) :
    pass carry (led .asl .rol bytes) = pass false (bytes.map (.rol, ·)) := by
  obtain ⟨byte, rest, rfl⟩ := List.exists_cons_of_ne_nil nonempty
  rw [led, List.map_cons, pass, pass, Mnemonic.shifted_asl]

theorem pass_led_lsr (carry : Bool) {bytes : List UInt8} (nonempty : bytes ≠ []) :
    pass carry (led .lsr .ror bytes) = pass false (bytes.map (.ror, ·)) := by
  obtain ⟨byte, rest, rfl⟩ := List.exists_cons_of_ne_nil nonempty
  rw [led, List.map_cons, pass, pass, Mnemonic.shifted_lsr]

/-! ## §3. Bytes in memory. -/

namespace Machine

open ByteStream

/-- The machine stands at a complete shift of the byte in a cell of memory, in whichever
addressing mode leads there. -/
def Shifts (machine : Machine) (mnemonic : Mnemonic) (cell : UInt16) : Prop :=
  mnemonic ∈ Mnemonic.shifts
    ∧ ∃ mode, machine.StandsAt ⟨mnemonic, mode⟩ ∧ machine.workplace mode = .memory cell

instance (machine : Machine) (mnemonic : Mnemonic) (cell : UInt16) :
    Decidable (machine.Shifts mnemonic cell) :=
  decidable_of_iff
    (mnemonic ∈ Mnemonic.shifts ∧ ∃ e ∈ machine.instruction?, e.mnemonic = mnemonic
      ∧ InReach machine e.size ∧ machine.workplace e.mode = .memory cell)
    ⟨fun ⟨hmem, ⟨_, mode⟩, hinstr, hm, hreach, hplace⟩ =>
        ⟨hmem, mode, hm ▸ ⟨hinstr, hreach⟩, hplace⟩,
      fun ⟨hmem, mode, stands, hplace⟩ =>
        ⟨hmem, ⟨mnemonic, mode⟩, stands.instruction, rfl, stands.complete, hplace⟩⟩

/-- Shifts of cells, one after the other.  From the machine that one of them leaves to the
machine from which the next is taken, anything may happen that leaves all of `cells` and Carry
alone. -/
inductive CellByCell (cells : List UInt16) :
    List (Mnemonic × UInt16) → Machine → Machine → Prop
  /-- All is done. -/
  | nil {machine : Machine} : CellByCell cells [] machine machine
  /-- One cell is shifted, and then the others. -/
  | cons {machine poised final : Machine} {mnemonic : Mnemonic} {cell : UInt16}
      {rest : List (Mnemonic × UInt16)}
      (kept : Memory.AgreeOn cells machine.memory poised.memory)
      (carry_eq : machine.registers.p.carry = poised.registers.p.carry)
      (shifts : poised.Shifts mnemonic cell)
      (tail : CellByCell cells rest (poised.after 1) final) :
      CellByCell cells ((mnemonic, cell) :: rest) machine final

/-- A shift leaves in its cell and in Carry what it makes of them, and leaves other cells. -/
theorem Shifts.after_one {machine : Machine} {mnemonic : Mnemonic} {cell : UInt16}
    (h : machine.Shifts mnemonic cell) :
    let made := mnemonic.shifted (machine.memory.read cell) machine.registers.p.carry
    (machine.after 1).memory = machine.memory.write cell made.1
      ∧ (machine.after 1).registers.p.carry = made.2 := by
  intro made
  obtain ⟨hmem, mode, stands, hplace⟩ := h
  obtain ⟨change, hop, hshifted⟩ := Mnemonic.exists_change_of_mem_shifts hmem
  have hmode : mode ≠ .accumulator := by
    rintro rfl
    cases hplace
  have htarget : machine.target mode = cell := by
    rw [target_eq_effective]
    cases mode with
    | accumulator => exact absurd rfl hmode
    | _ => exact Place.memory.inj hplace
  have hstep : machine.after 1 = machine.perform ⟨mnemonic, mode⟩ :=
    after_succ_of_step (show step (machine.after 0) = _ from stands.step_eq)
  have hafter : machine.after 1
      = changeAt change cell (advance machine (1 + mode.operandLength)) := by
    rw [hstep, perform_of_shifting rfl hop hmode, htarget]
    rfl
  subst made
  rw [hafter, hshifted]
  exact ⟨rfl, rfl⟩

section Chain

variable {cells : List UInt16} {work more : List (Mnemonic × UInt16)} {machine final : Machine}

/-- A cell that no shift works on keeps its byte. -/
theorem CellByCell.read_final (h : CellByCell cells work machine final) {cell : UInt16}
    (mem : cell ∈ cells) (idle : cell ∉ work.map Prod.snd) :
    final.memory.read cell = machine.memory.read cell := by
  induction h with
  | nil => rfl
  | @cons machine poised final mnemonic shifted rest kept carry_eq shifts tail ih =>
    rw [List.map_cons, List.mem_cons, not_or] at idle
    rw [ih idle.2, shifts.after_one.1, Memory.read_write_of_ne _ _ (Ne.symm idle.1),
      kept cell mem]

/-- **Shifts in memory are a pass over the bytes.**  They leave in the cells and in Carry what the
pass makes of the bytes that were there. -/
theorem CellByCell.contents_final (h : CellByCell cells work machine final)
    (inside : work.map Prod.snd ⊆ cells) (distinct : (work.map Prod.snd).Nodup) :
    ((work.map Prod.snd).map final.memory.read, final.registers.p.carry)
      = pass machine.registers.p.carry
          (work.map fun shift => (shift.1, machine.memory.read shift.2)) := by
  -- Induction on the shifts; the others neither see nor touch the cell of the first.
  induction h with
  | nil => rfl
  | @cons machine poised final mnemonic cell rest kept carry_eq shifts tail ih =>
    obtain ⟨hmem, hinside⟩ := List.cons_subset.mp inside
    obtain ⟨hnot, hdistinct⟩ := List.nodup_cons.mp distinct
    obtain ⟨hmemory, hcarry⟩ := shifts.after_one
    have hcell : final.memory.read cell
        = (mnemonic.shifted (machine.memory.read cell) machine.registers.p.carry).1 := by
      rw [tail.read_final hmem hnot, hmemory, Memory.read_write_self, kept cell hmem, carry_eq]
    have hothers : rest.map (fun shift => (shift.1, (poised.after 1).memory.read shift.2))
        = rest.map fun shift => (shift.1, machine.memory.read shift.2) := by
      apply List.map_congr_left
      intro shift hshift
      have hother : shift.2 ∈ rest.map Prod.snd := List.mem_map_of_mem hshift
      have hne : cell ≠ shift.2 := fun heq => hnot (heq ▸ hother)
      rw [hmemory, Memory.read_write_of_ne _ _ hne, kept _ (hinside hother)]
    have hrest := ih hinside hdistinct
    rw [hothers, hcarry, ← kept cell hmem, ← carry_eq] at hrest
    rw [List.map_cons, List.map_cons, List.map_cons, hcell, pass, ← hrest]

end Chain

/-- Counting steps goes on from wherever it stopped. -/
theorem after_after (machine : Machine) (m n : Nat) :
    (machine.after m).after n = machine.after (m + n) := by
  induction n with
  | zero => rfl
  | succ n ih =>
    rw [after, ih]
    rfl

/-- Steps right one after the other, each of them a shift, shift the cells one after the other. -/
theorem cellByCell_after (cells : List UInt16) {work : List (Mnemonic × UInt16)}
    {machine : Machine}
    (h : ∀ i : Fin work.length, (machine.after i).Shifts work[i].1 work[i].2) :
    CellByCell cells work machine (machine.after work.length) := by
  induction work generalizing machine with
  | nil => exact .nil
  | cons shift rest ih =>
    have hrest : CellByCell cells rest (machine.after 1) ((machine.after 1).after rest.length) := by
      apply ih
      intro i
      rw [after_after, Nat.add_comm]
      exact h i.succ
    rw [List.length_cons, Nat.add_comm, ← after_after]
    exact .cons (fun _ _ => rfl) rfl (h ⟨0, Nat.zero_lt_succ _⟩) hrest

/-! ## §4. Numbers in memory. -/

/-- The number that some cells of memory hold, the first of them the lowest byte. -/
def numberIn (machine : Machine) (cells : List UInt16) : Nat :=
  littleEndian (cells.map machine.memory.read)

section Numbers

variable {cells : List UInt16} (distinct : cells.Nodup) {first others : Mnemonic}
  {machine final last : Machine}

include distinct in
/-- Up through all cells. -/
theorem CellByCell.contents_up (h : CellByCell cells (led first others cells) machine final) :
    (cells.map final.memory.read, final.registers.p.carry)
      = pass machine.registers.p.carry (led first others (cells.map machine.memory.read)) := by
  have hcells := map_snd_led first others cells
  have hcontents := h.contents_final (by rw [hcells]; exact List.Subset.refl cells)
    (by rwa [hcells])
  rwa [hcells, map_led] at hcontents

include distinct in
/-- Down through all cells. -/
theorem CellByCell.contents_down
    (h : CellByCell cells (led first others cells.reverse) machine final) :
    ((cells.map final.memory.read).reverse, final.registers.p.carry)
      = pass machine.registers.p.carry
          (led first others (cells.map machine.memory.read).reverse) := by
  have hcells := map_snd_led first others cells.reverse
  have hcontents := h.contents_final
    (by rw [hcells]; exact List.reverse_subset.mpr (List.Subset.refl cells))
    (by rwa [hcells, List.nodup_reverse])
  rwa [hcells, map_led, List.map_reverse, List.map_reverse] at hcontents

end Numbers

/-- **Long numbers, shifted.**  Take the cells of a number from the lowest to the highest with ROL:
the number is doubled, and the first Carry comes in at the low end.  Take them from the highest
to the lowest with ROR: the number is halved, and the first Carry comes in at the high end.
ASL and LSR in the first place let nothing come in.  What has left the number is in Carry at the
end, and going down after going up brings every byte and Carry back. -/
theorem long_shifts {cells : List UInt16} (nonempty : cells ≠ []) (distinct : cells.Nodup)
    (machine final : Machine) :
    let before := machine.numberIn cells
    let after := final.numberIn cells
    let carryIn := machine.registers.p.carry.toNat
    let carryOut := final.registers.p.carry.toNat
    (CellByCell cells (cells.map (.rol, ·)) machine final →
      after + carryOut * 256 ^ cells.length = 2 * before + carryIn)
    ∧ (CellByCell cells (led .asl .rol cells) machine final →
      after + carryOut * 256 ^ cells.length = 2 * before)
    ∧ (CellByCell cells (cells.reverse.map (.ror, ·)) machine final →
      2 * after + carryOut = before + carryIn * 256 ^ cells.length)
    ∧ (CellByCell cells (led .lsr .ror cells.reverse) machine final →
      2 * after + carryOut = before)
    ∧ ∀ last, CellByCell cells (cells.map (.rol, ·)) machine final →
        CellByCell cells (cells.reverse.map (.ror, ·)) final last →
        Memory.AgreeOn cells machine.memory last.memory
          ∧ last.registers.p.carry = machine.registers.p.carry := by
  intro before after carryIn carryOut
  have hlength : (cells.map machine.memory.read).length = cells.length := List.length_map _
  have hbytes : cells.map machine.memory.read ≠ [] := mt List.map_eq_nil_iff.mp nonempty
  have hreversed : (cells.map machine.memory.read).reverse ≠ [] :=
    mt List.reverse_eq_nil_iff.mp hbytes
  have hup := fun carry => littleEndian_pass_rol carry (cells.map machine.memory.read)
  have hdown := fun carry => littleEndian_pass_ror carry (cells.map machine.memory.read)
  simp only [← led_self] at hup hdown ⊢
  refine ⟨fun h => ?rol, fun h => ?asl, fun h => ?ror, fun h => ?lsr, fun last hgo hback => ?back⟩
  case rol =>
    have hpass := hup machine.registers.p.carry
    rwa [← h.contents_up distinct, hlength] at hpass
  case asl =>
    have hpass := hup false
    rwa [led_self, ← pass_led_asl machine.registers.p.carry hbytes, ← h.contents_up distinct,
      hlength] at hpass
  case ror =>
    have hpass := hdown machine.registers.p.carry
    rwa [← h.contents_down distinct, List.reverse_reverse, hlength] at hpass
  case lsr =>
    have hpass := hdown false
    rwa [led_self, ← pass_led_lsr machine.registers.p.carry hreversed,
      ← h.contents_down distinct, List.reverse_reverse, Bool.toNat_false, Nat.zero_mul] at hpass
  case back =>
    have hpass := pass_ror_pass_rol machine.registers.p.carry (cells.map machine.memory.read)
    simp only [← led_self] at hpass
    rw [← hgo.contents_up distinct, ← hback.contents_down distinct] at hpass
    obtain ⟨hreverse, hcarry⟩ := Prod.mk.inj hpass
    exact ⟨List.map_inj_left.mp (List.reverse_inj.mp hreverse).symm, hcarry⟩

/-- A number of three bytes that are not side by side, and a program that doubles it and halves it
again, once by rotations only and once with arithmetic shifts in the first place.  Each byte is
found in one mode on the way up and in another on the way down. -/
def scattered : Machine :=
  let program := (new.loadProgram
    [0x26, 0x10, 0x2E, 0x40, 0x00, 0x26, 0x12, 0x76, 0x11, 0x7E, 0x3F, 0x00, 0x6E, 0x10, 0x00,
      0x06, 0x10, 0x3E, 0x3F, 0x00, 0x36, 0x11, 0x5E, 0x11, 0x00, 0x6E, 0x40, 0x00, 0x66, 0x10]
    0x0020).2
  let memory := program.memory.writeAll [(0x0010, 0x81), (0x0040, 0x80), (0x0012, 0xC0)]
  (program.withMemory memory).update { x := some 0x01, p := some { carry := true } }

/-- The cells of the number, the one of the lowest byte first. -/
def scatteredCells : List UInt16 := [0x0010, 0x0040, 0x0012]

/-- Doubled, 0xC08081 and a Carry are 0x1810103; doubled without the Carry they are 0x1810102. -/
theorem long_shifts_scattered :
    scattered.numberIn scatteredCells = 0xC08081
    ∧ (scattered.after 3).numberIn scatteredCells
        + (scattered.after 3).registers.p.carry.toNat * 256 ^ 3 = 0x1810103
    ∧ Memory.AgreeOn scatteredCells scattered.memory (scattered.after 6).memory
    ∧ (scattered.after 6).registers.p.carry = true
    ∧ (scattered.after 9).numberIn scatteredCells
        + (scattered.after 9).registers.p.carry.toNat * 256 ^ 3 = 0x1810102
    ∧ 2 * (scattered.after 12).numberIn scatteredCells
        + (scattered.after 12).registers.p.carry.toNat
      = (scattered.after 9).numberIn scatteredCells := by
  have hdistinct : scatteredCells.Nodup := by decide
  have hup : CellByCell scatteredCells (scatteredCells.map (.rol, ·)) scattered
      (scattered.after 3) :=
    cellByCell_after scatteredCells (by decide +kernel)
  have hdown : CellByCell scatteredCells (scatteredCells.reverse.map (.ror, ·)) (scattered.after 3)
      ((scattered.after 3).after 3) :=
    cellByCell_after scatteredCells (by decide +kernel)
  have hdouble : CellByCell scatteredCells (led .asl .rol scatteredCells) (scattered.after 6)
      ((scattered.after 6).after 3) :=
    cellByCell_after scatteredCells (by decide +kernel)
  have hhalve : CellByCell scatteredCells (led .lsr .ror scatteredCells.reverse)
      (scattered.after 9) ((scattered.after 9).after 3) :=
    cellByCell_after scatteredCells (by decide +kernel)
  rw [after_after] at hdown hdouble hhalve
  have hnumber : scattered.numberIn scatteredCells = 0xC08081 := by decide +kernel
  have hcarry : scattered.registers.p.carry = true := by decide +kernel
  obtain ⟨hrol, -, -, -, hback⟩ :=
    long_shifts (by decide) hdistinct scattered (scattered.after 3)
  obtain ⟨hagree, hcarryBack⟩ := hback _ hup hdown
  obtain ⟨-, hasl, -, -, -⟩ :=
    long_shifts (by decide) hdistinct (scattered.after 6) (scattered.after 9)
  obtain ⟨-, -, -, hlsr, -⟩ :=
    long_shifts (by decide) hdistinct (scattered.after 9) (scattered.after 12)
  have hdoubled := hrol hup
  have hcleared := hasl hdouble
  have hsame : (scattered.after 6).numberIn scatteredCells = scattered.numberIn scatteredCells :=
    congrArg littleEndian (List.map_congr_left fun cell hcell => (hagree cell hcell).symm)
  rw [hnumber, hcarry] at hdoubled
  rw [hsame, hnumber] at hcleared
  exact ⟨hnumber, hdoubled, hagree, hcarryBack.trans hcarry, hcleared, hlsr hhalve⟩

end Machine

end Mos6502
