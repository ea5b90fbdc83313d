/-
  Mos6502.Proofs.SweepInPieces — a sweep that is taken piece by piece

  Decoding looks at the bytes of an instruction and at nothing behind them.  So what a sweep
  finds in a sequence stays the same when more bytes follow, and what it finds in these is
  what a sweep of them alone finds, begun at the address where the sequence ends.  Only an
  instruction that the sequence cuts off is in the way: with more bytes it is no longer
  cut off.

  Main statements:
    * `first_append`               — a complete instruction and more bytes behind it
    * `sweep_append`               — a sweep of two pieces
    * `not_cutOff_of_sweep_append` — nothing less than complete instructions will do
-/
import Mos6502.Proofs.ListingSweep

namespace Mos6502.Instruction

/-! ## §1. One instruction. -/

section First

variable {address : UInt16} {opcode : UInt8} {rest : List UInt8}

/-- What follows a complete instruction makes no difference to it. -/
theorem first_append (whole : ¬ (first address opcode rest).CutOff) (more : List UInt8) :
    first address opcode (rest ++ more) = first address opcode rest := by
  have hsize := Opcode.size_eq opcode
  have hcomplete : ¬ rest.length + 1 < Opcode.size opcode :=
    mt (cutOff_first_iff address opcode rest).mpr whole
  have htake : (rest ++ more).take (Opcode.mode opcode).operandLength
      = rest.take (Opcode.mode opcode).operandLength :=
    List.take_append_of_le_length (by omega)
  unfold first decode?
  simp only [htake]

/-- The first instruction takes its operands from the bytes that there are. -/
theorem length_operands_first_le :
    (first address opcode rest).operands.length ≤ rest.length := by
  have hbytes := congrArg List.length (bytes_first_append_drop address opcode rest)
  simp only [bytes, List.length_append, List.length_cons] at hbytes
  omega

/-- What is behind it begins where it ends. -/
theorem ofNat_next_first_add (count : Nat) :
    UInt16.ofNat ((first address opcode rest).next.toNat + count)
      = UInt16.ofNat
          (address.toNat + (1 + (first address opcode rest).operands.length + count)) := by
  have hsize := (toNat_size_first address opcode rest).1
  unfold next
  rw [address_first, UInt16.ofNat_add, UInt16.ofNat_toNat, UInt16.ofNat_add, ← hsize]
  simp [UInt16.add_assoc]

end First

/-! ## §2. The whole sweep. -/

/-- **A sweep in two pieces.**  If the first piece cuts no instruction off, a sweep of both pieces
finds what a sweep of the first finds, and then what a sweep of the second finds, begun at the
address where the first ends, round the top of memory. -/
theorem sweep_append {address : UInt16} {bytes : List UInt8}
    (whole : ∀ i ∈ sweep address bytes, ¬ i.CutOff) (more : List UInt8) :
    sweep address (bytes ++ more)
      = sweep address bytes ++ sweep (UInt16.ofNat (address.toNat + bytes.length)) more := by
  induction address, bytes using sweep_induction with
  | nil address =>
    rw [List.nil_append, sweep_nil, List.nil_append, List.length_nil, Nat.add_zero,
      UInt16.ofNat_toNat]
  | cons address opcode rest ih =>
    rw [sweep_cons, List.forall_mem_cons] at whole
    obtain ⟨hfirst, hrest⟩ := whole
    have hle : (first address opcode rest).operands.length ≤ rest.length :=
      length_operands_first_le
    rw [List.cons_append, sweep_cons, sweep_cons, first_append hfirst,
      List.drop_append_of_le_length hle, ih hrest, ofNat_next_first_add, List.cons_append]
    -- What is left of the first piece ends where the piece ends.
    have hlength : 1 + (first address opcode rest).operands.length
          + (rest.drop (first address opcode rest).operands.length).length
        = (opcode :: rest).length := by
      rw [List.length_drop, List.length_cons]
      omega
    rw [hlength]

/-- Two bytes more, and what was cut off is complete: the condition is exact. -/
theorem not_cutOff_of_sweep_append {address : UInt16} {bytes : List UInt8}
    (h : ∀ more, sweep address (bytes ++ more)
      = sweep address bytes ++ sweep (UInt16.ofNat (address.toNat + bytes.length)) more) :
    ∀ i ∈ sweep address bytes, ¬ i.CutOff := by
  intro i hi hcut
  obtain ⟨before, after, hsweep⟩ := List.append_of_mem hi
  obtain ⟨rest, hdrop, hshort⟩ := sweep_eq_append hsweep
  have hlonger := h [0, 0]
  rw [hsweep, List.append_assoc, List.cons_append] at hlonger
  obtain ⟨rest', hdrop', hlong⟩ := sweep_eq_append hlonger
  -- Both times the instruction is the first of what those before it leave.
  have hlength : rest.length + 2 = rest'.length := by
    have h₁ := congrArg List.length hdrop
    have h₂ := congrArg List.length hdrop'
    rw [List.length_drop, List.length_cons] at h₁
    rw [List.length_drop, List.length_append, List.length_cons] at h₂
    simp only [List.length_cons, List.length_nil] at h₂
    omega
  have hsize := Opcode.size_le i.opcode
  rw [hlong] at hcut
  have hcomplete := (cutOff_first_iff i.address i.opcode rest').mp hcut
  omega

/-- A load and an opcode that stands for nothing, right below the top of memory. -/
def atTheTop : List UInt8 := [0xA9, 0x10, 0x02]

theorem sweep_append_atTheTop :
    sweep 0xFFFE (atTheTop ++ [0xAD, 0x34])
      = [⟨0xFFFE, 0xA9, "LDA", .immediate, [0x10], 2⟩, ⟨0x0000, 0x02, "???", .implicit, [], 1⟩]
        ++ sweep 0x0001 [0xAD, 0x34] := by
  have hsweep : sweep 0xFFFE atTheTop
      = [⟨0xFFFE, 0xA9, "LDA", .immediate, [0x10], 2⟩,
        ⟨0x0000, 0x02, "???", .implicit, [], 1⟩] := by
    decide +kernel
  have hwhole : ∀ i ∈ sweep 0xFFFE atTheTop, ¬ i.CutOff := by
    rw [hsweep]
    decide
  rw [sweep_append hwhole, hsweep]
  rfl

end Mos6502.Instruction
