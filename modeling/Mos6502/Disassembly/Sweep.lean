/-
  Mos6502.Disassembly.Sweep — all instructions of a sequence of bytes

  A sweep decodes one instruction after the other, each beginning where the one
  before ended.  A byte that begins no complete instruction is taken alone, so
  that the sweep goes on to the end and no byte is lost.

  Main statements:
    * `sweep_nil`, `sweep_cons` — the sweep as a recursion on the bytes
-/
import Mos6502.Disassembly.Instruction

namespace Mos6502.Instruction

/-! ## §1. The sweep. -/

/-- The first instruction of a sequence that begins with `opcode`: the decoded one, or
the opcode alone if the sequence ends before its operands do. -/
def first (address : UInt16) (opcode : UInt8) (rest : List UInt8) : Instruction :=
  (decode? address (opcode :: rest)).getD (unknown address opcode)

/-- Sweeps a sequence; `done` holds the instructions before it, the last one first. -/
def sweepOnto (done : List Instruction) (address : UInt16) :
    List UInt8 → List Instruction
  | [] => done.reverse
  | opcode :: rest =>
    let instruction := first address opcode rest
    sweepOnto (instruction :: done) instruction.next (rest.drop instruction.operands.length)
  termination_by bytes => bytes.length
  decreasing_by simp only [List.length_cons, List.length_drop]; omega

/-- The instructions of a sequence whose first byte is at `address`. -/
def sweep (address : UInt16) (bytes : List UInt8) : List Instruction :=
  sweepOnto [] address bytes

/-! ## §2. The recursion. -/

theorem sweepOnto_eq_append (done : List Instruction) (address : UInt16) (bytes : List UInt8) :
    sweepOnto done address bytes = done.reverse ++ sweep address bytes := by
  unfold sweep
  induction h : bytes.length using Nat.strongRecOn generalizing done address bytes with
  | ind n ih =>
    cases bytes with
    | nil => simp [sweepOnto]
    | cons opcode rest =>
      have shorter : (rest.drop (first address opcode rest).operands.length).length < n := by
        rw [← h, List.length_drop, List.length_cons]
        omega
      rw [sweepOnto, sweepOnto, ih _ shorter _ _ _ rfl, ih _ shorter [_] _ _ rfl]
      simp

@[simp] theorem sweep_nil (address : UInt16) : sweep address [] = [] := by
  simp [sweep, sweepOnto]

theorem sweep_cons (address : UInt16) (opcode : UInt8) (rest : List UInt8) :
    sweep address (opcode :: rest)
      = first address opcode rest
        :: sweep (first address opcode rest).next
            (rest.drop (first address opcode rest).operands.length) := by
  rw [sweep, sweepOnto, sweepOnto_eq_append]
  rfl

end Mos6502.Instruction
