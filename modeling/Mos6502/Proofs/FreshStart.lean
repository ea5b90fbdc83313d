/-
  Mos6502.Proofs.FreshStart — nothing is left of an earlier program

  A program begins in an emptied memory and in a window of its own, with no call open and
  with no return met.  Of all that went before only the registers remain, and the program
  counter does not; a reset puts the registers back as well.  So whatever two machines
  went through, if they hold the same in their registers they are one and the same machine
  after a program was loaded, and no request that follows can tell them apart.

  Main statements:
    * `loadProgram_congr`   — two machines that load the same program
    * `reset_eq_new`        — a reset machine is a new one
    * `fresh_start`         — nothing that is answered later depends on the past
-/
import Mos6502.Proofs.StraightLine

namespace Mos6502

/-! ## §1. What a host is told. -/

/-- What a host is told in reply to a request. -/
inductive Reply where
  /-- The request was served; there is nothing to tell. -/
  | done
  /-- Whether the data was accepted. -/
  | accepted (granted : Bool)
  /-- The byte that was fetched. -/
  | byte (fetched : Except Fault UInt8)
  /-- The word or the address that was fetched. -/
  | word (fetched : Except Fault UInt16)
  /-- Whether the step succeeded. -/
  | stepped (outcome : Except Fault Unit)
  /-- How the run came to its end, if it did. -/
  | ran (outcome : Except Fault (Option Machine.Ending))
  deriving Repr, DecidableEq

namespace Request

open ByteStream

/-- The reply to a request. -/
def reply (request : Request) (machine : Machine) : Reply :=
  match request with
  | loadProgram data address => .accepted (machine.loadProgram data address).1
  | loadData data address clear => .accepted (machine.loadData data address clear).1
  | update _ | reset | write _ _ => .done
  | nextByte => .byte (answer ByteStream.nextByte machine)
  | nextWord => .word (answer ByteStream.nextWord machine)
  | effectiveAddress mnemonic mode =>
    .word (answer (Machine.effectiveAddress mnemonic mode) machine)
  | readOperand mnemonic mode => .byte (answer (Machine.readOperand mnemonic mode) machine)
  | step => .stepped (answer Machine.step machine)
  | run fuel => .ran (answer (Machine.run fuel) machine)

end Request

namespace Machine

/-- The replies to a list of requests, served one after the other. -/
def replies : Machine → List Request → List Reply
  | _, [] => []
  | machine, request :: rest =>
    request.reply machine :: replies (request.serve machine) rest

/-! ## §2. Restarts. -/

/-- Both machines hold the same in their registers, the program counter apart. -/
structure SameRegisters (first second : Machine) : Prop where
  get_eq : ∀ register, first.registers.get register = second.registers.get register
  status_eq : first.registers.p.toByte = second.registers.p.toByte

theorem SameRegisters.goto_eq {first second : Machine} (h : SameRegisters first second)
    (address : UInt16) :
    { first.registers with pc := address } = { second.registers with pc := address } := by
  have hstatus : first.registers.p = second.registers.p := by
    rw [← Status.ofByte_toByte first.registers.p, h.status_eq, Status.ofByte_toByte]
  refine Registers.eq_of_get (fun register => ?_) rfl hstatus
  have hget := h.get_eq register
  cases register <;> exact hget

/-- A program is accepted by both machines or by none, and those that accept it become the same
machine. -/
theorem loadProgram_congr {first second : Machine} (h : SameRegisters first second)
    (data : List UInt8) (address : UInt16) :
    (first.loadProgram data address).1 = (second.loadProgram data address).1
    ∧ ((first.loadProgram data address).1 = true →
        (first.loadProgram data address).2 = (second.loadProgram data address).2) := by
  have hsame : (first.loadProgram data address).1 = (second.loadProgram data address).1 := by
    rw [loadProgram_fst, loadProgram_fst]
  refine ⟨hsame, fun haccepted => ?_⟩
  have haccepted' := hsame.symm.trans haccepted
  calc (first.loadProgram data address).2
    _ = { registers := { first.registers with pc := address }
          memory := Memory.zero.writeBytes address data
          window := ⟨address, data.length⟩ } := eq_of_loadProgram (Prod.ext haccepted rfl)
    _ = { registers := { second.registers with pc := address }
          memory := Memory.zero.writeBytes address data
          window := ⟨address, data.length⟩ } := by rw [h.goto_eq]
    _ = (second.loadProgram data address).2 :=
        (eq_of_loadProgram (Prod.ext haccepted' rfl)).symm

/-- A machine that was reset is one that was just switched on. -/
theorem reset_eq_new (machine : Machine) : machine.reset = new := rfl

/-- **Nothing is left of an earlier program.**  Two machines that hold the same in their registers,
whatever they went through, accept the same programs; once one is accepted they are the same
machine, and no request that follows is answered differently.  A reset does the same without a
condition: it makes any machine one that was just switched on. -/
theorem fresh_start {first second : Machine}
    (registers : ∀ register, first.registers.get register = second.registers.get register)
    (status : first.registers.p.toByte = second.registers.p.toByte)
    (data : List UInt8) (address : UInt16) :
    (first.loadProgram data address).1 = (second.loadProgram data address).1
    ∧ ((first.loadProgram data address).1 = true →
        (first.loadProgram data address).2 = (second.loadProgram data address).2
        ∧ ∀ requests,
            (first.loadProgram data address).2.replies requests
              = (second.loadProgram data address).2.replies requests
            ∧ (first.loadProgram data address).2.serve requests
              = (second.loadProgram data address).2.serve requests)
    ∧ ∀ machine : Machine, machine.reset = new := by
  obtain ⟨hsame, hloaded⟩ := loadProgram_congr ⟨registers, status⟩ data address
  refine ⟨hsame, fun haccepted => ?_, reset_eq_new⟩
  have heq := hloaded haccepted
  refine ⟨heq, fun requests => ⟨?_, ?_⟩⟩
  · rw [heq]
  · rw [heq]

/-- A machine in the middle of a call, with a byte of data in its memory. -/
def amidCall : Machine :=
  new.serve [.loadProgram [0x20, 0x03, 0x02, 0x60] 0x0200, .step, .write 0x0300 0xEA,
    .update { a := some 0x01, s := some 0xFF }]

/-- A machine whose program has returned. -/
def pastReturn : Machine :=
  new.serve [.loadProgram [0x60] 0x0040, .run 1, .update { a := some 0x01, s := some 0xFF }]

/-- The call that is open in one of them and the return that the other has met are forgotten: the
next program returns at its first instruction in both. -/
theorem fresh_start_return :
    (amidCall.callDepth = 1 ∧ amidCall.returned = false)
    ∧ (pastReturn.callDepth = 0 ∧ pastReturn.returned = true)
    ∧ (amidCall.loadProgram [0x60] 0x0300).2 = (pastReturn.loadProgram [0x60] 0x0300).2
    ∧ (amidCall.loadProgram [0x60] 0x0300).2.replies [.step, .run 0]
      = [.stepped (.ok ()), .ran (.ok (some .returned))]
    ∧ amidCall.reset = new := by
  have hregisters : ∀ register,
      amidCall.registers.get register = pastReturn.registers.get register := by
    intro register
    cases register <;> decide +kernel
  have haccepted : (amidCall.loadProgram [0x60] 0x0300).1 = true :=
    (loadProgram_fst amidCall [0x60] 0x0300).trans (by decide)
  have hreplies : (pastReturn.loadProgram [0x60] 0x0300).2.replies [.step, .run 0]
      = [.stepped (.ok ()), .ran (.ok (some .returned))] := by decide +kernel
  obtain ⟨-, hloaded, hreset⟩ := fresh_start hregisters (by decide +kernel) [0x60] 0x0300
  obtain ⟨hsame, hanswers⟩ := hloaded haccepted
  exact ⟨by decide +kernel, by decide +kernel, hsame, (hanswers _).1.trans hreplies,
    hreset amidCall⟩

end Machine

end Mos6502
