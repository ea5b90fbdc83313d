/-
  Mos6502.Proofs.ReadFootprint — all that one step looks at

  A step looks at the bytes of its instruction, at a pointer if the mode goes through one, at
  the byte its operand stands for if it reads that byte, and at the bytes it pulls.  On a
  memory that has the same bytes at these addresses it does the same: it ends in the same way,
  leaves the same registers and counts, and writes the same bytes.  So nothing that is kept
  elsewhere in memory can be told from a step.

  Main statements:
    * `effective_withMemory` — the address of an operand depends on the operand and the pointer
    * `perform_withMemory`   — an instruction on another memory
    * `step_withMemory`      — a step on another memory
    * `step_reads`           — two machines that differ where a step does not look
-/
import Mos6502.Proofs.Decoding
import Mos6502.Proofs.Footprint
import Mos6502.Proofs.Session

namespace Mos6502

/-! ## §1. Memories that agree. -/

namespace Memory

/-- Both memories have the same bytes at some addresses. -/
def AgreeOn (cells : List UInt16) (memory other : Memory) : Prop :=
  ∀ address ∈ cells, memory.read address = other.read address

instance (cells : List UInt16) (memory other : Memory) : Decidable (AgreeOn cells memory other) :=
  List.decidableBAll (fun address => memory.read address = other.read address) cells

theorem agreeOn_append {cells more : List UInt16} {memory other : Memory} :
    AgreeOn (cells ++ more) memory other
      ↔ AgreeOn cells memory other ∧ AgreeOn more memory other :=
  List.forall_mem_append

theorem AgreeOn.readWord_eq {memory other : Memory} {low high : UInt16}
    (h : AgreeOn [low, high] memory other) :
    memory.readWord low high = other.readWord low high := by
  have hlow := h low List.mem_cons_self
  have hhigh := h high (List.mem_cons_of_mem low List.mem_cons_self)
  unfold readWord
  rw [hlow, hhigh]

/-- Where two memories agree, or where both are written, they agree after the same writes. -/
theorem read_writeAll_congr {memory other : Memory} {cells : List (UInt16 × UInt8)}
    {address : UInt16}
    (h : memory.read address = other.read address ∨ address ∈ cells.map Prod.fst) :
    (memory.writeAll cells).read address = (other.writeAll cells).read address := by
  induction cells generalizing memory other with
  | nil => exact h.resolve_right List.not_mem_nil
  | cons cell cells ih =>
    apply ih
    by_cases hcell : cell.1 = address
    · left
      rw [← hcell, read_write_self, read_write_self]
    · rw [read_write_of_ne _ _ hcell, read_write_of_ne _ _ hcell]
      apply h.imp_right
      intro hmem
      exact (List.mem_cons.mp hmem).resolve_left (Ne.symm hcell)

end Memory

/-! ## §2. The addresses. -/

open Memory

/-- The places on the stack that an operation pulls from, when the pointer is given. -/
def Implied.pulledFrom (pointer : UInt8) : Implied → List UInt16
  | .pullAccumulator | .pullStatus => [Stack.address (pointer + 1)]
  | .ret => [Stack.address (pointer + 1), Stack.address (pointer + 1 + 1)]
  | _ => []

namespace Machine

open ByteStream

/-- The bytes of the instruction at the program counter, as far as they can be fetched. -/
def fetchedCells (machine : Machine) : List UInt16 :=
  ((List.range (Opcode.size (machine.memory.read machine.registers.pc))).filter
    fun i => decide (InReach machine (i + 1))).map fun i => machine.registers.pc + UInt16.ofNat i

/-- The pointer that the operand of the instruction goes through. -/
def pointerCells (machine : Machine) (mode : AddressingMode) : List UInt16 :=
  let low := machine.memory.read (machine.registers.pc + 1)
  let high := machine.memory.read (machine.registers.pc + 1 + 1)
  match mode with
  | .indirect => [word low high, word low high + 1]
  | .indirectX =>
    [(low + machine.registers.x).toUInt16, (low + machine.registers.x + 1).toUInt16]
  | .indirectY => [low.toUInt16, (low + 1).toUInt16]
  | _ => []

/-- The byte of memory that the operand stands for, if the instruction reads it. -/
def operandCells (machine : Machine) (e : Encoding) : List UInt16 :=
  match e.mnemonic.operation with
  | .reading _ => if e.mode = .immediate then [] else [machine.effective e.mode]
  | .shifting _ => if e.mode = .accumulator then [] else [machine.effective e.mode]
  | .changing _ => [machine.effective e.mode]
  | _ => []

/-- The bytes that the instruction pulls. -/
def pulledCells (machine : Machine) (e : Encoding) : List UInt16 :=
  match e.mnemonic.operation with
  | .implied action => action.pulledFrom machine.registers.s
  | _ => []

/-- All that a step looks at in memory. -/
def readCells (machine : Machine) : List UInt16 :=
  machine.fetchedCells ++
    match machine.instruction? with
    | some e =>
      if InReach machine e.size then
        machine.pointerCells e.mode ++ (machine.operandCells e ++ machine.pulledCells e)
      else []
    | none => []

/-- The bytes that a step writes, each with its address. -/
def writesOfStep (machine : Machine) : List (UInt16 × UInt8) :=
  match machine.instruction? with
  | some e => if InReach machine e.size then machine.writes e else []
  | none => []

/-- The same machine with another memory. -/
def withMemory (machine : Machine) (memory : Memory) : Machine := { machine with memory }

/-! ## §3. An instruction on another memory. -/

theorem pop_withMemory (machine : Machine) {other : Memory}
    (h : machine.memory.read (Stack.address (machine.registers.s + 1))
      = other.read (Stack.address (machine.registers.s + 1))) :
    (machine.withMemory other).pop = (machine.pop.1, machine.pop.2.withMemory other) :=
  Prod.ext h.symm rfl

theorem ret_withMemory (machine : Machine) {other : Memory}
    (h : AgreeOn (Implied.ret.pulledFrom machine.registers.s) machine.memory other) :
    (machine.withMemory other).ret = machine.ret.withMemory other := by
  have hlow := machine.pop_withMemory (h _ List.mem_cons_self)
  have hhigh := machine.pop.2.pop_withMemory
    (h _ (List.mem_cons_of_mem _ List.mem_cons_self))
  rw [ret_eq, ret_eq, hlow, hhigh]
  show (if machine.callDepth = 0 then _ else _ : Machine)
    = (if machine.callDepth = 0 then _ else _ : Machine).withMemory other
  split <;> rfl

/-- A change in memory looks at the byte that it changes. -/
theorem changeAt_withMemory (change : Change) (machine : Machine) {other : Memory}
    {address : UInt16} (h : machine.memory.read address = other.read address) :
    changeAt change address (machine.withMemory other)
      = (changeAt change address machine).withMemory
          (changeAt change address (machine.withMemory other)).memory := by
  unfold changeAt withMemory
  rw [h]

end Machine

open Machine

/-- An operation without an operand looks at what it pulls. -/
theorem Implied.apply_withMemory (action : Implied) (machine : Machine) {other : Memory}
    (h : AgreeOn (action.pulledFrom machine.registers.s) machine.memory other) :
    action.apply (machine.withMemory other)
      = (action.apply machine).withMemory (action.apply (machine.withMemory other)).memory := by
  cases action with
  | pullAccumulator =>
    have hpop := machine.pop_withMemory (h _ List.mem_cons_self)
    show (machine.withMemory other).pop.2.onRegisters
      (·.setResult .a (machine.withMemory other).pop.1) = _
    rw [hpop]
    rfl
  | pullStatus =>
    have hpop := machine.pop_withMemory (h _ List.mem_cons_self)
    show (machine.withMemory other).pop.2.onRegisters
      ({ · with p := Status.ofByte (machine.withMemory other).pop.1 }) = _
    rw [hpop]
    rfl
  | ret =>
    show (machine.withMemory other).ret
      = machine.ret.withMemory (machine.withMemory other).ret.memory
    rw [machine.ret_withMemory h]
    rfl
  | _ => rfl

/-- An operation on an address looks at nothing. -/
theorem Targeting.apply_withMemory (action : Targeting) (address : UInt16) (machine : Machine)
    (other : Memory) :
    action.apply address (machine.withMemory other)
      = (action.apply address machine).withMemory
          (action.apply address (machine.withMemory other)).memory := by
  cases action with
  | branch flag value =>
    show (if machine.registers.p.test flag = value then _ else _ : Machine)
      = (if machine.registers.p.test flag = value then _ else _ : Machine).withMemory
          (if machine.registers.p.test flag = value then _ else _ : Machine).memory
    split <;> rfl
  | _ => rfl

namespace Machine

open ByteStream

section OtherMemory

variable {machine : Machine} {other : Memory} {e : Encoding}

theorem read_fetched (h : AgreeOn machine.fetchedCells machine.memory other) {i : Nat}
    (hsize : i < Opcode.size (machine.memory.read machine.registers.pc))
    (hreach : InReach machine (i + 1)) :
    machine.memory.read (machine.registers.pc + UInt16.ofNat i)
      = other.read (machine.registers.pc + UInt16.ofNat i) := by
  apply h
  apply List.mem_map_of_mem
  exact List.mem_filter.mpr ⟨List.mem_range.mpr hsize, decide_eq_true hreach⟩

theorem read_opcode (h : AgreeOn machine.fetchedCells machine.memory other)
    (hreach : InReach machine 1) :
    machine.memory.read machine.registers.pc = other.read machine.registers.pc := by
  have hopcode := read_fetched h (Opcode.size_pos _) hreach
  have hpc : machine.registers.pc + UInt16.ofNat 0 = machine.registers.pc := UInt16.add_zero _
  rw [hpc] at hopcode
  exact hopcode

theorem instruction?_withMemory (h : AgreeOn machine.fetchedCells machine.memory other)
    (hreach : InReach machine 1) :
    (machine.withMemory other).instruction? = machine.instruction? :=
  congrArg Opcode.encoding (read_opcode h hreach).symm

/-- The bytes of the operand are the same, as many as there are. -/
theorem read_operand (h : AgreeOn machine.fetchedCells machine.memory other)
    (hinstr : machine.instruction? = some e) (hreach : InReach machine e.size) {i : Nat}
    (hi : i < e.mode.operandLength) :
    other.read (machine.registers.pc + UInt16.ofNat (i + 1))
      = machine.memory.read (machine.registers.pc + UInt16.ofNat (i + 1)) := by
  have hsize : i + 1 < e.size := by
    unfold Encoding.size
    omega
  refine (read_fetched h ?_ ?_).symm
  · rw [Opcode.size_of_encoding hinstr]
    exact hsize
  · -- All bytes of an instruction in reach are in reach.
    apply inReach_of_add (n := e.size - (i + 1 + 1))
    rw [Nat.add_sub_cancel' hsize]
    exact hreach

/-- The address of an operand depends on its bytes and on the pointer, and on nothing else in
memory. -/
theorem effective_withMemory (hfetched : AgreeOn machine.fetchedCells machine.memory other)
    (hinstr : machine.instruction? = some e) (hreach : InReach machine e.size)
    (hpointer : AgreeOn (machine.pointerCells e.mode) machine.memory other) :
    (machine.withMemory other).effective e.mode = machine.effective e.mode := by
  have hbytes := fun i => read_operand hfetched hinstr hreach (i := i)
  have hlow : 1 ≤ e.mode.operandLength →
      other.read (machine.registers.pc + 1) = machine.memory.read (machine.registers.pc + 1) :=
    hbytes 0
  have hhigh : 2 ≤ e.mode.operandLength →
      other.read (machine.registers.pc + 1 + 1)
        = machine.memory.read (machine.registers.pc + 1 + 1) := by
    intro hi
    rw [UInt16.add_assoc]
    exact hbytes 1 hi
  unfold pointerCells at hpointer
  unfold effective withMemory
  cases hmode : e.mode with
  | implicit | accumulator | immediate => rfl
  | zeroPage | zeroPageX | zeroPageY | relative =>
    rw [hmode] at hlow
    simp only [hlow (Nat.le_refl 1)]
  | absolute | absoluteX | absoluteY =>
    rw [hmode] at hlow hhigh
    simp only [hlow (by decide), hhigh (by decide)]
  | indirect =>
    rw [hmode] at hlow hhigh hpointer
    simp only [hlow (by decide), hhigh (by decide)]
    exact hpointer.readWord_eq.symm
  | indirectX =>
    rw [hmode] at hlow hpointer
    simp only [hlow (by decide)]
    exact hpointer.readWord_eq.symm
  | indirectY =>
    rw [hmode] at hlow hpointer
    simp only [hlow (by decide)]
    exact congrArg (· + machine.registers.y.toUInt16) hpointer.readWord_eq.symm

/-- The value of an operand is the byte after the opcode, or depends on one byte more. -/
theorem operand_withMemory (hfetched : AgreeOn machine.fetchedCells machine.memory other)
    (hinstr : machine.instruction? = some e) (hreach : InReach machine e.size)
    (heffective : (machine.withMemory other).effective e.mode = machine.effective e.mode)
    (hcell : e.mode ≠ .immediate →
      other.read (machine.effective e.mode) = machine.memory.read (machine.effective e.mode)) :
    (machine.withMemory other).operand e.mode = machine.operand e.mode := by
  by_cases himmediate : e.mode = .immediate
  · have hbyte := read_operand hfetched hinstr hreach (i := 0) (by rw [himmediate]; decide)
    rw [himmediate]
    exact hbyte
  · unfold operand
    rw [operandValue_of_ne_immediate _ himmediate, operandValue_of_ne_immediate _ himmediate]
    show other.read ((machine.withMemory other).target e.mode)
      = machine.memory.read (machine.target e.mode)
    rw [target_eq_effective, target_eq_effective, heffective, hcell himmediate]

theorem agreeOn_readCells_iff (hinstr : machine.instruction? = some e)
    (hreach : InReach machine e.size) :
    AgreeOn machine.readCells machine.memory other
      ↔ AgreeOn machine.fetchedCells machine.memory other
        ∧ AgreeOn (machine.pointerCells e.mode) machine.memory other
        ∧ AgreeOn (machine.operandCells e) machine.memory other
        ∧ AgreeOn (machine.pulledCells e) machine.memory other := by
  unfold readCells
  simp only [hinstr, if_pos hreach, agreeOn_append]

theorem changed_withMemory (change : Change) {mode : AddressingMode}
    (heffective : (machine.withMemory other).effective mode = machine.effective mode)
    (hbyte : machine.memory.read (machine.effective mode)
      = other.read (machine.effective mode)) :
    (machine.withMemory other).changed change mode = machine.changed change mode := by
  unfold changed
  simp only [heffective, hbyte]
  rfl

/-- The same bytes are written to the same addresses. -/
theorem writes_withMemory
    (heffective : (machine.withMemory other).effective e.mode = machine.effective e.mode)
    (hoperand : AgreeOn (machine.operandCells e) machine.memory other) :
    (machine.withMemory other).writes e = machine.writes e := by
  unfold operandCells at hoperand
  unfold writes
  cases hop : e.mnemonic.operation with
  | implied action => cases action <;> rfl
  | reading action => rfl
  | shifting change =>
    rw [hop] at hoperand
    cases hmode : e.mode with
    | accumulator => rfl
    | _ =>
      rw [hmode] at heffective hoperand
      exact congrArg (fun cell => [cell])
        (changed_withMemory change heffective (hoperand _ List.mem_cons_self))
  | changing change =>
    rw [hop] at hoperand
    exact congrArg (fun cell => [cell])
      (changed_withMemory change heffective (hoperand _ List.mem_cons_self))
  | targeting action =>
    cases action with
    | store register => simp only [heffective]; rfl
    | _ => rfl

/-- **An instruction on another memory.**  If that has the same bytes where the instruction
looks, the instruction does the same with it, and writes the same bytes to it. -/
theorem perform_withMemory (hinstr : machine.instruction? = some e)
    (hreach : InReach machine e.size) (h : AgreeOn machine.readCells machine.memory other) :
    (machine.withMemory other).perform e
      = (machine.perform e).withMemory (other.writeAll (machine.writes e)) := by
  obtain ⟨hfetched, hpointer, hoperand, hpulled⟩ := (agreeOn_readCells_iff hinstr hreach).mp h
  have heffective := effective_withMemory hfetched hinstr hreach hpointer
  have htarget : (machine.withMemory other).target e.mode = machine.target e.mode := by
    rw [target_eq_effective, target_eq_effective, heffective]
  -- What is written is settled by `memory_perform`; all else is compared kind by kind.
  suffices hrest : (machine.withMemory other).perform e
      = (machine.perform e).withMemory ((machine.withMemory other).perform e).memory by
    rw [hrest, memory_perform, writes_withMemory heffective hoperand]
    rfl
  unfold operandCells at hoperand
  unfold pulledCells at hpulled
  cases hop : e.mnemonic.operation with
  | implied action =>
    rw [hop] at hpulled
    rw [perform_of_implied rfl hop, perform_of_implied rfl hop]
    exact action.apply_withMemory (advance machine e.size) hpulled
  | reading action =>
    rw [hop] at hoperand
    have hvalue := operand_withMemory hfetched hinstr hreach heffective (by
      intro himmediate
      rw [if_neg himmediate] at hoperand
      exact (hoperand _ List.mem_cons_self).symm)
    rw [perform_of_reading rfl hop, perform_of_reading rfl hop, hvalue]
    rfl
  | shifting change =>
    rw [hop] at hoperand
    by_cases hmode : e.mode = .accumulator
    · rw [perform_of_shifting_accumulator rfl hop hmode,
        perform_of_shifting_accumulator rfl hop hmode]
      rfl
    · rw [if_neg hmode, ← target_eq_effective] at hoperand
      rw [perform_of_shifting rfl hop hmode, perform_of_shifting rfl hop hmode, htarget]
      exact changeAt_withMemory change (advance machine e.size) (hoperand _ List.mem_cons_self)
  | changing change =>
    rw [hop, ← target_eq_effective] at hoperand
    rw [perform_of_changing rfl hop, perform_of_changing rfl hop, htarget]
    exact changeAt_withMemory change (advance machine e.size) (hoperand _ List.mem_cons_self)
  | targeting action =>
    rw [perform_of_targeting rfl hop, perform_of_targeting rfl hop, htarget]
    exact action.apply_withMemory _ (advance machine e.size) other

/-! ## §4. A step on another memory. -/

theorem writesOfStep_of_complete (hinstr : machine.instruction? = some e)
    (hreach : InReach machine e.size) : machine.writesOfStep = machine.writes e := by
  unfold writesOfStep
  simp only [hinstr, if_pos hreach]

/-- A step that fails writes nothing. -/
theorem writesOfStep_of_error {failed : Machine} {fault : Fault}
    (h : step machine = .error fault failed) : machine.writesOfStep = [] := by
  unfold writesOfStep
  cases hinstr : machine.instruction? with
  | none => rfl
  | some e =>
    have hreach : ¬ InReach machine e.size := by
      intro hreach
      rw [step_of_complete hinstr hreach] at h
      cases h
    exact if_neg hreach

/-- A step writes its bytes and nothing else. -/
theorem memory_step (machine : Machine) :
    (leave step machine).memory = machine.memory.writeAll machine.writesOfStep := by
  cases hstep : step machine with
  | ok _ next =>
    obtain ⟨e, hinstr, hreach, rfl⟩ := step_eq_ok_iff.mp hstep
    rw [leave_of_ok hstep, writesOfStep_of_complete hinstr hreach, memory_perform]
  | error fault failed =>
    rw [leave_of_error hstep, writesOfStep_of_error hstep]
    rcases step_error_cases hstep with ⟨-, -, rfl⟩ | ⟨-, -, -, rfl⟩ | ⟨e, -, -, -, -, rfl⟩
      <;> rfl

/-- **A step on another memory.**  If that has the same bytes where the step looks, the answer
is the same, and so is all that the step leaves besides memory. -/
theorem step_withMemory (h : AgreeOn machine.readCells machine.memory other) :
    answer step (machine.withMemory other) = answer step machine
    ∧ leave step (machine.withMemory other)
        = (leave step machine).withMemory (other.writeAll machine.writesOfStep) := by
  have hfetched : AgreeOn machine.fetchedCells machine.memory other := (agreeOn_append.mp h).1
  cases hstep : step machine with
  | ok _ next =>
    obtain ⟨e, hinstr, hreach, rfl⟩ := step_eq_ok_iff.mp hstep
    have hone : InReach machine 1 := inReach_of_add (n := e.mode.operandLength) hreach
    have hinstr' := (instruction?_withMemory hfetched hone).trans hinstr
    have hstep' := step_of_complete hinstr' hreach
    rw [perform_withMemory hinstr hreach h] at hstep'
    rw [answer_of_ok hstep, answer_of_ok hstep', leave_of_ok hstep, leave_of_ok hstep',
      writesOfStep_of_complete hinstr hreach]
    exact ⟨rfl, rfl⟩
  | error fault failed =>
    -- Outside the window nothing is read: only an opcode in reach has to be the same.
    have hstep' : step (machine.withMemory other) = .error fault (failed.withMemory other) := by
      rcases step_error_cases hstep with ⟨hone, rfl, rfl⟩ | ⟨hone, hinstr, rfl, rfl⟩
        | ⟨e, hone, hinstr, hreach, rfl, rfl⟩
      · exact step_of_not_inReach hone
      · have hinstr' := (instruction?_withMemory hfetched hone).trans hinstr
        rw [read_opcode hfetched hone]
        exact step_of_undocumented hone hinstr'
      · have hinstr' := (instruction?_withMemory hfetched hone).trans hinstr
        have hone' : InReach (machine.withMemory other) 1 := hone
        have hreach' : ¬ InReach (machine.withMemory other) e.size := hreach
        rw [step_of_instruction hone' hinstr']
        exact delivery_of_not_inReach hreach' _
    rw [answer_of_error hstep, answer_of_error hstep', leave_of_error hstep,
      leave_of_error hstep', writesOfStep_of_error hstep]
    exact ⟨rfl, rfl⟩

end OtherMemory

/-! ## §5. Two machines. -/

/-- Two machines that differ in memory at most. -/
structure AlikeOffMemory (left right : Machine) : Prop where
  registers_eq : left.registers = right.registers
  window_eq : left.window = right.window
  callDepth_eq : left.callDepth = right.callDepth
  returned_eq : left.returned = right.returned

theorem alikeOffMemory_withMemory (machine : Machine) (memory : Memory) :
    AlikeOffMemory machine (machine.withMemory memory) :=
  ⟨rfl, rfl, rfl, rfl⟩

theorem AlikeOffMemory.eq_withMemory {left right : Machine} (h : AlikeOffMemory left right) :
    right = left.withMemory right.memory := by
  obtain ⟨registers, memory, window, callDepth, returned⟩ := right
  obtain ⟨rfl, rfl, rfl, rfl⟩ := h
  rfl

/-- **What a step looks at.**  Two machines whose memories differ only where the first does not
look in a step end that step alike: with the same answer, the same registers, counts and
flags, the same bytes written, and so the same memory wherever their memories agreed before
or the step has written. -/
theorem step_reads {left right : Machine} (alike : AlikeOffMemory left right)
    (agree : AgreeOn left.readCells left.memory right.memory) :
    answer step left = answer step right
    ∧ AlikeOffMemory (leave step left) (leave step right)
    ∧ (leave step left).memory = left.memory.writeAll left.writesOfStep
    ∧ (leave step right).memory = right.memory.writeAll left.writesOfStep
    ∧ ∀ address, left.memory.read address = right.memory.read address
          ∨ address ∈ left.writesOfStep.map Prod.fst →
        (leave step left).memory.read address = (leave step right).memory.read address := by
  obtain ⟨hanswer, hleave⟩ := step_withMemory agree
  rw [← alike.eq_withMemory] at hanswer hleave
  have hright : (leave step right).memory = right.memory.writeAll left.writesOfStep := by
    rw [hleave]
    rfl
  refine ⟨hanswer.symm, ?_, memory_step left, hright, ?_⟩
  · rw [hleave]
    exact alikeOffMemory_withMemory (leave step left) _
  · intro address h
    rw [memory_step, hright]
    exact read_writeAll_congr h

/-- A store through a pointer that begins at the last place of page zero and leads to 0x0300. -/
def storeThroughPointer : Machine :=
  ((new.loadProgram [0x81, 0xFE] 0x0200).2.update { a := some 0x55, x := some 0x01 }).withMemory
    ((new.loadProgram [0x81, 0xFE] 0x0200).2.memory.write 0x0000 0x03)

/-- A memory with other bytes at the place of the store and behind it. -/
def elsewhere : Memory :=
  (storeThroughPointer.memory.write 0x0300 0x99).write 0x0301 0x77

theorem step_reads_storeThroughPointer :
    storeThroughPointer.readCells = [0x0200, 0x0201, 0x00FF, 0x0000]
    ∧ answer step storeThroughPointer = answer step (storeThroughPointer.withMemory elsewhere)
    ∧ (leave step storeThroughPointer).memory.read 0x0300
        = (leave step (storeThroughPointer.withMemory elsewhere)).memory.read 0x0300 := by
  have hagree : AgreeOn storeThroughPointer.readCells storeThroughPointer.memory elsewhere := by
    decide +kernel
  obtain ⟨hanswer, -, -, -, hmemory⟩ :=
    step_reads (alikeOffMemory_withMemory storeThroughPointer elsewhere) hagree
  exact ⟨by decide +kernel, hanswer, hmemory 0x0300 (.inr (by decide +kernel))⟩

end Machine

end Mos6502
