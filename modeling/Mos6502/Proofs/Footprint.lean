/-
  Mos6502.Proofs.Footprint — all that one step changes

  Of an instruction it is said which bytes it writes and where, from the state before
  it alone: the memory after the instruction is the memory before with these bytes
  written, and nothing else.  Only stores, changes in memory and pushes write at all, at
  most two bytes each.  Together with the registers that an instruction may change this
  is the whole account of a step, apart from program counter and status.

  Main statements:
    * `target_eq_effective`  — the address of an operand, from the state before
    * `memory_perform`       — memory after an instruction
    * `s_perform`            — the stack pointer after an instruction
    * `step_footprint`       — what a step may change, and where
-/
import Mathlib.Tactic.ByContra
import Mos6502.Proofs.StackFrames

namespace Mos6502

/-! ## §1. Effective addresses. -/

namespace Machine

/-- The address that the operand of the instruction at the program counter leads to, from
the bytes after the opcode, the registers and the memory as they are. -/
def effective (machine : Machine) (mode : AddressingMode) : UInt16 :=
  let low := machine.memory.read (machine.registers.pc + 1)
  let high := machine.memory.read (machine.registers.pc + 1 + 1)
  match mode with
  | .implicit | .accumulator | .immediate => 0
  | .zeroPage => low.toUInt16
  | .zeroPageX => (low + machine.registers.x).toUInt16
  | .zeroPageY => (low + machine.registers.y).toUInt16
  | .relative => machine.registers.pc + 1 + 1 + signExtend low
  | .absolute => word low high
  | .absoluteX => word low high + machine.registers.x.toUInt16
  | .absoluteY => word low high + machine.registers.y.toUInt16
  | .indirect => machine.memory.readWord (word low high) (word low high + 1)
  | .indirectX => machine.memory.zeroPageWord (low + machine.registers.x)
  | .indirectY => machine.memory.zeroPageWord low + machine.registers.y.toUInt16

/-- Fetching the operand on the way to its address makes no difference. -/
theorem target_eq_effective (machine : Machine) (mode : AddressingMode) :
    machine.target mode = machine.effective mode := by
  have hlow : lowByte (machine.memory.read (machine.registers.pc + 1)).toUInt16
      = machine.memory.read (machine.registers.pc + 1) := UInt8.toUInt8_toUInt16 _
  cases mode with
  | zeroPageX => exact congrArg (fun low => (low + machine.registers.x).toUInt16) hlow
  | zeroPageY => exact congrArg (fun low => (low + machine.registers.y).toUInt16) hlow
  | relative =>
    exact congrArg (fun low => machine.registers.pc + 1 + 1 + signExtend low) hlow
  | indirectX =>
    exact congrArg (fun low => machine.memory.zeroPageWord (low + machine.registers.x)) hlow
  | indirectY =>
    exact congrArg
      (fun low => machine.memory.zeroPageWord low + machine.registers.y.toUInt16) hlow
  | _ => rfl

end Machine

/-! ## §2. Memory. -/

namespace Memory

/-- The memory with some bytes written, each at its own address, one after the other. -/
def writeAll (memory : Memory) (cells : List (UInt16 × UInt8)) : Memory :=
  cells.foldl (fun memory cell => memory.write cell.1 cell.2) memory

theorem read_writeAll_of_not_mem (memory : Memory) {cells : List (UInt16 × UInt8)}
    {address : UInt16} (h : address ∉ cells.map Prod.fst) :
    (memory.writeAll cells).read address = memory.read address := by
  induction cells generalizing memory with
  | nil => rfl
  | cons cell cells ih =>
    rw [List.map_cons, List.mem_cons, not_or] at h
    show ((memory.write cell.1 cell.2).writeAll cells).read address = _
    rw [ih _ h.2, read_write_of_ne _ _ (Ne.symm h.1)]

end Memory

namespace Machine

open ByteStream

/-- What a change makes of the byte that the operand leads to, with its address. -/
def changed (machine : Machine) (change : Change) (mode : AddressingMode) : UInt16 × UInt8 :=
  let address := machine.effective mode
  (address, (change.outcome (machine.memory.read address) machine.registers.p).1)

/-- The bytes that the instruction at the program counter writes, the first one first, each
with its address. -/
def writes (machine : Machine) (e : Encoding) : List (UInt16 × UInt8) :=
  let registers := machine.registers
  match e.mnemonic.operation with
  | .targeting (.store register) => [(machine.effective e.mode, registers.get register)]
  | .shifting change =>
    match e.mode with
    | .accumulator => []
    | mode => [machine.changed change mode]
  | .changing change => [machine.changed change e.mode]
  | .implied .pushAccumulator => [(Stack.address registers.s, registers.a)]
  | .implied .pushStatus => [(Stack.address registers.s, registers.p.toByte)]
  | .targeting .call =>
    let next := registers.pc + UInt16.ofNat e.size
    [(Stack.address registers.s, highByte next), (Stack.address (registers.s - 1), lowByte next)]
  | _ => []

/-- Where the instruction writes. -/
def footprint (machine : Machine) (e : Encoding) : List UInt16 :=
  (machine.writes e).map Prod.fst

/-- An instruction writes its bytes and nothing else. -/
theorem memory_perform (machine : Machine) (e : Encoding) :
    (machine.perform e).memory = machine.memory.writeAll (machine.writes e) := by
  unfold perform writes changed
  simp only [← target_eq_effective]
  cases e.mnemonic.operation with
  | implied action =>
    cases action with
    | ret =>
      show (Machine.ret _).memory = _
      rw [ret_eq]
      split <;> rfl
    | _ => rfl
  | reading action => rfl
  | shifting change => cases e.mode <;> rfl
  | changing change => rfl
  | targeting action =>
    cases action with
    | branch flag value =>
      show (if _ then _ else _ : Machine).memory = _
      split <;> rfl
    | _ => rfl

/-- Outside its footprint an instruction leaves memory alone. -/
theorem read_perform_of_not_mem_footprint {machine : Machine} {e : Encoding} {address : UInt16}
    (h : address ∉ machine.footprint e) :
    (machine.perform e).memory.read address = machine.memory.read address := by
  rw [memory_perform]
  exact Memory.read_writeAll_of_not_mem machine.memory h

end Machine

/-! ## §3. Which instructions write, and where. -/

namespace Mnemonic

/-- The instructions that write to the address of their operand in all their modes. -/
def stores : List Mnemonic := [.sta, .stx, .sty, .inc, .dec]

/-- The shifts, which change a byte of memory or the accumulator. -/
def shifts : List Mnemonic := [.asl, .lsr, .rol, .ror]

theorem mem_of_operation_eq_store {mnemonic : Mnemonic} {register : Register}
    (h : mnemonic.operation = .targeting (.store register)) :
    mnemonic ∈ stores := by
  revert h
  cases mnemonic <;> simp [operation, stores]

theorem mem_of_operation_eq_changing {mnemonic : Mnemonic} {change : Change}
    (h : mnemonic.operation = .changing change) :
    mnemonic ∈ stores := by
  revert h
  cases mnemonic <;> simp [operation, stores]

theorem mem_of_operation_eq_shifting {mnemonic : Mnemonic} {change : Change}
    (h : mnemonic.operation = .shifting change) :
    mnemonic ∈ shifts := by
  revert h
  cases mnemonic <;> simp [operation, shifts]

end Mnemonic

namespace Machine

section Footprints

variable {machine : Machine} {e : Encoding} {address : UInt16}

/-- Pushes write at the stack pointer, and a call also right below. -/
theorem mem_footprint_of_pushes (hpush : e.mnemonic.operation.pushes = true)
    (h : address ∈ machine.footprint e) :
    (e.mnemonic = .pha ∨ e.mnemonic = .php) ∧ address = Stack.address machine.registers.s
    ∨ e.mnemonic = .jsr ∧ (address = Stack.address machine.registers.s
        ∨ address = Stack.address (machine.registers.s - 1)) := by
  unfold footprint writes at h
  rcases Mnemonic.pushes_iff.mp hpush with hm | hm | hm
  · rw [hm] at h
    refine .inr ⟨hm, ?_⟩
    rcases List.mem_cons.mp h with hfirst | hsecond
    · exact .inl hfirst
    · exact .inr (List.mem_singleton.mp hsecond)
  · rw [hm] at h
    exact .inl ⟨.inl hm, List.mem_singleton.mp h⟩
  · rw [hm] at h
    exact .inl ⟨.inr hm, List.mem_singleton.mp h⟩

/-- Other instructions write at the effective address, if they write at all. -/
theorem mem_footprint_of_not_pushes (hpush : e.mnemonic.operation.pushes = false)
    (h : address ∈ machine.footprint e) :
    (e.mnemonic ∈ Mnemonic.stores ∨ e.mnemonic ∈ Mnemonic.shifts ∧ e.mode ≠ .accumulator)
      ∧ address = machine.effective e.mode := by
  unfold footprint writes at h
  cases hop : e.mnemonic.operation with
  | implied action =>
    rw [hop] at h hpush
    cases action with
    | pushAccumulator => cases hpush
    | pushStatus => cases hpush
    | _ => cases h
  | reading action =>
    rw [hop] at h
    cases h
  | shifting change =>
    rw [hop] at h
    have hmnemonic := Mnemonic.mem_of_operation_eq_shifting hop
    cases hmode : e.mode with
    | accumulator =>
      rw [hmode] at h
      cases h
    | _ =>
      rw [hmode] at h
      exact ⟨.inr ⟨hmnemonic, by decide⟩, List.mem_singleton.mp h⟩
  | changing change =>
    rw [hop] at h
    exact ⟨.inl (Mnemonic.mem_of_operation_eq_changing hop), List.mem_singleton.mp h⟩
  | targeting action =>
    rw [hop] at h hpush
    cases action with
    | store register =>
      exact ⟨.inl (Mnemonic.mem_of_operation_eq_store hop), List.mem_singleton.mp h⟩
    | call => cases hpush
    | _ => cases h

end Footprints

end Machine

/-! ## §4. Registers. -/

/-- Which mnemonics may change the accumulator and the index registers. -/
theorem Encoding.alters_cases {opcode : UInt8} {e : Encoding}
    (h : Opcode.encoding opcode = some e) :
    (e.mnemonic.operation.alters e.mode .a = true →
      e.mnemonic ∈ [.lda, .txa, .tya, .pla, .adc, .sbc, .and, .ora, .eor]
      ∨ e.mnemonic ∈ Mnemonic.shifts ∧ e.mode = .accumulator)
    ∧ (e.mnemonic.operation.alters e.mode .x = true →
      e.mnemonic ∈ [.ldx, .tax, .tsx, .inx, .dex])
    ∧ (e.mnemonic.operation.alters e.mode .y = true →
      e.mnemonic ∈ [.ldy, .tay, .iny, .dey]) := by
  apply of_encoding _ h
  decide +kernel

namespace Machine

open ByteStream

/-- A register that has changed is one that the instruction may change. -/
theorem alters_of_get_ne {machine : Machine} {e : Encoding} {register : Register}
    (h : (machine.perform e).registers.get register ≠ machine.registers.get register) :
    e.mnemonic.operation.alters e.mode register = true := by
  by_contra halters
  exact h (get_perform (eq_false_of_ne_true halters))

/-- The stack pointer after an instruction. -/
def pointerAfter (machine : Machine) (mnemonic : Mnemonic) : UInt8 :=
  match mnemonic with
  | .pha | .php => machine.registers.s - 1
  | .pla | .plp => machine.registers.s + 1
  | .jsr => machine.registers.s - 2
  | .rts => machine.registers.s + 2
  | .txs => machine.registers.x
  | _ => machine.registers.s

/-- The stack pointer moves by the bytes that are pushed and pulled, or is set by TXS. -/
theorem s_perform (machine : Machine) (e : Encoding) :
    (machine.perform e).registers.s = machine.pointerAfter e.mnemonic := by
  have hkept : e.mnemonic.operation.alters e.mode .s = false →
      (machine.perform e).registers.s = machine.registers.s := fun h => get_perform h
  rw [Mnemonic.alters_s] at hkept
  cases hm : e.mnemonic with
  | pha | php | pla | plp | txs =>
    rw [perform_of_implied hm rfl]
    rfl
  | jsr =>
    rw [perform_of_targeting hm rfl]
    have htwo : machine.registers.s - 1 - 1 = machine.registers.s - 2 := by
      rw [UInt8.sub_eq_add_neg, UInt8.sub_eq_add_neg, UInt8.add_assoc, UInt8.sub_eq_add_neg]
      rfl
    exact htwo
  | rts =>
    rw [perform_of_implied hm rfl]
    show (Machine.ret _).registers.s = machine.registers.s + 2
    have htwo : machine.registers.s + 1 + 1 = machine.registers.s + 2 := UInt8.add_assoc _ _ _
    rw [ret_eq]
    split <;> exact htwo
  | _ =>
    rw [hm] at hkept
    exact hkept rfl

/-! ## §5. A step. -/

/-- **All that a step changes.**  Memory changes at the effective address at most, for stores
and changes in memory, or where the stack pointer stands, for pushes; the registers, the count
of open calls and the end of execution change in the instructions that are named; the window
stays. -/
theorem step_footprint {machine next : Machine} (h : step machine = .ok () next) :
    ∃ e, machine.instruction? = some e
      ∧ (∀ address, next.memory.read address ≠ machine.memory.read address →
          (e.mnemonic ∈ Mnemonic.stores
              ∨ e.mnemonic ∈ Mnemonic.shifts ∧ e.mode ≠ .accumulator)
            ∧ address = machine.effective e.mode
          ∨ (e.mnemonic = .pha ∨ e.mnemonic = .php)
            ∧ address.toNat = 0x0100 + machine.registers.s.toNat
          ∨ e.mnemonic = .jsr
            ∧ (address.toNat = 0x0100 + machine.registers.s.toNat
              ∨ address.toNat = 0x0100 + (machine.registers.s - 1).toNat))
      ∧ (next.registers.a ≠ machine.registers.a →
          e.mnemonic ∈ [.lda, .txa, .tya, .pla, .adc, .sbc, .and, .ora, .eor]
          ∨ e.mnemonic ∈ Mnemonic.shifts ∧ e.mode = .accumulator)
      ∧ (next.registers.x ≠ machine.registers.x →
          e.mnemonic ∈ [.ldx, .tax, .tsx, .inx, .dex])
      ∧ (next.registers.y ≠ machine.registers.y → e.mnemonic ∈ [.ldy, .tay, .iny, .dey])
      ∧ next.registers.s = machine.pointerAfter e.mnemonic
      ∧ (next.callDepth ≠ machine.callDepth → e.mnemonic = .jsr ∨ e.mnemonic = .rts)
      ∧ (next.returned ≠ machine.returned → e.mnemonic = .rts)
      ∧ next.window = machine.window := by
  obtain ⟨e, hinstr, -, rfl⟩ := step_eq_ok_iff.mp h
  obtain ⟨ha, hx, hy⟩ := Encoding.alters_cases hinstr
  refine ⟨e, hinstr, ?_, ?_, ?_, ?_, s_perform machine e, ?_, ?_, window_perform machine e⟩
  · intro address hchanged
    have hmem : address ∈ machine.footprint e := by
      by_contra hnot
      exact hchanged (read_perform_of_not_mem_footprint hnot)
    cases hpush : e.mnemonic.operation.pushes with
    | false => exact .inl (mem_footprint_of_not_pushes hpush hmem)
    | true =>
      rcases mem_footprint_of_pushes hpush hmem with ⟨hm, rfl⟩ | ⟨hm, rfl | rfl⟩
      · exact .inr (.inl ⟨hm, Stack.toNat_address _⟩)
      · exact .inr (.inr ⟨hm, .inl (Stack.toNat_address _)⟩)
      · exact .inr (.inr ⟨hm, .inr (Stack.toNat_address _)⟩)
  · intro hchanged
    exact ha (alters_of_get_ne hchanged)
  · intro hchanged
    exact hx (alters_of_get_ne hchanged)
  · intro hchanged
    exact hy (alters_of_get_ne hchanged)
  · intro hchanged
    by_contra hnot
    rw [not_or] at hnot
    exact hchanged (callDepth_perform (mt Mnemonic.operation_eq_call_iff.mp hnot.1)
      (mt Mnemonic.operation_eq_ret_iff.mp hnot.2))
  · intro hchanged
    by_contra hnot
    exact hchanged (returned_perform (mt Mnemonic.operation_eq_ret_iff.mp hnot))

/-- A store through a pointer that begins at the last place of page zero and whose high byte
is the very cell that is written. -/
def storeOverPointer : Machine :=
  (new.loadProgram [0x81, 0xFE] 0x0200).2.update { a := some 0x55, x := some 0x01 }

theorem step_footprint_storeOverPointer :
    ∃ next, step storeOverPointer = .ok () next
      ∧ (∀ address, next.memory.read address ≠ storeOverPointer.memory.read address →
          address = 0x0000)
      ∧ next.memory.read 0x0000 = 0x55
      ∧ next.registers.s = 0xFF := by
  have hinstr : storeOverPointer.instruction? = some ⟨.sta, .indirectX⟩ := by decide +kernel
  have hreach : InReach storeOverPointer (Encoding.size ⟨.sta, .indirectX⟩) := by decide +kernel
  have heffective : storeOverPointer.effective .indirectX = 0x0000 := by decide +kernel
  have hstep := step_of_complete hinstr hreach
  obtain ⟨e, he, hmemory, -, -, -, hs, -⟩ := step_footprint hstep
  obtain rfl : e = ⟨.sta, .indirectX⟩ := Option.some.inj (he.symm.trans hinstr)
  refine ⟨_, hstep, ?_, by decide +kernel, hs⟩
  intro address hchanged
  rcases hmemory address hchanged with ⟨-, haddress⟩ | ⟨hm | hm, -⟩ | ⟨hm, -⟩
  · exact haddress.trans heffective
  · cases hm
  · cases hm
  · cases hm

end Machine

end Mos6502
