/-
  Mos6502.Proofs.StatusBits — the status bits that an instruction touches

  Of each kind of operation it is said which flags it may change, in the same way in which
  `Mos6502.Proofs.Frame` says it of the byte registers.  Sums are the one case in which the
  status itself decides: in decimal mode they tell about the carry and leave the other flags
  as they were.  Bit 5 has no name and is changed only by pulling a whole status.

  Main statements:
    * `reflects_reflect`        — what Zero and Negative tell about a value
    * `changesOnly_perform`     — the flags that an instruction may change
    * `Mnemonic.sets_operation` — the same by the names of the instructions
    * `status_frame`            — what a step does to the status, and that Break and bit 5 stay
                                  for as long as no PLP is executed
-/
import Mos6502.Proofs.Session

namespace Mos6502

/-! ## §1. What a status tells, and what it keeps. -/

/-- Masking a byte with one bit tests that bit. -/
theorem and_bit_ne_zero (byte : UInt8) (place : Fin 8) :
    (byte &&& 1 <<< UInt8.ofNat place.val != 0) = byte.toNat.testBit place.val := by
  have all : ∀ n : Fin 256, ∀ place : Fin 8,
      (UInt8.ofFin n &&& 1 <<< UInt8.ofNat place.val != 0) = n.val.testBit place.val := by
    decide +kernel
  exact all byte.toFin place

namespace Status

/-- Zero tells whether a value is zero, and Negative is its bit 7. -/
structure Reflects (status : Status) (value : Nat) : Prop where
  zero_iff : status.zero = true ↔ value = 0
  negative_eq : status.negative = value.testBit 7

theorem reflects_reflect (status : Status) (value : UInt8) :
    (status.reflect value).Reflects value.toNat where
  zero_iff := by
    show (value == 0) = true ↔ value.toNat = 0
    rw [beq_iff_eq, ← UInt8.toNat_inj]
    rfl
  negative_eq := and_bit_ne_zero value 7

/-- All bits are the same before and after, except for some flags. -/
structure ChangesOnly (flags : List Flag) (before after : Status) : Prop where
  test_eq : ∀ flag, flag ∉ flags → after.test flag = before.test flag
  unused_eq : after.unused = before.unused

theorem ChangesOnly.refl (flags : List Flag) (status : Status) :
    ChangesOnly flags status status where
  test_eq _ _ := rfl
  unused_eq := rfl

theorem ChangesOnly.trans {flags more : List Flag} {before between after : Status}
    (h : ChangesOnly flags before between) (h' : ChangesOnly more between after) :
    ChangesOnly (flags ++ more) before after where
  test_eq flag hflag := by
    rw [List.mem_append, not_or] at hflag
    rw [h'.test_eq flag hflag.2, h.test_eq flag hflag.1]
  unused_eq := by rw [h'.unused_eq, h.unused_eq]

theorem changesOnly_assign (status : Status) (flag : Flag) (value : Bool) :
    ChangesOnly [flag] status (status.assign flag value) where
  test_eq other hother := by
    rw [test_assign, if_neg fun heq => hother (List.mem_singleton.mpr heq.symm)]
  unused_eq := by cases flag <;> rfl

theorem changesOnly_reflect (status : Status) (value : UInt8) :
    ChangesOnly [.zero, .negative] status (status.reflect value) :=
  (changesOnly_assign status .zero (value == 0)).trans
    (changesOnly_assign _ .negative (value &&& 0x80 != 0))

end Status

/-! ## §2. What the operations set. -/

open Status

/-- The flags that a change of a byte may change. -/
def Change.sets : Change → List Flag
  | .increment | .decrement => [.zero, .negative]
  | .shiftLeft | .shiftRight | .rotateLeft | .rotateRight => [.carry, .zero, .negative]

/-- The flags that a reading may change; sums ask whether they are decimal. -/
def Reading.sets (decimal : Bool) : Reading → List Flag
  | .load _ | .conjoin | .disjoin | .toggle => [.zero, .negative]
  | .add | .subtract => if decimal then [.carry] else [.carry, .overflow, .zero, .negative]
  | .test => [.zero, .overflow, .negative]
  | .compare _ => [.carry, .zero, .negative]

/-- The flags that an operation without an operand may change.  Pulling the status may
change any bit, and also the one that is no flag. -/
def Implied.sets : Implied → List Flag
  | .transfer _ .s => []
  | .transfer _ _ | .pullAccumulator => [.zero, .negative]
  | .alter _ change => change.sets
  | .assign flag _ => [flag]
  | .pullStatus => Flag.all
  | .pushAccumulator | .pushStatus | .ret | .idle => []

/-- The flags that an operation may change. -/
def Operation.sets (decimal : Bool) : Operation → List Flag
  | .implied action => action.sets
  | .reading action => action.sets decimal
  | .shifting change | .changing change => change.sets
  | .targeting _ => []

theorem Change.changesOnly_outcome (change : Change) (byte : UInt8) (status : Status) :
    ChangesOnly change.sets status (change.outcome byte status).2 := by
  cases change with
  | increment => exact changesOnly_reflect status _
  | decrement => exact changesOnly_reflect status _
  | _ => exact (changesOnly_assign status .carry _).trans (changesOnly_reflect _ _)

theorem Registers.changesOnly_setResult (registers : Registers) (register : Register)
    (value : UInt8) :
    ChangesOnly [.zero, .negative] registers.p (registers.setResult register value).p := by
  cases register <;> exact changesOnly_reflect registers.p value

theorem Registers.changesOnly_acceptBinary (registers : Registers) (sum : Binary.Sum) :
    ChangesOnly [.carry, .overflow, .zero, .negative] registers.p
      (registers.acceptBinary sum).p :=
  ((changesOnly_assign registers.p .carry sum.carry).trans
    (changesOnly_assign _ .overflow sum.overflow)).trans (changesOnly_reflect _ sum.result)

theorem Registers.changesOnly_testBits (registers : Registers) (value : UInt8) :
    ChangesOnly [.zero, .overflow, .negative] registers.p (registers.testBits value).p :=
  ((changesOnly_assign registers.p .zero (registers.a &&& value == 0)).trans
    (changesOnly_assign _ .overflow (value &&& 0x40 != 0))).trans
    (changesOnly_assign _ .negative (value &&& 0x80 != 0))

theorem Registers.changesOnly_compare (registers : Registers) (register : Register)
    (value : UInt8) :
    ChangesOnly [.carry, .zero, .negative] registers.p (registers.compare register value).p :=
  (changesOnly_assign registers.p .carry _).trans (changesOnly_reflect _ _)

theorem Reading.changesOnly_apply (action : Reading) (value : UInt8) (registers : Registers) :
    ChangesOnly (action.sets registers.p.decimal) registers.p
      (action.apply value registers).p := by
  cases action with
  | load register => exact registers.changesOnly_setResult register value
  | add =>
    show ChangesOnly (if registers.p.decimal then _ else _) registers.p
      (if registers.p.decimal then _ else _ : Registers).p
    split
    · exact changesOnly_assign registers.p .carry _
    · exact registers.changesOnly_acceptBinary _
  | subtract =>
    show ChangesOnly (if registers.p.decimal then _ else _) registers.p
      (if registers.p.decimal then _ else _ : Registers).p
    split
    · exact changesOnly_assign registers.p .carry _
    · exact registers.changesOnly_acceptBinary _
  | test => exact registers.changesOnly_testBits value
  | compare register => exact registers.changesOnly_compare register value
  | _ => exact registers.changesOnly_setResult .a _

theorem Registers.changesOnly_transfer (registers : Registers) (source target : Register) :
    ChangesOnly (Implied.transfer source target).sets registers.p
      (registers.transfer source target).p := by
  cases target with
  | s => exact .refl [] registers.p
  | a => exact registers.changesOnly_setResult .a _
  | x => exact registers.changesOnly_setResult .x _
  | y => exact registers.changesOnly_setResult .y _

theorem Implied.changesOnly_apply {action : Implied} (h : action ≠ .pullStatus)
    (machine : Machine) :
    ChangesOnly action.sets machine.registers.p (action.apply machine).registers.p := by
  cases action with
  | transfer source target => exact machine.registers.changesOnly_transfer source target
  | alter register change => exact change.changesOnly_outcome _ machine.registers.p
  | assign flag value => exact changesOnly_assign machine.registers.p flag value
  | pullAccumulator => exact machine.pop.2.registers.changesOnly_setResult .a _
  | pullStatus => exact absurd rfl h
  | ret =>
    show ChangesOnly [] machine.registers.p machine.ret.registers.p
    rw [Machine.ret_eq]
    split <;> exact .refl [] machine.registers.p
  | _ => exact .refl [] machine.registers.p

namespace Machine

open ByteStream

/-- An instruction other than PLP changes no status bits besides the flags it sets. -/
theorem changesOnly_perform (machine : Machine) {e : Encoding}
    (h : e.mnemonic.operation ≠ .implied .pullStatus) :
    ChangesOnly (e.mnemonic.operation.sets machine.registers.p.decimal) machine.registers.p
      (machine.perform e).registers.p := by
  unfold perform
  cases hop : e.mnemonic.operation with
  | implied action =>
    have haction : action ≠ .pullStatus := by
      rintro rfl
      exact h hop
    exact Implied.changesOnly_apply haction (advance machine e.size)
  | reading action => exact action.changesOnly_apply _ (advance machine e.size).registers
  | shifting change => cases e.mode <;> exact change.changesOnly_outcome _ machine.registers.p
  | changing change => exact change.changesOnly_outcome _ machine.registers.p
  | targeting action =>
    cases action with
    | branch flag value =>
      show ChangesOnly [] _ (if _ then _ else _ : Machine).registers.p
      split <;> exact .refl [] machine.registers.p
    | _ => exact .refl [] machine.registers.p

end Machine

/-! ## §3. By mnemonic. -/

theorem Flag.mem_all (flag : Flag) : flag ∈ all := by
  cases flag <;> decide

namespace Mnemonic

/-- The flags that each instruction may change.  In decimal mode sums change the carry alone. -/
def flags (decimal : Bool) : Mnemonic → List Flag
  | .lda | .ldx | .ldy | .tax | .tay | .txa | .tya | .tsx | .pla | .and | .ora | .eor
  | .inc | .dec | .inx | .iny | .dex | .dey => [.zero, .negative]
  | .asl | .lsr | .rol | .ror | .cmp | .cpx | .cpy => [.carry, .zero, .negative]
  | .bit => [.zero, .overflow, .negative]
  | .adc | .sbc => if decimal then [.carry] else [.carry, .overflow, .zero, .negative]
  | .clc | .sec => [.carry]
  | .cld | .sed => [.decimal]
  | .cli | .sei => [.interrupt]
  | .clv => [.overflow]
  | .plp => Flag.all
  | .txs | .sta | .stx | .sty | .bcc | .bcs | .beq | .bne | .bmi | .bpl | .bvc | .bvs
  | .jmp | .jsr | .rts | .pha | .php | .brk | .rti | .nop => []

theorem sets_operation (decimal : Bool) (mnemonic : Mnemonic) :
    mnemonic.operation.sets decimal = mnemonic.flags decimal := by
  cases mnemonic <;> rfl

theorem operation_eq_pullStatus_iff {mnemonic : Mnemonic} :
    mnemonic.operation = .implied .pullStatus ↔ mnemonic = .plp := by
  cases mnemonic <;> decide

theorem brk_not_mem_flags {mnemonic : Mnemonic} (h : mnemonic ≠ .plp) (decimal : Bool) :
    Flag.brk ∉ mnemonic.flags decimal := by
  revert h
  cases mnemonic <;> cases decimal <;> decide

end Mnemonic

/-! ## §4. Steps and runs. -/

namespace Machine

open ByteStream

/-- Break and bit 5 are what they were at the origin, unless PLP was executed since. -/
def SameBreak (origin : Machine) (executed : List Mnemonic) (machine : Machine) : Prop :=
  .plp ∉ executed →
    machine.registers.p.brk = origin.registers.p.brk
    ∧ machine.registers.p.unused = origin.registers.p.unused

/-- No flag of another instruction is Break, and a step that fails changes no bit at all. -/
theorem SameBreak.step {origin : Machine} (executed : List Mnemonic) (machine : Machine)
    (h : SameBreak origin executed machine) :
    SameBreak origin (executed ++ machine.executedByStep) (leave Machine.step machine) := by
  intro hplp
  rw [List.mem_append, not_or] at hplp
  obtain ⟨hbefore, hnow⟩ := hplp
  cases hstep : Machine.step machine with
  | ok _ next =>
    obtain ⟨e, hinstr, -, rfl⟩ := step_eq_ok_iff.mp hstep
    rw [executedByStep_of_instruction hstep hinstr] at hnow
    have hmnemonic : e.mnemonic ≠ .plp := fun hm => hnow (List.mem_singleton.mpr hm.symm)
    have hkept := changesOnly_perform machine
      (mt Mnemonic.operation_eq_pullStatus_iff.mp hmnemonic)
    rw [Mnemonic.sets_operation] at hkept
    have hbrk := hkept.test_eq .brk (Mnemonic.brk_not_mem_flags hmnemonic _)
    rw [leave_of_ok hstep]
    exact ⟨hbrk.trans (h hbefore).1, hkept.unused_eq.trans (h hbefore).2⟩
  | error fault failed =>
    -- What was fetched before the fault moved the program counter only.
    rw [leave_of_error hstep]
    rcases step_error_cases hstep with ⟨-, -, rfl⟩ | ⟨-, -, -, rfl⟩ | ⟨e, -, -, -, -, rfl⟩
      <;> exact h hbefore

/-- **The status bits that a step touches.**  A flag that the instruction does not name stays
as it is, bit 5 stays except in PLP, and an instruction that sets or clears a flag does that
and nothing else to the status.  Steps and runs without PLP keep Break and bit 5. -/
theorem status_frame (machine : Machine) :
    (∀ next, step machine = .ok () next → ∃ e, machine.instruction? = some e
      ∧ (∀ flag, flag ∉ e.mnemonic.flags machine.registers.p.decimal →
          next.registers.p.test flag = machine.registers.p.test flag)
      ∧ (e.mnemonic ≠ .plp → next.registers.p.unused = machine.registers.p.unused)
      ∧ (∀ flag value, e.mnemonic.operation = .implied (.assign flag value) →
          next.registers.p = machine.registers.p.assign flag value))
    ∧ ∀ requests : List Request, (∀ request ∈ requests, request.executes = true) →
        .plp ∉ machine.executed requests →
          (machine.serve requests).registers.p.brk = machine.registers.p.brk
          ∧ (machine.serve requests).registers.p.unused = machine.registers.p.unused := by
  refine ⟨?_, ?_⟩
  · intro next hstep
    obtain ⟨e, hinstr, -, rfl⟩ := step_eq_ok_iff.mp hstep
    have hkept : e.mnemonic ≠ .plp →
        ChangesOnly (e.mnemonic.flags machine.registers.p.decimal) machine.registers.p
          (machine.perform e).registers.p := by
      intro hplp
      rw [← Mnemonic.sets_operation]
      exact changesOnly_perform machine (mt Mnemonic.operation_eq_pullStatus_iff.mp hplp)
    refine ⟨e, hinstr, ?_, fun hplp => (hkept hplp).unused_eq, ?_⟩
    · intro flag hflag
      -- PLP names every flag, so that no flag is left for it to keep.
      apply (hkept _).test_eq flag hflag
      intro hm
      rw [hm] at hflag
      exact hflag flag.mem_all
    · intro flag value hop
      rw [perform_of_implied rfl hop]
      rfl
  · intro requests hexecutes
    exact session_invariant
      (fun request hmem executed _ => executes_invariant SameBreak.step (hexecutes request hmem)
        executed)
      [] fun _ => ⟨rfl, rfl⟩

/-- A sum in decimal mode, with all flags set but Carry and Interrupt, and a push of the
status after it.  Neither operand is packed decimal. -/
def staleFlags : Machine :=
  (new.loadProgram [0x69, 0xFF, 0x08] 0x0200).2.update { a := some 0x0F, p := some (.ofByte 0xFA) }

theorem status_frame_staleFlags :
    (∃ next, step staleFlags = .ok () next
      ∧ ∀ flag, flag ≠ .carry → next.registers.p.test flag = staleFlags.registers.p.test flag)
    ∧ staleFlags.executed [.run 9] = [.adc, .php]
    ∧ (staleFlags.serve [.run 9]).registers.p.brk = true := by
  obtain ⟨hsteps, hruns⟩ := status_frame staleFlags
  have hinstr : staleFlags.instruction? = some ⟨.adc, .immediate⟩ := by decide +kernel
  have hexecuted : staleFlags.executed [.run 9] = [.adc, .php] := by decide +kernel
  have hstep := step_of_complete hinstr (by decide +kernel)
  obtain ⟨e, he, htest, -, -⟩ := hsteps _ hstep
  obtain rfl : e = ⟨.adc, .immediate⟩ := Option.some.inj (he.symm.trans hinstr)
  refine ⟨⟨_, hstep, ?_⟩, hexecuted, ?_⟩
  · intro flag hflag
    exact htest flag fun hmem => hflag (List.mem_singleton.mp hmem)
  · exact (hruns [.run 9] (by decide) (by rw [hexecuted]; decide)).1.trans (by decide +kernel)

end Machine

end Mos6502
