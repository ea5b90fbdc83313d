/-
  Mos6502.Proofs.Relocation — code that runs alike wherever it is loaded

  An instruction that names no address, only a register, a value or a distance, does the
  same wherever it stands: what it makes of registers and stack has nothing to do with the
  program counter, and a branch moves that by a distance.  So a program of such
  instructions, loaded at two places off the page of the stack, runs in lock-step.  The
  program counters, the windows and the addresses in faults stay apart by the distance of
  the two places, and all else that a program can see is the same.

  The second machine is always the first one `moved`, with a memory of its own that
  `Carries` the code and the stack of the first.  That relation is kept by every step,
  which is all that the runs need.

  Main statements:
    * `perform_moved`        — an instruction at another place
    * `Relocated.step`, `Relocated.stops` — a step and a stop in lock-step
    * `Relocated.run`        — two runs in lock-step
    * `position_independent` — code loaded at two places
-/
import Mos6502.Proofs.ReadFootprint
import Mos6502.Proofs.StraightLine

namespace Mos6502

/-! ## §1. Instructions that name no address. -/

/-- The modes in which an instruction names no address: its operand is a register, a value or a
distance. -/
def AddressingMode.placeless : List AddressingMode :=
  [implicit, accumulator, immediate, relative]

/-- Whether the instruction works on registers and stack only, or branches by a distance. -/
def Encoding.portable (e : Encoding) : Bool :=
  match e.mnemonic.operation with
  | .implied _ => true
  | .reading _ => e.mode == .immediate
  | .shifting _ => e.mode == .accumulator
  | .targeting (.branch _ _) => e.mode == .relative
  | .changing _ | .targeting _ => false

/-- In such a mode no instruction stores, jumps or calls. -/
theorem Encoding.portable_of_mem {opcode : UInt8} {e : Encoding}
    (h : Opcode.encoding opcode = some e) (hmode : e.mode ∈ AddressingMode.placeless) :
    e.portable = true :=
  of_encoding (P := fun e => e.mode ∈ AddressingMode.placeless → e.portable = true)
    (by decide +kernel) h hmode

/-- The four kinds of instructions that are left. -/
theorem Encoding.portable_cases {e : Encoding} (h : e.portable = true) :
    (∃ action, e.mnemonic.operation = .implied action)
    ∨ (∃ action, e.mnemonic.operation = .reading action ∧ e.mode = .immediate)
    ∨ (∃ change, e.mnemonic.operation = .shifting change ∧ e.mode = .accumulator)
    ∨ ∃ flag value, e.mnemonic.operation = .targeting (.branch flag value)
        ∧ e.mode = .relative := by
  unfold portable at h
  cases hop : e.mnemonic.operation with
  | implied action => exact .inl ⟨action, rfl⟩
  | reading action =>
    rw [hop] at h
    exact .inr (.inl ⟨action, rfl, beq_iff_eq.mp h⟩)
  | shifting change =>
    rw [hop] at h
    exact .inr (.inr (.inl ⟨change, rfl, beq_iff_eq.mp h⟩))
  | changing change =>
    rw [hop] at h
    cases h
  | targeting action =>
    rw [hop] at h
    cases action with
    | branch flag value => exact .inr (.inr (.inr ⟨flag, value, rfl, beq_iff_eq.mp h⟩))
    | _ => cases h

/-! ## §2. At another place. -/

/-- The fault with its address moved. -/
def Fault.moved (shift : UInt16) : Fault → Fault
  | .pastEnd address => .pastEnd (address + shift)
  | .illegalOpcode opcode address => .illegalOpcode opcode (address + shift)
  | .unsupportedMode mnemonic mode => .unsupportedMode mnemonic mode

/-- The registers with the program counter moved. -/
def Registers.moved (registers : Registers) (shift : UInt16) : Registers :=
  { registers with pc := registers.pc + shift }

/-- The window moved. -/
def Window.moved (window : Window) (shift : UInt16) : Window :=
  { window with address := window.address + shift }

/-- The machine with its program counter and its window moved. -/
def Machine.moved (machine : Machine) (shift : UInt16) : Machine :=
  { machine with
    registers := machine.registers.moved shift
    window := machine.window.moved shift }

theorem Registers.get_moved (registers : Registers) (shift : UInt16) (register : Register) :
    (registers.moved shift).get register = registers.get register := by
  cases register <;> rfl

theorem Reading.apply_moved (action : Reading) (value : UInt8) (registers : Registers)
    (shift : UInt16) :
    action.apply value (registers.moved shift) = (action.apply value registers).moved shift := by
  unfold Registers.moved
  rw [action.apply_withPc, action.pc_apply]

/-- A return would go on at a place of its own, but none does while no call is open. -/
theorem Implied.apply_moved (action : Implied) {machine : Machine}
    (noCalls : machine.callDepth = 0) (shift : UInt16) :
    action.apply (machine.moved shift) = (action.apply machine).moved shift := by
  cases action with
  | transfer source target => cases source <;> cases target <;> rfl
  | alter register change => cases register <;> rfl
  | ret =>
    have noCalls' : (machine.moved shift).callDepth = 0 := noCalls
    show (machine.moved shift).ret = machine.ret.moved shift
    rw [Machine.ret_eq, Machine.ret_eq, if_pos noCalls, if_pos noCalls']
    rfl
  | _ => rfl

/-- A branch to a place that moves as well. -/
theorem Targeting.branch_apply_moved (flag : Flag) (value : Bool) (address : UInt16)
    (machine : Machine) (shift : UInt16) :
    (Targeting.branch flag value).apply (address + shift) (machine.moved shift)
      = ((Targeting.branch flag value).apply address machine).moved shift := by
  show (if machine.registers.p.test flag = value then _ else _ : Machine)
    = (if machine.registers.p.test flag = value then _ else _ : Machine).moved shift
  split <;> rfl

/-- What is pulled comes from the page of the stack. -/
theorem Implied.exists_of_mem_pulledFrom {action : Implied} {pointer : UInt8} {place : UInt16}
    (h : place ∈ action.pulledFrom pointer) : ∃ other, place = Stack.address other := by
  cases action with
  | pullAccumulator => exact ⟨_, List.mem_singleton.mp h⟩
  | pullStatus => exact ⟨_, List.mem_singleton.mp h⟩
  | ret =>
    rcases List.mem_cons.mp h with hlow | hhigh
    · exact ⟨_, hlow⟩
    · exact ⟨_, List.mem_singleton.mp hhigh⟩
  | _ => cases h

theorem add_shift_comm (address shift count : UInt16) :
    address + shift + count = address + count + shift := by
  rw [UInt16.add_assoc, UInt16.add_comm shift, ← UInt16.add_assoc]

namespace Machine

open ByteStream Memory

theorem advance_moved (machine : Machine) (shift : UInt16) (count : Nat) :
    advance (machine.moved shift) count = (advance machine count).moved shift :=
  congrArg (fun pc => (machine.moved shift).goto pc)
    (add_shift_comm machine.registers.pc shift (UInt16.ofNat count))

/-! ## §3. An instruction at another place. -/

section Portable

variable {machine : Machine} {e : Encoding} (portable : e.portable = true)

include portable

/-- It writes to the stack, if it writes at all. -/
theorem exists_of_mem_footprint {place : UInt16} (h : place ∈ machine.footprint e) :
    ∃ pointer, place = Stack.address pointer := by
  unfold footprint writes at h
  obtain ⟨action, hop⟩ | ⟨action, hop, -⟩ | ⟨change, hop, hmode⟩ | ⟨flag, value, hop, -⟩ :=
    Encoding.portable_cases portable
  · rw [hop] at h
    cases action with
    | pushAccumulator => exact ⟨_, List.mem_singleton.mp h⟩
    | pushStatus => exact ⟨_, List.mem_singleton.mp h⟩
    | _ => cases h
  · rw [hop] at h
    cases h
  · rw [hop, hmode] at h
    cases h
  · rw [hop] at h
    cases h

/-- What it writes is the same at another place and with another memory. -/
theorem writes_moved (shift : UInt16) (other : Memory) :
    ((machine.withMemory other).moved shift).writes e = machine.writes e := by
  unfold writes
  obtain ⟨action, hop⟩ | ⟨action, hop, -⟩ | ⟨change, hop, hmode⟩ | ⟨flag, value, hop, -⟩ :=
    Encoding.portable_cases portable
  · rw [hop]
    cases action <;> rfl
  · rw [hop]
  · rw [hop, hmode]
  · rw [hop]

/-- It opens no call. -/
theorem callDepth_perform_of_portable (noCalls : machine.callDepth = 0) :
    (machine.perform e).callDepth = 0 := by
  have hcall : e.mnemonic.operation ≠ .targeting .call := by
    intro hop
    unfold Encoding.portable at portable
    rw [hop] at portable
    cases portable
  by_cases hret : e.mnemonic.operation = .implied .ret
  · have hdepth : (advance machine e.size).callDepth = 0 := noCalls
    rw [perform_of_implied rfl hret]
    show (advance machine e.size).ret.callDepth = 0
    rw [ret_eq, if_pos hdepth]
    exact hdepth
  · rw [callDepth_perform hcall hret, noCalls]

/-- **An instruction at another place.**  With the same operand byte and the same stack, and while
no call is open, it does the same there. -/
theorem perform_moved {shift : UInt16} {other : Memory} (noCalls : machine.callDepth = 0)
    (operand : e.mode.operandLength = 1 →
      other.read (machine.registers.pc + 1 + shift)
        = machine.memory.read (machine.registers.pc + 1))
    (stack : ∀ pointer,
      other.read (Stack.address pointer) = machine.memory.read (Stack.address pointer)) :
    ((machine.withMemory other).moved shift).perform e
      = ((machine.perform e).withMemory (other.writeAll (machine.writes e))).moved shift := by
  -- What is written is settled by `memory_perform`; all else is compared kind by kind.
  suffices hrest : ((machine.withMemory other).moved shift).perform e
      = ((machine.perform e).withMemory
          (((machine.withMemory other).moved shift).perform e).memory).moved shift by
    rw [hrest, memory_perform, writes_moved portable]
    rfl
  have hplace := add_shift_comm machine.registers.pc shift 1
  obtain ⟨action, hop⟩ | ⟨action, hop, hmode⟩ | ⟨change, hop, hmode⟩
    | ⟨flag, value, hop, hmode⟩ := Encoding.portable_cases portable
  · -- Without an operand it looks at the stack at most.
    have hagree : AgreeOn (action.pulledFrom machine.registers.s) machine.memory other := by
      intro place hmem
      obtain ⟨pointer, rfl⟩ := Implied.exists_of_mem_pulledFrom hmem
      exact (stack pointer).symm
    have noCalls' : (advance (machine.withMemory other) e.size).callDepth = 0 := noCalls
    rw [perform_of_implied rfl hop, perform_of_implied rfl hop, advance_moved,
      action.apply_moved noCalls']
    exact congrArg (·.moved shift) (action.apply_withMemory (advance machine e.size) hagree)
  · -- A value is the byte behind the opcode.
    rw [hmode] at operand
    have hvalue : ((machine.withMemory other).moved shift).operand .immediate
        = machine.operand .immediate := by
      show other.read (machine.registers.pc + shift + 1) = _
      rw [hplace]
      exact operand rfl
    unfold perform
    simp only [hop, hmode, hvalue, advance_moved]
    exact congrArg
      (fun registers => { ((advance machine e.size).withMemory other).moved shift with registers })
      (action.apply_moved (machine.operand .immediate) (advance machine e.size).registers shift)
  · unfold perform
    rw [hop, hmode, advance_moved]
    rfl
  · -- So is a distance, and what it is counted from has moved.
    rw [hmode] at operand
    have htarget : ((machine.withMemory other).moved shift).target .relative
        = machine.target .relative + shift := by
      rw [target_relative, target_relative]
      show machine.registers.pc + shift + 2
        + signExtend (other.read (machine.registers.pc + shift + 1)) = _
      rw [hplace, operand rfl, add_shift_comm machine.registers.pc, add_shift_comm]
    rw [perform_of_targeting rfl hop, perform_of_targeting rfl hop, hmode, htarget,
      advance_moved, Targeting.branch_apply_moved]
    exact congrArg (·.moved shift)
      ((Targeting.branch flag value).apply_withMemory _ (advance machine e.size) other)

end Portable

end Machine

/-! ## §4. Two machines in lock-step. -/

/-- Whether an address is in a window or right behind it. -/
def Window.Bounds (window : Window) (address : UInt16) : Prop :=
  window.address.toNat ≤ address.toNat ∧ address.toNat ≤ window.limit

/-- A window can be moved if it ends in memory and is off the page of the stack, before and
after. -/
structure Window.Movable (window : Window) (shift : UInt16) : Prop where
  limit_le : window.limit ≤ 0xFFFF
  limit_moved_le : (window.moved shift).limit ≤ 0xFFFF
  clear : ∀ pointer, ¬ window.Covers (Stack.address pointer)
  clear_moved : ∀ pointer, ¬ (window.moved shift).Covers (Stack.address pointer)

/-- All of a window moves by the same distance: none of it goes round memory. -/
theorem Window.Movable.toNat_add {window : Window} {shift place : UInt16}
    (h : window.Movable shift) (within : window.Bounds place) :
    (place + shift).toNat + window.address.toNat
      = place.toNat + (window.address + shift).toNat := by
  have hlimit : window.address.toNat + window.length ≤ 0xFFFF := h.limit_le
  have hmoved : (window.address + shift).toNat + window.length ≤ 0xFFFF := h.limit_moved_le
  have hplace : window.address.toNat ≤ place.toNat
    ∧ place.toNat ≤ window.address.toNat + window.length := within
  rw [UInt16.toNat_add] at hmoved ⊢
  rw [UInt16.toNat_add]
  omega

theorem Window.Covers.bounds {window : Window} {place : UInt16} (h : window.Covers place) :
    window.Bounds place :=
  ⟨h.1, Nat.le_of_lt h.2⟩

theorem Window.Movable.covers_moved {window : Window} {shift place : UInt16}
    (h : window.Movable shift) (covers : window.Covers place) :
    (window.moved shift).Covers (place + shift) := by
  have hplace := h.toNat_add covers.bounds
  have hcovers : window.address.toNat ≤ place.toNat
    ∧ place.toNat < window.address.toNat + window.length := covers
  show (window.address + shift).toNat ≤ (place + shift).toNat
    ∧ (place + shift).toNat < (window.address + shift).toNat + window.length
  omega

namespace Machine

open ByteStream Memory

/-- The byte at the program counter. -/
def opcode (machine : Machine) : UInt8 := machine.memory.read machine.registers.pc

/-- The memory has the code of the machine at another place, and the same stack; no call is
open. -/
structure Carries (machine : Machine) (shift : UInt16) (other : Memory) : Prop where
  movable : machine.window.Movable shift
  code : ∀ place, machine.window.Covers place →
    other.read (place + shift) = machine.memory.read place
  stack : ∀ pointer,
    other.read (Stack.address pointer) = machine.memory.read (Stack.address pointer)
  noCalls : machine.callDepth = 0

/-- The second machine is the first one at another place, with a memory that has the same code
there and the same stack. -/
def Relocated (shift : UInt16) (first second : Machine) : Prop :=
  ∃ other, first.Carries shift other ∧ second = (first.withMemory other).moved shift

section Carries

variable {machine : Machine} {shift : UInt16} {other : Memory} {e : Encoding}
  (h : machine.Carries shift other)

include h

/-- An instruction that only writes to the stack keeps the code. -/
theorem Carries.perform (portable : e.portable = true) :
    (machine.perform e).Carries shift (other.writeAll (machine.writes e)) where
  movable := by
    rw [window_perform]
    exact h.movable
  code place covers := by
    rw [window_perform] at covers
    have hhere : place ∉ machine.footprint e := by
      intro hmem
      obtain ⟨pointer, rfl⟩ := exists_of_mem_footprint portable hmem
      exact h.movable.clear pointer covers
    have hthere : place + shift ∉ machine.footprint e := by
      intro hmem
      obtain ⟨pointer, hpointer⟩ := exists_of_mem_footprint portable hmem
      have hmoved := h.movable.covers_moved covers
      rw [hpointer] at hmoved
      exact h.movable.clear_moved pointer hmoved
    rw [read_perform_of_not_mem_footprint hhere, read_writeAll_of_not_mem _ hthere,
      h.code place covers]
  stack pointer := by
    rw [memory_perform]
    exact read_writeAll_congr (.inl (h.stack pointer))
  noCalls := callDepth_perform_of_portable portable h.noCalls

theorem Carries.goto (address : UInt16) : (machine.goto address).Carries shift other :=
  ⟨h.movable, h.code, h.stack, h.noCalls⟩

variable (within : machine.window.Bounds machine.registers.pc)

include within

theorem Carries.inReach_iff {count : Nat} (hcount : 0 < count) :
    InReach ((machine.withMemory other).moved shift) count ↔ InReach machine count := by
  have hpc := h.movable.toNat_add within
  rw [inReach_iff_of_le h.movable.limit_moved_le hcount,
    inReach_iff_of_le h.movable.limit_le hcount]
  show (machine.registers.pc + shift).toNat + count
      ≤ (machine.window.address + shift).toNat + machine.window.length
    ↔ machine.registers.pc.toNat + count
      ≤ machine.window.address.toNat + machine.window.length
  omega

/-- Fetching comes to its end at the same byte of the code. -/
theorem Carries.edge_eq :
    edge ((machine.withMemory other).moved shift) = edge machine + shift := by
  have hedge : (edge machine).toNat = machine.window.limit := by
    rw [toNat_edge h.movable.limit_le]
    exact Nat.max_eq_right within.2
  have hplace : machine.window.Bounds (edge machine) :=
    ⟨by rw [hedge]; exact Nat.le_add_right _ _, Nat.le_of_eq hedge⟩
  have hpc := h.movable.toNat_add within
  have hmoved := h.movable.toNat_add hplace
  have hlimit := within.2
  apply UInt16.toNat_inj.mp
  rw [toNat_edge h.movable.limit_moved_le]
  show max (machine.registers.pc + shift).toNat
    ((machine.window.address + shift).toNat + machine.window.length) = _
  unfold Window.limit at hedge hlimit
  omega

/-- What is fetched is the same. -/
theorem Carries.read_fetched {i : Nat} (hreach : InReach machine (i + 1)) :
    other.read (machine.registers.pc + UInt16.ofNat i + shift)
      = machine.memory.read (machine.registers.pc + UInt16.ofNat i) := by
  have hlimit := (inReach_iff_of_le h.movable.limit_le (Nat.succ_pos i)).mp hreach
  have hbound := h.movable.limit_le
  have hplace := toNat_add_ofNat
    (show machine.registers.pc.toNat + i < 0x10000 by omega)
  have hstart := within.1
  apply h.code
  constructor
  · omega
  · omega

theorem Carries.opcode_eq (hreach : InReach machine 1) :
    ((machine.withMemory other).moved shift).opcode = machine.opcode := by
  have hbyte := @Carries.read_fetched machine shift other h within 0 hreach
  have hpc : machine.registers.pc + UInt16.ofNat 0 = machine.registers.pc := UInt16.add_zero _
  rw [hpc] at hbyte
  exact hbyte

theorem Carries.instruction?_eq (hreach : InReach machine 1) :
    ((machine.withMemory other).moved shift).instruction? = machine.instruction? :=
  congrArg Opcode.encoding (h.opcode_eq within hreach)

end Carries

section Relocated

variable {shift : UInt16} {first second : Machine} (h : Relocated shift first second)
  (within : first.window.Bounds first.registers.pc)

include h within

/-- Both have the same reasons to stop. -/
theorem Relocated.inside_iff :
    second.registers.pc.toNat < second.window.limit
      ↔ first.registers.pc.toNat < first.window.limit := by
  obtain ⟨other, hcarries, rfl⟩ := h
  have hreach := hcarries.inReach_iff within Nat.one_pos
  rw [inReach_iff_of_le hcarries.movable.limit_moved_le Nat.one_pos,
    inReach_iff_of_le hcarries.movable.limit_le Nat.one_pos] at hreach
  exact hreach

/-- **A step in lock-step.**  Where the first machine succeeds with an instruction that names no
address, the second one succeeds with the same opcode. -/
theorem Relocated.step {next : Machine} (hstep : Machine.step first = .ok () next)
    (placeless : ∀ e ∈ first.instruction?, e.mode ∈ AddressingMode.placeless) :
    ∃ next', Machine.step second = .ok () next' ∧ Relocated shift next next'
      ∧ second.opcode = first.opcode := by
  obtain ⟨other, hcarries, rfl⟩ := h
  obtain ⟨e, hinstr, hreach, rfl⟩ := step_eq_ok_iff.mp hstep
  have hone : InReach first 1 := inReach_of_add (n := e.mode.operandLength) hreach
  have hopcode := hcarries.opcode_eq within hone
  have hinstr' := (hcarries.instruction?_eq within hone).trans hinstr
  have hreach' := (hcarries.inReach_iff within e.size_pos).mpr hreach
  -- The operand byte is part of the code if there is one.
  have hoperand : e.mode.operandLength = 1 →
      other.read (first.registers.pc + 1 + shift) = first.memory.read (first.registers.pc + 1) := by
    intro hlength
    have hsize : e.size = 1 + 1 := congrArg (1 + ·) hlength
    rw [hsize] at hreach
    exact hcarries.read_fetched within hreach
  have hportable := Encoding.portable_of_mem hinstr (placeless e hinstr)
  have hperform := perform_moved hportable hcarries.noCalls hoperand hcarries.stack
  exact ⟨_, step_of_complete hinstr' hreach', ⟨_, hcarries.perform hportable, hperform⟩, hopcode⟩

/-- Where the first machine fails, the second one fails in the same way. -/
theorem Relocated.step_error {fault : Fault} {failed : Machine}
    (hstep : Machine.step first = .error fault failed) :
    ∃ failed', Machine.step second = .error (fault.moved shift) failed'
      ∧ Relocated shift failed failed' := by
  obtain ⟨other, hcarries, rfl⟩ := h
  have hone := hcarries.inReach_iff within Nat.one_pos
  rcases step_error_cases hstep with ⟨hnot, rfl, rfl⟩ | ⟨hreach, hnone, rfl, rfl⟩
    | ⟨e, hreach, hinstr, hcut, rfl, rfl⟩
  · exact ⟨_, step_of_not_inReach (mt hone.mp hnot), other, hcarries, rfl⟩
  · have hnone' := (hcarries.instruction?_eq within hreach).trans hnone
    have hstep' := step_of_undocumented (hone.mpr hreach) hnone'
    have hopcode := hcarries.opcode_eq within hreach
    unfold opcode at hopcode
    rw [hopcode, advance_moved] at hstep'
    exact ⟨_, hstep', other, hcarries.goto _, rfl⟩
  · have hinstr' := (hcarries.instruction?_eq within hreach).trans hinstr
    have hcut' := mt (hcarries.inReach_iff within e.size_pos).mp hcut
    have hstep' := step_of_instruction (hone.mpr hreach) hinstr'
    rw [delivery_of_not_inReach hcut', hcarries.edge_eq within] at hstep'
    exact ⟨_, hstep', other, hcarries.goto _, rfl⟩

/-- **A stop in lock-step.**  Where the first machine stops, the second one stops in the same way,
with the address moved in a fault. -/
theorem Relocated.stops {answer : Except Fault Ending} {final : Machine}
    (hstops : first.Stops answer final) :
    ∃ final', second.Stops (answer.mapError (Fault.moved shift)) final'
      ∧ Relocated shift final final' := by
  have hinside := h.inside_iff within
  have hreturned : second.returned = first.returned := by
    obtain ⟨other, -, rfl⟩ := h
    rfl
  cases hstops with
  | returned done => exact ⟨_, .returned (hreturned.trans done), h⟩
  | ranOut running outside =>
    have houtside := mt hinside.mp (Nat.not_lt_of_le outside)
    exact ⟨_, .ranOut (hreturned.trans running) (Nat.le_of_not_lt houtside), h⟩
  | failed running inside failure =>
    obtain ⟨final', hfailure, hfinal⟩ := h.step_error within failure
    exact ⟨_, .failed (hreturned.trans running) (hinside.mpr inside) hfailure, hfinal⟩

end Relocated

/-! ## §5. Two runs. -/

/-- A run with the same fuel comes to its end on the other machine as well, if both stop in the
same way. -/
theorem Stops.run_of_run {machine final twin last : Machine} {answer : Except Fault Ending}
    {move : Fault → Fault} (h : machine.Stops answer final)
    (htwin : twin.Stops (answer.mapError move) last) {fuel : Nat}
    (hrun : run fuel machine = ended answer final) :
    run fuel twin = ended (answer.mapError move) last := by
  cases fuel with
  | succ fuel => exact htwin.run_eq fuel
  | zero =>
    -- Without fuel only a reason to stop can have been found.
    cases h with
    | returned done =>
      obtain done' | - | - := htwin
      exact run_of_ending (ending?_of_returned done') 0
    | ranOut running outside =>
      obtain - | ⟨running', outside'⟩ | - := htwin
      exact run_of_ending (ending?_of_outside running' outside') 0
    | failed running inside failure =>
      rw [run_zero (ending?_of_inside running inside)] at hrun
      exact absurd hrun.symm (ended_ne_none _ _ _)

section Runs

variable {shift : UInt16} {first second : Machine}

/-- The states after as many steps are in lock-step, as long as the first machine proceeds. -/
theorem Relocated.after_succ {i : Nat} (h : Relocated shift (first.after i) (second.after i))
    (hproceeds : (first.after i).Proceeds)
    (placeless : ∀ e ∈ (first.after i).instruction?, e.mode ∈ AddressingMode.placeless)
    (within : (first.after i).window.Bounds (first.after i).registers.pc) :
    (second.after i).Proceeds ∧ (second.after i).opcode = (first.after i).opcode
      ∧ Relocated shift (first.after (i + 1)) (second.after (i + 1)) := by
  have hinside := (h.inside_iff within).mpr hproceeds.inside
  have hrunning : (second.after i).returned = false := by
    obtain ⟨other, -, hsecond⟩ := h
    rw [hsecond]
    exact hproceeds.running
  obtain ⟨next, hstep, hnext, hopcode⟩ :=
    h.step within (step_after hproceeds.succeeds) placeless
  refine ⟨⟨hrunning, hinside, succeeds_of_step hstep⟩, hopcode, ?_⟩
  rw [after_succ_of_step hstep]
  exact hnext

section Lockstep

variable {count : Nat} (h : Relocated shift first second)
  (hproceeds : ∀ i < count, (first.after i).Proceeds)
  (placeless : ∀ i < count, ∀ e ∈ (first.after i).instruction?,
    e.mode ∈ AddressingMode.placeless)
  (within : ∀ i ≤ count, first.window.Bounds (first.after i).registers.pc)

include h hproceeds placeless within

theorem Relocated.after : ∀ i ≤ count, Relocated shift (first.after i) (second.after i) := by
  intro i hi
  induction i with
  | zero => exact h
  | succ i ih =>
    refine ((ih (Nat.le_of_succ_le hi)).after_succ (hproceeds i hi) (placeless i hi) ?_).2.2
    rw [window_after]
    exact within i (Nat.le_of_succ_le hi)

/-- The second machine proceeds as long as the first one does, with the same opcodes. -/
theorem Relocated.proceeds : ∀ i < count,
    (second.after i).Proceeds ∧ (second.after i).opcode = (first.after i).opcode := by
  intro i hi
  have hlock := h.after hproceeds placeless within i (Nat.le_of_lt hi)
  have hwithin : (first.after i).window.Bounds (first.after i).registers.pc := by
    rw [window_after]
    exact within i (Nat.le_of_lt hi)
  obtain ⟨hsecond, hopcode, -⟩ := hlock.after_succ (hproceeds i hi) (placeless i hi) hwithin
  exact ⟨hsecond, hopcode⟩

end Lockstep

/-- **Two runs in lock-step.**  If the first run comes to its end through instructions that name no
address, and inside the window, the second one comes to the same end through the same opcodes. -/
theorem Relocated.run (h : Relocated shift first second) {fuel : Nat}
    {answer : Except Fault Ending} {final : Machine}
    (returns : Machine.run fuel first = ended answer final)
    (placeless : ∀ visited ∈ visitedByRun fuel first, ∀ e ∈ visited.instruction?,
      e.mode ∈ AddressingMode.placeless)
    (within : ∀ i ≤ (visitedByRun fuel first).length,
      first.window.Bounds (first.after i).registers.pc) :
    ∃ final', Machine.run fuel second = ended (answer.mapError (Fault.moved shift)) final'
      ∧ (visitedByRun fuel second).map opcode = (visitedByRun fuel first).map opcode
      ∧ Relocated shift final final' := by
  obtain ⟨count, hcount, hbefore, hstops⟩ := exists_stops_of_run 0 returns
  simp only [Nat.zero_add] at hbefore hstops
  have hvisited := visitedByRun_eq_map_after hbefore hstops hcount
  rw [hvisited, List.length_map, List.length_range] at within
  rw [hvisited] at placeless
  have hplaceless : ∀ i < count, ∀ e ∈ (first.after i).instruction?,
      e.mode ∈ AddressingMode.placeless := by
    intro i hi
    exact placeless _ (List.mem_map_of_mem (List.mem_range.mpr hi))
  -- The second run proceeds as long as the first one does, and then finds the same stop.
  have hproceeds := h.proceeds hbefore hplaceless within
  have hlast : (first.after count).window.Bounds (first.after count).registers.pc := by
    rw [window_after]
    exact within count (Nat.le_refl count)
  obtain ⟨final', hstops', hfinal⟩ :=
    (h.after hbefore hplaceless within count (Nat.le_refl count)).stops hlast hstops
  have hbefore' : ∀ i < count, (second.after i).Proceeds := fun i hi => (hproceeds i hi).1
  refine ⟨final', ?_, ?_, hfinal⟩
  · rw [run_eq_run_after hbefore hcount] at returns
    rw [run_eq_run_after hbefore' hcount]
    exact hstops.run_of_run hstops' returns
  · rw [hvisited, visitedByRun_eq_map_after hbefore' hstops' hcount, List.map_map, List.map_map]
    apply List.map_congr_left
    intro i hi
    exact (hproceeds i (List.mem_range.mp hi)).2

end Runs

end Machine

/-! ## §6. Code loaded at two places. -/

/-- Outside of the block that was written to it, an empty memory stays empty. -/
theorem Memory.read_zero_writeBytes_of_not_covers {address place : UInt16} {data : List UInt8}
    (fits : address.toNat + data.length ≤ 0x10000)
    (h : ¬ Window.Covers ⟨address, data.length⟩ place) :
    (zero.writeBytes address data).read place = 0 := by
  have houtside : place.toNat < address.toNat ∨ address.toNat + data.length ≤ place.toNat := by
    rcases Nat.lt_or_ge place.toNat address.toNat with hlt | hle
    · exact .inl hlt
    · exact .inr (Nat.le_of_not_lt fun hlt => h ⟨hle, hlt⟩)
  rw [read_writeBytes_of_outside _ fits houtside, read_zero]

/-- A block reads the same wherever it was written. -/
theorem Memory.read_zero_writeBytes_moved {address shift place : UInt16} {data : List UInt8}
    (movable : (Window.mk address data.length).Movable shift)
    (covers : Window.Covers ⟨address, data.length⟩ place) :
    (zero.writeBytes (address + shift) data).read (place + shift)
      = (zero.writeBytes address data).read place := by
  have hfits : address.toNat + data.length ≤ 0xFFFF := movable.limit_le
  have hfits' : (address + shift).toNat + data.length ≤ 0xFFFF := movable.limit_moved_le
  have hstart : address.toNat ≤ place.toNat := covers.1
  have hplace : (place + shift).toNat + address.toNat
      = place.toNat + (address + shift).toNat := movable.toNat_add covers.bounds
  have hoffset : (place + shift).toNat - (address + shift).toNat
      = place.toNat - address.toNat := by omega
  rw [read_writeBytes _ _ _ _ (by omega), read_writeBytes _ _ _ _ (by omega), if_pos hstart,
    if_pos (by omega), hoffset, read_zero, read_zero]

namespace Machine

open ByteStream Memory

section Loaded

variable {prior prior' loaded loaded' : Machine} {code : List UInt8} {origin other : UInt16}
  {changes changes' : RegisterUpdate}

theorem update_of_loadProgram (accepted : prior.loadProgram code origin = (true, loaded)) :
    loaded.update changes
      = { registers := (loaded.update changes).registers
          memory := zero.writeBytes origin code
          window := ⟨origin, code.length⟩ } := by
  rw [eq_of_loadProgram accepted]
  rfl

/-- The same code at two places off the page of the stack is the same code moved, if the registers
are the same. -/
theorem relocated_of_loadProgram
    (accepted : prior.loadProgram code origin = (true, loaded))
    (accepted' : prior'.loadProgram code other = (true, loaded'))
    (clear : ∀ pointer, ¬ Window.Covers ⟨origin, code.length⟩ (Stack.address pointer))
    (clear' : ∀ pointer, ¬ Window.Covers ⟨other, code.length⟩ (Stack.address pointer))
    (stay : changes.pc = none) (stay' : changes'.pc = none)
    (registers : ∀ register, (loaded'.update changes').registers.get register
      = (loaded.update changes).registers.get register)
    (status : (loaded'.update changes').registers.p = (loaded.update changes).registers.p) :
    Relocated (other - origin) (loaded.update changes) (loaded'.update changes') := by
  obtain ⟨shift, rfl⟩ : ∃ shift, other = origin + shift :=
    ⟨other - origin, by rw [UInt16.add_comm, UInt16.sub_add_cancel]⟩
  have hshift : origin + shift - origin = shift := by
    rw [UInt16.add_comm, UInt16.add_sub_cancel]
  have hfits := fits_of_loadProgram accepted
  have hfits' := fits_of_loadProgram accepted'
  have hmovable : (Window.mk origin code.length).Movable shift := ⟨hfits, hfits', clear, clear'⟩
  have hpc : (loaded'.update changes').registers.pc
      = (loaded.update changes).registers.pc + shift := by
    rw [pc_of_loadProgram accepted stay, pc_of_loadProgram accepted' stay']
  have hregisters : (loaded'.update changes').registers
      = (loaded.update changes).registers.moved shift := by
    refine Registers.eq_of_get (fun register => ?_) hpc status
    rw [registers, Registers.get_moved]
  rw [hshift]
  refine ⟨zero.writeBytes (origin + shift) code, ?_, ?_⟩
  · rw [eq_of_loadProgram accepted]
    refine ⟨hmovable, fun place => read_zero_writeBytes_moved hmovable, ?_, rfl⟩
    -- Off the code both memories are empty, and so are both stacks.
    intro pointer
    show (zero.writeBytes (origin + shift) code).read _ = (zero.writeBytes origin code).read _
    rw [read_zero_writeBytes_of_not_covers (by omega) (clear pointer),
      read_zero_writeBytes_of_not_covers (by omega) (clear' pointer)]
  · rw [update_of_loadProgram accepted', hregisters, update_of_loadProgram accepted]
    rfl

end Loaded

/-- **Code that names no address runs alike wherever it is loaded.**  It is loaded at two places
off the page of the stack, and the registers besides the program counter are set to the same
values.  If a run of the first machine returns, has executed only instructions that name no
address, and was never outside the program on its way, then a run of the second one executes the
same opcodes, returns the same, with the address moved in a fault, and leaves the same registers
and the same stack, with the program counter moved. -/
theorem position_independent {prior prior' loaded loaded' : Machine} {code : List UInt8}
    {origin other : UInt16} (accepted : prior.loadProgram code origin = (true, loaded))
    (accepted' : prior'.loadProgram code other = (true, loaded'))
    (clear : ∀ pointer, ¬ Window.Covers ⟨origin, code.length⟩ (Stack.address pointer))
    (clear' : ∀ pointer, ¬ Window.Covers ⟨other, code.length⟩ (Stack.address pointer))
    {changes changes' : RegisterUpdate} (stay : changes.pc = none) (stay' : changes'.pc = none)
    {first second : Machine} (hfirst : first = loaded.update changes)
    (hsecond : second = loaded'.update changes')
    (registers : ∀ register, second.registers.get register = first.registers.get register)
    (status : second.registers.p = first.registers.p)
    {fuel : Nat} {answer : Except Fault Ending} {final : Machine}
    (returns : run fuel first = ended answer final)
    (placeless : ∀ visited ∈ visitedByRun fuel first, ∀ e ∈ visited.instruction?,
      e.mode ∈ [.implicit, .accumulator, .immediate, .relative])
    (within : ∀ i ≤ (visitedByRun fuel first).length,
      origin.toNat ≤ (first.after i).registers.pc.toNat
      ∧ (first.after i).registers.pc.toNat ≤ origin.toNat + code.length) :
    ∃ final', run fuel second = ended (answer.mapError (Fault.moved (other - origin))) final'
      ∧ (visitedByRun fuel second).map opcode = (visitedByRun fuel first).map opcode
      ∧ (∀ register, final'.registers.get register = final.registers.get register)
      ∧ final'.registers.p = final.registers.p
      ∧ (∀ pointer, final'.memory.read (Stack.address pointer)
          = final.memory.read (Stack.address pointer))
      ∧ final'.registers.pc = final.registers.pc + (other - origin) := by
  subst hfirst hsecond
  have hlock := relocated_of_loadProgram accepted accepted' clear clear' stay stay' registers status
  have hwindow : (loaded.update changes).window = ⟨origin, code.length⟩ := by
    rw [update_of_loadProgram accepted]
  have hwithin : ∀ i ≤ (visitedByRun fuel (loaded.update changes)).length,
      (loaded.update changes).window.Bounds ((loaded.update changes).after i).registers.pc := by
    rw [hwindow]
    exact within
  obtain ⟨final', hrun, hopcodes, memory, hcarries, rfl⟩ := hlock.run returns placeless hwithin
  exact ⟨_, hrun, hopcodes, final.registers.get_moved (other - origin), rfl, hcarries.stack, rfl⟩

/-- A loop that pushes three numbers, a pull and a return. -/
def countdown : List UInt8 := [0xA2, 0x03, 0x8A, 0x48, 0xCA, 0xD0, 0xFB, 0x68, 0x60]

/-- The code at some place, with the stack about to go round. -/
def countdownAt (origin : UInt16) : Machine :=
  (new.loadProgram countdown origin).2.update { s := some 0x01 }

/-- In page zero and above the stack the loop returns after the same fifteen steps. -/
theorem position_independent_countdown :
    ∃ final final', run 15 (countdownAt 0x0040) = .ok (some .returned) final
      ∧ run 15 (countdownAt 0x0300) = .ok (some .returned) final'
      ∧ (visitedByRun 15 (countdownAt 0x0300)).map opcode
        = (visitedByRun 15 (countdownAt 0x0040)).map opcode
      ∧ final'.registers.pc = final.registers.pc + 0x02C0 := by
  have accepted : ∀ origin : UInt16, origin.toNat + 9 ≤ 0xFFFF →
      new.loadProgram countdown origin = (true, (new.loadProgram countdown origin).2) := by
    intro origin hfits
    apply Prod.ext
    · exact (loadProgram_fst new countdown origin).trans (decide_eq_true hfits)
    · rfl
  have clear : ∀ pointer, ¬ Window.Covers ⟨0x0040, 9⟩ (Stack.address pointer) := by
    rintro pointer ⟨-, hbelow⟩
    have hlimit : (Stack.address pointer).toNat < 0x0040 + 9 := hbelow
    rw [Stack.toNat_address] at hlimit
    omega
  have clear' : ∀ pointer, ¬ Window.Covers ⟨0x0300, 9⟩ (Stack.address pointer) := by
    rintro pointer ⟨habove, -⟩
    have hstart : 0x0300 ≤ (Stack.address pointer).toNat := habove
    have hpointer := pointer.toNat_lt
    rw [Stack.toNat_address] at hstart
    omega
  have hproceeds : ∀ i < 15, ((countdownAt 0x0040).after i).Proceeds := by decide +kernel
  have hstops : ((countdownAt 0x0040).after 15).Stops (.ok .returned)
      ((countdownAt 0x0040).after 15) := .returned (by decide +kernel)
  have returns := (run_eq_run_after hproceeds (Nat.le_refl 15)).trans (hstops.run_again 0)
  obtain ⟨final', hrun, hopcodes, -, -, -, hpc⟩ :=
    position_independent (accepted 0x0040 (by decide)) (accepted 0x0300 (by decide)) clear clear'
      rfl rfl rfl rfl (fun register => by cases register <;> rfl) rfl returns
      (by decide +kernel) (by decide +kernel)
  exact ⟨_, final', returns, hrun, hopcodes, hpc⟩

end Machine

end Mos6502
