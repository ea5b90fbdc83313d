/-
  Mos6502.Proofs.StraightLine — code that runs as it is listed

  A sweep goes over a sequence of bytes that does not change; a run fetches from a
  memory that its own instructions write to.  If no instruction of a program can go on
  elsewhere and none writes into the program, both come to the same: the run takes one
  step for each instruction of the sweep, at its address, and ends where the program
  ends.  What carries the proof is the sweep of the bytes that are still ahead: every
  step takes the first instruction off it and leaves the others.

  Main statements:
    * `Passes.ahead_eq_shown_cons` — one instruction takes itself off what is ahead
    * `InLine.step`, `InLine.run` — one step of a program in line, and its whole run
    * `run_straight_code`         — a loaded program runs as it is swept
-/
import Mos6502.Proofs.Agreement
import Mos6502.Proofs.Footprint
import Mos6502.Proofs.Running
import Mos6502.Proofs.Sweeping

namespace Mos6502

/-! ## §1. Blocks of memory. -/

namespace Memory

theorem toNat_add_ofNat {address : UInt16} {i : Nat} (h : address.toNat + i < 0x10000) :
    (address + UInt16.ofNat i).toNat = address.toNat + i := by
  rw [UInt16.toNat_add, UInt16.toNat_ofNat']
  omega

/-- A block is the same in two memories that agree on its addresses. -/
theorem readBytes_congr {memory other : Memory} {address : UInt16} {length : Nat}
    (fits : address.toNat + length ≤ 0x10000)
    (h : ∀ place : UInt16, address.toNat ≤ place.toNat →
      place.toNat < address.toNat + length → memory.read place = other.read place) :
    memory.readBytes address length = other.readBytes address length := by
  unfold readBytes
  apply List.map_congr_left
  intro i hi
  rw [List.mem_range] at hi
  have hplace := toNat_add_ofNat (show address.toNat + i < 0x10000 by omega)
  apply h <;> omega

theorem getElem_readBytes (memory : Memory) (address : UInt16) {length i : Nat}
    (h : i < (memory.readBytes address length).length) :
    (memory.readBytes address length)[i] = memory.read (address + UInt16.ofNat i) := by
  simp only [readBytes, List.getElem_map, List.getElem_range]

/-- A block that was written is read back. -/
theorem readBytes_writeBytes (memory : Memory) {address : UInt16} {data : List UInt8}
    (fits : address.toNat + data.length ≤ 0x10000) :
    (memory.writeBytes address data).readBytes address data.length = data := by
  apply List.ext_getElem (length_readBytes _ _ _)
  intro i _ hi
  have hplace := toNat_add_ofNat (show address.toNat + i < 0x10000 by omega)
  rw [getElem_readBytes, read_writeBytes_of_inside memory fits hi hplace]

end Memory

/-! ## §2. What is ahead of a machine. -/

namespace Instruction

/-- Whether execution goes on right after an instruction, whatever the state is: the
instruction is known and is no branch, jump, call or return. -/
def Straight (i : Instruction) : Prop :=
  i.mnemonic ≠ "???"
  ∧ ∀ mnemonic ∈ Mnemonic.branches ++ [.jmp, .jsr, .rts], i.mnemonic ≠ mnemonic.name

instance (i : Instruction) : Decidable i.Straight := inferInstanceAs (Decidable (_ ∧ _))

theorem Straight.not_mem {i : Instruction} (h : i.Straight) {mnemonic : Mnemonic}
    (hname : i.mnemonic = mnemonic.name) :
    mnemonic ∉ Mnemonic.branches ∧ mnemonic ∉ [.jmp, .jsr, .rts] := by
  constructor
  · intro hmem
    exact h.2 mnemonic (List.mem_append_left _ hmem) hname
  · intro hmem
    exact h.2 mnemonic (List.mem_append_right _ hmem) hname

end Instruction

/-- Whether an address is in a window. -/
def Window.Covers (window : Window) (address : UInt16) : Prop :=
  window.address.toNat ≤ address.toNat ∧ address.toNat < window.limit

namespace Machine

open ByteStream

/-- The instructions from the program counter to the end of the window, as a sweep finds
them. -/
def ahead (machine : Machine) : List Instruction :=
  Instruction.sweep machine.registers.pc
    (machine.memory.readBytes machine.registers.pc
      (machine.window.limit - machine.registers.pc.toNat))

theorem ahead_of_limit_le {machine : Machine}
    (h : machine.window.limit ≤ machine.registers.pc.toNat) : machine.ahead = [] := by
  unfold ahead
  rw [Nat.sub_eq_zero_of_le h]
  exact Instruction.sweep_nil _

/-- Ahead is first what is decoded at the program counter, or the byte there alone. -/
theorem head?_ahead {machine : Machine}
    (inside : machine.registers.pc.toNat < machine.window.limit) :
    machine.ahead.head?
      = some (machine.decoded?.getD (.unknown machine.registers.pc
          (machine.memory.read machine.registers.pc))) := by
  obtain ⟨count, hcount⟩ := Nat.exists_eq_add_one_of_ne_zero (Nat.sub_ne_zero_of_lt inside)
  unfold ahead decoded?
  rw [hcount, Memory.readBytes_succ, Instruction.sweep_cons]
  rfl

/-- The machine stands at a complete instruction that does not jump. -/
structure Passes (machine : Machine) (e : Encoding) : Prop where
  instruction : machine.instruction? = some e
  reach : InReach machine e.size
  decoded : machine.decoded? = some machine.shown
  size : machine.shown.size.toNat = e.size
  jumps : e.mnemonic.operation.jumps = false

section Passes

variable {machine : Machine} {e : Encoding}

theorem Passes.step (h : machine.Passes e) : step machine = .ok () (machine.perform e) :=
  step_of_complete h.instruction h.reach

theorem Passes.toNat_pc (h : machine.Passes e) (bound : machine.window.limit ≤ 0xFFFF) :
    (machine.perform e).registers.pc.toNat = machine.registers.pc.toNat + e.size := by
  rw [pc_perform h.jumps]
  exact toNat_cursor_advance h.reach bound

theorem Passes.le_limit (h : machine.Passes e) (bound : machine.window.limit ≤ 0xFFFF) :
    machine.registers.pc.toNat + e.size ≤ machine.window.limit :=
  (inReach_iff_of_le bound e.size_pos).mp h.reach

/-- After a complete instruction come those of the bytes behind it. -/
theorem Passes.ahead_eq (h : machine.Passes e) (bound : machine.window.limit ≤ 0xFFFF) :
    machine.ahead
      = machine.shown
        :: Instruction.sweep (machine.perform e).registers.pc
            (machine.memory.readBytes (machine.perform e).registers.pc
              (machine.window.limit - (machine.perform e).registers.pc.toNat)) := by
  have hlimit := h.le_limit bound
  have hsize : Opcode.size (machine.memory.read machine.registers.pc) = e.size :=
    Opcode.size_of_encoding h.instruction
  have hleft : machine.window.limit - machine.registers.pc.toNat - e.size
      = machine.window.limit - (machine.perform e).registers.pc.toNat := by
    rw [h.toNat_pc bound, Nat.sub_add_eq]
  unfold ahead
  rw [Instruction.sweep_readBytes_of_complete (by omega), hsize, hleft, ← pc_perform h.jumps]
  rfl

/-- If it does not write behind itself, the instruction takes itself off what is ahead. -/
theorem Passes.ahead_eq_shown_cons (h : machine.Passes e)
    (bound : machine.window.limit ≤ 0xFFFF)
    (quiet : ∀ address ∈ machine.footprint e,
      ¬ (machine.registers.pc.toNat ≤ address.toNat ∧ address.toNat < machine.window.limit)) :
    machine.ahead = machine.shown :: (machine.perform e).ahead := by
  have hpc := h.toNat_pc bound
  have hlimit := h.le_limit bound
  rw [h.ahead_eq bound]
  congr 1
  unfold ahead
  rw [window_perform]
  congr 1
  apply Memory.readBytes_congr
  · omega
  · intro place hle hlt
    symm
    apply read_perform_of_not_mem_footprint
    intro hmem
    apply quiet place hmem
    omega

end Passes

/-! ## §3. A run. -/

/-- The machines that a run takes its steps from, in order, as far as the steps succeed. -/
def visitedByRun : Nat → Machine → List Machine
  | 0, _ => []
  | fuel + 1, machine =>
    match machine.ending? with
    | some _ => []
    | none =>
      match step machine with
      | .ok _ next => machine :: visitedByRun fuel next
      | .error _ _ => []

theorem visitedByRun_of_ending {machine : Machine} {ending : Ending}
    (h : machine.ending? = some ending) (fuel : Nat) : visitedByRun fuel machine = [] := by
  cases fuel with
  | zero => rfl
  | succ fuel => rw [visitedByRun, h]

theorem visitedByRun_succ {machine next : Machine} (hending : machine.ending? = none)
    (hstep : step machine = .ok () next) (fuel : Nat) :
    visitedByRun (fuel + 1) machine = machine :: visitedByRun fuel next := by
  rw [visitedByRun, hending, hstep]

/-- A run that stops before its fuel is used up takes no further step with more of it. -/
theorem visitedByRun_subset {machine : Machine} {fuel : Nat}
    (h : (visitedByRun fuel machine).length < fuel) (more : Nat) :
    visitedByRun more machine ⊆ visitedByRun fuel machine := by
  induction fuel generalizing machine more with
  | zero => exact absurd h (Nat.not_lt_zero _)
  | succ fuel ih =>
    cases more with
    | zero => exact List.nil_subset _
    | succ more =>
      cases hending : machine.ending? with
      | some ending =>
        rw [visitedByRun_of_ending hending]
        exact List.nil_subset _
      | none =>
        cases hstep : step machine with
        | ok _ next =>
          have hvisited := visitedByRun_succ hending hstep
          rw [hvisited, List.length_cons] at h
          rw [hvisited, hvisited]
          exact List.cons_subset_cons machine (ih (Nat.lt_of_succ_lt_succ h) more)
        | error fault failed =>
          rw [visitedByRun, hending, hstep]
          exact List.nil_subset _

/-- A run takes its steps from all the machines before the first stop. -/
theorem visitedByRun_of_stops {machine final : Machine} {answer : Except Fault Ending}
    {start count fuel : Nat} (hbefore : ∀ i < count, (machine.after (start + i)).Proceeds)
    (hstops : (machine.after (start + count)).Stops answer final) (hfuel : count ≤ fuel) :
    visitedByRun fuel (machine.after start) = (List.range' start count).map machine.after := by
  -- Induction on the steps, the first of them taken off: the others begin one state later.
  induction count generalizing start fuel with
  | zero =>
    cases hstops with
    | returned done => exact visitedByRun_of_ending (ending?_of_returned done) fuel
    | ranOut running outside =>
      exact visitedByRun_of_ending (ending?_of_outside running outside) fuel
    | failed running inside failure =>
      have hending := ending?_of_inside running inside
      cases fuel with
      | zero => rfl
      | succ fuel =>
        rw [Nat.add_zero] at hending failure
        rw [visitedByRun, hending, failure]
        rfl
  | succ count ih =>
    have hfirst := hbefore 0 (Nat.zero_lt_succ count)
    rw [Nat.add_zero] at hfirst
    obtain ⟨fuel, rfl⟩ := Nat.exists_eq_add_one_of_ne_zero (Nat.ne_zero_of_lt hfuel)
    rw [visitedByRun_succ (ending?_of_inside hfirst.running hfirst.inside)
      (step_after hfirst.succeeds), List.range'_succ, List.map_cons]
    congr 1
    apply ih _ _ (Nat.le_of_succ_le_succ hfuel)
    · intro i hi
      rw [Nat.add_right_comm]
      exact hbefore (i + 1) (Nat.succ_lt_succ hi)
    · rw [Nat.add_right_comm]
      exact hstops

theorem visitedByRun_eq_map_after {machine final : Machine} {answer : Except Fault Ending}
    {count fuel : Nat} (hbefore : ∀ i < count, (machine.after i).Proceeds)
    (hstops : (machine.after count).Stops answer final) (hfuel : count ≤ fuel) :
    visitedByRun fuel machine = (List.range count).map machine.after := by
  rw [List.range_eq_range']
  refine @visitedByRun_of_stops machine final answer 0 count fuel ?_ ?_ hfuel
  · simpa only [Nat.zero_add] using hbefore
  · simpa only [Nat.zero_add] using hstops

/-- The machine goes on inside the window, through instructions that do not jump, up to the
end. -/
structure InLine (window : Window) (machine : Machine) : Prop where
  window_eq : machine.window = window
  /-- The program counter is in the window or at its end. -/
  start_le : window.address.toNat ≤ machine.registers.pc.toNat
  le_limit : machine.registers.pc.toNat ≤ window.limit
  running : machine.returned = false
  straight : ∀ i ∈ machine.ahead, i.Straight

section InLine

variable {window : Window} {machine : Machine}

/-- While something is ahead, there is no reason to stop. -/
theorem InLine.ending?_eq_none (h : InLine window machine)
    (inside : machine.registers.pc.toNat < window.limit) : machine.ending? = none := by
  obtain ⟨rfl, -, -, hrunning, -⟩ := h
  exact ending?_of_inside hrunning inside

theorem InLine.ending?_eq_ranOut (h : InLine window machine)
    (hend : window.limit ≤ machine.registers.pc.toNat) : machine.ending? = some .ranOut := by
  obtain ⟨rfl, -, -, hrunning, -⟩ := h
  exact ending?_of_outside hrunning hend

/-- Inside the window the machine stands at a complete instruction: anything else would be
shown as unknown. -/
theorem InLine.exists_passes (h : InLine window machine) (bound : window.limit ≤ 0xFFFF)
    (inside : machine.registers.pc.toNat < window.limit) : ∃ e, machine.Passes e := by
  obtain ⟨rfl, -, -, -, hstraight⟩ := h
  have hfirst := hstraight _ (List.mem_of_head? (head?_ahead inside))
  rcases decoding_cases bound inside with ⟨hdecoded, hname, -⟩
    | ⟨e, hinstr, hreach, hdecoded, hname, -, hsize, -⟩ | ⟨hdecoded, -⟩
  · rw [hdecoded] at hfirst
    exact absurd hname hfirst.1
  · rw [hdecoded] at hfirst
    obtain ⟨hbranch, hjump⟩ := hfirst.not_mem hname
    exact ⟨e, hinstr, hreach, hdecoded, hsize, Mnemonic.jumps_eq_false hbranch hjump⟩
  · rw [hdecoded] at hfirst
    exact absurd rfl hfirst.1

/-- One instruction later the machine is still in line, with one instruction less ahead. -/
theorem InLine.step {e : Encoding} (h : InLine window machine) (bound : window.limit ≤ 0xFFFF)
    (hpasses : machine.Passes e)
    (quiet : ∀ address ∈ machine.footprint e, ¬ window.Covers address) :
    machine.ahead = machine.shown :: (machine.perform e).ahead
      ∧ InLine window (machine.perform e) := by
  obtain ⟨rfl, hstart, -, hrunning, hstraight⟩ := h
  have hpc := hpasses.toNat_pc bound
  have hlimit := hpasses.le_limit bound
  have hahead := hpasses.ahead_eq_shown_cons bound
    fun address hmem hplace => quiet address hmem ⟨by omega, hplace.2⟩
  have hret : e.mnemonic.operation ≠ .implied .ret := by
    intro hop
    have hjumps := hpasses.jumps
    rw [hop] at hjumps
    cases hjumps
  refine ⟨hahead, window_perform machine e, by omega, by omega, ?_, ?_⟩
  · rw [returned_perform hret, hrunning]
  · intro i hi
    apply hstraight
    rw [hahead]
    exact List.mem_cons_of_mem _ hi

/-- A run takes one step for each instruction that is ahead, and ends with the window. -/
theorem InLine.run (h : InLine window machine) (bound : window.limit ≤ 0xFFFF)
    (quiet : ∀ fuel, ∀ visited ∈ visitedByRun fuel machine, ∀ e ∈ visited.instruction?,
      ∀ address ∈ visited.footprint e, ¬ window.Covers address) :
    ∃ final, steps machine.ahead.length machine = .ok () final
      ∧ final.registers.pc.toNat = window.limit
      ∧ ∀ fuel ≥ machine.ahead.length,
          Machine.run fuel machine = .ok (some .ranOut) final
          ∧ (visitedByRun fuel machine).map (·.registers.pc) = machine.ahead.map (·.address) := by
  -- Induction on what is ahead; the first step takes one instruction off.
  induction hlist : machine.ahead generalizing machine with
  | nil =>
    have hend : window.limit ≤ machine.registers.pc.toNat := by
      rw [← h.window_eq, ← not_lt]
      intro inside
      have hhead := head?_ahead inside
      rw [hlist] at hhead
      cases hhead
    have hending := h.ending?_eq_ranOut hend
    refine ⟨machine, rfl, Nat.le_antisymm h.le_limit hend, ?_⟩
    intro fuel _
    rw [run_of_ending hending, visitedByRun_of_ending hending]
    exact ⟨rfl, rfl⟩
  | cons i rest ih =>
    have inside : machine.registers.pc.toNat < window.limit := by
      rw [← h.window_eq, ← not_le]
      intro hend
      rw [ahead_of_limit_le hend] at hlist
      cases hlist
    have hending := h.ending?_eq_none inside
    obtain ⟨e, hpasses⟩ := h.exists_passes bound inside
    have hvisited := visitedByRun_succ hending hpasses.step
    have hmachine : machine ∈ visitedByRun 1 machine := by
      rw [hvisited]
      exact List.mem_cons_self
    obtain ⟨hahead, hline⟩ :=
      h.step bound hpasses (quiet 1 machine hmachine e hpasses.instruction)
    rw [hlist] at hahead
    obtain ⟨rfl, hrest⟩ := List.cons.inj hahead
    have hquiet : ∀ fuel, ∀ visited ∈ visitedByRun fuel (machine.perform e),
        ∀ e ∈ visited.instruction?, ∀ address ∈ visited.footprint e,
          ¬ window.Covers address := by
      intro fuel visited hmem
      apply quiet (fuel + 1) visited
      rw [hvisited]
      exact List.mem_cons_of_mem machine hmem
    obtain ⟨final, hsteps, hpc, hrun⟩ := ih hline hquiet hrest.symm
    refine ⟨final, ?_, hpc, ?_⟩
    · rw [List.length_cons, steps_succ, hpasses.step]
      exact hsteps
    · intro fuel hfuel
      obtain ⟨fuel, rfl⟩ := Nat.exists_eq_add_one_of_ne_zero (Nat.ne_zero_of_lt hfuel)
      obtain ⟨hran, hmap⟩ := hrun fuel (Nat.le_of_succ_le_succ hfuel)
      rw [run_succ hending, hpasses.step, hvisited, List.map_cons, List.map_cons, hmap]
      exact ⟨hran, rfl⟩

end InLine

/-! ## §4. Loaded programs. -/

section Loaded

variable {prior loaded : Machine} {code : List UInt8} {address : UInt16}

theorem fits_of_loadProgram (h : prior.loadProgram code address = (true, loaded)) :
    address.toNat + code.length ≤ 0xFFFF := by
  have haccepted := prior.loadProgram_fst code address
  rw [h] at haccepted
  exact of_decide_eq_true haccepted.symm

theorem eq_of_loadProgram (h : prior.loadProgram code address = (true, loaded)) :
    loaded = { registers := { prior.registers with pc := address }
               memory := Memory.zero.writeBytes address code
               window := ⟨address, code.length⟩ } := by
  rw [loadProgram_of_fits prior (fits_of_loadProgram h)] at h
  exact (congrArg Prod.snd h).symm

variable {changes : RegisterUpdate} (h : prior.loadProgram code address = (true, loaded))
  (stay : changes.pc = none)

include h stay

theorem pc_of_loadProgram : (loaded.update changes).registers.pc = address := by
  rw [eq_of_loadProgram h]
  show changes.pc.getD address = address
  rw [stay, Option.getD_none]

/-- All that was loaded is ahead, as it is swept. -/
theorem ahead_of_loadProgram :
    (loaded.update changes).ahead = Instruction.sweep address code := by
  have hfits := fits_of_loadProgram h
  have hmemory : (loaded.update changes).memory = Memory.zero.writeBytes address code := by
    rw [eq_of_loadProgram h]
    rfl
  have hlength : (loaded.update changes).window.limit - address.toNat = code.length := by
    rw [eq_of_loadProgram h]
    exact Nat.add_sub_cancel_left _ _
  unfold ahead
  rw [pc_of_loadProgram h stay, hmemory, hlength, Memory.readBytes_writeBytes _ (by omega)]

theorem inLine_of_loadProgram (straight : ∀ i ∈ Instruction.sweep address code, i.Straight) :
    InLine ⟨address, code.length⟩ (loaded.update changes) where
  window_eq := by
    rw [eq_of_loadProgram h]
    rfl
  start_le := by
    rw [pc_of_loadProgram h stay]
  le_limit := by
    rw [pc_of_loadProgram h stay]
    exact Nat.le_add_right _ _
  running := by
    rw [eq_of_loadProgram h]
    rfl
  straight := by
    rw [ahead_of_loadProgram h stay]
    exact straight

end Loaded

/-- **Straight code runs as it is swept.**  After a program was loaded and registers other than
the program counter were set, if all its instructions are straight and none that the run executes
writes into the program, the run ends at the end of the program, after one step for each
instruction of the sweep, taken at the address of that instruction. -/
theorem run_straight_code {prior loaded : Machine} {code : List UInt8} {address : UInt16}
    (accepted : prior.loadProgram code address = (true, loaded))
    (straight : ∀ i ∈ Instruction.sweep address code, i.Straight)
    {changes : RegisterUpdate} (stay : changes.pc = none)
    (quiet : ∀ fuel, ∀ machine ∈ visitedByRun fuel (loaded.update changes),
      ∀ e ∈ machine.instruction?, ∀ place ∈ machine.footprint e,
        ¬ (address.toNat ≤ place.toNat ∧ place.toNat < address.toNat + code.length)) :
    ∃ final, steps (Instruction.sweep address code).length (loaded.update changes) = .ok () final
      ∧ final.registers.pc.toNat = address.toNat + code.length
      ∧ ∀ fuel ≥ (Instruction.sweep address code).length,
          run fuel (loaded.update changes) = .ok (some .ranOut) final
          ∧ (visitedByRun fuel (loaded.update changes)).map (·.registers.pc)
            = (Instruction.sweep address code).map (·.address) := by
  have hline := inLine_of_loadProgram accepted stay straight
  have hrun := hline.run (fits_of_loadProgram accepted) quiet
  rw [ahead_of_loadProgram accepted stay] at hrun
  exact hrun

/-- Code with a push, a store to page zero and a shift. -/
def pushAndStore : List UInt8 := [0xA9, 0x05, 0x48, 0x85, 0x10, 0x0A]

theorem sweep_pushAndStore :
    Instruction.sweep 0x0200 pushAndStore
      = [⟨0x0200, 0xA9, "LDA", .immediate, [0x05], 2⟩, ⟨0x0202, 0x48, "PHA", .implicit, [], 1⟩,
        ⟨0x0203, 0x85, "STA", .zeroPage, [0x10], 2⟩,
        ⟨0x0205, 0x0A, "ASL", .accumulator, [], 1⟩] := by
  decide +kernel

/-- The code loaded right above the stack page, with the stack pointer at the bottom of the
page. -/
def pushing : Machine := (new.loadProgram pushAndStore 0x0200).2.update { s := some 0x00 }

/-- Four steps for six bytes. -/
theorem run_straight_code_pushing :
    (visitedByRun 4 pushing).map (·.registers.pc) = [0x0200, 0x0202, 0x0203, 0x0205]
      ∧ ∃ final, run 4 pushing = .ok (some .ranOut) final
        ∧ final.registers.pc.toNat = 0x0206 := by
  have accepted : new.loadProgram pushAndStore 0x0200
      = (true, (new.loadProgram pushAndStore 0x0200).2) := by
    apply Prod.ext
    · exact loadProgram_fst new pushAndStore 0x0200
    · rfl
  have straight : ∀ i ∈ Instruction.sweep 0x0200 pushAndStore, i.Straight := by
    rw [sweep_pushAndStore]
    decide
  have hcount : (visitedByRun 5 pushing).length < 5 := by decide +kernel
  have hbelow : ∀ machine ∈ visitedByRun 5 pushing, ∀ e ∈ machine.instruction?,
      (machine.footprint e).all (fun place => decide (place.toNat < 0x0200)) = true := by
    decide +kernel
  have quiet : ∀ fuel, ∀ machine ∈ visitedByRun fuel pushing, ∀ e ∈ machine.instruction?,
      ∀ place ∈ machine.footprint e, ¬ (0x0200 ≤ place.toNat ∧ place.toNat < 0x0200 + 6) := by
    intro fuel machine hmem e he place hplace
    have hall := hbelow machine (visitedByRun_subset hcount fuel hmem) e he
    have hlt : place.toNat < 0x0200 := of_decide_eq_true (List.all_eq_true.mp hall place hplace)
    omega
  obtain ⟨final, -, hpc, hrun⟩ := run_straight_code accepted straight rfl quiet
  rw [sweep_pushAndStore] at hrun
  obtain ⟨hran, hmap⟩ := hrun 4 (Nat.le_refl 4)
  exact ⟨hmap, final, hran, hpc⟩

end Machine

end Mos6502
