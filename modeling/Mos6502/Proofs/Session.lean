/-
  Mos6502.Proofs.Session — what a host asks of a machine

  A host loads programs and data, sets registers, writes to memory, fetches bytes and
  operands by hand, and has instructions executed.  A session is a list of such
  requests, served one after the other whatever they lead to.  What holds at its
  start and is kept by every request holds at its end, so that a law about all that
  can ever happen to a machine is one case for each kind of request.

  Main statements:
    * `run_invariant`, `session_invariant` — what steps keep runs keep, and what
                                requests keep sessions keep
    * `progress_serve`        — what fetches and changes from outside leave alone
    * `window_serve`          — which requests move the window, and where
    * `Reachable.limit_le`, `Reachable.window_bound` — the window never ends above the last
                                address, so that fetching does not go round memory
-/
import Mos6502.Proofs.Frame

namespace Mos6502

/-! ## §1. What a computation leaves. -/

namespace ByteStream

variable {σ α : Type}

/-- The state that a computation leaves, whether it fails or not. -/
def leave (x : Fetch σ α) (s : σ) : σ :=
  match x s with
  | .ok _ next => next
  | .error _ failed => failed

/-- What a computation answers: its value, or the fault that it met. -/
def answer (x : Fetch σ α) (s : σ) : Except Fault α :=
  match x s with
  | .ok value _ => .ok value
  | .error fault _ => .error fault

theorem leave_of_ok {x : Fetch σ α} {s next : σ} {value : α} (h : x s = .ok value next) :
    leave x s = next := by
  unfold leave
  rw [h]

theorem leave_of_error {x : Fetch σ α} {s failed : σ} {fault : Fault}
    (h : x s = .error fault failed) : leave x s = failed := by
  unfold leave
  rw [h]

theorem answer_of_ok {x : Fetch σ α} {s next : σ} {value : α} (h : x s = .ok value next) :
    answer x s = .ok value := by
  unfold answer
  rw [h]

theorem answer_of_error {x : Fetch σ α} {s failed : σ} {fault : Fault}
    (h : x s = .error fault failed) : answer x s = .error fault := by
  unfold answer
  rw [h]

/-- A computation that fetches a number of bytes moves the cursor and nothing else. -/
theorem Delivers.leave_eq [ByteStream σ] {x : Fetch σ α} {count : Nat} {value : σ → α}
    (h : Delivers x count value) (s : σ) : ∃ address, leave x s = seek s address := by
  have hx := h s
  by_cases hreach : InReach s count
  · rw [delivery_of_inReach hreach] at hx
    exact ⟨_, leave_of_ok hx⟩
  · rw [delivery_of_not_inReach hreach] at hx
    exact ⟨_, leave_of_error hx⟩

end ByteStream

namespace Machine

open ByteStream

/-- Fetching an operand moves the program counter at most, also in a mode that has none. -/
theorem leave_effectiveAddress (mnemonic : Mnemonic) (mode : AddressingMode)
    (machine : Machine) :
    ∃ address, leave (effectiveAddress mnemonic mode) machine = machine.goto address := by
  cases hlocate : mode.locate with
  | none =>
    exact ⟨machine.registers.pc,
      leave_of_error (effectiveAddress_of_locate_eq_none mnemonic hlocate machine)⟩
  | some locate =>
    exact (delivers_effectiveAddress mnemonic (by rw [hlocate]; rfl)).leave_eq machine

theorem leave_readOperand (mnemonic : Mnemonic) (mode : AddressingMode) (machine : Machine) :
    ∃ address, leave (readOperand mnemonic mode) machine = machine.goto address := by
  by_cases h : mode = .immediate ∨ mode.locate.isSome
  · exact (delivers_readOperand mnemonic h).leave_eq machine
  · -- A mode that is refused fetches nothing, so the machine goes to where it is.
    rw [not_or, Option.not_isSome_iff_eq_none] at h
    exact ⟨machine.registers.pc,
      leave_of_error (readOperand_of_error h.1
        (effectiveAddress_of_locate_eq_none mnemonic h.2 machine))⟩

/-! ## §2. What is executed. -/

/-- The instruction that a step executes, if it succeeds. -/
def executedByStep (machine : Machine) : List Mnemonic :=
  match step machine with
  | .ok _ _ => machine.mnemonic?.toList
  | .error _ _ => []

/-- The instructions that a run executes, in order; a step that fails executes none. -/
def executedByRun : Nat → Machine → List Mnemonic
  | 0, _ => []
  | fuel + 1, machine =>
    match machine.ending? with
    | some _ => []
    | none =>
      match step machine with
      | .ok _ next => machine.executedByStep ++ executedByRun fuel next
      | .error _ _ => []

theorem executedByStep_of_instruction {machine next : Machine} {e : Encoding}
    (hstep : step machine = .ok () next) (h : machine.instruction? = some e) :
    machine.executedByStep = [e.mnemonic] := by
  unfold executedByStep
  rw [hstep, mnemonic?_of_instruction h]
  rfl

theorem executedByStep_of_error {machine failed : Machine} {fault : Fault}
    (h : step machine = .error fault failed) : machine.executedByStep = [] := by
  unfold executedByStep
  rw [h]

/-- What every step keeps, of the machine and the instructions executed so far, a run
keeps, however it ends. -/
theorem run_invariant {P : List Mnemonic → Machine → Prop}
    (keep : ∀ executed machine, P executed machine →
      P (executed ++ machine.executedByStep) (leave step machine))
    (fuel : Nat) (executed : List Mnemonic) {machine : Machine} (h : P executed machine) :
    P (executed ++ executedByRun fuel machine) (leave (run fuel) machine) := by
  -- Induction on the fuel; the first step goes to `keep`, the rest of the run to `ih`.
  induction fuel generalizing executed machine with
  | zero =>
    rw [executedByRun, List.append_nil]
    cases hending : machine.ending? with
    | some ending => rw [leave_of_ok (run_of_ending hending 0)]; exact h
    | none => rw [leave_of_ok (run_zero hending)]; exact h
  | succ fuel ih =>
    rw [executedByRun]
    cases hending : machine.ending? with
    | some ending =>
      rw [leave_of_ok (run_of_ending hending _), List.append_nil]
      exact h
    | none =>
      have hrun := run_succ hending fuel
      have hnext := keep executed machine h
      cases hstep : step machine with
      | ok _ next =>
        rw [hstep] at hrun
        rw [leave_of_ok hstep] at hnext
        have hleave : leave (run (fuel + 1)) machine = leave (run fuel) next := by
          unfold leave
          rw [hrun]
        rw [hleave, ← List.append_assoc]
        exact ih _ hnext
      | error fault failed =>
        rw [hstep] at hrun
        rw [leave_of_error hstep, executedByStep_of_error hstep] at hnext
        rw [leave_of_error hrun]
        exact hnext

end Machine

/-! ## §3. Requests. -/

/-- What a host can ask of a machine. -/
inductive Request where
  /-- Load a program. -/
  | loadProgram (data : List UInt8) (address : UInt16)
  /-- Load data that is not executable. -/
  | loadData (data : List UInt8) (address : UInt16) (clear : Bool)
  /-- Give some of the registers new values. -/
  | update (changes : RegisterUpdate)
  /-- Bring the machine back to where it was when it was switched on. -/
  | reset
  /-- Write a byte to memory. -/
  | write (address : UInt16) (value : UInt8)
  /-- Fetch a byte. -/
  | nextByte
  /-- Fetch a word. -/
  | nextWord
  /-- Fetch an operand and tell the address it leads to. -/
  | effectiveAddress (mnemonic : Mnemonic) (mode : AddressingMode)
  /-- Fetch an operand and tell the value it stands for. -/
  | readOperand (mnemonic : Mnemonic) (mode : AddressingMode)
  /-- Take a step. -/
  | step
  /-- Take steps until there is a reason to take no more, and at most `fuel` of them: a
  run that comes to its end is one with fuel enough. -/
  | run (fuel : Nat)
  deriving Repr

namespace Request

open ByteStream

/-- The machine after a request, whether it was granted or failed. -/
def serve (request : Request) (machine : Machine) : Machine :=
  match request with
  | loadProgram data address => (machine.loadProgram data address).2
  | loadData data address clear => (machine.loadData data address clear).2
  | update changes => machine.update changes
  | reset => machine.reset
  | write address value => { machine with memory := machine.memory.write address value }
  | nextByte => leave ByteStream.nextByte machine
  | nextWord => leave ByteStream.nextWord machine
  | effectiveAddress mnemonic mode => leave (Machine.effectiveAddress mnemonic mode) machine
  | readOperand mnemonic mode => leave (Machine.readOperand mnemonic mode) machine
  | step => leave Machine.step machine
  | run fuel => leave (Machine.run fuel) machine

/-- The instructions that are executed while a request is served. -/
def executed (request : Request) (machine : Machine) : List Mnemonic :=
  match request with
  | step => machine.executedByStep
  | run fuel => machine.executedByRun fuel
  | _ => []

/-- Whether a request has instructions executed. -/
def executes : Request → Bool
  | step | run _ => true
  | _ => false

/-- Whether a request begins a program anew: a reset does, and a program that is accepted. -/
def restarts : Request → Bool
  | reset => true
  | loadProgram data address => (Machine.new.loadProgram data address).1
  | _ => false

end Request

namespace Machine

open ByteStream

/-- What every step keeps, a request that has instructions executed keeps. -/
theorem executes_invariant {P : List Mnemonic → Machine → Prop}
    (keep : ∀ executed machine, P executed machine →
      P (executed ++ machine.executedByStep) (leave step machine))
    {request : Request} (hexecutes : request.executes = true) (executed : List Mnemonic)
    {machine : Machine} (h : P executed machine) :
    P (executed ++ request.executed machine) (request.serve machine) := by
  cases request with
  | step => exact keep executed machine h
  | run fuel => exact run_invariant keep fuel executed h
  | _ => cases hexecutes

/-- Whether a program is accepted does not depend on the machine. -/
theorem loadProgram_refused {machine : Machine} {data : List UInt8} {address : UInt16}
    (h : (Request.loadProgram data address).restarts = false) :
    machine.loadProgram data address = (false, machine) := by
  refine loadProgram_of_not_fits machine (of_decide_eq_false ?_)
  exact (loadProgram_fst new data address).symm.trans h

/-- What a program makes of a machine besides registers and memory: the window it runs
in, the calls that are open, and whether it is over. -/
def progress (machine : Machine) : Window × Nat × Bool :=
  (machine.window, machine.callDepth, machine.returned)

/-- Only instructions and restarts change more than registers and memory. -/
theorem progress_serve {request : Request} (hexecutes : request.executes = false)
    (hrestarts : request.restarts = false) (machine : Machine) :
    (request.serve machine).progress = machine.progress := by
  -- The four fetches move the program counter and nothing else.
  have hgoto : ∀ {next : Machine}, (∃ address, next = machine.goto address) →
      next.progress = machine.progress := by
    rintro next ⟨address, rfl⟩
    rfl
  cases request with
  | loadProgram data address =>
    rw [Request.serve, loadProgram_refused hrestarts]
  | reset => cases hrestarts
  | nextByte => exact hgoto (delivers_nextByte.leave_eq machine)
  | nextWord => exact hgoto (delivers_nextWord.leave_eq machine)
  | effectiveAddress mnemonic mode => exact hgoto (leave_effectiveAddress mnemonic mode machine)
  | readOperand mnemonic mode => exact hgoto (leave_readOperand mnemonic mode machine)
  | step => cases hexecutes
  | run fuel => cases hexecutes
  | _ => rfl

/-! ## §4. Sessions. -/

/-- The machine after a list of requests. -/
def serve (machine : Machine) (requests : List Request) : Machine :=
  requests.foldl (fun machine request => request.serve machine) machine

/-- The instructions that are executed during a list of requests, in order. -/
def executed : Machine → List Request → List Mnemonic
  | _, [] => []
  | machine, request :: rest =>
    request.executed machine ++ executed (request.serve machine) rest

/-- What every request of a session keeps, the session keeps. -/
theorem session_invariant {P : List Mnemonic → Machine → Prop} {requests : List Request}
    (keep : ∀ request ∈ requests, ∀ executed machine, P executed machine →
      P (executed ++ request.executed machine) (request.serve machine))
    (before : List Mnemonic) {machine : Machine} (h : P before machine) :
    P (before ++ machine.executed requests) (machine.serve requests) := by
  induction requests generalizing before machine with
  | nil =>
    rw [executed, List.append_nil]
    exact h
  | cons request rest ih =>
    rw [executed, ← List.append_assoc]
    have hnext := keep request List.mem_cons_self before machine h
    exact ih (fun later hlater => keep later (List.mem_cons_of_mem request hlater)) _ hnext

/-- A machine that a session can lead to. -/
def Reachable (machine : Machine) : Prop := ∃ requests, new.serve requests = machine

/-! ## §5. The window. -/

theorem window_step (machine : Machine) : (leave step machine).window = machine.window := by
  cases hstep : step machine with
  | ok _ next =>
    obtain ⟨e, -, -, rfl⟩ := step_eq_ok_iff.mp hstep
    rw [leave_of_ok hstep]
    exact window_perform machine e
  | error fault failed =>
    rw [leave_of_error hstep]
    rcases step_error_cases hstep with ⟨-, -, rfl⟩ | ⟨-, -, -, rfl⟩ | ⟨e, -, -, -, -, rfl⟩
      <;> rfl

theorem window_run (fuel : Nat) (machine : Machine) :
    (leave (run fuel) machine).window = machine.window :=
  run_invariant (P := fun _ next => next.window = machine.window)
    (fun _ next h => (window_step next).trans h) fuel [] rfl

end Machine

/-- The window after a request: an accepted program becomes the window, a reset leaves none,
and nothing else moves it. -/
def Request.windowAfter (request : Request) (machine : Machine) : Window :=
  match request with
  | loadProgram data address =>
    if (machine.loadProgram data address).1 then ⟨address, data.length⟩ else machine.window
  | reset => ⟨0, 0⟩
  | _ => machine.window

namespace Machine

open ByteStream

theorem window_loadProgram (machine : Machine) (data : List UInt8) (address : UInt16) :
    (machine.loadProgram data address).2.window
      = if (machine.loadProgram data address).1 then ⟨address, data.length⟩
        else machine.window := by
  unfold loadProgram
  split <;> rfl

theorem window_serve (request : Request) (machine : Machine) :
    (request.serve machine).window = request.windowAfter machine := by
  have hkept : request.executes = false → request.restarts = false →
      (request.serve machine).window = machine.window :=
    fun hexecutes hrestarts => congrArg Prod.fst (progress_serve hexecutes hrestarts machine)
  cases request with
  | loadProgram data address => exact window_loadProgram machine data address
  | reset => rfl
  | step => exact window_step machine
  | run fuel => exact window_run fuel machine
  | _ => exact hkept rfl rfl

/-- No request makes the window end above the last address. -/
theorem limit_serve (request : Request) {machine : Machine}
    (bound : machine.window.limit ≤ 0xFFFF) :
    (request.serve machine).window.limit ≤ 0xFFFF := by
  rw [window_serve]
  cases request with
  | loadProgram data address =>
    show (if (machine.loadProgram data address).1 = true then _ else _ : Window).limit ≤ 0xFFFF
    split
    · next haccepted =>
      rw [loadProgram_fst] at haccepted
      exact of_decide_eq_true haccepted
    · exact bound
  | reset => exact Nat.zero_le _
  | _ => exact bound

theorem Reachable.limit_le {machine : Machine} (h : machine.Reachable) :
    machine.window.limit ≤ 0xFFFF := by
  obtain ⟨requests, rfl⟩ := h
  exact session_invariant (P := fun _ machine => machine.window.limit ≤ 0xFFFF)
    (fun request _ _ _ bound => limit_serve request bound) [] (Nat.zero_le _)

/-- What a byte that was fetched tells about the machine. -/
theorem nextByte_eq_ok {machine next : Machine} {value : UInt8}
    (h : nextByte machine = .ok value next) :
    InReach machine 1 ∧ value = machine.memory.read machine.registers.pc
      ∧ next = advance machine 1 := by
  by_cases hreach : InReach machine 1
  · rw [delivers_nextByte, delivery_of_inReach hreach] at h
    cases h
    exact ⟨hreach, rfl, rfl⟩
  · rw [delivers_nextByte, delivery_of_not_inReach hreach] at h
    cases h

/-- **The window ends below the last address, whatever the host does.**  Every byte that is
fetched lies below the end of the window, and the program counter never goes round memory on
the way; only an accepted program and a reset move the window. -/
theorem Reachable.window_bound {machine : Machine} (h : machine.Reachable) :
    machine.window.address.toNat + machine.window.length ≤ 0xFFFF
    ∧ (∀ value next, nextByte machine = .ok value next →
        machine.registers.pc.toNat < machine.window.limit
        ∧ machine.registers.pc.toNat < 0xFFFF
        ∧ value = machine.memory.read machine.registers.pc
        ∧ next = machine.goto next.registers.pc
        ∧ next.registers.pc.toNat = machine.registers.pc.toNat + 1)
    ∧ ∀ request : Request, (request.serve machine).window = request.windowAfter machine := by
  have hlimit := h.limit_le
  refine ⟨hlimit, ?_, fun request => window_serve request machine⟩
  intro value next hfetch
  obtain ⟨hreach, rfl, rfl⟩ := nextByte_eq_ok hfetch
  have hbelow : machine.registers.pc.toNat < machine.window.limit :=
    Nat.lt_of_not_le (of_decide_eq_false ((inReach_one_iff machine).mp hreach))
  exact ⟨hbelow, Nat.lt_of_lt_of_le hbelow hlimit, rfl, rfl, toNat_cursor_advance hreach hlimit⟩

/-- A program that ends right below the last address, another that would end above it, and a
program counter at the last byte of the window. -/
def atTheTop : List Request :=
  [.loadProgram [0xA9, 0x05, 0x60] 0xFFFC, .loadProgram [0xEA, 0xEA] 0xFFFE,
    .update { pc := some 0xFFFE }]

theorem window_bound_atTheTop :
    (new.serve atTheTop).window = ⟨0xFFFC, 3⟩
    ∧ (∃ value next, nextByte (new.serve atTheTop) = .ok value next
        ∧ next.registers.pc = 0xFFFF)
    ∧ (Request.reset.serve (new.serve atTheTop)).window = ⟨0, 0⟩ := by
  obtain ⟨-, hfetch, hwindow⟩ := Reachable.window_bound ⟨atTheTop, rfl⟩
  have hbyte := nextByte_of_not_atEnd (s := new.serve atTheTop) (by decide +kernel)
  obtain ⟨-, -, -, -, hpc⟩ := hfetch _ _ hbyte
  refine ⟨by decide +kernel, ⟨_, _, hbyte, ?_⟩, hwindow .reset⟩
  exact UInt16.toNat_inj.mp (hpc.trans (by decide +kernel))

end Machine

end Mos6502
