/-
  Mos6502.Proofs.Outcome — when a step fails, and what a failure leaves behind

  The outcome of a step is settled by the program counter, the end of the window
  and the opcode alone; no instruction ever meets a mode that it does not support.
  A failure moves the program counter over what was fetched and does nothing else,
  in a single step as in a run.

  Main statements:
    * `step_outcome`            — which fault arises, and when none does
    * `failure_moves_pc_only`   — the state after a failure
-/
import Mos6502.Proofs.Stepping

namespace Mos6502.Machine

open ByteStream

/-! ## §1. Reach inside memory. -/

/-- Inside a window that ends in memory, reach is a matter of the limit. -/
theorem inReach_iff_of_le {machine : Machine} (bound : machine.window.limit ≤ 0xFFFF)
    {count : Nat} (hcount : 0 < count) :
    InReach machine count ↔ machine.registers.pc.toNat + count ≤ machine.window.limit := by
  show count = 0 ∨ machine.registers.pc.toNat + count ≤ machine.window.limit
      ∨ 0xFFFF < machine.window.limit ↔ _
  omega

/-- A window that ends at or below the program counter has nothing in reach. -/
theorem not_inReach_of_limit_le {machine : Machine}
    (h : machine.window.limit ≤ machine.registers.pc.toNat) : ¬ InReach machine 1 := by
  have hpc := machine.registers.pc.toNat_lt
  rw [inReach_iff_of_le (by omega) (by omega)]
  omega

/-- From inside the window the edge is its limit. -/
theorem edge_of_lt {machine : Machine}
    (h : machine.registers.pc.toNat < machine.window.limit) :
    edge machine = UInt16.ofNat machine.window.limit := by
  show UInt16.ofNat (max machine.registers.pc.toNat machine.window.limit) = _
  rw [Nat.max_eq_right (Nat.le_of_lt h)]

/-! ## §2. Outcomes. -/

/-- No step ends in the fault that the addressing mode is not supported. -/
theorem step_ne_unsupportedMode (machine failed : Machine) (mnemonic : Mnemonic)
    (mode : AddressingMode) : step machine ≠ .error (.unsupportedMode mnemonic mode) failed := by
  intro h
  rcases step_error_cases h with ⟨-, hfault, -⟩ | ⟨-, -, hfault, -⟩ | ⟨e, -, -, -, hfault, -⟩
    <;> cases hfault

/-- **The outcome of a step**: it runs past the end if there is no opcode in the window,
meets an illegal opcode, runs past the end in its operand, or succeeds.  The mode is
supported in every step, and so in every run. -/
theorem step_outcome (machine : Machine) (bound : machine.window.limit ≤ 0xFFFF) :
    let pc := machine.registers.pc
    let limit := machine.window.limit
    let opcode := machine.memory.read pc
    (limit ≤ pc.toNat → ∃ failed, step machine = .error (.pastEnd pc) failed)
    ∧ (pc.toNat < limit → Opcode.encoding opcode = none →
        ∃ failed, step machine = .error (.illegalOpcode opcode pc) failed)
    ∧ (pc.toNat < limit → Opcode.encoding opcode ≠ none →
        limit < pc.toNat + Opcode.size opcode →
        ∃ failed, step machine = .error (.pastEnd (UInt16.ofNat limit)) failed)
    ∧ (pc.toNat < limit → Opcode.encoding opcode ≠ none →
        pc.toNat + Opcode.size opcode ≤ limit → ∃ next, step machine = .ok () next)
    ∧ (∀ mnemonic mode failed, step machine ≠ .error (.unsupportedMode mnemonic mode) failed)
    ∧ (∀ fuel mnemonic mode failed,
        run fuel machine ≠ .error (.unsupportedMode mnemonic mode) failed) := by
  intro pc limit opcode
  have hreach : ∀ {count}, 0 < count → (InReach machine count ↔ pc.toNat + count ≤ limit) :=
    inReach_iff_of_le bound
  refine ⟨?_, ?_, ?_, ?_, ?_, ?_⟩
  · intro hend
    exact ⟨machine, step_of_not_inReach (not_inReach_of_limit_le hend)⟩
  · intro hpc hnone
    exact ⟨_, step_of_undocumented ((hreach Nat.one_pos).mpr hpc) hnone⟩
  · intro hpc hsome hshort
    obtain ⟨e, he⟩ := Option.ne_none_iff_exists'.mp hsome
    rw [Opcode.size_of_encoding he] at hshort
    have hone : InReach machine 1 := (hreach Nat.one_pos).mpr hpc
    have hsize : ¬ InReach machine e.size := by
      rw [hreach e.size_pos]
      omega
    refine ⟨machine.goto (edge machine), ?_⟩
    rw [step_of_instruction hone he, delivery_of_not_inReach hsize, edge_of_lt hpc]
    rfl
  · intro hpc hsome hfits
    obtain ⟨e, he⟩ := Option.ne_none_iff_exists'.mp hsome
    rw [Opcode.size_of_encoding he] at hfits
    exact ⟨machine.perform e, step_of_complete he ((hreach e.size_pos).mpr hfits)⟩
  · intro mnemonic mode failed
    exact step_ne_unsupportedMode machine failed mnemonic mode
  · intro fuel mnemonic mode failed h
    obtain ⟨count, before, -, -, hfail⟩ := run_error h
    exact step_ne_unsupportedMode before failed mnemonic mode hfail

/-- A load of which only one of two operand bytes is in the window. -/
def truncatedLoad : Machine := (new.loadProgram [0xAD, 0x34] 0x0200).2

theorem step_outcome_truncatedLoad :
    truncatedLoad.window.limit ≤ 0xFFFF
    ∧ ∃ failed, step truncatedLoad = .error (.pastEnd 0x0202) failed :=
  ⟨by decide +kernel,
    (step_outcome truncatedLoad (by decide +kernel)).2.2.1 (by decide +kernel)
      (by decide +kernel) (by decide +kernel)⟩

/-! ## §3. What is left behind. -/

/-- A failed step differs from no step in the program counter at most. -/
theorem eq_goto_of_step_error {machine failed : Machine} {fault : Fault}
    (h : step machine = .error fault failed) :
    failed = machine.goto failed.registers.pc := by
  rcases step_error_cases h with ⟨-, -, rfl⟩ | ⟨-, -, -, rfl⟩ | ⟨e, -, -, -, -, rfl⟩
    <;> rfl

/-- **A failure moves the program counter only.**  It stays where it is at or beyond the
end of the window, goes over an illegal opcode, and goes to the end of the window if
operand bytes are missing.  A run that fails has failed in one of its steps, and leaves
what that step leaves. -/
theorem failure_moves_pc_only (machine : Machine) (bound : machine.window.limit ≤ 0xFFFF) :
    (∀ fault failed, step machine = .error fault failed →
      failed = machine.goto failed.registers.pc
      ∧ (machine.window.limit ≤ machine.registers.pc.toNat →
          failed.registers.pc = machine.registers.pc)
      ∧ (∀ opcode address, fault = .illegalOpcode opcode address →
          failed.registers.pc = machine.registers.pc + 1)
      ∧ (machine.registers.pc.toNat < machine.window.limit → ∀ address, fault = .pastEnd address →
          failed.registers.pc.toNat = machine.window.limit))
    ∧ (∀ fuel fault failed, run fuel machine = .error fault failed →
      ∃ count before, steps count machine = .ok () before ∧ step before = .error fault failed
        ∧ failed = before.goto failed.registers.pc) := by
  refine ⟨?_, ?_⟩
  · intro fault failed h
    refine ⟨eq_goto_of_step_error h, ?_, ?_, ?_⟩
    · intro hend
      rw [step_of_not_inReach (not_inReach_of_limit_le hend)] at h
      cases h
      rfl
    · intro opcode address hfault
      rcases step_error_cases h with ⟨-, hf, -⟩ | ⟨-, -, -, rfl⟩ | ⟨e, -, -, -, hf, -⟩
      · rw [hfault] at hf
        cases hf
      · rfl
      · rw [hfault] at hf
        cases hf
    · intro hpc address hfault
      have hone : InReach machine 1 := (inReach_iff_of_le bound Nat.one_pos).mpr hpc
      rcases step_error_cases h with ⟨hnot, -, -⟩ | ⟨-, -, hf, -⟩ | ⟨e, -, -, -, -, rfl⟩
      · exact absurd hone hnot
      · rw [hfault] at hf
        cases hf
      · show (edge machine).toNat = _
        rw [toNat_edge bound]
        exact Nat.max_eq_right (Nat.le_of_lt hpc)
  · intro fuel fault failed h
    obtain ⟨count, before, -, hsteps, hfail⟩ := run_error h
    exact ⟨count, before, hsteps, hfail, eq_goto_of_step_error hfail⟩

/-- A call of which only one of two operand bytes is in the window. -/
def truncatedCall : Machine := (new.loadProgram [0x20, 0x34] 0x0200).2

/-- Nothing is pushed by a call that is cut off. -/
theorem failure_moves_pc_only_truncatedCall :
    truncatedCall.window.limit ≤ 0xFFFF
    ∧ ∃ fault failed, step truncatedCall = .error fault failed
        ∧ failed = truncatedCall.goto failed.registers.pc
        ∧ failed.registers.pc.toNat = truncatedCall.window.limit := by
  have bound : truncatedCall.window.limit ≤ 0xFFFF := by decide +kernel
  have hinstr : truncatedCall.instruction? = some ⟨.jsr, .absolute⟩ := by decide +kernel
  have hone : InReach truncatedCall 1 := by decide +kernel
  have hshort : ¬ InReach truncatedCall (Encoding.size ⟨.jsr, .absolute⟩) := by decide +kernel
  have hstep := step_of_instruction hone hinstr
  rw [delivery_of_not_inReach hshort] at hstep
  obtain ⟨hgoto, -, -, hpc⟩ := (failure_moves_pc_only truncatedCall bound).1 _ _ hstep
  exact ⟨bound, _, _, hstep, hgoto, hpc (by decide +kernel) _ rfl⟩

end Mos6502.Machine
