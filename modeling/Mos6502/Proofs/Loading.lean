/-
  Mos6502.Proofs.Loading — loads, accepted or refused as a whole

  A load copies a block of any length to an address.  It is accepted if the block ends below
  the last address, and whether it is has to be known before anything is cleared or copied: a
  load that is refused has done nothing.  What an accepted one leaves is said byte by byte.
  This says all there is to say, since a memory is what is read from it.  Data and programs
  are loaded by the same rule; they differ in what they do to the rest of the machine.

  Main statements:
    * `Loaded.unique`         — nothing is left open by saying it byte by byte
    * `loaded_writeBytes`     — what an accepted load leaves
    * `load_all_or_nothing`   — the three ways to load, side by side
-/
import Mos6502.Machine.Basic

namespace Mos6502

/-! ## §1. What a load leaves in memory. -/

namespace Memory

/-- The second memory is the first with a block of data put in, having been cleared before if
`clear` is set. -/
structure Loaded (before after : Memory) (data : List UInt8) (address : UInt16) (clear : Bool) :
    Prop where
  inside : ∀ i (h : i < data.length) (place : UInt16), place.toNat = address.toNat + i →
    after.read place = data[i]
  outside : ∀ place : UInt16,
    place.toNat < address.toNat ∨ address.toNat + data.length ≤ place.toNat →
    after.read place = if clear then 0 else before.read place

/-- Nothing is left open about a memory after a load. -/
theorem Loaded.unique {before after other : Memory} {data : List UInt8} {address : UInt16}
    {clear : Bool} (h : Loaded before after data address clear)
    (h' : Loaded before other data address clear) : after = other := by
  apply Memory.ext
  intro place
  by_cases hinside : address.toNat ≤ place.toNat ∧ place.toNat < address.toNat + data.length
  · have hi : place.toNat - address.toNat < data.length := by omega
    have hplace : place.toNat = address.toNat + (place.toNat - address.toNat) := by omega
    rw [h.inside _ hi place hplace, h'.inside _ hi place hplace]
  · have houtside : place.toNat < address.toNat ∨ address.toNat + data.length ≤ place.toNat := by
      omega
    rw [h.outside place houtside, h'.outside place houtside]

/-- What a load writes, when it is accepted, leaves such a memory. -/
theorem loaded_writeBytes (memory : Memory) {data : List UInt8} {address : UInt16} (clear : Bool)
    (fits : address.toNat + data.length ≤ 0xFFFF) :
    Loaded memory ((if clear then zero else memory).writeBytes address data) data address
      clear := by
  have hroom : address.toNat + data.length ≤ 0x10000 := by omega
  refine ⟨?_, ?_⟩
  · intro i hi place hplace
    exact read_writeBytes_of_inside _ hroom hi hplace
  · intro place houtside
    rw [read_writeBytes_of_outside _ hroom houtside]
    cases clear with
    | true => exact read_zero place
    | false => rfl

end Memory

/-! ## §2. What a load leaves of a machine. -/

namespace Machine

/-- **A load does all or nothing.**  Whatever the machine, a block of any length is accepted exactly
if it ends below the last address, by all three ways to load it.  A refusal changes nothing, also
if the memory was to be cleared.  An accepted block is in memory, and all other bytes are zero
after a clear and otherwise as they were; data changes nothing else, and a program only what it
is to begin with. -/
theorem load_all_or_nothing (machine : Machine) (data : List UInt8) (address : UInt16)
    (clear : Bool) :
    let fits := address.toNat + data.length ≤ 0xFFFF
    let block := machine.memory.load data address clear
    let withData := machine.loadData data address clear
    let withProgram := machine.loadProgram data address
    ((block.1 = true ↔ fits) ∧ (withData.1 = true ↔ fits) ∧ (withProgram.1 = true ↔ fits))
    ∧ (¬ fits → block.2 = machine.memory ∧ withData.2 = machine ∧ withProgram.2 = machine)
    ∧ (fits →
        machine.memory.Loaded block.2 data address clear
        ∧ (∃ memory, machine.memory.Loaded memory data address clear
            ∧ withData.2 = { machine with memory })
        ∧ (∃ memory, machine.memory.Loaded memory data address true
            ∧ withProgram.2
              = { registers := { machine.registers with pc := address }
                  memory
                  window := { address, length := data.length }
                  callDepth := 0
                  returned := false })) := by
  intro fits block withData withProgram
  have haccept : ∀ {answer : Bool}, answer = decide fits → (answer = true ↔ fits) := by
    rintro answer rfl
    exact decide_eq_true_iff
  refine ⟨⟨haccept (Memory.load_fst _ data address clear),
    haccept (loadData_fst machine data address clear),
    haccept (loadProgram_fst machine data address)⟩, ?refused, ?accepted⟩
  case refused =>
    intro hunfit
    have hblock : block = (false, machine.memory) := Memory.load_of_not_fits _ _ hunfit
    have hdata : withData.2 = { machine with memory := block.2 } := rfl
    have hprogram : withProgram = (false, machine) := machine.loadProgram_of_not_fits hunfit
    rw [hdata, hblock, hprogram]
    exact ⟨rfl, rfl, rfl⟩
  case accepted =>
    intro hfits
    have hblock : block.2 = _ := congrArg Prod.snd (machine.memory.load_of_fits clear hfits)
    have hdata : withData.2 = { machine with memory := block.2 } := rfl
    have hprogram : withProgram.2 = _ := congrArg Prod.snd (machine.loadProgram_of_fits hfits)
    have hloaded : machine.memory.Loaded block.2 data address clear := by
      rw [hblock]
      exact machine.memory.loaded_writeBytes clear hfits
    exact ⟨hloaded, ⟨_, hloaded, hdata⟩,
      ⟨_, machine.memory.loaded_writeBytes true hfits, hprogram⟩⟩

/-- A machine that has executed something, with a byte in the memory below. -/
def interrupted : Machine where
  registers := { a := 0x05, s := 0x10, pc := 0x0302 }
  memory := Memory.zero.write 0x0040 0x11
  window := ⟨0x0300, 4⟩
  callDepth := 2
  returned := true

/-- The last address is never loaded: three bytes fit at one place, and one above they do not. -/
theorem load_all_or_nothing_atTheTop :
    (interrupted.loadData [0xAA, 0xBB, 0xCC] 0xFFFC false).1 = true
    ∧ (interrupted.loadData [0xAA, 0xBB, 0xCC] 0xFFFC false).2.memory.read 0xFFFE = 0xCC
    ∧ (interrupted.loadData [0xAA, 0xBB, 0xCC] 0xFFFC false).2.memory.read 0x0040 = 0x11
    ∧ (interrupted.loadData [0xAA, 0xBB, 0xCC] 0xFFFD true).1 = false
    ∧ (interrupted.loadData [0xAA, 0xBB, 0xCC] 0xFFFD true).2 = interrupted := by
  have hfits : (0xFFFC : UInt16).toNat + [0xAA, 0xBB, (0xCC : UInt8)].length ≤ 0xFFFF := by decide
  have hunfit : ¬ (0xFFFD : UInt16).toNat + [0xAA, 0xBB, (0xCC : UInt8)].length ≤ 0xFFFF := by
    decide
  obtain ⟨⟨-, haccepted, -⟩, -, hload⟩ :=
    load_all_or_nothing interrupted [0xAA, 0xBB, 0xCC] 0xFFFC false
  obtain ⟨⟨-, hrefused, -⟩, hsame, -⟩ :=
    load_all_or_nothing interrupted [0xAA, 0xBB, 0xCC] 0xFFFD true
  obtain ⟨-, ⟨memory, hmemory, hdata⟩, -⟩ := hload hfits
  rw [hdata]
  refine ⟨haccepted.mpr hfits, hmemory.inside 2 (by decide) 0xFFFE (by decide), ?_,
    eq_false_of_ne_true (mt hrefused.mp hunfit), (hsame hunfit).2.1⟩
  exact (hmemory.outside 0x0040 (by decide)).trans (Memory.read_write_self _ _ _)

end Machine

end Mos6502
