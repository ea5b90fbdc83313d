/-
  Mos6502.Proofs.LockStep — a machine and a listing fetch the same

  What is fetched depends on a memory, a limit and a cursor and on nothing else of a stream.
  Two streams in which these are the same therefore answer a call alike, and are in step
  again after it, whether it was granted or failed; they stay in step through any number of
  calls.  A machine that stands at the beginning of its window and the listing of that
  window are two such streams, since no window is longer than a listing can be.

  Main statements:
    * `InStep.of_delivers`   — one computation on both streams
    * `InStep.called`, `InStep.foldl_called` — one call, and any number of calls
    * `called_nextWord_of_last` — a word of which there is one byte only
    * `Reachable.lock_step`  — a machine and the listing of its window
-/
import Mos6502.Proofs.FreshStart
import Mos6502.Proofs.ListingOverrun

namespace Mos6502

namespace ByteStream

variable {σ τ α : Type} [ByteStream σ] [ByteStream τ]

/-! ## §1. Calls and their replies. -/

/-- The reply to a call. -/
def replied (s : σ) : Call → Reply
  | .nextByte => .byte (answer nextByte s)
  | .nextWord => .word (answer nextWord s)

/-- The replies to a list of calls, made one after the other. -/
def repliesTo : σ → List Call → List Reply
  | _, [] => []
  | s, call :: rest => replied s call :: repliesTo (called s call) rest

/-! ## §2. Streams in step. -/

/-- Both streams are about to fetch the same bytes. -/
structure InStep (s : σ) (t : τ) : Prop where
  memory_eq : memory s = memory t
  limit_eq : limit s = limit t
  cursor_eq : cursor s = cursor t

theorem InStep.atEnd_eq {s : σ} {t : τ} (h : InStep s t) : atEnd s = atEnd t := by
  unfold atEnd
  rw [h.limit_eq, h.cursor_eq]

theorem InStep.inReach_iff {s : σ} {t : τ} (h : InStep s t) (count : Nat) :
    InReach s count ↔ InReach t count := by
  unfold InReach
  rw [h.limit_eq, h.cursor_eq]

theorem InStep.edge_eq {s : σ} {t : τ} (h : InStep s t) : edge s = edge t := by
  unfold edge
  rw [h.limit_eq, h.cursor_eq]

variable [LawfulByteStream σ] [LawfulByteStream τ]

theorem InStep.seek {s : σ} {t : τ} (h : InStep s t) (address : UInt16) :
    InStep (seek s address) (seek t address) where
  memory_eq := by simp [h.memory_eq]
  limit_eq := by simp [h.limit_eq]
  cursor_eq := by simp

/-- Two computations that fetch as many bytes and make the same of them come to the same, and
leave the streams in step. -/
theorem InStep.of_delivers {s : σ} {t : τ} (h : InStep s t) {x : Fetch σ α} {y : Fetch τ α}
    {count : Nat} {f : σ → α} {g : τ → α} (hx : Delivers x count f) (hy : Delivers y count g)
    (value_eq : f s = g t) :
    answer x s = answer y t ∧ InStep (leave x s) (leave y t) := by
  have hs := hx s
  have ht := hy t
  by_cases hreach : InReach s count
  · rw [delivery_of_inReach hreach] at hs
    rw [delivery_of_inReach ((h.inReach_iff count).mp hreach)] at ht
    rw [answer_of_ok hs, answer_of_ok ht, leave_of_ok hs, leave_of_ok ht, value_eq]
    refine ⟨rfl, ?_⟩
    unfold advance
    rw [h.cursor_eq]
    exact h.seek _
  · rw [delivery_of_not_inReach hreach] at hs
    rw [delivery_of_not_inReach (mt (h.inReach_iff count).mpr hreach)] at ht
    rw [answer_of_error hs, answer_of_error ht, leave_of_error hs, leave_of_error ht, h.edge_eq]
    exact ⟨rfl, h.seek _⟩

/-- A call on both streams. -/
theorem InStep.called {s : σ} {t : τ} (h : InStep s t) (call : Call) :
    replied s call = replied t call ∧ InStep (called s call) (called t call) := by
  cases call with
  | nextByte =>
    obtain ⟨hanswer, hleave⟩ := h.of_delivers delivers_nextByte delivers_nextByte
      (by rw [h.memory_eq, h.cursor_eq])
    exact ⟨congrArg Reply.byte hanswer, hleave⟩
  | nextWord =>
    obtain ⟨hanswer, hleave⟩ := h.of_delivers delivers_nextWord delivers_nextWord
      (by rw [h.memory_eq, h.cursor_eq])
    exact ⟨congrArg Reply.word hanswer, hleave⟩

/-- Any number of calls on both streams. -/
theorem InStep.foldl_called {s : σ} {t : τ} (h : InStep s t) (calls : List Call) :
    repliesTo s calls = repliesTo t calls
    ∧ InStep (calls.foldl ByteStream.called s) (calls.foldl ByteStream.called t) := by
  induction calls generalizing s t with
  | nil => exact ⟨rfl, h⟩
  | cons call calls ih =>
    obtain ⟨hreply, hnext⟩ := h.called call
    obtain ⟨hreplies, hlast⟩ := ih hnext
    refine ⟨?_, hlast⟩
    rw [repliesTo, repliesTo, hreply, hreplies]

/-- Of a word that begins at the last byte one byte is fetched: the call fails at the limit, and
that is where the cursor is then. -/
theorem called_nextWord_of_last {s : σ} (bound : limit s ≤ 0xFFFF)
    (last : (cursor s).toNat + 1 = limit s) :
    replied s .nextWord = .word (.error (.pastEnd (cursor s + 1)))
    ∧ cursor (called s .nextWord) = cursor s + 1 := by
  have hedge : edge s = cursor s + 1 := by
    apply UInt16.toNat_inj.mp
    rw [toNat_edge bound, UInt16.toNat_add, UInt16.toNat_one]
    omega
  have hshort : ¬ InReach s 2 := by
    unfold InReach
    omega
  have hword := delivers_nextWord s
  rw [delivery_of_not_inReach hshort, hedge] at hword
  refine ⟨congrArg Reply.word (answer_of_error hword), ?_⟩
  show cursor (leave nextWord s) = _
  rw [leave_of_error hword, LawfulByteStream.cursor_seek]

end ByteStream

namespace Machine

open ByteStream

/-! ## §3. The listing of a window. -/

/-- The window of a machine as a block to be listed. -/
def listing (machine : Machine) : Listing where
  memory := machine.memory
  start := machine.window.address
  length := UInt16.ofNat machine.window.length

theorem Reachable.toNat_length_listing {machine : Machine} (h : machine.Reachable) :
    machine.listing.length.toNat = machine.window.length := by
  have hlimit : machine.window.address.toNat + machine.window.length ≤ 0xFFFF := h.limit_le
  show (UInt16.ofNat machine.window.length).toNat = _
  rw [UInt16.toNat_ofNat']
  omega

/-- At the beginning of its window a machine is in step with the listing. -/
theorem Reachable.inStep_listing {machine : Machine} (h : machine.Reachable)
    (start : machine.registers.pc = machine.window.address) :
    InStep machine machine.listing where
  memory_eq := rfl
  limit_eq := congrArg (machine.window.address.toNat + ·) h.toNat_length_listing.symm
  cursor_eq := start

/-- **A machine and the listing of its window fetch in lock-step.**  From the beginning of the
window on, all calls are answered alike by both, also those that fail, and after each of them the
program counter is where the cursor is, and both are at the end or neither is.  A word that
begins at the last byte takes that byte and fails behind it. -/
theorem Reachable.lock_step {machine : Machine} (h : machine.Reachable)
    (start : machine.registers.pc = machine.window.address) (calls : List Call) :
    let fetched := calls.foldl called machine
    let listed := calls.foldl called machine.listing
    machine.listing.length.toNat = machine.window.length
    ∧ repliesTo machine calls = repliesTo machine.listing calls
    ∧ fetched.registers.pc = listed.cursor
    ∧ fetched.atEnd = listed.atEnd
    ∧ (fetched.registers.pc.toNat + 1 = machine.window.limit →
        let behind := fetched.registers.pc + 1
        replied fetched .nextWord = .word (.error (.pastEnd behind))
        ∧ replied listed .nextWord = .word (.error (.pastEnd behind))
        ∧ (called fetched .nextWord).registers.pc = behind
        ∧ (called listed .nextWord).cursor = behind) := by
  intro fetched listed
  obtain ⟨hreplies, hstep⟩ := (h.inStep_listing start).foldl_called calls
  refine ⟨h.toNat_length_listing, hreplies, hstep.cursor_eq, hstep.atEnd_eq, ?_⟩
  intro hlast behind
  obtain ⟨address, hseek⟩ := exists_seek_of_calls machine calls
  have hlimit : limit fetched = machine.window.limit := by
    show limit (calls.foldl called machine) = _
    rw [hseek]
    rfl
  obtain ⟨hreply, hcursor⟩ := @called_nextWord_of_last _ _ _ fetched
    (hlimit.trans_le h.limit_le) (hlast.trans hlimit.symm)
  obtain ⟨hsame, hnext⟩ := hstep.called .nextWord
  exact ⟨hreply, hsame.symm.trans hreply, hcursor, hnext.cursor_eq.symm.trans hcursor⟩

/-- Three bytes, of which a byte and a word are fetched, and then more is asked for. -/
def threeBytes : Machine := new.serve [.loadProgram [0xA9, 0x05, 0x60] 0x0200]

theorem lock_step_threeBytes :
    (threeBytes.Reachable ∧ threeBytes.registers.pc = threeBytes.window.address)
    ∧ repliesTo threeBytes.listing [.nextWord, .nextWord, .nextByte]
      = [.word (.ok 0x05A9), .word (.error (.pastEnd 0x0203)), .byte (.error (.pastEnd 0x0203))]
    ∧ ([Call.nextWord, .nextWord].foldl called threeBytes.listing).cursor = 0x0203 := by
  have hreachable : threeBytes.Reachable := ⟨_, rfl⟩
  have hstart : threeBytes.registers.pc = threeBytes.window.address := by decide +kernel
  obtain ⟨-, hreplies, -⟩ := hreachable.lock_step hstart [.nextWord, .nextWord, .nextByte]
  obtain ⟨-, -, hcursor, -⟩ := hreachable.lock_step hstart [.nextWord, .nextWord]
  exact ⟨⟨hreachable, hstart⟩, hreplies.symm.trans (by decide +kernel),
    hcursor.symm.trans (by decide +kernel)⟩

end Machine

end Mos6502
