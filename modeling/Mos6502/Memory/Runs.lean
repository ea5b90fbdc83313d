/-
  Mos6502.Memory.Runs — the non-zero part of a memory

  Most of a memory is zero, so its content is shown as a list of runs: each is
  the address of a first byte and the bytes from there on, none of them zero.
  The runs are maximal and in ascending order, found in one walk from the top
  address down.
-/
import Mos6502.Memory.Basic

namespace Mos6502

/-- Consecutive bytes and the address of the first one. -/
structure Run where
  start : UInt16
  bytes : List UInt8
  deriving Repr, DecidableEq

namespace Memory

/-- The runs from `address` on, given those above it: a zero byte starts no run,
any other byte opens a new one or lengthens the one just above. -/
def extendRuns (address : UInt16) (byte : UInt8) (above : List Run) : List Run :=
  if byte = 0 then above
  else match above with
    | next :: rest =>
      if next.start = address + 1 then ⟨address, byte :: next.bytes⟩ :: rest
      else ⟨address, [byte]⟩ :: above
    | [] => [⟨address, [byte]⟩]

/-- The runs below `count` put in front of those from `count` on. -/
def runsBelow (memory : Memory) : Nat → List Run → List Run
  | 0, above => above
  | i + 1, above =>
    memory.runsBelow i (extendRuns (UInt16.ofNat i) (memory.read (UInt16.ofNat i)) above)

/-- The maximal runs of non-zero bytes in ascending order. -/
def runs (memory : Memory) : List Run := memory.runsBelow 0x10000 []

end Memory

end Mos6502
