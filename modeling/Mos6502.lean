import Mos6502.Word
import Mos6502.Hex
import Mos6502.Memory.Basic
import Mos6502.Memory.Runs
import Mos6502.Stack
import Mos6502.Status
import Mos6502.Registers
import Mos6502.Arithmetic.Binary
import Mos6502.Arithmetic.Decimal
import Mos6502.Instruction.AddressingMode
import Mos6502.Instruction.Mnemonic
import Mos6502.Instruction.Opcode
import Mos6502.Instruction.Operation
import Mos6502.Fault
import Mos6502.ByteStream
import Mos6502.Machine.Basic
import Mos6502.Machine.Operand
import Mos6502.Machine.Effect
import Mos6502.Machine.Step
import Mos6502.Disassembly.Instruction
import Mos6502.Disassembly.Sweep
import Mos6502.Disassembly.Listing
import Mos6502.Proofs.Fetching
import Mos6502.Proofs.Stepping
import Mos6502.Proofs.Frame
import Mos6502.Proofs.Session
import Mos6502.Proofs.Outcome
import Mos6502.Proofs.PackedDecimal
import Mos6502.Proofs.StackRing
import Mos6502.Proofs.StackDiscipline
import Mos6502.Proofs.OpenCalls
import Mos6502.Proofs.Decoding
import Mos6502.Proofs.Agreement
import Mos6502.Proofs.ListingWalk
import Mos6502.Proofs.ListingSpans
import Mos6502.Proofs.DataLines
import Mos6502.Proofs.Sweeping
import Mos6502.Proofs.AssemblyText
import Mos6502.Proofs.Footprint
import Mos6502.Proofs.StraightLine
import Mos6502.Proofs.StatusBits
import Mos6502.Proofs.ReadFootprint
import Mos6502.Proofs.InertBits
import Mos6502.Proofs.LittleEndian
import Mos6502.Proofs.Running
import Mos6502.Proofs.LongArithmetic
import Mos6502.Proofs.ListingSweep
import Mos6502.Proofs.Resolving
import Mos6502.Proofs.NextPc
import Mos6502.Proofs.Relocation
import Mos6502.Proofs.FreshStart
import Mos6502.Proofs.Addressing
import Mos6502.Proofs.Summing
import Mos6502.Proofs.Computing
import Mos6502.Proofs.LongShifts
import Mos6502.Proofs.ListingOverrun
import Mos6502.Proofs.DataOrder
import Mos6502.Proofs.SweepInPieces
import Mos6502.Proofs.StackUses
import Mos6502.Proofs.Loading
import Mos6502.Proofs.ForwardExecution
import Mos6502.Proofs.LockStep
import Mos6502.Proofs.MnemonicTexts
