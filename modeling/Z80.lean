import Z80.Word
import Z80.Flag
import Z80.Sum
import Z80.Accumulator
import Z80.Shift
import Z80.Registers
import Z80.Instruction
import Z80.Opcode
import Z80.Page.Base
import Z80.Page.CB
import Z80.Page.ED
import Z80.Page.Index
import Z80.Hex
import Z80.InvalidOpcode
import Z80.Event
import Z80.Bus
import Z80.Memory
import Z80.Board
import Z80.Scripted
import Z80.Machine
import Z80.Fetch
import Z80.Block
import Z80.Effect
import Z80.Step
import Z80.Value
import Z80.Query
import Z80.Profile
import Z80.Log
import Z80.Snapshot
import Z80.Proofs.Coupling
import Z80.Proofs.Keeping
import Z80.Proofs.Batch
import Z80.Proofs.Fetching
import Z80.Proofs.Walk
import Z80.Proofs.BlockCopy
import Z80.Proofs.IndexFallback
import Z80.Proofs.IndexMirror
import Z80.Proofs.Decimal
import Z80.Proofs.Session
import Z80.Proofs.Upcoming
import Z80.Proofs.UndefinedOpcodes
import Z80.Proofs.FlagFrame
import Z80.Proofs.Arithmetic
import Z80.Proofs.Spelling
import Z80.Proofs.Displaced
import Z80.Proofs.PrefixChain
import Z80.Proofs.FetchOrder
import Z80.Proofs.Coherent
import Z80.Proofs.BaseFamilies
import Z80.Proofs.Resuming
import Z80.Proofs.Meaning
import Z80.Proofs.Samples
import Z80.Proofs.RegisterFrame
import Z80.Proofs.BusFrame
import Z80.Proofs.FetchedBytes
import Z80.Proofs.Secrets
import Z80.Proofs.Secrecy
import Z80.Proofs.Begun
import Z80.Proofs.RefreshOption
import Z80.Proofs.FlagCodes
import Z80.Proofs.ArithmeticCodes
import Z80.Proofs.RefreshCount
import Z80.Proofs.Accounting
import Z80.Proofs.BoardHistory
import Z80.Proofs.BlockSearch
import Z80.Proofs.BlockPorts
import Z80.Proofs.BlockLoops
import Z80.Proofs.PrefixLoop
import Z80.Proofs.Finishing
import Z80.Proofs.MemoryHistory
import Z80.Proofs.Encoding
import Z80.Proofs.BusCodes
import Z80.Proofs.WordTransfers
import Z80.Proofs.Stack
import Z80.Proofs.NumberParts
import Z80.Proofs.LongArithmetic
import Z80.Proofs.PassCode
import Z80.Proofs.Ranking
import Z80.Proofs.Inspection
import Z80.Proofs.ReadingBack
import Z80.Proofs.BitAlgebra
import Z80.Proofs.Gaps
import Z80.Proofs.BaseArms
import Z80.Proofs.ExtensionArms
import Z80.Proofs.BitArms
import Z80.Proofs.IndexArms
import Z80.Proofs.Gapless
