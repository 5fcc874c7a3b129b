import OrkDriver.Lib.Transition
import OrkDriver.Lib.SwapRemove
import OrkDriver.Lib.Arena
import OrkDriver.Lib.Assign
import OrkDriver.Lib.Slots
import OrkDriver.Lib.Lease
import OrkDriver.Lib.Span
import OrkDriver.Lib.Stores
import OrkDriver.Lib.Cut
import OrkDriver.Lib.Walk
import OrkDriver.Lib.Block
import OrkDriver.Lib.Dot
import OrkDriver.Lib.Loops
import OrkDriver.Lib.Programs
import OrkDriver.Lib.Records
import OrkDriver.Lib.Recurrence
import OrkDriver.Lib.Nibbles
import OrkDriver.Lib.Neon
import OrkDriver.Orkd.Wire
import OrkDriver.Orkd.Queue
import OrkDriver.Orkd.State
import OrkDriver.Orkd.Npu
import OrkDriver.Orkd.Handlers
import OrkDriver.Orkd.Server
import OrkDriver.Orkd.Effects
import OrkDriver.Orkd.Scheduler
import OrkDriver.Orkd.Frame
import OrkDriver.Orkd.Ring
import OrkDriver.Orkd.RingTail
import OrkDriver.Orkd.RingInvariant
import OrkDriver.Orkd.RingSafety
import OrkDriver.Orkd.RingProgress
import OrkDriver.Orkd.Tables
import OrkDriver.Orkd.KvTables
import OrkDriver.Orkd.Domains
import OrkDriver.Orkd.Framing
import OrkDriver.Orkd.Sync
import OrkDriver.Orkd.Delivery
import OrkDriver.Orkd.Items
import OrkDriver.Orkd.Slices
import OrkDriver.Npu.Soc
import OrkDriver.Npu.Program
import OrkDriver.Pack.Tiles
import OrkDriver.Pack.Header
import OrkDriver.Pack.Dump
import OrkDriver.Pack.RoundTrip
import OrkDriver.Pack.Load
import OrkDriver.Pack.Positions
import OrkDriver.Pack.Sound
import OrkDriver.Pack.Acceptance
import OrkDriver.Pack.Import
import OrkDriver.Pack.ImportServed
import OrkDriver.Pack.DumpPool
import OrkDriver.Pack.FullK
import OrkDriver.Npu.Heights
import OrkDriver.Npu.F16Tile
import OrkDriver.Npu.F16Envelope
import OrkDriver.Npu.I4Synth
import OrkDriver.Npu.I4Cache
import OrkDriver.Slice.Matmul
import OrkDriver.Slice.F16
import OrkDriver.Gptq.Schedule
import OrkDriver.Gptq.Backfront
import OrkDriver.Gptq.Identity
import OrkDriver.Ssm.Scratch
import OrkDriver.Ssm.Scan
import OrkDriver.Ssm.Recurrence
import OrkDriver.Ssm.Phases
import OrkDriver.Ssm.Chunks
import OrkDriver.Ssm.Sequences
import OrkDriver.Ssm.Batched
import OrkDriver.Ssm.ScanExact
import OrkDriver.Run.Weight
import OrkDriver.Run.SingleCore
import OrkDriver.Run.Turns
import OrkDriver.Run.Staged
import OrkDriver.Run.SingleCoreLoops
import OrkDriver.Run.SingleCoreCorrect
import OrkDriver.Run.ZeroCopyOut
import OrkDriver.Run.Consolidated
import OrkDriver.Run.ConsolidatedParity
import OrkDriver.Run.F16Copies
import OrkDriver.Run.F16Coherence
import OrkDriver.Run.F16Layout
import OrkDriver.Run.KvResident
import OrkDriver.Core.Writeback
import OrkDriver.Core.Colsplit
import OrkDriver.Core.Layout
import OrkDriver.Core.Descatter
import OrkDriver.Core.ColsplitCorrect
import OrkDriver.Core.ColsplitF16
import OrkDriver.Core.DynBegin
import OrkDriver.Core.DynEnd
import OrkDriver.Core.DynSound
import OrkDriver.Core.DynLayout
import OrkDriver.Core.DynFrontier
import OrkDriver.Npu.Int4
import OrkDriver.I4.Chain
import OrkDriver.I4.ChainGeometry
import OrkDriver.I4.Container
import OrkDriver.I4.ContainerLoads
import OrkDriver.I4.Expand
import OrkDriver.I4.A8Container
import OrkDriver.Fold.Container
import OrkDriver.Fold.Acceptance
import OrkDriver.Cpu.Pack
import OrkDriver.Cpu.Dot
import OrkDriver.Cpu.Gemv
import OrkDriver.Cpu.Agreement
import OrkDriver.Cpu.Gemm
import OrkDriver.Cpu.FromTiled
import OrkDriver.Cpu.Transpose
import OrkDriver.Spine.Dispatcher
import OrkDriver.Spine.Safety
import OrkDriver.Spine.Wrap
import OrkDriver.Spine.Progress
import OrkDriver.Mem.Buffers
import OrkDriver.Mem.Domains
import OrkDriver.Mem.DomainSwitch
import OrkDriver.Mem.Sessions
import OrkDriver.Weights.Constructors
import OrkDriver.Weights.Ownership
import OrkDriver.Weights.Balance
import OrkDriver.Weights.Accounts
import OrkDriver.Weights.Reclaimed
import OrkDriver.Weights.Resident
import OrkDriver.Weights.Bounds
import OrkDriver.Weights.Padding
import OrkDriver.Weights.Granted
import OrkDriver.Weights.Budget
import OrkDriver.Weights.Excess
import OrkDriver.Stream.Pool
import OrkDriver.Stream.Window
import OrkDriver.Reap.Context
import OrkDriver.Reap.Books
import OrkDriver.Reap.FdReap
import OrkDriver.Chain.LutCache
import OrkDriver.Chain.LutCoherence
import OrkDriver.Core.Seq
import OrkDriver.Core.SeqPlaced
import OrkDriver.Core.SeqCorrect
import OrkDriver.Core.Precompiled
import OrkDriver.Core.PrecompiledRuns
import OrkDriver.Core.McChain
import OrkDriver.Core.McChainLayout
import OrkDriver.Core.McChainSound
import OrkDriver.Lib.Offsets
import OrkDriver.Submit.Table
import OrkDriver.Submit.Retry
import OrkDriver.Submit.Polled
import OrkDriver.Submit.Partition
import OrkDriver.Submit.Groups
import OrkDriver.Submit.Sequence
import OrkDriver.Submit.Honesty
import OrkDriver.Submit.Failing
import OrkDriver.Lib.Plane
import OrkDriver.Grouped.Reference
import OrkDriver.Grouped.Chain
import OrkDriver.Grouped.I8
import OrkDriver.Lib.Walsh
import OrkDriver.Norm.Fwht
import OrkDriver.Norm.RowMax
import OrkDriver.Norm.ContextCaches
import OrkDriver.Norm.PerChannel
import OrkDriver.Fold.Scratch
import OrkDriver.Fold.Extents
import OrkDriver.Lib.Bump
import OrkDriver.Core.WorkerPool
import OrkDriver.Core.ParallelForRuns
import OrkDriver.Weights.Arenas
import OrkDriver.PerCore.Scratch
import OrkDriver.PerCore.Operations
import OrkDriver.Chain.Assembler
import OrkDriver.Queue.Submit
import OrkDriver.Queue.Flight
import OrkDriver.Queue.Runs
import OrkDriver.F16Stream.Check
import OrkDriver.F16Stream.Blocks
import OrkDriver.F16Stream.Chain
import OrkDriver.F16Stream.Regions
import OrkDriver.F16Stream.ChainCorrect
import OrkDriver.F16Stream.ChainExact
import OrkDriver.F16Stream.Doorbell
import OrkDriver.F16Stream.DoorbellCorrect
