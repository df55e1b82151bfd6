import Pebil.Lib.Loop
import Pebil.Lib.IntStream
import Pebil.Lib.Leb128
import Pebil.Lib.Liveness
import Pebil.Base.BitSet
import Pebil.Base.RegisterSet
import Pebil.Cfg.FlowGraph
import Pebil.Cfg.Liveness
import Pebil.Cfg.LivenessCorrect
import Pebil.Simulation.AccessBuffer
import Pebil.Dwarf.Leb128
import Pebil.Dwarf.LineProgram
import Pebil.Dwarf.LineSpec
import Pebil.Dwarf.LineCorrect
import Pebil.Simulation.CacheLevel
import Pebil.Simulation.HighlyAssociative
import Pebil.Lib.Displacement
import Pebil.Simulation.CacheStructure
import Pebil.Simulation.Exclusive
import Pebil.Simulation.ExclusiveCorrect
import Pebil.Isa.Register
import Pebil.Isa.Instruction
import Pebil.Isa.UseDef
import Pebil.Lib.Bracket
import Pebil.Isa.Machine
import Pebil.Instrumentation.Protection
import Pebil.Lib.Slots
import Pebil.Instrumentation.Bloat
import Pebil.Instrumentation.BloatNops
import Pebil.Instrumentation.BloatCorrect
import Pebil.Instrumentation.BloatBlock
import Pebil.Instrumentation.PointLayout
import Pebil.Instrumentation.SwapInstructions
import Pebil.Instrumentation.PointOrder
import Pebil.Instrumentation.PointRooms
import Pebil.Instrumentation.PointCover
import Pebil.Instrumentation.PointLayoutCorrect
import Pebil.Instrumentation.PointSwaps
import Pebil.Instrumentation.ProtectionCode
import Pebil.Instrumentation.ProtectionCorrect
import Pebil.Instrumentation.ProtectionUnsafe
import Pebil.Isa.Lea
import Pebil.Instrumentation.BufferFill
import Pebil.Instrumentation.FillCode
import Pebil.Instrumentation.FillEntry
import Pebil.Instrumentation.AddressCapture
import Pebil.Lib.BubbleSort
import Pebil.Elf.Name
import Pebil.Elf.SymbolTable
import Pebil.Lib.Pieces
import Pebil.Lib.Runs
import Pebil.Lib.RoundUp
import Pebil.Lib.Renumber
import Pebil.Elf.SectionTable
import Pebil.Elf.SectionReferences
import Pebil.Elf.GnuHashTable
import Pebil.Elf.GnuHashCorrect
import Pebil.Elf.SysvHashTable
import Pebil.Elf.DynamicSymbol
import Pebil.Elf.LinkTables
import Pebil.Elf.LinkDisplacement
import Pebil.Lib.Rounds
import Pebil.Elf.Relocation
import Pebil.Elf.SymbolSort
import Pebil.Elf.SysvHashBuild
import Pebil.Elf.LinkConsistent
import Pebil.Elf.LinkOperations
import Pebil.Elf.LinkTablesCorrect
import Pebil.Elf.DynamicSymbolCorrect
import Pebil.Lib.Dominance
import Pebil.Lib.DepthFirst
import Pebil.Cfg.DepthFirst
import Pebil.Lib.Chunks
import Pebil.Dwarf.LineFinder
import Pebil.Cfg.JumpTable
import Pebil.Cfg.DigestRecursive
import Pebil.Cfg.DigestRound
import Pebil.Cfg.DigestCorrect
import Pebil.Cfg.LoopsCorrect
import Pebil.Cfg.ConnectGraph
import Pebil.Timing.FunctionTimerCorrect
import Pebil.Lib.ByteMemory
import Pebil.Isa.AddressAnchor
import Pebil.Isa.ReachingDefinition
import Pebil.Lib.CircularList
import Pebil.Lib.Span
import Pebil.Simulation.Aggregation
import Pebil.Simulation.ParseInt
import Pebil.Simulation.Description
import Pebil.Simulation.DescriptionCorrect
import Pebil.Simulation.TrueLru
import Pebil.Simulation.CacheStats
import Pebil.Simulation.CacheStatsCorrect
import Pebil.Runtime.DynamicPoints
import Pebil.Runtime.Sampling
import Pebil.Runtime.SamplingWindow
import Pebil.Runtime.DataManager
import Pebil.Runtime.DataManagerCorrect
import Pebil.Runtime.FastData
import Pebil.Lib.BinaryHeap
import Pebil.Lib.PathSearch
import Pebil.Cfg.DefUse
import Pebil.Cfg.DefUsePaths
import Pebil.Cfg.DefUseSearch
import Pebil.Cfg.DefUseCorrect
import Pebil.Base.BitSetAlgebra
import Pebil.Lib.LoopFamily
import Pebil.Cfg.LoopNesting
import Pebil.Cfg.LoopNestingCorrect
import Pebil.Instrumentation.DataReserve
import Pebil.Base.HashCode
import Pebil.Base.PriorityQueue
import Pebil.Isa.Decode
import Pebil.Isa.Encoders
import Pebil.Isa.EncoderDecode
import Pebil.Isa.ImmediateRange
import Pebil.Isa.EncodersCorrect
import Pebil.Lib.Qsort
import Pebil.Elf.AnchorSearch
import Pebil.Instrumentation.BestPoint
import Pebil.Instrumentation.BestPointCorrect
import Pebil.Instrumentation.BlockCounter
import Pebil.Elf.AnchorElements
import Pebil.Elf.AnchorElementsCorrect
import Pebil.Elf.AddressOrder
import Pebil.Elf.DynamicTable
import Pebil.Elf.FileRanges
import Pebil.Instrumentation.LoopIntercept
import Pebil.Instrumentation.LoopInterceptCorrect
import Pebil.Instrumentation.InstructionIndex
import Pebil.Instrumentation.InstructionIndexCorrect
import Pebil.Runtime.CounterReport
import Pebil.Runtime.CounterArrays
import Pebil.Runtime.CounterReportCorrect
import Pebil.Runtime.AccessLimit
import Pebil.Runtime.AccessLimitCorrect
import Pebil.Isa.MemoryWord
import Pebil.Isa.Execute
import Pebil.Instrumentation.TripCounter
import Pebil.Instrumentation.TripCounterCorrect
import Pebil.Base.Word
import Pebil.Reuse.Tree234
import Pebil.Reuse.Tree234Correct
import Pebil.Lib.Recency
import Pebil.Lib.BinaryLog
import Pebil.Reuse.Tree234Runs
import Pebil.Reuse.ReuseStats
import Pebil.Reuse.ReuseStatsCorrect
import Pebil.Reuse.StatsMapCorrect
import Pebil.Reuse.ReuseDistance
import Pebil.Reuse.ReuseDistanceCorrect
import Pebil.Reuse.SpatialLocality
import Pebil.Reuse.SpatialLocalityCorrect
import Pebil.Lib.Semidominator
import Pebil.Lib.Climb
import Pebil.Cfg.LengauerTarjan
import Pebil.Cfg.LinkEval
import Pebil.Cfg.DominatorSearch
import Pebil.Cfg.DominatorScan
import Pebil.Cfg.LengauerTarjanCorrect
import Pebil.Cfg.ImmDominators
import Pebil.Cfg.ProgramLiveness
