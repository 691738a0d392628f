import Pnm.Sls.ExecutionGenerator
import Pnm.Sls.PlanSim
import Pnm.Sls.Plan
import Pnm.Lib.BitField
import Pnm.Lib.ByteMem
import Pnm.Sls.Inst
import Pnm.Lib.Jagged
import Pnm.Sls.Trace
import Pnm.Sls.Operation
import Pnm.Sls.ExecTrace
import Pnm.Sls.CxlSim
import Pnm.Sls.Reduction
import Pnm.Lib.Runs
import Pnm.Sls.ExecFacts
import Pnm.Sls.CxlExec
import Pnm.Sls.CxlRun
import Pnm.Sls.AxdimmSim
import Pnm.Sls.AxdimmPipeline
import Pnm.Sls.AxdimmSums
import Pnm.Sls.AxdimmExec
import Pnm.Sls.AxdimmUnit
import Pnm.Sls.AxdimmRun
import Pnm.Imdb.Avx2
import Pnm.Imdb.Scan
import Pnm.Imdb.BitScan
import Pnm.Imdb.IndexScan
import Pnm.Imdb.Simulator
import Pnm.Lib.Buffer
import Pnm.Secure.Pads
import Pnm.Secure.Engines
import Pnm.Secure.Preprocessor
import Pnm.Secure.Executor
import Pnm.Secure.Run
import Pnm.Secure.Tables
import Pnm.Secure.Guarantees
import Pnm.Core.Buffer
import Pnm.Kernel.Cunits
import Pnm.Kernel.Exclusive
import Pnm.Kernel.WaitQueue
import Pnm.Kernel.Alloc
import Pnm.Kernel.RefCounts
import Pnm.Kernel.Isolation
import Pnm.Kernel.Sharing
import Pnm.Imdb.Handshake
import Pnm.Imdb.Agreement
import Pnm.Imdb.Progress
import Pnm.Imdb.ScanMemory
import Pnm.Imdb.ScanSystem
import Pnm.Imdb.ScanReturns
import Pnm.Lib.Monitor
import Pnm.Threads.ActionQueue
import Pnm.Lib.Interleave
import Pnm.Sls.RankAddress
import Pnm.Sls.InterleavedCopy
import Pnm.Sls.InstCodec
import Pnm.Sls.TraceOrder
import Pnm.Lib.BoundScan
import Pnm.Lib.Grid
import Pnm.Sls.ParamChecks
import Pnm.Sls.PlanTotals
import Pnm.Sls.TraceFits
import Pnm.Sls.TagReadback
import Pnm.Lib.Tiling
import Pnm.Sls.Destinations
import Pnm.Sls.Replan
import Pnm.Lib.Walk
import Pnm.Imdb.Containers
import Pnm.Imdb.BitSet
import Pnm.Common.VariableRow
import Pnm.Secure.PadCoverage
import Pnm.Secure.LoadGuarantees
import Pnm.Secure.Checksum
import Pnm.Sls.Accessor
import Pnm.Lib.ReplicatedArray
import Pnm.Sls.ReplicaStore
import Pnm.Sls.DeviceArray
import Pnm.Secure.AesEcb
import Pnm.Secure.PadReduction
import Pnm.Lib.Calls
import Pnm.Core.SharedRegion
import Pnm.Core.Device
import Pnm.Core.RankedAllocator
import Pnm.Core.SharedBuffer
import Pnm.Core.BufferSize
import Pnm.Core.DeviceMemory
import Pnm.Core.EmbeddingTables
import Pnm.Sls.TableTransfer
import Pnm.Sls.LoadedTables
import Pnm.Sls.BufferContents
import Pnm.Secure.UntrustedDevice
import Pnm.Kernel.FailedIoctls
import Pnm.Threads.RunOperation
