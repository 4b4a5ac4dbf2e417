import EbpfSyscall.Theorems.AgentPrefixes
import EbpfSyscall.Theorems.Barrier
import EbpfSyscall.Theorems.Comparison
import EbpfSyscall.Theorems.Completions
import EbpfSyscall.Theorems.CoordinatorRun
import EbpfSyscall.Theorems.DiffRuns
import EbpfSyscall.Theorems.FakeFs
import EbpfSyscall.Theorems.FakeS3
import EbpfSyscall.Theorems.FdMap
import EbpfSyscall.Theorems.Framing
import EbpfSyscall.Theorems.HeatSource
import EbpfSyscall.Theorems.Independence
import EbpfSyscall.Theorems.IologGrammar
import EbpfSyscall.Theorems.JsonEscape
import EbpfSyscall.Theorems.Lanes
import EbpfSyscall.Theorems.Mappings
import EbpfSyscall.Theorems.Objects
import EbpfSyscall.Theorems.OfferedShards
import EbpfSyscall.Theorems.Offload
import EbpfSyscall.Theorems.OpenatPatch
import EbpfSyscall.Theorems.Pacing
import EbpfSyscall.Theorems.Pairing
import EbpfSyscall.Theorems.PendingTable
import EbpfSyscall.Theorems.PhaseOrder
import EbpfSyscall.Theorems.Profile
import EbpfSyscall.Theorems.Recovery
import EbpfSyscall.Theorems.S3Names
import EbpfSyscall.Theorems.SmokeWorkload
import EbpfSyscall.Theorems.Stats
import EbpfSyscall.Theorems.Translation
import EbpfSyscall.Theorems.WorkerPool
