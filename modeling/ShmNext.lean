import ShmNext.CrashSafety
import ShmNext.BestFit
import ShmNext.SanityCheck
import ShmNext.CanonicalState
import ShmNext.SegmentCreation
import ShmNext.TransitionSystem
import ShmNext.Semaphore
import ShmNext.SegmentResize
import ShmNext.Snapshot
import ShmNext.RelocationInvariance
import ShmNext.ExpandInPlace
import ShmNext.VectorFailures
import ShmNext.VectorSelfInsertion
import ShmNext.RehashFailures
import ShmNext.ConstructionFailures
import ShmNext.LoadFactorBound
import ShmNext.AlignmentRequests
import ShmNext.OffsetPtrObject
import ShmNext.AllocatorStats
import ShmNext.NodePools
import ShmNext.OwnedBlocks
import ShmNext.SharedString
import ShmNext.StringOps
import ShmNext.StringMembers
import ShmNext.StringRefinement
import ShmNext.StringAppend
import ShmNext.CircularLinks
import ShmNext.SharedList
import ShmNext.ListLinks
import ShmNext.ListOps
import ShmNext.ListLoops
import ShmNext.ListEdits
import ShmNext.ListTransfers
import ShmNext.ListSorting
import ShmNext.ListLifetimes
import ShmNext.StableMerge
import ShmNext.ListCalls
import ShmNext.ListRefinement
import ShmNext.ListRuns
import ShmNext.ListPools
import ShmNext.AtomicSteps
import ShmNext.NamedObjects
import ShmNext.NamedEntries
import ShmNext.NamedStorage
import ShmNext.NamedSections
import ShmNext.NamedConstruction
import ShmNext.NamedRecovery
import ShmNext.LargeRequests
