import MathUnikernel.PmmOwnership
import MathUnikernel.PmmCounter
import MathUnikernel.Library.RadixTree
import MathUnikernel.PageTables
import MathUnikernel.PageMap
import MathUnikernel.Requests
import MathUnikernel.PageRefinement
import MathUnikernel.Exhaustion
import MathUnikernel.Heap
import MathUnikernel.HeapReset
import MathUnikernel.HeapSessions
import MathUnikernel.Library.ByteStore
import MathUnikernel.Network
import MathUnikernel.Loader
import MathUnikernel.Reading
import MathUnikernel.Link
import MathUnikernel.Transfer
import MathUnikernel.TransferSessions
import MathUnikernel.Resync
import MathUnikernel.I219
import MathUnikernel.I219Ring
import MathUnikernel.I219Delivery
import MathUnikernel.PmmExact
import MathUnikernel.MapWrites
import MathUnikernel.MixedHeap
import MathUnikernel.MixedRegions
import MathUnikernel.SharedHeap
import MathUnikernel.HeapContents
import MathUnikernel.HeapHistories
import MathUnikernel.Boot
import MathUnikernel.DirectMap
import MathUnikernel.BootTables
import MathUnikernel.BootFrames
import MathUnikernel.KernelBoot
import MathUnikernel.KernelFrames
import MathUnikernel.KernelRuns
import MathUnikernel.FloatMemory
import MathUnikernel.Library.Loops
import MathUnikernel.MatrixMultiply
import MathUnikernel.MatrixChain
import MathUnikernel.BandedMatrix
import MathUnikernel.SparseProduct
import MathUnikernel.SparsePipeline
import MathUnikernel.PmmAccesses
import MathUnikernel.Pci
import MathUnikernel.PciScan
import MathUnikernel.PciPorts
import MathUnikernel.KernelImage
import MathUnikernel.MainLoop
import MathUnikernel.SessionPhases
import MathUnikernel.SessionRuns
import MathUnikernel.SessionSafety
import MathUnikernel.HighBlock
import MathUnikernel.PmmSearch
import MathUnikernel.SparseVisits
import MathUnikernel.DotProduct
import MathUnikernel.MapRange
import MathUnikernel.MapTables
import MathUnikernel.HeaderCut
import MathUnikernel.Rtl8139
import MathUnikernel.NicMemory
import MathUnikernel.DmaTargets
import MathUnikernel.CapabilityWalk
import MathUnikernel.PmmPlacement
import MathUnikernel.Library.Copy
import MathUnikernel.Memmove
import MathUnikernel.Interrupts
import MathUnikernel.Timer
import MathUnikernel.Unlock
import MathUnikernel.Display
import MathUnikernel.DisplayNumbers
import MathUnikernel.DisplaySafety
import MathUnikernel.DisplayText
import MathUnikernel.Library.Mailbox
import MathUnikernel.Rtl8139Ring
import MathUnikernel.Rtl8139Mailbox
import MathUnikernel.Rtl8139Delivery
import MathUnikernel.Wire
import MathUnikernel.Rtl8139Sessions
import MathUnikernel.I219Mailbox
import MathUnikernel.I219Starvation
import MathUnikernel.Pic
import MathUnikernel.PicRuns
import MathUnikernel.PicDelivery
import MathUnikernel.CardInterrupts
import MathUnikernel.Descriptors
import MathUnikernel.InterruptGates
import MathUnikernel.Dispatcher
import MathUnikernel.Sleep
import MathUnikernel.DeterministicData
import MathUnikernel.Library.WalkCache
import MathUnikernel.Tlb
import MathUnikernel.TlbReset
