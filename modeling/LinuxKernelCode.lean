import LinuxKernelCode.StepRuns
import LinuxKernelCode.StringTokens
import LinuxKernelCode.SystemMap
import LinuxKernelCode.LinkedSlots
import LinuxKernelCode.ListCommands
import LinuxKernelCode.RecencyList
import LinuxKernelCode.RecordOwnership
import LinuxKernelCode.SignedDifference
import LinuxKernelCode.RedBlackTree
import LinuxKernelCode.RedBlackRebalance
import LinuxKernelCode.RedBlackDescent
import LinuxKernelCode.RedBlackOrder
import LinuxKernelCode.CacheIndex
import LinuxKernelCode.CacheIndexOrder
import LinuxKernelCode.ScanCacheModel
import LinuxKernelCode.ScanCacheOrder
import LinuxKernelCode.ScanCacheInodeOrder
import LinuxKernelCode.ScanCacheEffects
import LinuxKernelCode.ScanCacheLookup
import LinuxKernelCode.ScanCacheInvariant
import LinuxKernelCode.ScanCacheLeaks
import LinuxKernelCode.ScanCacheCoherence
import LinuxKernelCode.ScanCacheSlabs
import LinuxKernelCode.ScanCacheClock
import LinuxKernelCode.ScanCacheRecency
import LinuxKernelCode.ScanCacheMap
import LinuxKernelCode.ScanCacheInterleaving
import LinuxKernelCode.ScanCacheOwnership
import LinuxKernelCode.ScanCacheConcurrentInsert
import LinuxKernelCode.TailQueue
import LinuxKernelCode.TailQueueRuns
import LinuxKernelCode.SinglyLinked
import LinuxKernelCode.DoublyLinked
import LinuxKernelCode.CircularQueue
import LinuxKernelCode.RecordStream
import LinuxKernelCode.ScriptedSteps
import LinuxKernelCode.KthreadQueue
import LinuxKernelCode.KthreadUnload
import LinuxKernelCode.DecimalText
import LinuxKernelCode.ProcfsLong
import LinuxKernelCode.ProcfsRoundTrip
import LinuxKernelCode.ProcfsReads
import LinuxKernelCode.MulticastThread
import LinuxKernelCode.NetlinkReply
import LinuxKernelCode.NetlinkMessages
import LinuxKernelCode.NetlinkRegistration
import LinuxKernelCode.NetlinkMulticast
import LinuxKernelCode.SiblingTree
import LinuxKernelCode.FilesystemRecords
import LinuxKernelCode.MountWalk
import LinuxKernelCode.FilesystemListing
import LinuxKernelCode.StdioText
import LinuxKernelCode.ModuleImage
import LinuxKernelCode.ModuleUsage
import LinuxKernelCode.ModuleRemoval
import LinuxKernelCode.FanotifyEvents
import LinuxKernelCode.FanotifyListener
import LinuxKernelCode.FanotifyOptions
import LinuxKernelCode.FanotifyTester
import LinuxKernelCode.FanotifyMarks
