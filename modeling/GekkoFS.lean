import GekkoFS.CacheTransparency
import GekkoFS.Client.Bitmaps
import GekkoFS.Client.DataPlan
import GekkoFS.Client.DentryCache
import GekkoFS.Client.ForwardData
import GekkoFS.Client.ForwardRemove
import GekkoFS.Client.ForwardTruncate
import GekkoFS.Client.Getdents
import GekkoFS.Client.InternalFds
import GekkoFS.Client.LegacyCorrect
import GekkoFS.Client.LegacyCounters
import GekkoFS.Client.LegacyResolve
import GekkoFS.Client.MatchComponents
import GekkoFS.Client.Namespace
import GekkoFS.Client.OpenDir
import GekkoFS.Client.OpenFileMap
import GekkoFS.Client.ReadWrite
import GekkoFS.Client.Rename
import GekkoFS.Client.RenameEntries
import GekkoFS.Client.ReplicatedRead
import GekkoFS.Client.ResolvePath
import GekkoFS.Client.Seek
import GekkoFS.Client.Transfers
import GekkoFS.Client.Truncate
import GekkoFS.Client.Unlink
import GekkoFS.Client.UpdateSize
import GekkoFS.Client.Vectored
import GekkoFS.Client.WriteSizeCache
import GekkoFS.Common.Arithmetic
import GekkoFS.Common.Bitset
import GekkoFS.Common.BlockCount
import GekkoFS.Common.CanonicalPath
import GekkoFS.Common.DirectoryBroadcast
import GekkoFS.Common.Distributor
import GekkoFS.Common.GuidedDistributor
import GekkoFS.Common.GuidedLines
import GekkoFS.Common.HostsFile
import GekkoFS.Common.IntervalSet
import GekkoFS.Common.Metadata
import GekkoFS.Common.MetadataRoundTrip
import GekkoFS.Common.Rpc
import GekkoFS.Common.SimpleHashDistributor
import GekkoFS.Common.Stats
import GekkoFS.ConcurrentAppends
import GekkoFS.ConcurrentWrites
import GekkoFS.Daemon.AppendInvariant
import GekkoFS.Daemon.AppendOffsets
import GekkoFS.Daemon.AppendReservation
import GekkoFS.Daemon.AppendTable
import GekkoFS.Daemon.BackendEquivalence
import GekkoFS.Daemon.ChunkNames
import GekkoFS.Daemon.ChunkOperation
import GekkoFS.Daemon.ChunkStorage
import GekkoFS.Daemon.ChunkTransfer
import GekkoFS.Daemon.ConcurrentCreate
import GekkoFS.Daemon.ConnectToHosts
import GekkoFS.Daemon.DataHandler
import GekkoFS.Daemon.DirectoryListing
import GekkoFS.Daemon.EntryUpdates
import GekkoFS.Daemon.ExpansionControl
import GekkoFS.Daemon.ForwardRedistribution
import GekkoFS.Daemon.MergeGrouping
import GekkoFS.Daemon.MergeOperator
import GekkoFS.Daemon.MetadataBackends
import GekkoFS.Daemon.MetadataDB
import GekkoFS.Daemon.MetadataHandler
import GekkoFS.Daemon.MetadataReadable
import GekkoFS.Daemon.ProxyDataHandler
import GekkoFS.Daemon.ReadCompletion
import GekkoFS.Daemon.Redistribution
import GekkoFS.Daemon.RedistributionInvariant
import GekkoFS.Daemon.RedistributionItems
import GekkoFS.Daemon.RedistributionSafe
import GekkoFS.Daemon.SharedDistributor
import GekkoFS.Daemon.StoredEntry
import GekkoFS.Daemon.Truncate
import GekkoFS.DirentsExact
import GekkoFS.DirentsWire
import GekkoFS.HostNumbering
import GekkoFS.Lib.Blocks
import GekkoFS.Lib.Bytes
import GekkoFS.Lib.Columns
import GekkoFS.Lib.CommonPrefix
import GekkoFS.Lib.Decimal
import GekkoFS.Lib.EventLoop
import GekkoFS.Lib.Hierarchy
import GekkoFS.Lib.Linked
import GekkoFS.Lib.Migration
import GekkoFS.Lib.Replaced
import GekkoFS.Lib.Separated
import GekkoFS.Lib.Simulation
import GekkoFS.Lib.SortedMap
import GekkoFS.Lib.Sweep
import GekkoFS.Lib.Transition
import GekkoFS.Lib.Traverse
import GekkoFS.NamespaceTree
import GekkoFS.Proxy.ForwardData
import GekkoFS.ProxyRoute
import GekkoFS.RenameInvariant
import GekkoFS.RenameMachine
import GekkoFS.RenameNames
import GekkoFS.RenameUnlink
import GekkoFS.ReplicatedListing
import GekkoFS.ReplicatedWrite
import GekkoFS.SparseRead
import GekkoFS.Striping
import GekkoFS.TouchedChunks
import GekkoFS.VectoredIO
import GekkoFS.VectoredWrites
import GekkoFS.WriteInvariant
import GekkoFS.WriteMachine
