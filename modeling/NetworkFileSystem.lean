import NetworkFileSystem.Base.Transition
import NetworkFileSystem.Base.Text
import NetworkFileSystem.Base.CharArray
import NetworkFileSystem.Base.PrefixSet
import NetworkFileSystem.Base.Prog
import NetworkFileSystem.Base.Notes
import NetworkFileSystem.Base.Interleave
import NetworkFileSystem.Base.Typestate
import NetworkFileSystem.Base.Progress
import NetworkFileSystem.Base.Duet
import NetworkFileSystem.Base.Recency
import NetworkFileSystem.Lock.FileLock
import NetworkFileSystem.Lock.Exclusion
import NetworkFileSystem.Lock.Wakeup
import NetworkFileSystem.Lock.Rounds
import NetworkFileSystem.Trie.Node
import NetworkFileSystem.Trie.Paths
import NetworkFileSystem.Trie.Refinement
import NetworkFileSystem.Protocol.Message
import NetworkFileSystem.Naming.State
import NetworkFileSystem.Naming.Program
import NetworkFileSystem.Naming.Listing
import NetworkFileSystem.Naming.Index
import NetworkFileSystem.Naming.Segments
import NetworkFileSystem.Naming.Topology
import NetworkFileSystem.Naming.Slots
import NetworkFileSystem.Naming.Tables
import NetworkFileSystem.Naming.Commands
import NetworkFileSystem.Naming.Registration
import NetworkFileSystem.Naming.Traces
import NetworkFileSystem.Naming.Runs
import NetworkFileSystem.Naming.Reach
import NetworkFileSystem.Naming.Recency
import NetworkFileSystem.Naming.Keys
import NetworkFileSystem.Naming.Refresh
import NetworkFileSystem.Naming.Subscripts
import NetworkFileSystem.Naming.Transparency
import NetworkFileSystem.Naming.Containment
import NetworkFileSystem.Naming.Roots
import NetworkFileSystem.Naming.Replies
import NetworkFileSystem.Naming.Semaphore
import NetworkFileSystem.Naming.Waits
import NetworkFileSystem.Naming.Sharing
import NetworkFileSystem.Storage.Path
import NetworkFileSystem.Storage.Commands
import NetworkFileSystem.Storage.Framing
import NetworkFileSystem.Storage.FileSystem
import NetworkFileSystem.Storage.Entries
import NetworkFileSystem.Storage.Walk
import NetworkFileSystem.Storage.Requests
import NetworkFileSystem.Storage.Appends
import NetworkFileSystem.Storage.Folders
import NetworkFileSystem.Storage.LockTable
import NetworkFileSystem.Storage.SameLock
import NetworkFileSystem.Storage.Progress
import NetworkFileSystem.Storage.Visibility
import NetworkFileSystem.Transfer.Programs
import NetworkFileSystem.Transfer.World
import NetworkFileSystem.Transfer.Lockstep
import NetworkFileSystem.Transfer.Exact
import NetworkFileSystem.Transfer.Names
import NetworkFileSystem.Transfer.Faults
import NetworkFileSystem.Cluster.Link
import NetworkFileSystem.Cluster.Discipline
import NetworkFileSystem.Cluster.InStep
import NetworkFileSystem.Cluster.Indexing
import NetworkFileSystem.Cluster.Export
import NetworkFileSystem.Cluster.World
import NetworkFileSystem.Cluster.Mirror
import NetworkFileSystem.Cluster.Replicas
import NetworkFileSystem.Cluster.Fleet
import NetworkFileSystem.Cluster.Propagation
import NetworkFileSystem.Cluster.WrittenFiles
import NetworkFileSystem.Cluster.Enrolment
import NetworkFileSystem.Cluster.Reindex
import NetworkFileSystem.Client.Requests
import NetworkFileSystem.Client.Failover
import NetworkFileSystem.Client.Writes
import NetworkFileSystem.Client.RootListing
import NetworkFileSystem.Trie.Drawing
import NetworkFileSystem.Trie.Picture
import NetworkFileSystem.Naming.Routing
import NetworkFileSystem.Cluster.Currency
import NetworkFileSystem.Cluster.CopyOrders
import NetworkFileSystem.Base.Slots
import NetworkFileSystem.Naming.Arrays
import NetworkFileSystem.Cluster.Overruns
import NetworkFileSystem.Storage.Calls
import NetworkFileSystem.Transfer.Within
import NetworkFileSystem.Transfer.Overlap
import NetworkFileSystem.Transfer.Nested
import NetworkFileSystem.Trie.Flags
import NetworkFileSystem.Base.Outcomes
import NetworkFileSystem.Transfer.Intake
import NetworkFileSystem.Storage.LongRuns
import NetworkFileSystem.Base.Pipe
import NetworkFileSystem.Client.Downloads
import NetworkFileSystem.Cluster.Reading
import NetworkFileSystem.Base.Leases
import NetworkFileSystem.Storage.Descriptors
import NetworkFileSystem.Storage.Records
import NetworkFileSystem.Base.Outline
import NetworkFileSystem.Trie.ReadBack
import NetworkFileSystem.Cluster.RootView
