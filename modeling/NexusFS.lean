import NexusFS.Lib.Bytes
import NexusFS.Lib.BinTree
import NexusFS.Lib.BTree
import NexusFS.Lib.Blake3
import NexusFS.Lib.Codec
import NexusFS.Lib.Framing
import NexusFS.Lib.Digits
import NexusFS.Lib.Effect
import NexusFS.Lib.Forest
import NexusFS.Lib.FileTree
import NexusFS.Lib.Signal
import NexusFS.Lib.Overlay
import NexusFS.Lib.Keyspace
import NexusFS.Lib.Rounds
import NexusFS.Lib.Paging
import NexusFS.Proto.Types
import NexusFS.Zk.Merkle
import NexusFS.Zk.MerkleTree
import NexusFS.Zk.MerkleSound
import NexusFS.Zk.MerkleAbsent
import NexusFS.Zk.MerkleBatch
import NexusFS.Zk.MerkleShape
import NexusFS.Crdt.Lww
import NexusFS.Crdt.OrMap
import NexusFS.Proto.Op
import NexusFS.Crdt.OrMapMerge
import NexusFS.Core.Object
import NexusFS.Energy.Scheduler
import NexusFS.Core.Postcard
import NexusFS.Core.State
import NexusFS.Core.Content
import NexusFS.Core.Namespace
import NexusFS.Core.Snapshot
import NexusFS.Core.Apply
import NexusFS.Core.Mutation
import NexusFS.Core.Drain
import NexusFS.Core.Links
import NexusFS.Core.Paths
import NexusFS.Core.Shape
import NexusFS.Core.Relink
import NexusFS.Core.Names
import NexusFS.Core.Listing
import NexusFS.Core.Walk
import NexusFS.Core.InodeMap
import NexusFS.Core.Gc
import NexusFS.Core.Rows
import NexusFS.Core.Ops
import NexusFS.Core.Share
import NexusFS.Core.Run
import NexusFS.Core.Stock
import NexusFS.Core.Blind
import NexusFS.Core.Boot
import NexusFS.Core.Sweep
import NexusFS.Core.Collect
import NexusFS.Core.Addressed
import NexusFS.Core.Log
import NexusFS.Core.Reachable
import NexusFS.Core.Reading
import NexusFS.Core.Sealed
import NexusFS.Core.Present
import NexusFS.Core.Watch
import NexusFS.Core.Room
import NexusFS.Core.Attrs
import NexusFS.Core.Splice
import NexusFS.Core.Tree
import NexusFS.Core.Crawl
import NexusFS.Core.Written
import NexusFS.Core.Makes
import NexusFS.Core.Recipients
import NexusFS.Core.Turns
import NexusFS.Core.Audit
import NexusFS.Core.Writes
import NexusFS.Core.Clock
import NexusFS.Core.Notify
import NexusFS.Core.Ledger
import NexusFS.Core.Commitment
import NexusFS.Core.Refused
import NexusFS.Core.Poison
import NexusFS.Core.Ahead
import NexusFS.Core.Call
import NexusFS.Core.Intact
import NexusFS.Core.Benign
import NexusFS.Core.Fixpoint
import NexusFS.Core.Missing
import NexusFS.Core.Patched
import NexusFS.Core.Harmless
import NexusFS.Core.Retried
import NexusFS.Core.Coherent
import NexusFS.Core.Format
import NexusFS.Core.Meaning
import NexusFS.Core.Canon
import NexusFS.Core.Delivery
import NexusFS.Core.Convergence
import NexusFS.Core.NodeLimit
import NexusFS.Core.Concurrent
import NexusFS.Core.Eventual
import NexusFS.Net.Trust
import NexusFS.Net.Session
import NexusFS.Net.Pull
import NexusFS.Net.Node
import NexusFS.Net.Budget
import NexusFS.Net.Attribution
import NexusFS.Net.Holders
import NexusFS.Net.Local
import NexusFS.Net.Rewriting
import NexusFS.Net.Passes
import NexusFS.Net.Creating
import NexusFS.Net.ReadBack
import NexusFS.Net.Sharing
import NexusFS.Net.Rotation
import NexusFS.Net.Reports
import NexusFS.Net.Readers
import NexusFS.Net.Pinning
import NexusFS.Net.Calls
import NexusFS.Net.Draining
import NexusFS.Net.Fetching
import NexusFS.Facade.Serving
import NexusFS.Facade.Paging
import NexusFS.Facade.Objects
import NexusFS.Net.Collecting
import NexusFS.Net.Failing
import NexusFS.Net.Gossip
import NexusFS.Net.Announce
import NexusFS.Net.Consistency
import NexusFS.Net.Converge
import NexusFS.Net.Evidence
import NexusFS.Net.Torn
import NexusFS.Net.Overlays
import NexusFS.Net.Rename
import NexusFS.Net.Remove
import NexusFS.Net.Solo
import NexusFS.Net.Edges
import NexusFS.Net.Tree
import NexusFS.Net.Browse
import NexusFS.Net.Coherent
import NexusFS.Net.Message
import NexusFS.Net.Handshake
import NexusFS.Net.Agreement
import NexusFS.Net.Frames
import NexusFS.Net.Stream
import NexusFS.Net.OnDemand
