import Greenis.Lib.Exec
import Greenis.Lib.Buckets
import Greenis.Lib.BinaryHeap
import Greenis.Lib.TreeZipper
import Greenis.Lib.AvlTree
import Greenis.Model.Defs
import Greenis.Model.Avl
import Greenis.Model.Heap
import Greenis.Model.HashTable
import Greenis.Proofs.HashTable
import Greenis.Proofs.Heap
import Greenis.Proofs.HashTableRuns
import Greenis.Proofs.Avl
import Greenis.Proofs.AvlFix
import Greenis.Proofs.AvlOffset
import Greenis.Lib.Binary64
import Greenis.Lib.SearchTree
import Greenis.Model.Zset
import Greenis.Proofs.ZsetOrder
import Greenis.Proofs.Zset
import Greenis.Proofs.ZsetRuns
import Greenis.Lib.LittleEndian
import Greenis.Model.Buffer
import Greenis.Model.Utils
import Greenis.Model.KeyValue
import Greenis.Model.Response
import Greenis.Proofs.Keyspace
import Greenis.Lib.Trace
import Greenis.Spec.Keyspace
import Greenis.Proofs.Reply
import Greenis.Lib.FiniteMap
import Greenis.Proofs.Refines
import Greenis.Proofs.Commands
import Greenis.Proofs.ZCommands
import Greenis.Proofs.Zquery
import Greenis.Proofs.Request
import Greenis.Proofs.KeyspaceRuns
import Greenis.Proofs.Ownership
import Greenis.Proofs.ZqueryRuns
import Greenis.Model.Conn
import Greenis.Model.Query
import Greenis.Spec.Request
import Greenis.Proofs.RequestCodec
import Greenis.Proofs.Conn
import Greenis.Proofs.Framing
import Greenis.Proofs.TreeRuns
import Greenis.Proofs.HashTableLoad
import Greenis.Proofs.TtlPass
import Greenis.Proofs.ErrorReplies
import Greenis.Lib.Waiters
import Greenis.Model.ThreadPool
import Greenis.Proofs.StoredSizes
import Greenis.Proofs.ThreadPool
import Greenis.Proofs.PrintResponse
import Greenis.Proofs.ReplyFrames
import Greenis.Lib.Ring
import Greenis.Model.Server
import Greenis.Proofs.Server
import Greenis.Proofs.IdleList
import Greenis.Proofs.PollTimeout
import Greenis.Proofs.ServerKeyspace
import Greenis.Proofs.Migration
import Greenis.Proofs.TimerProgress
import Greenis.Proofs.Numerals
import Greenis.Proofs.IntArguments
import Greenis.Proofs.Histories
import Greenis.Proofs.Clients
import Greenis.Lib.Frame
import Greenis.Proofs.Locality
import Greenis.Proofs.Threads
import Greenis.Proofs.Rehashing
import Greenis.Proofs.Buffers
import Greenis.Model.Print
import Greenis.Proofs.Print
import Greenis.Proofs.Keys
import Greenis.Proofs.Overdue
import Greenis.Proofs.AvlCost
import Greenis.Proofs.HeapCost
import Greenis.Lib.Allocation
import Greenis.Proofs.Memory
import Greenis.Proofs.Progress
import Greenis.Proofs.Closing
