import DBx1000.Library.Transition
import DBx1000.Library.Program
import DBx1000.Library.Region
import DBx1000.Library.BitField
import DBx1000.Library.Family
import DBx1000.Hocc64.Word
import DBx1000.Hocc64.Lock
import DBx1000.Hocc64.Safety
import DBx1000.TicToc.Word
import DBx1000.TicToc.Renew
import DBx1000.Library.SerialOrder
import DBx1000.TicToc.Transaction
import DBx1000.TicToc.Knowledge
import DBx1000.TicToc.Serializable
import DBx1000.Library.Chain
import DBx1000.Allocator.Arena
import DBx1000.Allocator.Blocks
import DBx1000.Epoch.Model
import DBx1000.Epoch.Slots
import DBx1000.Epoch.Sections
import DBx1000.Epoch.Grace
import DBx1000.Epoch.Lists
import DBx1000.Epoch.Custody
import DBx1000.Epoch.Safety
import DBx1000.Epoch.Sync
import DBx1000.Bskiplist.Memory
import DBx1000.Bskiplist.Level
import DBx1000.Bskiplist.Traversal
import DBx1000.Bskiplist.Hops
import DBx1000.Bskiplist.Rank
import DBx1000.Bskiplist.Operations
import DBx1000.Library.Assoc
import DBx1000.Bskiplist.Alone
import DBx1000.Bskiplist.Cells
import DBx1000.Bskiplist.Levels
import DBx1000.Bskiplist.Search
import DBx1000.Bskiplist.Store
import DBx1000.Bskiplist.Below
import DBx1000.Bskiplist.Insert
import DBx1000.Bskiplist.Delete
import DBx1000.Bskiplist.Scan
import DBx1000.Bskiplist.Runs
import DBx1000.Bskiplist.Cursor
import DBx1000.Bskiplist.Inspect
import DBx1000.Library.Doubly
import DBx1000.Locking.Lock
import DBx1000.Locking.Queue
import DBx1000.Locking.Pointers
import DBx1000.Locking.Refinement
import DBx1000.Locking.Representation
import DBx1000.Locking.Requests
import DBx1000.Locking.WaitDie
import DBx1000.Locking.WaitsFor
import DBx1000.Locking.Transaction
import DBx1000.Locking.TwoPhase
import DBx1000.Library.BubbleSort
import DBx1000.Occ.Central
import DBx1000.Occ.CentralOverlap
import DBx1000.Occ.PerRow
import DBx1000.Occ.PerRowSerializable
import DBx1000.System.Timestamps
import DBx1000.System.MinTs
import DBx1000.Silo.Serializable
import DBx1000.Hekaton.Validity
import DBx1000.Hekaton.Calls
import DBx1000.Mvcc.Ordering
import DBx1000.Mvcc.Reading
import DBx1000.Timestamp.History
import DBx1000.Library.Shift
import DBx1000.Plock.Partition
import DBx1000.Plock.Exclusion
import DBx1000.Vll.Queue
import DBx1000.Vll.Accounting
import DBx1000.Btree.Index
import DBx1000.Btree.Loops
import DBx1000.Btree.Levels
import DBx1000.Btree.Coupling
import DBx1000.Btree.Parent
import DBx1000.Btree.Search
import DBx1000.Btree.Leaves
import DBx1000.Btree.Runs
import DBx1000.Library.Cycle
import DBx1000.DlDetect.Detector
import DBx1000.DlDetect.Search
import DBx1000.System.Deadlock
import DBx1000.Ycsb.Effect
import DBx1000.Ycsb.Query
import DBx1000.Silo.Call
import DBx1000.System.Validation
import DBx1000.Tpcc.NewOrder
import DBx1000.Hash.Index
import DBx1000.Tpcc.Customer
