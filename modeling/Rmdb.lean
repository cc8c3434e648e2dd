import Rmdb.Theorems.Index.Sizes
import Rmdb.Theorems.Index.Scan
import Rmdb.Theorems.Index.Pins
import Rmdb.Theorems.Index.FileHdr
import Rmdb.Theorems.Exec.Scan
import Rmdb.Theorems.Exec.LoadIndex
import Rmdb.Theorems.Exec.LoadLine
import Rmdb.Theorems.Exec.CachedLeaf
import Rmdb.Theorems.Exec.Insert
import Rmdb.Theorems.Storage.Flat
import Rmdb.Theorems.Storage.DiskIo
import Rmdb.Theorems.Storage.Pools
import Rmdb.Theorems.Txn.DeletedRows
import Rmdb.Theorems.Txn.Entries
import Rmdb.Theorems.Txn.CountCache
import Rmdb.Theorems.Txn.Visibility
import Rmdb.Theorems.Txn.Restore
import Rmdb.Theorems.Txn.LockManager
import Rmdb.Theorems.Recovery.Wal
import Rmdb.Theorems.Recovery.Restart
import Rmdb.Theorems.Recovery.Idempotent
import Rmdb.Theorems.Recovery.Termination
import Rmdb.Theorems.Recovery.Undo
import Rmdb.Theorems.Recovery.Durability
import Rmdb.Theorems.Record.Pins
import Rmdb.Theorems.Record.Batch
import Rmdb.Theorems.System.Ddl
import Rmdb.Theorems.System.CreateIndex
import Rmdb.Theorems.System.IndexName
import Rmdb.Theorems.Server.Session
import Rmdb.Theorems.Txn.VersionKey
import Rmdb.Theorems.Sql.Update
import Rmdb.Theorems.Sql.Nulls
import Rmdb.Theorems.Sql.NullReads
import Rmdb.Theorems.Sql.NullPlans
import Rmdb.Index.Latch
import Rmdb.Lib.Mirror
import Rmdb.Theorems.Index.Latch
import Rmdb.Theorems.Index.Search
import Rmdb.Theorems.Record.Scan
import Rmdb.Theorems.Sql.Projection
import Rmdb.Theorems.Sql.Aggregates
import Rmdb.Theorems.Sql.Streaming
import Rmdb.Theorems.Sql.TypeSafety
import Rmdb.Theorems.Sql.MinMax
import Rmdb.Theorems.Sql.Groups
import Rmdb.Theorems.Sql.Clause
import Rmdb.Theorems.Sql.RightDeep
import Rmdb.Theorems.Sql.SemiJoin
import Rmdb.Theorems.Sql.Sort
import Rmdb.Theorems.Sql.Evaluators
import Rmdb.Theorems.Sql.Literals
