import Rmdb.Txn.Db

/-! `insert_record` and `insert_records_batch` of an open table file with all that they write
(`record/rm_file_handle.cpp`): the pages, the log records and the marks in the `MvccMap`. -/

namespace Rmdb

/-- What the two operations read of a `Context`: whether there is a log manager, the transaction and the table. -/
structure Context where
  logMgr : Bool
  txn : Option Int
  currentTableName : String
deriving DecidableEq, Repr

/-- `INVALID_TXN_ID`. -/
def invalidTxnId : Int := -1

/-- `RmFileHandle`, with the log that it writes to. -/
structure RmFileHandle where
  file : RmFile
  mvccMap : Int → Option HeapTupleFields
  log : List (LogRecord String)

namespace RmFile

/-- `insert_record` for one record after another. -/
def insertRecords (f : RmFile) : List Bytes → Except RmError (RmFile × List Rid)
  | [] => .ok (f, [])
  | buf :: bufs => do
    let (f, rid) ← f.insertRecord buf
    let (f, rids) ← f.insertRecords bufs
    .ok (f, rid :: rids)

end RmFile

namespace RmFileHandle
variable (s : RmFileHandle) (ctx : Option Context)

/-- The key of a row in the `MvccMap`. -/
def slot (rid : Rid) : Int := rid.pageNo * s.file.perPage + rid.slotNo

/-- The log record of an insertion, if the context has a log manager. -/
def logInsert (rid : Rid) (buf : Bytes) : RmFileHandle :=
  match ctx with
  | some c =>
    if c.logMgr then { s with log := s.log ++ [.insert (c.txn.getD invalidTxnId) c.currentTableName rid buf] } else s
  | none => s

/-- The mark of a row that the transaction of the context has inserted. -/
def markInsert (rid : Rid) : RmFileHandle :=
  match ctx.bind (·.txn) with
  | some id => { s with mvccMap := Function.update s.mvccMap (s.slot rid) (some (insertMark id)) }
  | none => s

/-- `insert_record`. -/
def insertRecord (buf : Bytes) : Except RmError (RmFileHandle × Rid) := do
  let (f, rid) ← s.file.insertRecord buf
  .ok (({ s with file := f }.logInsert ctx rid buf).markInsert ctx rid, rid)

/-- `insert_record` for one record after another. -/
def insertRecords (s : RmFileHandle) : List Bytes → Except RmError (RmFileHandle × List Rid)
  | [] => .ok (s, [])
  | buf :: bufs => do
    let (s, rid) ← s.insertRecord ctx buf
    let (s, rids) ← s.insertRecords bufs
    .ok (s, rid :: rids)

/-- The log records of a batch: there are none without a transaction. -/
def batchLog (ctx : Option Context) (rows : List (Rid × Bytes)) : List (LogRecord String) :=
  match ctx with
  | some ⟨true, some id, tab⟩ => rows.map fun r => .insert id tab r.1 r.2
  | _ => []

/-- `insert_records_batch`. -/
def insertRecordsBatch (bufs : List Bytes) : Except RmError (RmFileHandle × List Rid) := do
  let (f, rids) ← s.file.insertRecordsBatch bufs
  .ok ({ s with file := f, log := s.log ++ batchLog ctx (rids.zip bufs) }, rids)

end RmFileHandle
end Rmdb
