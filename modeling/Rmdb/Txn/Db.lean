import Rmdb.Txn.Version
import Rmdb.Record.File
import Mathlib.Logic.Function.Basic

/-! The state that transactions share: table files with their marks, indexes, version chains, row locks, the active
transactions and the log.

Tables have names of type `T` and indexes names of type `I`. An index is the map from keys to positions that
`insert_entry` and `delete_entry` keep; keys that `ix_compare` does not tell apart are one key. -/

namespace Rmdb

/-- The tables of a database and their indexes. `create_table` places the columns one behind the other, and every index is
    an index of one table. -/
structure Schema (T I : Type) where
  tab : T → TabMeta
  recordSize : T → Nat
  indexes : T → List I
  indexCols : I → List ColMeta
  accepts : ∀ t, RmAccepts (recordSize t)
  apart : ∀ t, ∀ c ∈ (tab t).cols, ∀ d ∈ (tab t).cols, c.name ≠ d.name →
    c.offset + c.len ≤ d.offset ∨ d.offset + d.len ≤ c.offset
  sub : ∀ t, ∀ i ∈ indexes t, ∀ c ∈ indexCols i, c ∈ (tab t).cols
  nodup : ∀ t, (indexes t).Nodup
  disjoint : ∀ t u i, i ∈ indexes t → i ∈ indexes u → t = u

/-- The bytes of a column as a key: both zeros of a FLOAT are one number. -/
def normCell (c : IxCol) (a : Bytes) : Bytes :=
  if c.type = .float ∧ floatMagnitude (readWord a) = 0 then List.replicate c.len 0 else a.take c.len

/-- A key of an index, up to what `ix_compare` tells apart. -/
def ixNorm : List IxCol → Bytes → Bytes
  | [], _ => []
  | c :: cs, a => normCell c a ++ ixNorm cs (a.drop c.len)

namespace Schema
variable {T I : Type} (db : Schema T I)

/-- `num_records_per_page` of a table. -/
def perPage (t : T) : Nat := numRecordsPerPage (db.recordSize t)

/-- The key bytes that the executors copy out of a record. -/
def keyBytes (i : I) (rec : Bytes) : Bytes := (db.indexCols i).flatMap (·.cell rec)

/-- The key under which an index keeps the bytes. -/
def norm (i : I) (key : Bytes) : Bytes := ixNorm ((db.indexCols i).map (·.ixCol)) key

/-- The key of a record in an index. -/
def key (i : I) (rec : Bytes) : Bytes := db.norm i (db.keyBytes i rec)

/-- A position that `RmScan` can yield: a slot of a record page. -/
def IsSlot (t : T) (rid : Rid) : Prop := rid.pageNo ≠ 0 ∧ 0 ≤ rid.slotNo ∧ rid.slotNo < db.perPage t

instance (t : T) (rid : Rid) : Decidable (db.IsSlot t rid) := inferInstanceAs (Decidable (_ ∧ _))

abbrev SlotRid (t : T) := { rid : Rid // db.IsSlot t rid }

/-- The key of a row in the `MvccMap` of its file. -/
def slot (t : T) (rid : Rid) : Int := rid.pageNo * db.perPage t + rid.slotNo

end Schema

/-- `WriteRecord`. -/
inductive WriteRecord (T I : Type) where
  | insertTuple (tab : T) (rid : Rid) (rec : Bytes)
  | updateTuple (tab : T) (rid : Rid) (old : Bytes)
  | deleteTuple (tab : T) (rid : Rid) (rec : Bytes)
  | ixInsertTuple (index : I) (rid : Rid) (key : Bytes)
  | ixDeleteTuple (index : I) (rid : Rid) (key : Bytes)
deriving DecidableEq, Repr

/-- The row that a write record of a table names. -/
def WriteRecord.tuple? {T I : Type} : WriteRecord T I → Option (T × Rid)
  | .insertTuple t rid _ | .updateTuple t rid _ | .deleteTuple t rid _ => some (t, rid)
  | .ixInsertTuple .. | .ixDeleteTuple .. => none

/-- The log records of transactions. -/
inductive LogRecord (T : Type) where
  | begin (id : Int)
  | commit (id : Int)
  | abort (id : Int)
  | insert (id : Int) (tab : T) (rid : Rid) (rec : Bytes)
  | update (id : Int) (tab : T) (rid : Rid) (old new : Bytes)
deriving DecidableEq, Repr

inductive TransactionState where
  | growing
  | shrinking
  | committed
  | aborted
deriving DecidableEq, Repr

/-- `Transaction`. `mustAbort` says that a statement of it raised a `TransactionAbortException`, after which
    `client_handler` only calls `abort`. -/
structure Transaction (T I : Type) where
  state : TransactionState
  txnMode : Bool
  readTs : Int
  writeSet : List (WriteRecord T I)
  lockSet : List (T × Rid)
  mustAbort : Bool

/-- The database and its transactions. A row is locked by the transactions in the request queue of its lock. -/
structure Db (T I : Type) where
  fhs : T → RmFile
  mvccMap : T × Int → Option HeapTupleFields
  ihs : I × Bytes → Option Rid
  versionChains : T × Rid → Option VersionChain
  lockTable : T × Rid → List Int
  txnMap : Int → Option (Transaction T I)
  nextTxnId : Int
  nextTimestamp : Int
  log : List (LogRecord T)

namespace Db
variable {T I : Type} [DecidableEq T] [DecidableEq I] (db : Schema T I)

/-- A server on new tables. -/
def init : Db T I where
  fhs t := RmFile.create (db.recordSize t)
  mvccMap _ := none
  ihs _ := none
  versionChains _ := none
  lockTable _ := []
  txnMap _ := none
  nextTxnId := 0
  nextTimestamp := 1
  log := []

variable (s : Db T I)

/-- The write set of a transaction; a transaction that is not active has none. -/
def writes (id : Int) : List (WriteRecord T I) := ((s.txnMap id).map (·.writeSet)).getD []

/-- `get_read_ts`. -/
def readTs (id : Int) : Int := ((s.txnMap id).map (·.readTs)).getD 0

/-- A change to the transaction. -/
def modifyTxn (id : Int) (g : Transaction T I → Transaction T I) : Db T I :=
  { s with txnMap := Function.update s.txnMap id ((s.txnMap id).map g) }

/-- `append_write_record`. -/
def appendWriteRecord (id : Int) (w : WriteRecord T I) : Db T I :=
  s.modifyTxn id fun x => { x with writeSet := x.writeSet ++ [w] }

/-- `add_log_to_buffer`. -/
def addLog (r : LogRecord T) : Db T I := { s with log := s.log ++ [r] }

/-- The record of a row. -/
def row (t : T) (rid : Rid) : Option Bytes := (s.fhs t).lookup rid

/-! ### Indexes -/

/-- `is_unique`, with the position it finds. -/
def isUnique (i : I) (key : Bytes) : Option Rid := s.ihs (i, db.norm i key)

/-- `insert_entry`: a key that is there is left alone. -/
def insertEntry (i : I) (key : Bytes) (rid : Rid) : Db T I :=
  { s with ihs := Function.update s.ihs (i, db.norm i key) ((s.ihs (i, db.norm i key)).or (some rid)) }

/-- `delete_entry`: the key is removed, whatever its position. -/
def deleteEntry (i : I) (key : Bytes) : Db T I := { s with ihs := Function.update s.ihs (i, db.norm i key) none }

/-! ### Table files -/

/-- `RmFileHandle::insert_record` for a transaction. -/
def insertRecord (id : Int) (t : T) (buf : Bytes) : Except RmError (Db T I × Rid) := do
  let (f, rid) ← (s.fhs t).insertRecord buf
  let s := { s with
    fhs := Function.update s.fhs t f
    mvccMap := Function.update s.mvccMap (t, db.slot t rid) (some (insertMark id)) }
  .ok (s.addLog (.insert id t rid buf), rid)

/-- `RmFileHandle::update_record` for a transaction. -/
def updateRecord (id : Int) (t : T) (rid : Rid) (buf : Bytes) : Except RmError (Db T I) := do
  let old ← (s.fhs t).getRecord rid
  let f ← (s.fhs t).updateRecord rid buf
  let s := { s with
    fhs := Function.update s.fhs t f
    mvccMap := Function.update s.mvccMap (t, db.slot t rid) (some (insertMark id)) }
  .ok (s.addLog (.update id t rid old buf))

/-- `RmFileHandle::commit_mvcc`: the mark of the row is erased, whoever set it. -/
def commitMvcc (t : T) (rid : Rid) : Db T I :=
  { s with mvccMap := Function.update s.mvccMap (t, db.slot t rid) none }

/-- `get_record_mvcc`: the record of a row that is visible to the transaction. -/
def getRecordMvcc (id : Int) (t : T) (rid : Rid) : Except RmError (Option Bytes) :=
  if visitRecord (s.mvccMap (t, db.slot t rid)) id = .success then do
    let buf ← (s.fhs t).getRecord rid
    .ok (some buf)
  else .ok none

/-! ### Row locks -/

/-- `lock_exclusive_on_record`. Every request in a queue is a granted exclusive one. -/
def lockExclusiveOnRecord (id : Int) (t : T) (rid : Rid) : Db T I × Bool :=
  if (s.txnMap id).map (·.state) = some .shrinking then (s.modifyTxn id fun x => { x with state := .aborted }, false)
  else if id ∈ s.lockTable (t, rid) then (s, true)
  else if s.lockTable (t, rid) ≠ [] then (s.modifyTxn id fun x => { x with state := .aborted }, false)
  else
    let s := { s with lockTable := Function.update s.lockTable (t, rid) [id] }
    (s.modifyTxn id fun x => { x with lockSet := (t, rid) :: x.lockSet }, true)

/-- `unlock`: the request of the transaction leaves the queue. -/
def unlock (id : Int) (row : T × Rid) : Db T I :=
  { s with lockTable := Function.update s.lockTable row ((s.lockTable row).erase id) }

end Db
end Rmdb
