import Rmdb.Exec.Literal
import Rmdb.Txn.CountCache

/-! `InsertExecutor` (`execution/executor_insert.h`) on the file of a table and the trees of its indexes. -/

namespace Rmdb

/-- The exceptions of an INSERT. -/
inductive InsertRaised where
  | values (e : InsertFault)
  | uniqueCheck
  | recordNotFound (pageNo slotNo : Int)
deriving DecidableEq, Repr

/-- Where an INSERT leaves the model: it writes outside the slots of a page, or `is_unique` or `insert_entry` fails on the way. -/
inductive InsertFailure where
  | record (e : RmError)
  | index (e : IxError)
deriving DecidableEq, Repr

namespace InsertExecutor
variable {tab : TabMeta}

/-- What an INSERT of a transaction reads and changes. -/
structure State (tab : TabMeta) where
  file : RmFile
  countCache : CountCache
  mvccMap : Int → Option HeapTupleFields
  indexes : List (LoadExecutor.OpenIndex tab)
  writeSet : List (WriteRecord String (IndexMeta tab))
  log : List (LogRecord String)

/-- The constructor, and the loop of `Next` that builds the record. -/
def build (tab : TabMeta) (recordSize : Nat) (vs : List Sql.Value) : Except InsertFault Bytes :=
  if vs.length ≠ tab.cols.length then .error .invalidValueCount
  else
    match fill (tab.cols.zip vs) (List.replicate recordSize 0) with
    | .ok rec => .ok rec
    | .error e => .error (.fault e)

/-- The loop that checks the key of the record in every index: whether one is not unique. -/
def findsKey (rec : Bytes) : List (LoadExecutor.OpenIndex tab) → Except IxError Bool
  | [] => .ok false
  | o :: os => do
    let key ← ixKey o.1.ixCols (o.1.keyBytes rec)
    let (unique, _) ← o.2.isUnique (ixFormat o.1.ixCols) key
    if unique then findsKey rec os else .ok true

/-- The loop that inserts the entries of the row. The result of `insert_entry` is not looked at. -/
def insertEntries (rec : Bytes) (rid : Rid) : List (LoadExecutor.OpenIndex tab) → Except IxError (List (LoadExecutor.OpenIndex tab))
  | [] => .ok []
  | o :: os => do
    let key ← ixKey o.1.ixCols (o.1.keyBytes rec)
    let (ih, _) ← o.2.insertEntry (ixFormat o.1.ixCols) key rid
    let os ← insertEntries rec rid os
    .ok (⟨o.1, ih⟩ :: os)

/-- The write records of the statement, in the order of its changes. -/
def writes (rec : Bytes) (rid : Rid) (indexes : List (LoadExecutor.OpenIndex tab)) : List (WriteRecord String (IndexMeta tab)) :=
  .insertTuple tab.name rid rec :: indexes.map fun o => .ixInsertTuple o.1 rid (o.1.keyBytes rec)

/-- The constructor and `Next`, for a transaction. -/
def next (recordSize : Nat) (id : Int) (s : State tab) (vs : List Sql.Value) : Except InsertFailure (State tab × Option InsertRaised) :=
  match build tab recordSize vs with
  | .error e => .ok (s, some (.values e))
  | .ok rec =>
    match findsKey rec s.indexes with
    | .error e => .error (.index e)
    | .ok true => .ok (s, some .uniqueCheck)
    | .ok false =>
      match s.file.insertRecord rec with
      | .error (.recordNotFound p n) => .ok (s, some (.recordNotFound p n))
      | .error e => .error (.record e)
      | .ok (file, rid) =>
        match insertEntries rec rid s.indexes with
        | .error e => .error (.index e)
        | .ok indexes =>
          .ok ({
            file := file
            countCache := s.countCache.invalidate
            mvccMap := Function.update s.mvccMap (rid.pageNo * file.perPage + rid.slotNo) (some (insertMark id))
            indexes := indexes
            writeSet := s.writeSet ++ writes rec rid s.indexes
            log := s.log ++ [.insert id tab.name rid rec] }, none)

/-- An INSERT as a step. -/
def step (recordSize : Nat) (id : Int) (s : State tab) (vs : List Sql.Value) : Except InsertFailure (State tab) :=
  (next recordSize id s vs).map (·.1)

end InsertExecutor
end Rmdb
