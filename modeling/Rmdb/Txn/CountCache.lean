import Rmdb.Exec.Load
import Rmdb.Txn.Manager

/-! The number of records that a file header caches (`record/rm_defs.h`): LOAD sets it (`execution/executor_load.h`), an INSERT or
a DELETE that runs to its end makes it invalid, and so does an explicit BEGIN for every table (`execution/execution_manager.cpp`). -/

namespace Rmdb

/-- `total_record_count` and `count_cache_valid` of `RmFileHdr`. A new header is all zero. -/
structure CountCache where
  totalRecordCount : Nat
  countCacheValid : Bool
deriving DecidableEq, Repr

/-- `invalidate_count_cache`. -/
def CountCache.invalidate (c : CountCache) : CountCache := { c with countCacheValid := false }

namespace Db
variable {T I : Type} [DecidableEq T] [DecidableEq I] (db : Schema T I)

/-- `batch_insert_index`, for the first index of the table. -/
def batchInsertIndex (t : T) (s : Db T I) (rows : List Loaded) : Except IxError (Db T I) :=
  match (db.indexes t).head? with
  | none => .ok s
  | some i => .ok (rows.foldl (fun s r => s.insertEntry db i (db.keyBytes i r.2) r.1) s)

/-- `LoadExecutor::Next` on the lines of a file, with the rows that it loads. The log and the marks are left alone. -/
def load (s : Db T I) (t : T) (csv : List Bytes) : Except LoadError (Db T I × List Loaded) :=
  match csv with
  | [] => .error .emptyFile
  | _ :: lines => do
    let (f, u, loaded) ← LoadExecutor.loadBatches (ultraFastParse (db.tab t) (db.recordSize t))
      (LoadExecutor.maxBatchSize (db.recordSize t) (s.fhs t).perPage) (batchInsertIndex db t) (lines.length + 1) (s.fhs t) s lines
    .ok ({ u with fhs := Function.update u.fhs t f }, loaded)

/-- The statement runs to its end. -/
def runsToEnd (s : Db T I) (id : Int) (next : Db T I → Except RmError (Db T I × Option Raised)) : Bool :=
  match s.txnMap id with
  | none => false
  | some x =>
    if x.mustAbort then false
    else match next (s.setTransaction id x) with
      | .ok (_, none) => true
      | .ok (_, some _) | .error _ => false

end Db

/-- What the clients do, and LOAD. -/
inductive CountAct {T I : Type} (db : Schema T I) where
  | act (a : Act db)
  | load (t : T) (csv : List Bytes)

inductive CountError where
  | db (e : DbError)
  | load (e : LoadError)
deriving DecidableEq, Repr

/-- The database with what the file headers cache. -/
structure CountedDb (T I : Type) where
  db : Db T I
  caches : T → CountCache

namespace CountedDb
variable {T I : Type} [DecidableEq T] [DecidableEq I] (db : Schema T I)

/-- A server on new tables. -/
def init : CountedDb T I := ⟨Db.init db, fun _ => ⟨0, false⟩⟩

/-- The cache of a table after an action. -/
def cacheAfter (s : CountedDb T I) (t : T) : Act db → CountCache
  | .begin txnMode => if txnMode then (s.caches t).invalidate else s.caches t
  | .insert id u values => if u = t ∧ s.db.runsToEnd id fun s => s.insertNext db id u values then (s.caches t).invalidate else s.caches t
  | .delete id u rids =>
    if u = t ∧ s.db.runsToEnd id fun s => s.deleteNext db id u (rids.map (·.val)) then (s.caches t).invalidate else s.caches t
  | .update .. | .commit _ | .abort _ => s.caches t

/-- A step of the server. A LOAD of an empty file raises an exception and changes nothing. -/
def step (s : CountedDb T I) : CountAct db → Except CountError (CountedDb T I)
  | .act a =>
    match s.db.step db a with
    | .ok u => .ok ⟨u, fun t => s.cacheAfter db t a⟩
    | .error e => .error (.db e)
  | .load t csv =>
    match s.db.load db t csv with
    | .ok (u, loaded) => .ok ⟨u, Function.update s.caches t ⟨loaded.length, true⟩⟩
    | .error .emptyFile => .ok s
    | .error e => .error (.load e)

/-- Every table whose cache is valid has as many rows as it says. -/
def CountOk (s : CountedDb T I) (t : T) : Prop := (s.caches t).countCacheValid = true → (s.caches t).totalRecordCount = (s.db.rmScan t).length

end CountedDb
end Rmdb
