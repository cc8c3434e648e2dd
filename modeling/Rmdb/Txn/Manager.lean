import Rmdb.Txn.Statement
import Rmdb.Lib.Runs

/-! Transactions (`transaction/transaction_manager.cpp`) and the runs of a server: the statements, commits and aborts of
any number of transactions, one after another (`client_handler` in `rmdb.cpp`), and what a transaction reads in between. -/

namespace Rmdb
namespace Db
variable {T I : Type} [DecidableEq T] [DecidableEq I] (db : Schema T I)

/-- `TransactionManager::begin`. -/
def begin (s : Db T I) (txnMode : Bool) : Db T I :=
  { s with
    txnMap := Function.update s.txnMap s.nextTxnId (some ⟨.growing, txnMode, s.nextTimestamp, [], [], false⟩)
    nextTxnId := s.nextTxnId + 1
    nextTimestamp := s.nextTimestamp + 1 }.addLog (.begin s.nextTxnId)

/-- The rows that the records of a write set name. -/
def rowsOf (ws : List (WriteRecord T I)) : List (T × Rid) := ws.filterMap (·.tuple?)

/-- `MVCCManager::commit_transaction`: the versions of the rows that the transaction wrote. -/
def commitTransaction (s : Db T I) (id : Int) (rows : List (T × Rid)) (commitTs : Int) : Db T I :=
  { s with versionChains := fun row =>
      if row ∈ rows then (s.versionChains row).map (·.commitChainVersions id commitTs) else s.versionChains row }

/-- `MVCCManager::rollback_transaction`: a chain that becomes empty is removed. -/
def rollbackTransaction (s : Db T I) (id : Int) (rows : List (T × Rid)) : Db T I :=
  { s with versionChains := fun row =>
      if row ∈ rows then ((s.versionChains row).map (·.rollbackChainVersions id)).filter (· ≠ [])
      else s.versionChains row }

/-- The marks of the rows are erased. -/
def commitMarks (s : Db T I) (rows : List (T × Rid)) : Db T I :=
  { s with mvccMap := fun mark => if mark ∈ rows.map (fun row => (row.1, db.slot row.1 row.2)) then none else s.mvccMap mark }

/-- The locks of the transaction are released. -/
def releaseLocks (s : Db T I) (id : Int) (lockSet : List (T × Rid)) : Db T I :=
  { s with lockTable := fun row => if row ∈ lockSet then (s.lockTable row).erase id else s.lockTable row }

/-- The transaction leaves the table of transactions. -/
def eraseTxn (s : Db T I) (id : Int) : Db T I := { s with txnMap := Function.update s.txnMap id none }

/-- `TransactionManager::commit`. `persist_mvcc_version` writes nothing. -/
def commitTxn (s : Db T I) (id : Int) (x : Transaction T I) : Db T I :=
  let s₁ := { s with nextTimestamp := s.nextTimestamp + 1 }.commitTransaction id (rowsOf x.writeSet) s.nextTimestamp
  let s₂ := (s₁.releaseLocks id x.lockSet).commitMarks db (rowsOf x.writeSet)
  (s₂.eraseTxn id).addLog (.commit id)

/-- `rollback_single_operation`. An exception of the table file is swallowed. -/
def rollbackSingleOperation (w : WriteRecord T I) (s : Db T I) : Db T I :=
  match w with
  | .insertTuple t rid _ =>
    match (s.fhs t).deleteRecord rid with
    | .ok f => { s with fhs := Function.update s.fhs t f }
    | .error _ => s
  | .updateTuple t rid old =>
    match (s.fhs t).updateRecord rid old with
    | .ok f => { s with fhs := Function.update s.fhs t f }
    | .error _ => s
  | .deleteTuple .. => s
  | .ixInsertTuple i _ key => s.deleteEntry db i key
  | .ixDeleteTuple i rid key => s.insertEntry db i key rid

/-- The write set is undone from its last record on. -/
def undoWrites (ws : List (WriteRecord T I)) (s : Db T I) : Db T I := ws.foldr (rollbackSingleOperation db) s

/-- `TransactionManager::abort`. -/
def abortTxn (s : Db T I) (id : Int) (x : Transaction T I) : Db T I :=
  let s₁ := undoWrites db x.writeSet (s.rollbackTransaction id (rowsOf x.writeSet))
  let s₂ := (s₁.commitMarks db (rowsOf x.writeSet)).releaseLocks id x.lockSet
  (s₂.eraseTxn id).addLog (.abort id)

/-- `SetTransaction`: a statement of an explicit transaction reads as of its own start. -/
def setTransaction (s : Db T I) (id : Int) (x : Transaction T I) : Db T I :=
  if x.txnMode then
    { s with nextTimestamp := s.nextTimestamp + 1 }.modifyTxn id fun x => { x with readTs := s.nextTimestamp }
  else s

/-- After a `TransactionAbortException` the transaction can only be aborted. Other exceptions leave it as it is. -/
def afterStatement (id : Int) (r : Db T I × Option Raised) : Db T I :=
  if r.2 = some .transactionAbort then r.1.modifyTxn id fun x => { x with mustAbort := true } else r.1

/-- The end of a request: a transaction of a single statement is committed. -/
def requestEnd (s : Db T I) (id : Int) : Db T I :=
  match s.txnMap id with
  | some x => if x.txnMode then s else s.commitTxn db id x
  | none => s

end Db

/-- What the clients of a server do. UPDATE and DELETE name the rows that the scan below them found. -/
inductive Act {T I : Type} (db : Schema T I) where
  | begin (txnMode : Bool)
  | insert (id : Int) (t : T) (values : List (Except ExecError Bytes))
  | update (id : Int) (t : T) (rids : List (db.SlotRid t)) (set : List (SetClause (db.tab t)))
  | delete (id : Int) (t : T) (rids : List (db.SlotRid t))
  | commit (id : Int)
  | abort (id : Int)

/-- The model ends where the code leaves the page of a record or a 32-bit counter runs over. -/
inductive DbError where
  | rm (e : RmError)
  | counterOverflow
deriving DecidableEq, Repr

namespace Db
variable {T I : Type} [DecidableEq T] [DecidableEq I] (db : Schema T I)

/-- The counters of transactions and timestamps have not run out. -/
def Fits (s : Db T I) : Prop := s.nextTxnId < intMax ∧ s.nextTimestamp < intMax

instance (s : Db T I) : Decidable s.Fits := inferInstanceAs (Decidable (_ ∧ _))

/-- Nothing is done for a transaction that is not active. -/
def withTxn (s : Db T I) (id : Int) (g : Transaction T I → Except DbError (Db T I)) : Except DbError (Db T I) :=
  match s.txnMap id with
  | some x => g x
  | none => .ok s

/-- A statement of a transaction. -/
def statement (s : Db T I) (id : Int) (next : Db T I → Except RmError (Db T I × Option Raised)) : Except DbError (Db T I) :=
  s.withTxn id fun x =>
    if x.mustAbort then .ok s
    else match next (s.setTransaction id x) with
      | .ok r => .ok (afterStatement id r)
      | .error e => .error (.rm e)

/-- A step of the server. -/
def step (s : Db T I) (a : Act db) : Except DbError (Db T I) :=
  if s.Fits then
    match a with
    | .begin txnMode => .ok (s.begin txnMode)
    | .insert id t values => s.statement id fun s => s.insertNext db id t values
    | .update id t rids set => s.statement id fun s => s.updateNext db id t (rids.map (·.val)) set
    | .delete id t rids => s.statement id fun s => s.deleteNext db id t (rids.map (·.val))
    | .commit id => s.withTxn id fun x => if x.mustAbort then .ok s else .ok (s.commitTxn db id x)
    | .abort id => s.withTxn id fun x => .ok (s.abortTxn db id x)
  else .error .counterOverflow

/-! ### Scans -/

/-- The positions that `RmScan` visits. -/
def rmScan (s : Db T I) (t : T) : List Rid :=
  (List.range (s.fhs t).numPages.toNat).flatMap fun p =>
    ((List.range (s.fhs t).perPage).map fun n => (⟨(p : Nat), (n : Nat)⟩ : Rid)).filter fun rid => (s.row t rid).isSome

/-- A position of a sequential scan and what `Next` returns there. Without conditions every position is one, also that of a
    row that is not visible. -/
def seqScanAt (s : Db T I) (id : Int) (t : T) (conds : List (Condition (db.tab t))) (rid : Rid) :
    Except RmError (Option (Rid × Option Bytes)) := do
  let buf ← s.getRecordMvcc db id t rid
  if conds = [] then .ok (some (rid, buf))
  else .ok ((buf.filter (evalConds conds)).map fun b => (rid, some b))

/-- `SeqScanExecutor`: the positions from `beginTuple` to `is_end`. -/
def seqScan (s : Db T I) (id : Int) (t : T) (conds : List (Condition (db.tab t))) :
    Except RmError (List (Rid × Option Bytes)) := do
  let rows ← (s.rmScan t).mapM (s.seqScanAt db id t conds)
  .ok (rows.filterMap fun r => r)

/-- `COUNT(*)` over a sequential scan. -/
def countStar (s : Db T I) (id : Int) (t : T) (conds : List (Condition (db.tab t))) : Except RmError Nat := do
  let rows ← s.seqScan db id t conds
  .ok rows.length

/-- `IndexScanExecutor` at a key of the index: the row there, if it is visible and meets the conditions. A record that is
    not found is skipped. -/
def indexScanAt (s : Db T I) (id : Int) (t : T) (i : I) (conds : List (Condition (db.tab t))) (key : Bytes) :
    Except RmError (Option (Rid × Bytes)) :=
  match s.ihs (i, key) with
  | none => .ok none
  | some rid =>
    match s.getRecordMvcc db id t rid with
    | .ok rec => .ok ((rec.filter (cmpConds conds)).map fun b => (rid, b))
    | .error (.recordNotFound _ _) => .ok none
    | .error e => .error e

end Db
end Rmdb
