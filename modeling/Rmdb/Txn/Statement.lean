import Rmdb.Txn.Db

/-! The statements of a transaction: `InsertExecutor`, `UpdateExecutor`, `DeleteExecutor` and the scans that read the
tables (`execution/executor_insert.h`, `execution/executor_update.h`, `execution/executor_delete.h`,
`execution/mvcc_executor_base.h`).

A statement that raises an exception keeps what it did before. -/

namespace Rmdb

/-- The errors of a value or an expression. -/
inductive ExecError where
  | invalidValueCount
  | stringOverflow
  | incompatibleType
  /-- A `runtime_error`, such as a division by zero. -/
  | runtimeError
deriving DecidableEq, Repr

/-- The exceptions of a statement. -/
inductive Raised where
  | transactionAbort
  | uniqueCheck
  | recordNotFound (pageNo slotNo : Int)
  | exec (e : ExecError)
deriving DecidableEq, Repr

/-- `SetClause`, with the bytes that `evaluate_set_clause` makes of its right side on a record. -/
structure SetClause (tab : TabMeta) where
  lhs : ColMeta
  mem : lhs ∈ tab.cols
  evaluate : Bytes → Except ExecError { raw : Bytes // raw.length = lhs.len }

/-- `memcpy(rec->data + offset, bs, bs.length)`. A column does not leave the record. -/
def memcpyAt (rec : Bytes) (offset : Nat) (bs : Bytes) : Bytes :=
  rec.mapIdx fun n b => if offset ≤ n then bs[n - offset]?.getD b else b

/-- The loop over the SET clauses: a clause sees what the ones before it wrote. -/
def applySet {tab : TabMeta} : List (SetClause tab) → Bytes → Except ExecError Bytes
  | [], rec => .ok rec
  | c :: cs, rec => do
    let raw ← c.evaluate rec
    applySet cs (memcpyAt rec c.lhs.offset raw.val)

/-- The record of an INSERT. A value is given as the bytes that `init_raw` makes of it. -/
def buildRecord : List ColMeta → List (Except ExecError Bytes) → Bytes → Except ExecError Bytes
  | [], [], rec => .ok rec
  | c :: cs, v :: vs, rec => do
    let raw ← v
    buildRecord cs vs (memcpyAt rec c.offset (raw.take c.len))
  | _, _, _ => .error .invalidValueCount

namespace Schema
variable {T I : Type} (db : Schema T I)

/-- `compute_need_update_index`: a SET clause sets a column of an index. -/
def needUpdateIndex (t : T) (set : List (SetClause (db.tab t))) : Bool :=
  (db.indexes t).any fun i => set.any fun sc => (db.indexCols i).any fun c => c.name = sc.lhs.name

end Schema

namespace Db
variable {T I : Type} [DecidableEq T] [DecidableEq I] (db : Schema T I)

/-! ### The entries of a row -/

/-- The loop that removes the entries of a deleted row. -/
def removeKeys (id : Int) (rid : Rid) (rec : Bytes) : List I → Db T I → Db T I
  | [], s => s
  | i :: is, s =>
    let key := db.keyBytes i rec
    removeKeys id rid rec is ((s.deleteEntry db i key).appendWriteRecord id (.ixDeleteTuple i rid key))

/-- The loop that inserts the entries of a new row or of an updated one. The result of `insert_entry` is not looked at. -/
def insertKeys (id : Int) (rid : Rid) : List (I × Bytes) → Db T I → Db T I
  | [], s => s
  | (i, key) :: keys, s =>
    insertKeys id rid keys ((s.insertEntry db i key rid).appendWriteRecord id (.ixInsertTuple i rid key))

/-- The key belongs to another row. -/
def taken (s : Db T I) (i : I) (key : Bytes) (rid : Rid) : Bool := (s.isUnique db i key).any (· ≠ rid)

/-- The loop of an UPDATE that removes the entries of the keys that change, and the keys to insert in their place. It ends
    with a `UniqueCheckError` at a new key that belongs to another row. -/
def removeOldKeys (id : Int) (rid : Rid) (old new : Bytes) : List I → Db T I → Db T I × Option (List (I × Bytes))
  | [], s => (s, some [])
  | i :: is, s =>
    let oldKey := db.keyBytes i old
    let newKey := db.keyBytes i new
    if oldKey = newKey then removeOldKeys id rid old new is s
    else if s.taken db i newKey rid then (s, none)
    else
      let r := removeOldKeys id rid old new is
        ((s.deleteEntry db i oldKey).appendWriteRecord id (.ixDeleteTuple i rid oldKey))
      (r.1, r.2.map ((i, newKey) :: ·))

/-! ### Versions -/

/-- `update_record_mvcc`: nothing when it raises a `TransactionAbortException`. -/
def updateRecordMvcc (s : Db T I) (id : Int) (t : T) (rid : Rid) (buf : Bytes) : Except RmError (Option (Db T I)) :=
  let chain := (s.versionChains (t, rid)).getD []
  if chain.conflicts id || chain.deletedByOther id then .ok none
  else match chain.updateVersion buf id (s.readTs id) with
    | none => .ok none
    | some c => do
      let s ← { s with versionChains := Function.update s.versionChains (t, rid) (some c) }.updateRecord db id t rid buf
      .ok (some s)

/-- The chain that `delete_version` works on: a row without a chain gets one with its record. -/
def chainForDelete (s : Db T I) (t : T) (rid : Rid) : Option VersionChain :=
  match s.versionChains (t, rid) with
  | some c => some c
  | none => ((s.fhs t).getRecord rid).toOption.map fun rec => [VersionChain.initialVersion rec]

/-- `delete_record_mvcc`: nothing when it raises a `TransactionAbortException`. The table file is left alone. -/
def deleteRecordMvcc (s : Db T I) (id : Int) (t : T) (rid : Rid) : Option (Db T I) := do
  let chain ← s.chainForDelete t rid
  let c ← chain.deleteVersion id (s.readTs id)
  some { s with versionChains := Function.update s.versionChains (t, rid) (some c) }

/-! ### Executors -/

/-- A row that an UPDATE or a DELETE goes on with: it is locked, and then it is read. -/
def lockRow (s : Db T I) (id : Int) (t : T) (rid : Rid) : Except RmError (Db T I × Except Raised (Option Bytes)) :=
  let r := s.lockExclusiveOnRecord id t rid
  if r.2 then
    match r.1.getRecordMvcc db id t rid with
    | .ok rec => .ok (r.1, .ok rec)
    | .error (.recordNotFound p n) => .ok (r.1, .error (.recordNotFound p n))
    | .error e => .error e
  else .ok (r.1, .error .transactionAbort)

/-- `UpdateExecutor::Next` on a row whose record becomes `new`. -/
def updateTo (s : Db T I) (id : Int) (t : T) (rid : Rid) (old new : Bytes) (need : Bool) :
    Except RmError (Db T I × Option Raised) :=
  let r := if need then removeOldKeys db id rid old new (db.indexes t) s else (s, some [])
  match r.2 with
  | none => .ok (r.1, some .uniqueCheck)
  | some keys => do
    match ← r.1.updateRecordMvcc db id t rid new with
    | none => .ok (r.1, some .transactionAbort)
    | some u => .ok ((insertKeys db id rid keys u).appendWriteRecord id (.updateTuple t rid old), none)

/-- `UpdateExecutor::Next` on a row. -/
def updateRow (id : Int) (t : T) (set : List (SetClause (db.tab t))) (s : Db T I) (rid : Rid) :
    Except RmError (Db T I × Option Raised) := do
  let r ← s.lockRow db id t rid
  match r.2 with
  | .error e => .ok (r.1, some e)
  | .ok none => .ok (r.1, none)
  | .ok (some old) =>
    match applySet set old with
    | .error e => .ok (r.1, some (.exec e))
    | .ok new => r.1.updateTo db id t rid old new (db.needUpdateIndex t set)

/-- `DeleteExecutor::Next` on a row. -/
def deleteRow (id : Int) (t : T) (s : Db T I) (rid : Rid) : Except RmError (Db T I × Option Raised) := do
  let r ← s.lockRow db id t rid
  match r.2 with
  | .error e => .ok (r.1, some e)
  | .ok none => .ok (r.1, none)
  | .ok (some rec) =>
    let u := removeKeys db id rid rec (db.indexes t) r.1
    match u.deleteRecordMvcc id t rid with
    | none => .ok (u, some .transactionAbort)
    | some v => .ok (v.appendWriteRecord id (.deleteTuple t rid rec), none)

/-- `for (auto &rid : rids_)`: an exception ends the loop. -/
def forRows (row : Db T I → Rid → Except RmError (Db T I × Option Raised)) :
    List Rid → Db T I → Except RmError (Db T I × Option Raised)
  | [], s => .ok (s, none)
  | rid :: rids, s => do
    let r ← row s rid
    match r.2 with
    | some e => .ok (r.1, some e)
    | none => forRows row rids r.1

/-- `InsertExecutor::Next`. -/
def insertNext (s : Db T I) (id : Int) (t : T) (values : List (Except ExecError Bytes)) :
    Except RmError (Db T I × Option Raised) :=
  match buildRecord (db.tab t).cols values (List.replicate (db.recordSize t) 0) with
  | .error e => .ok (s, some (.exec e))
  | .ok rec =>
    if (db.indexes t).any fun i => (s.isUnique db i (db.keyBytes i rec)).isSome then .ok (s, some .uniqueCheck)
    else do
      let r ← s.insertRecord db id t rec
      let u := r.1.appendWriteRecord id (.insertTuple t r.2 rec)
      .ok (insertKeys db id r.2 ((db.indexes t).map fun i => (i, db.keyBytes i rec)) u, none)

/-- `UpdateExecutor::Next`. -/
def updateNext (s : Db T I) (id : Int) (t : T) (rids : List Rid) (set : List (SetClause (db.tab t))) :
    Except RmError (Db T I × Option Raised) := forRows (updateRow db id t set) rids s

/-- `DeleteExecutor::Next`. -/
def deleteNext (s : Db T I) (id : Int) (t : T) (rids : List Rid) : Except RmError (Db T I × Option Raised) :=
  forRows (deleteRow db id t) rids s

end Db
end Rmdb
