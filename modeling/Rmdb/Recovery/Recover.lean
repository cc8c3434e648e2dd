import Rmdb.Recovery.Analyze
import Rmdb.Txn.Db

/-! Redo and undo (`RecoveryManager::redo` and `RecoveryManager::undo` in `recovery/log_recovery.cpp`). -/

namespace Rmdb

/-- The table files and the indexes that recovery works on. -/
structure Store (T I : Type) where
  fhs : T → RmFile
  ihs : I × Bytes → Option Rid

namespace RmFile

/-- `slot_is_occupied`. -/
def slotIsOccupied (f : RmFile) (rid : Rid) : Except RmError Bool :=
  if f.numPages ≤ rid.pageNo then .ok false
  else do
    let page ← f.fetchPageHandle rid.pageNo
    let slot ← f.slotIndex rid.slotNo
    .ok (page.slots[slot]?.getD none).isSome

/-- One new page if the file does not reach to the page. -/
def growFor (f : RmFile) (p : Int) : RmFile := if f.numPages ≤ p then f.createNewPageHandle.1 else f

/-- A record is put into its slot if that is free. -/
def putRecord (f : RmFile) (rid : Rid) (value : Bytes) : Except RmError RmFile := do
  let f := f.growFor rid.pageNo
  let occupied ← f.slotIsOccupied rid
  if occupied then .ok f else f.insertRecordAt rid value

/-- An exception of the record layer is swallowed. -/
def ifFound (f : RmFile) (g : Except RmError RmFile) : Except RmError RmFile :=
  match g with
  | .error (.recordNotFound _ _) => .ok f
  | g => g

end RmFile

namespace Store
variable {T I : Type} [DecidableEq T] [DecidableEq I] (db : Schema T I) (tableOf : Bytes → Option T)

/-- `insert_entry`: a key that is there is left alone. -/
def insertEntry (s : Store T I) (i : I) (key : Bytes) (rid : Rid) : Store T I :=
  { s with ihs := Function.update s.ihs (i, db.norm i key) ((s.ihs (i, db.norm i key)).or (some rid)) }

/-- `delete_entry`: the key is removed, whatever its position. -/
def deleteEntry (s : Store T I) (i : I) (key : Bytes) : Store T I :=
  { s with ihs := Function.update s.ihs (i, db.norm i key) none }

/-- The record enters the indexes of the table. -/
def insertEntries (s : Store T I) (t : T) (value : Bytes) (rid : Rid) : Store T I :=
  (db.indexes t).foldl (fun s i => s.insertEntry db i (db.keyBytes i value) rid) s

def deleteEntries (s : Store T I) (t : T) (value : Bytes) : Store T I :=
  (db.indexes t).foldl (fun s i => s.deleteEntry db i (db.keyBytes i value)) s

def moveEntries (s : Store T I) (t : T) (old new : Bytes) (rid : Rid) : Store T I :=
  (db.indexes t).foldl (fun s i => (s.deleteEntry db i (db.keyBytes i old)).insertEntry db i (db.keyBytes i new) rid) s

/-- A change of one table file. -/
def withFile (s : Store T I) (t : T) (f : Except RmError RmFile) : Except RecoveryError (Store T I) :=
  match f with
  | .ok f => .ok { s with fhs := Function.update s.fhs t f }
  | .error e => .error (.rm e)

/-- The case of a record in `redo`. A record of a table that does not exist is skipped. -/
def redoRecord (s : Store T I) (r : LogEntry) : Except RecoveryError (Store T I) :=
  match r.body with
  | .insert value rid tableName =>
    match tableOf tableName with
    | none => .ok s
    | some t => do
      let s ← s.withFile t ((s.fhs t).putRecord rid value)
      .ok (s.insertEntries db t value rid)
  | .delete value rid tableName _ _ =>
    match tableOf tableName with
    | none => .ok s
    | some t => do
      let s ← s.withFile t ((s.fhs t).ifFound ((s.fhs t).deleteRecord rid))
      .ok (s.deleteEntries db t value)
  | .update old new rid tableName _ _ =>
    match tableOf tableName with
    | none => .ok s
    | some t => do
      let s ← s.withFile t ((s.fhs t).ifFound ((s.fhs t).updateRecord rid new))
      .ok (s.moveEntries db t old new rid)
  | .begin | .commit | .abort | .checkpoint => .ok s

/-- The case of a record in `undo`. A record of a table that does not exist is not taken from the list, and the loop looks at
    it for ever; the empty name, which the code checks first, is the name of no table. -/
def undoRecord (s : Store T I) (r : LogEntry) : Except RecoveryError (Store T I) :=
  match r.body with
  | .insert value rid tableName =>
    match tableOf tableName with
    | none => .error .diverged
    | some t => do
      let s ← s.withFile t ((s.fhs t).deleteRecord rid)
      .ok (s.deleteEntries db t value)
  | .delete value rid tableName _ _ =>
    match tableOf tableName with
    | none => .error .diverged
    | some t => do
      let s ← s.withFile t ((s.fhs t).putRecord rid value)
      .ok (s.insertEntries db t value rid)
  | .update old new rid tableName _ _ =>
    match tableOf tableName with
    | none => .error .diverged
    | some t => do
      let s ← s.withFile t ((s.fhs t).updateRecord rid old)
      .ok (s.moveEntries db t new old rid)
  | .begin | .commit | .abort | .checkpoint => .ok s

end Store

/-- The buffer into which `redo` and `undo` read the record with an LSN. -/
def Analysis.recordBytes (m : Analysis) (file : Bytes) (lsn : Int) : Bytes :=
  let len := (m.lsnLen lsn).getD 0
  match readLog file len ((m.lsnOffset lsn).getD 0) with
  | .ok b => b ++ List.replicate (len - b.length) 0
  | .error _ => List.replicate len 0

/-- A record with an LSN, for a type that has a case. -/
def Analysis.record (m : Analysis) (file : Bytes) (lsn : Int) : Option LogEntry := LogEntry.deserialize (m.recordBytes file lsn)

namespace Store
variable {T I : Type} [DecidableEq T] [DecidableEq I] (db : Schema T I) (tableOf : Bytes → Option T)

def redo (m : Analysis) (file : Bytes) (s : Store T I) : Except RecoveryError (Store T I) :=
  m.redoList.foldlM (fun s lsn => match m.record file lsn with
    | some r => s.redoRecord db tableOf r
    | none => .ok s) s

/-- The lists of the transactions are undone from their ends. -/
def undo (m : Analysis) (file : Bytes) (s : Store T I) : Except RecoveryError (Store T I) :=
  (m.undoMap.flatMap (·.2.reverse)).foldlM (fun s lsn => match m.record file lsn with
    | some r => s.undoRecord db tableOf r
    | none => .ok s) s

end Store
end Rmdb
