import Rmdb.Recovery.Log
import Rmdb.Record.File
import Mathlib.Logic.Function.Basic

/-! The log beside the pages of the tables: what statements, the ends of transactions, the buffer pool and the log manager do
to the pages in memory, the pages on disk and the log.

A statement is a sequence of calls of the record layer with the context of its transaction; the rollback of a transaction
calls it without one (`rollback_single_operation`). Nothing orders the writes of pages and of the log. -/

namespace Rmdb

/-- The table files in memory, their pages on disk, and the log. -/
structure Wal (T : Type) where
  fhs : T → RmFile
  disk : T × Int → Option RmPage
  log : LogManager

/-- A step of the server. A call of the record layer with a context is one of the transaction in it. -/
inductive WalAct (T : Type) where
  | begin (id : Int)
  | insertRecord (context : Option Int) (t : T) (buf : Bytes)
  | insertRecordAt (t : T) (rid : Rid) (buf : Bytes)
  | deleteRecord (context : Option Int) (t : T) (rid : Rid)
  | updateRecord (context : Option Int) (t : T) (rid : Rid) (buf : Bytes)
  | commit (id : Int)
  | abort (id : Int)
  /-- The buffer pool writes a page: `update_page`, `flush_page` or `flush_all_pages`. -/
  | writePage (t : T) (p : Int)
  | flushLog
deriving DecidableEq, Repr

/-- What a step leads to: the state, the log record it added and the page it changed. -/
structure WalStep (T : Type) where
  state : Wal T
  entry : Option LogEntry
  page : Option (T × Int)

namespace Wal
variable {T : Type} [DecidableEq T] (name : T → Bytes)

/-- `add_log_to_buffer`. The records of the record layer and of transactions have no `prev_lsn_`. -/
def addLog (s : Wal T) (id : Int) (body : LogBody) : Wal T × Option LogEntry :=
  ({ s with log := s.log.addLogToBuffer id (-1) body }, some (s.log.nextEntry id (-1) body))

/-- A call without a context is not logged. -/
def addLogIf (s : Wal T) (context : Option Int) (body : LogBody) : Wal T × Option LogEntry :=
  match context with
  | some id => s.addLog id body
  | none => (s, none)

/-- A call of the record layer that changed page `p` of table `t`. -/
def changed (s : Wal T) (context : Option Int) (t : T) (p : Int) (f : RmFile) (body : LogBody) : WalStep T :=
  let (s, entry) := { s with fhs := Function.update s.fhs t f }.addLogIf context body
  ⟨s, entry, some (t, p)⟩

/-- A call that raises an exception has changed nothing. -/
def orRaised (s : Wal T) (r : Except RmError (WalStep T)) : Except RmError (WalStep T) :=
  match r with
  | .error (.recordNotFound _ _) | .error .slotOccupied => .ok ⟨s, none, none⟩
  | r => r

def perform (s : Wal T) : WalAct T → Except RmError (WalStep T)
  | .begin id => .ok ⟨(s.addLog id .begin).1, (s.addLog id .begin).2, none⟩
  | .insertRecord context t buf => s.orRaised do
    let (f, rid) ← (s.fhs t).insertRecord buf
    .ok (s.changed context t rid.pageNo f (.insert buf rid (name t)))
  | .insertRecordAt t rid buf => s.orRaised do
    let f ← (s.fhs t).insertRecordAt rid buf
    .ok (s.changed none t rid.pageNo f (.insert buf rid (name t)))
  | .deleteRecord context t rid => s.orRaised do
    let old ← (s.fhs t).getRecord rid
    let f ← (s.fhs t).deleteRecord rid
    .ok (s.changed context t rid.pageNo f (.delete old rid (name t) (-1) (-1)))
  | .updateRecord context t rid buf => s.orRaised do
    let old ← (s.fhs t).getRecord rid
    let f ← (s.fhs t).updateRecord rid buf
    .ok (s.changed context t rid.pageNo f (.update old buf rid (name t) (-1) (-1)))
  | .commit id => .ok ⟨(s.addLog id .commit).1, (s.addLog id .commit).2, none⟩
  | .abort id => .ok ⟨(s.addLog id .abort).1, (s.addLog id .abort).2, none⟩
  | .writePage t p => .ok ⟨{ s with disk := Function.update s.disk (t, p) ((s.fhs t).pages p) }, none, none⟩
  | .flushLog => .ok ⟨{ s with log := s.log.flushLogToDisk }, none, none⟩

def step (s : Wal T) (a : WalAct T) : Except RmError (Wal T) := (s.perform name a).map (·.state)

/-- A server on new tables with records of the given sizes, and an empty log. -/
def init (recordSize : T → Nat) : Wal T := ⟨fun t => RmFile.create (recordSize t), fun _ => none, .init []⟩

end Wal
end Rmdb
