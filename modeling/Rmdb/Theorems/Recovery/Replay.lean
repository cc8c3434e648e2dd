import Rmdb.Theorems.Record.Pages
import Rmdb.Lib.Slots
import Rmdb.Lib.Runs

/-! What redo and undo do: a record of the log is work on one slot of a table and on keys of its indexes. -/

namespace Rmdb
open Runs

/-- The work of recovery for a record: an operation on a slot, and the records that leave and enter the indexes. -/
structure Work (T : Type) where
  tab : T
  rid : Rid
  slot : Slots.Op Bytes
  leaves : Option Bytes
  enters : Option Bytes

namespace RmFile
variable {f g : RmFile} {n : Nat} {rid : Rid} {op : Slots.Op Bytes} {v : Option Bytes}

/-- A file reaches to the page of a record that is put into it. -/
def Reaches (f : RmFile) (rid : Rid) : Slots.Op Bytes → Prop
  | .put _ => 1 ≤ rid.pageNo ∧ rid.pageNo ≤ f.numPages
  | .set _ | .clear | .take | .restore _ => True

/-- A longer file reaches at least as far, and stays the longer one. -/
theorem Reaches.mono {f' : RmFile} (hle : f.numPages ≤ f'.numPages) (h : f.Reaches rid op) : f'.Reaches rid op := by
  cases op with
  | put v => exact ⟨h.1, Int.le_trans h.2 hle⟩
  | set v => trivial
  | clear => trivial
  | take => trivial
  | restore v => trivial

end RmFile

namespace Store
variable {T I : Type} [DecidableEq T] [DecidableEq I] (db : Schema T I)

end Store

namespace LogEntry
variable {T I : Type} [DecidableEq T] [DecidableEq I] {db : Schema T I} (tableOf : Bytes → Option T)

/-- The work of `redo` for a record. -/
def redoWork? (r : LogEntry) : Option (Work T) :=
  match r.body with
  | .insert value rid tableName => (tableOf tableName).map fun t => ⟨t, rid, .put value, none, some value⟩
  | .delete value rid tableName _ _ => (tableOf tableName).map fun t => ⟨t, rid, .clear, some value, none⟩
  | .update old new rid tableName _ _ => (tableOf tableName).map fun t => ⟨t, rid, .set new, some old, some new⟩
  | .begin | .commit | .abort | .checkpoint => none

/-- The work of `undo` for a record. -/
def undoWork? (r : LogEntry) : Option (Work T) :=
  match r.body with
  | .insert value rid tableName => (tableOf tableName).map fun t => ⟨t, rid, .take, some value, none⟩
  | .delete value rid tableName _ _ => (tableOf tableName).map fun t => ⟨t, rid, .put value, none, some value⟩
  | .update old new rid tableName _ _ => (tableOf tableName).map fun t => ⟨t, rid, .restore old, some new, some old⟩
  | .begin | .commit | .abort | .checkpoint => none

/-- The table of the record exists. -/
def OnTable (r : LogEntry) : Prop :=
  match r.body with
  | .insert _ _ tableName | .delete _ _ tableName _ _ | .update _ _ _ tableName _ _ => (tableOf tableName).isSome = true
  | .begin | .commit | .abort | .checkpoint => True

end LogEntry

namespace Work
variable {T I : Type} [DecidableEq T] [DecidableEq I] (db : Schema T I)

/-- The operations of the work on a slot. -/
def onSlot (w : Work T) (c : T × Rid) : List (Slots.Op Bytes) := if c = (w.tab, w.rid) then [w.slot] else []

/-- The operations of the work on a key of an index. -/
def onIndex (w : Work T) (k : I × Bytes) (i : I) : List (Slots.Op Rid) :=
  (w.leaves.elim [] fun old => if k = (i, db.key i old) then [.clear] else []) ++
    w.enters.elim [] fun new => if k = (i, db.key i new) then [.put w.rid] else []

def onKey (w : Work T) (k : I × Bytes) : List (Slots.Op Rid) := (db.indexes w.tab).flatMap (w.onIndex db k)

end Work

namespace Store
variable {T I : Type} [DecidableEq T] [DecidableEq I] {db : Schema T I}

/-- The record at a position of a table. -/
def look (s : Store T I) (c : T × Rid) : Option Bytes := (s.fhs c.1).lookup c.2

/-- The table files as they are opened. -/
def Opened (db : Schema T I) (s : Store T I) : Prop := ∀ t, (s.fhs t).Paged (db.perPage t)

/-- What work does to a store. -/
structure Worked (db : Schema T I) (ws : List (Work T)) (s s' : Store T I) : Prop where
  opened : Opened db s'
  look : ∀ c, Slots.run (ws.flatMap (·.onSlot c)) (s.look c) = some (s'.look c)
  ihs : ∀ k, Slots.run (ws.flatMap (·.onKey db k)) (s.ihs k) = some (s'.ihs k)

theorem Worked.cons {w : Work T} {ws : List (Work T)} {s s₁ s₂ : Store T I} (h₁ : Worked db [w] s s₁) (h₂ : Worked db ws s₁ s₂) :
    Worked db (w :: ws) s s₂ where
  opened := h₂.opened
  look c := by
    have := h₁.look c
    rw [List.flatMap_singleton] at this
    rw [List.flatMap_cons, Slots.run_append, this, Option.bind_some, h₂.look]
  ihs k := by
    have := h₁.ihs k
    rw [List.flatMap_singleton] at this
    rw [List.flatMap_cons, Slots.run_append, this, Option.bind_some, h₂.ihs]

end Store
end Rmdb
