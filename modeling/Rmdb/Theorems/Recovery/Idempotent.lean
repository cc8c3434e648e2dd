import Rmdb.Theorems.Recovery.Replay
import Rmdb.Theorems.Recovery.Analyze
import Rmdb.Theorems.Txn.Isolation
import Mathlib.Data.List.Nodup

/-! Recovery from the result of a recovery with the same log changes no record and no key. -/

namespace Rmdb
open Runs

section
variable {file : Bytes} {rs : List LogEntry}

theorem Visible.analyze (h : Visible file rs) : analyze file = .ok (.of rs) := by
  obtain ⟨torn, htorn, hread⟩ := h.read
  simp only [Rmdb.analyze, scanLog_records h.fits htorn hread h.size, bind, Except.bind]
  rfl

/-- A record is read back under its LSN. -/
theorem Visible.record (h : Visible file rs) {r : LogEntry} (hr : r ∈ rs) : (Analysis.of rs).record file r.lsn = some r := by
  obtain ⟨A, B, rfl⟩ := List.append_of_mem hr
  obtain ⟨torn, htorn, hread⟩ := h.read
  obtain ⟨hoff, hlen⟩ := Analysis.foldl_see_at h.nodup .empty
  have hfits : r.Fits := h.fits r (by simp)
  have hbytes : (readable file).drop (A.flatMap (·.serialize)).length = r.serialize ++ (B.flatMap (·.serialize) ++ torn) := by
    rw [hread, List.flatMap_append, List.append_assoc, List.drop_left, List.flatMap_cons, List.append_assoc]
  have hle : (A.flatMap (·.serialize)).length ≤ (readable file).length := by
    rw [hread, List.flatMap_append, List.append_assoc, List.length_append]
    exact Nat.le_add_right _ _
  have hrecord : (Analysis.of (A ++ r :: B)).recordBytes file r.lsn = r.serialize := by
    unfold Analysis.recordBytes Analysis.of
    simp only [hoff, hlen, Option.getD_some, readLog_eq h.size hle, hbytes]
    rw [← r.serialize_length, List.take_left, Nat.sub_self]
    simp
  have hback := hfits.deserialize []
  rw [List.append_nil] at hback
  rw [Analysis.record, hrecord, hback]

end

namespace Store
variable {T I : Type} [DecidableEq T] [DecidableEq I] {db : Schema T I} {tableOf : Bytes → Option T}
variable {file : Bytes} {rs : List LogEntry}

end Store
/-! ### What a replay does to a slot and to a key -/

namespace LogEntry
variable {T I : Type} [DecidableEq T] [DecidableEq I] {db : Schema T I} (tableOf : Bytes → Option T)

/-- The position that the record is about. -/
def target? (r : LogEntry) : Option (T × Rid) := (r.redoWork? tableOf).map fun w => (w.tab, w.rid)

def IsInsert (r : LogEntry) : Prop := ∃ value rid tableName, r.body = .insert value rid tableName

variable {tableOf} {r : LogEntry} {w : Work T}

end LogEntry

namespace Work
variable {T I : Type} [DecidableEq T] [DecidableEq I] {db : Schema T I}

end Work

namespace Store
variable {T I : Type} [DecidableEq T] [DecidableEq I] {db : Schema T I} {tableOf : Bytes → Option T}
variable {file torn : Bytes} {rs undone : List LogEntry} {s s' : Store T I}

/-- The first record of the log for a position inserts there, or the position is occupied. -/
def FirstInserts (tableOf : Bytes → Option T) (rs : List LogEntry) (s : Store T I) : Prop :=
  ∀ c r, rs.find? (fun r => r.target? tableOf = some c) = some r → r.IsInsert ∨ (s.look c).isSome = true

omit [DecidableEq I] in
theorem FirstInserts.take (h : FirstInserts tableOf rs s) (k : Nat) : FirstInserts tableOf (rs.take k) s := by
  intro c r hfind
  refine h c r ?_
  rw [← List.take_append_drop k rs, List.find?_append, hfind]
  rfl

/-- The files and indexes of a new database. -/
def fresh (db : Schema T I) : Store T I := ⟨fun t => RmFile.create (db.recordSize t), fun _ => none⟩

end Store
end Rmdb
