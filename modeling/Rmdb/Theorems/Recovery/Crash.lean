import Rmdb.Theorems.Recovery.Idempotent
import Rmdb.Lib.RedoUndo

/-! Recovery after a crash gives the rows and keys that the committed transactions have written.

A position and a key see a log as changes of one slot (`slotChange?`, `keyChange?`). Where transactions wait for each other
at their positions and keys, the changes to take back are the last ones there, and they are of one transaction. -/

namespace Rmdb
open Runs RedoUndo

/-! ### What a record changes -/

/-- A change of the record at a position. -/
structure RowChange (T : Type) where
  tab : T
  rid : Rid
  change : Change Bytes

namespace RowChange
variable {T I : Type} (x : RowChange T)

/-- The work of `redo`. -/
def redoWork : Work T :=
  match x.change with
  | .insert value => ⟨x.tab, x.rid, .put value, none, some value⟩
  | .remove value => ⟨x.tab, x.rid, .clear, some value, none⟩
  | .replace old new => ⟨x.tab, x.rid, .set new, some old, some new⟩

/-- The work of `undo`. -/
def undoWork : Work T :=
  match x.change with
  | .insert value => ⟨x.tab, x.rid, .take, some value, none⟩
  | .remove value => ⟨x.tab, x.rid, .put value, none, some value⟩
  | .replace old new => ⟨x.tab, x.rid, .restore old, some new, some old⟩

@[simp] theorem redoWork_tab : x.redoWork.tab = x.tab := by
  unfold redoWork
  cases x.change <;> rfl

@[simp] theorem redoWork_rid : x.redoWork.rid = x.rid := by
  unfold redoWork
  cases x.change <;> rfl

@[simp] theorem undoWork_tab : x.undoWork.tab = x.tab := by
  unfold undoWork
  cases x.change <;> rfl

@[simp] theorem undoWork_rid : x.undoWork.rid = x.rid := by
  unfold undoWork
  cases x.change <;> rfl

variable [DecidableEq T] [DecidableEq I] (db : Schema T I)

/-- The change at a position. -/
def at? (c : T × Rid) : Option (Change Bytes) := if c = (x.tab, x.rid) then some x.change else none

end RowChange

namespace LogEntry
variable {T I : Type} [DecidableEq T] [DecidableEq I] (db : Schema T I) (tableOf : Bytes → Option T)

/-- What the record changes in a table that exists. -/
def rowChange? (r : LogEntry) : Option (RowChange T) :=
  match r.body with
  | .insert value rid tableName => (tableOf tableName).map fun t => ⟨t, rid, .insert value⟩
  | .delete value rid tableName _ _ => (tableOf tableName).map fun t => ⟨t, rid, .remove value⟩
  | .update old new rid tableName _ _ => (tableOf tableName).map fun t => ⟨t, rid, .replace old new⟩
  | .begin | .commit | .abort | .checkpoint => none

/-- What the record changes at a position. -/
def slotChange? (c : T × Rid) (r : LogEntry) : Option (Change Bytes) := (r.rowChange? tableOf).bind (·.at? c)

omit [DecidableEq T] in
theorem redoWork_eq (r : LogEntry) : r.redoWork? tableOf = (r.rowChange? tableOf).map (·.redoWork) := by
  unfold redoWork? rowChange?
  cases r.body <;> first | rfl | (dsimp only; rw [Option.map_map]; rfl)

omit [DecidableEq T] in
theorem undoWork_eq (r : LogEntry) : r.undoWork? tableOf = (r.rowChange? tableOf).map (·.undoWork) := by
  unfold undoWork? rowChange?
  cases r.body <;> first | rfl | (dsimp only; rw [Option.map_map]; rfl)

end LogEntry

/-! ### What is taken back -/

section
variable {rs : List LogEntry}

/-- The records of transactions that end, and those of transactions that do not. -/
abbrev ended (rs : List LogEntry) : List LogEntry := settled (·.logTid) IsEnd rs

abbrev running (rs : List LogEntry) : List LogEntry := pending (·.logTid) IsEnd rs

theorem unfinished_eq (tid : Int) (rs : List LogEntry) :
    unfinished tid rs = (running rs).filter fun r => r.logTid = tid && !IsEnd r := by
  induction rs with
  | nil => rfl
  | cons r rs ih =>
    unfold unfinished running pending
    by_cases hended : Ended (·.logTid) IsEnd rs r
    · rw [if_pos hended, if_neg, ih]
      rintro ⟨htid, -, hnone⟩
      obtain ⟨e, he, hwriter, hend⟩ := hended
      exact hnone ⟨e, he, hwriter.trans htid, hend⟩
    · rw [if_neg hended, ih]
      by_cases hr : r.logTid = tid ∧ (!IsEnd r) = true
      · have hnone : ¬∃ r' ∈ rs, r'.logTid = tid ∧ IsEnd r' = true := by
          rintro ⟨e, he, htid, hend⟩
          exact hended ⟨e, he, htid.trans hr.1.symm, hend⟩
        rw [if_pos ⟨hr.1, hr.2, hnone⟩, List.filter_cons_of_pos (by simpa using hr)]
      · rw [if_neg fun h => hr ⟨h.1, h.2.1⟩, List.filter_cons_of_neg (by simpa using hr)]

/-- The records that `undo` takes back, from the last one of each transaction on. -/
def undone (rs : List LogEntry) : List LogEntry := (Analysis.of rs).undoMap.flatMap fun x => (unfinished x.1 rs).reverse

theorem mem_undone {r : LogEntry} (h : r ∈ undone rs) : r ∈ rs := by
  obtain ⟨x, -, hr⟩ := List.mem_flatMap.mp h
  rw [List.mem_reverse, unfinished_eq] at hr
  obtain ⟨A, B, rfl, -⟩ := mem_pending (List.mem_of_mem_filter hr)
  exact List.mem_append_right _ List.mem_cons_self

end

section
variable {V : Type} {f : LogEntry → Option (Change V)} {rs : List LogEntry}

/-- The records touch a position or a key in the order of their transactions. -/
abbrev StrictAt (f : LogEntry → Option (Change V)) (rs : List LogEntry) : Prop :=
  Strict (·.logTid) IsEnd (fun r => (f r).isSome) rs

end

/-! ### Work that can be done -/

namespace Store
variable {T I : Type} [DecidableEq T] [DecidableEq I] {db : Schema T I} {s s' : Store T I} {ws : List (Work T)}

/-- The work puts a record into its slot. -/
def Puts (w : Work T) : Prop := ∃ v, w.slot = .put v

end Store

/-! ### Recovery -/

/-- The first end of the record's transaction in the records behind it. -/
def endOf (rest : List LogEntry) (r : LogEntry) : Option LogEntry := rest.find? fun e => e.logTid = r.logTid && IsEnd e

/-- The records of transactions that commit. -/
def committed : List LogEntry → List LogEntry
  | [] => []
  | r :: rs => if (endOf rs r).any (·.body = .commit) then r :: committed rs else committed rs

section
variable {T I : Type} [DecidableEq T] [DecidableEq I] (db : Schema T I) (tableOf : Bytes → Option T)

/-- The log of transactions over the rows that were there before them. Every change finds what the one before it at its position
has left. A transaction changes what another one has changed only behind the end of that one, and only transactions without
changes abort. -/
structure StrictLog (rows : T × Rid → Option Bytes) (rs : List LogEntry) : Prop where
  tables : ∀ r ∈ rs, r.OnTable tableOf
  slots : ∀ r ∈ rs, ∀ x, r.rowChange? tableOf = some x → 1 ≤ x.rid.pageNo ∧ RmFile.IsSlotOf (db.perPage x.tab) x.rid
  legal : ∀ c, (Change.inPlace Bytes).Legal (rows c) (rs.filterMap (·.slotChange? tableOf c))
  strict : ∀ c, StrictAt (·.slotChange? tableOf c) rs
  commits : ∀ A r B, rs = A ++ r :: B → (r.rowChange? tableOf).isSome = true → ∀ e, endOf B r = some e → e.body = .commit

/-- Files of some numbers of pages reach to every record that is inserted: its page is in the file or behind the last page so far. -/
def Grown (pages : T → Int) (rs : List LogEntry) : Prop :=
  ∀ A r B x, rs = A ++ r :: B → r.rowChange? tableOf = some x → x.change.before = none →
    x.rid.pageNo ≤ pages x.tab ∨ ∃ r' ∈ A, ∃ x', r'.rowChange? tableOf = some x' ∧ x'.change.before = none ∧
      x'.tab = x.tab ∧ x.rid.pageNo ≤ x'.rid.pageNo + 1

/-- What a crash leaves of the table files: every position is as it was after some of its changes. -/
structure CrashState (rows : T × Rid → Option Bytes) (rs : List LogEntry) (s : Store T I) : Prop where
  opened : Store.Opened db s
  atRows : ∀ c, ∃ n, s.look c = (Change.inPlace Bytes).ends (rows c) ((rs.filterMap (·.slotChange? tableOf c)).take n)
  kept : ∀ c, (rows c).isSome = true → c.2.pageNo < (s.fhs c.1).numPages
  grown : Grown tableOf (fun t => (s.fhs t).numPages) rs

variable {db} {tableOf}

omit [DecidableEq T] [DecidableEq I] in
/-- A value that is changed was there before the log or was inserted in it. -/
theorem legal_before {V : Type} {x : Option V} {cs : List (Change V)} (h : (Change.inPlace V).Legal x cs) {c : Change V}
    (hc : c ∈ cs) (hsome : c.before.isSome = true) : x.isSome = true ∨ ∃ v, .insert v ∈ cs := by
  induction cs generalizing x with
  | nil => cases hc
  | cons d cs ih =>
    obtain ⟨hd, hrest⟩ := h
    rcases List.mem_cons.mp hc with rfl | hc
    · exact .inl (hd ▸ hsome)
    · rcases ih hrest hc with hafter | ⟨v, hv⟩
      · cases d with
        | insert v => exact .inr ⟨v, List.mem_cons_self⟩
        | remove v => cases hafter
        | replace old new => exact .inl (hd ▸ rfl)
      · exact .inr ⟨v, List.mem_cons_of_mem _ hv⟩

variable {rows : T × Rid → Option Bytes} {entries : I × Bytes → Option Rid} {rs : List LogEntry} {s : Store T I}

theorem mem_slotChange {r : LogEntry} {x : RowChange T} (hr : r ∈ rs) (hx : r.rowChange? tableOf = some x) :
    x.change ∈ rs.filterMap (·.slotChange? tableOf (x.tab, x.rid)) := by
  refine List.mem_filterMap.mpr ⟨r, hr, ?_⟩
  rw [LogEntry.slotChange?, hx, Option.bind_some, RowChange.at?, if_pos rfl]

theorem slotChange_mem {c : T × Rid} {change : Change Bytes} (h : change ∈ rs.filterMap (·.slotChange? tableOf c)) :
    ∃ r ∈ rs, r.rowChange? tableOf = some ⟨c.1, c.2, change⟩ := by
  obtain ⟨r, hr, hchange⟩ := List.mem_filterMap.mp h
  rw [LogEntry.slotChange?, Option.bind_eq_some_iff] at hchange
  obtain ⟨x, hx, hat⟩ := hchange
  unfold RowChange.at? at hat
  split at hat
  · next hc =>
    cases hat
    exact ⟨r, hr, by rw [hx, hc]⟩
  · cases hat

omit [DecidableEq T] in
theorem redoWork_puts {x : RowChange T} : Store.Puts x.redoWork ↔ x.change.before = none := by
  obtain ⟨t, rid, change⟩ := x
  cases change <;> simp [Store.Puts, RowChange.redoWork, Change.before]

omit [DecidableEq T] in
theorem undoWork_puts {x : RowChange T} (h : Store.Puts x.undoWork) : x.change.before.isSome = true := by
  obtain ⟨t, rid, change⟩ := x
  obtain ⟨value, hvalue⟩ := h
  cases change with
  | insert v => cases hvalue
  | remove v => rfl
  | replace old new => cases hvalue

omit [DecidableEq I] in
/-- The files reach to every record that is put into them, while the log is replayed and while changes are taken back. -/
theorem CrashState.reach (hs : CrashState db tableOf rows rs s) (h : StrictLog db tableOf rows rs)
    {A B : List (Work T)} {w : Work T}
    (hsplit : rs.filterMap (·.redoWork? tableOf) ++ (undone rs).filterMap (·.undoWork? tableOf) = A ++ w :: B)
    (hput : Store.Puts w) : 1 ≤ w.rid.pageNo ∧ (w.rid.pageNo ≤ (s.fhs w.tab).numPages ∨
      ∃ w' ∈ A, Store.Puts w' ∧ w'.tab = w.tab ∧ w.rid.pageNo ≤ w'.rid.pageNo + 1) := by
  have hundo : ∀ A', A = rs.filterMap (·.redoWork? tableOf) ++ A' → w ∈ (undone rs).filterMap (·.undoWork? tableOf) →
      1 ≤ w.rid.pageNo ∧ (w.rid.pageNo ≤ (s.fhs w.tab).numPages ∨
        ∃ w' ∈ A, Store.Puts w' ∧ w'.tab = w.tab ∧ w.rid.pageNo ≤ w'.rid.pageNo + 1) := by
    rintro A' rfl hw
    obtain ⟨r, hr, hrw⟩ := List.mem_filterMap.mp hw
    rw [LogEntry.undoWork_eq, Option.map_eq_some_iff] at hrw
    obtain ⟨x, hx, rfl⟩ := hrw
    have hmem := mem_undone hr
    rw [RowChange.undoWork_tab, RowChange.undoWork_rid]
    refine ⟨(h.slots r hmem x hx).1, ?_⟩
    -- the record was there before the log, or it was inserted in it
    rcases legal_before (h.legal (x.tab, x.rid)) (mem_slotChange hmem hx) (undoWork_puts hput) with hrow | ⟨v, hv⟩
    · exact .inl (Int.le_of_lt (hs.kept _ hrow))
    · obtain ⟨r', hr', hx'⟩ := slotChange_mem hv
      refine .inr ⟨RowChange.redoWork ⟨x.tab, x.rid, .insert v⟩, List.mem_append_left _ (List.mem_filterMap.mpr ⟨r', hr', ?_⟩),
        redoWork_puts.mpr rfl, rfl, ?_⟩
      · rw [LogEntry.redoWork_eq, hx', Option.map_some]
      · show x.rid.pageNo ≤ x.rid.pageNo + 1
        omega
  rcases List.append_eq_append_iff.mp hsplit with ⟨A', hA, hB⟩ | ⟨C, hC, hB⟩
  · exact hundo A' hA (by rw [hB]; simp)
  · cases C with
    | nil =>
      have hw : w ∈ [] ++ (undone rs).filterMap (·.undoWork? tableOf) := hB ▸ List.mem_cons_self
      exact hundo [] (by simpa using hC.symm) hw
    | cons w' C =>
      obtain ⟨rfl, -⟩ := List.cons.inj hB
      obtain ⟨rs₁, rs₂, rfl, rfl, hrs₂⟩ := List.filterMap_eq_append_iff.mp hC
      obtain ⟨rs₃, r, rs₄, rfl, hnone, hrw, -⟩ := List.filterMap_eq_cons_iff.mp hrs₂
      rw [LogEntry.redoWork_eq, Option.map_eq_some_iff] at hrw
      obtain ⟨x, hx, rfl⟩ := hrw
      rw [RowChange.redoWork_tab, RowChange.redoWork_rid]
      refine ⟨(h.slots r (by simp) x hx).1, ?_⟩
      rcases hs.grown (rs₁ ++ rs₃) r rs₄ x (by simp) hx (redoWork_puts.mp hput) with hle | ⟨r', hr', x', hx', hnew, htab, hle⟩
      · exact .inl hle
      · refine .inr ⟨x'.redoWork, ?_, redoWork_puts.mpr hnew, by simpa using htab, by simpa using hle⟩
        have hr'w : r'.redoWork? tableOf = some x'.redoWork := by rw [LogEntry.redoWork_eq, hx', Option.map_some]
        rcases List.mem_append.mp hr' with hr' | hr'
        · exact List.mem_filterMap.mpr ⟨r', hr', hr'w⟩
        · rw [hnone r' hr'] at hr'w
          cases hr'w

end

/-! ### A crash in an update -/

end Rmdb
