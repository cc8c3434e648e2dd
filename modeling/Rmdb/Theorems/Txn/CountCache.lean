import Rmdb.Txn.CountCache
import Rmdb.Theorems.Exec.LoadRows
import Rmdb.Theorems.Txn.Isolation

/-! When the cached number of records is right. A LOAD counts its own rows, so it has to find the table empty; from then on nothing
but an INSERT can change the number of rows before the cache is invalid, for an `abort` only removes rows that an INSERT put there. -/

namespace Rmdb

/-! ### Rows -/

theorem countP_range (l : List (Option Bytes)) :
    (List.range l.length).countP (fun i => (l[i]?.getD none).isSome) = l.countP (·.isSome) := by
  have hmap : (List.range l.length).map (fun i => l[i]?.getD none) = l := by
    refine List.ext_getElem (by simp) fun i h₁ h₂ => ?_
    rw [List.getElem_map, List.getElem_range, List.getElem?_eq_getElem h₂, Option.getD_some]
  conv => rhs; rw [← hmap, List.countP_map]
  rfl

namespace Db
open RmFile
variable {T I : Type} {s u v : Db T I} {t : T}

theorem length_rmScan (h : Shaped (s.fhs t)) : (s.rmScan t).length = (s.fhs t).held := by
  rw [rmScan, List.length_flatMap, held]
  refine congrArg List.sum (List.map_congr_left fun p _ => ?_)
  rw [← List.countP_eq_length_filter, List.countP_map]
  cases hp : (s.fhs t).pages p with
  | none =>
    have hnone : (s.fhs t).slotsOf p = [] := by rw [slotsOf, hp]; rfl
    rw [hnone]
    refine List.countP_eq_zero.mpr fun n _ => ?_
    simp only [Function.comp_apply, row, lookup_nat, hnone, List.getElem?_nil, Option.getD_none, Option.isSome_none, Bool.false_eq_true,
      not_false_eq_true]
  | some page =>
    rw [← countP_range, h.slotsOf_length hp]
    refine List.countP_congr fun n _ => ?_
    simp only [Function.comp_apply, row, lookup_nat]

/-- A statement does nothing, or it runs. -/
theorem statement_cases {id : Int} {next : Db T I → Except RmError (Db T I × Option Raised)} (h : s.statement id next = .ok u) :
    (u = s ∧ s.runsToEnd id next = false) ∨
      ∃ x r, s.txnMap id = some x ∧ next (s.setTransaction id x) = .ok r ∧ u = Db.afterStatement id r ∧ s.runsToEnd id next = r.2.isNone := by
  rw [Db.statement, withTxn] at h
  rw [runsToEnd]
  cases hx : s.txnMap id with
  | none =>
    rw [hx] at h
    cases h
    exact Or.inl ⟨rfl, rfl⟩
  | some x =>
    rw [hx] at h
    dsimp only at h ⊢
    split at h
    · next hmust =>
      cases h
      exact Or.inl ⟨rfl, if_pos hmust⟩
    · next hmust =>
      rw [if_neg hmust]
      split at h
      · next r hr =>
        cases h
        refine Or.inr ⟨x, r, rfl, hr, rfl, ?_⟩
        rw [hr]
        obtain ⟨v, e⟩ := r
        cases e with
        | none => rfl
        | some e => rfl
      · cases h

theorem foldl_insertEntry [DecidableEq I] {db : Schema T I} (i : I) (rows : List Loaded) (s : Db T I) :
    (rows.foldl (fun s r => s.insertEntry db i (db.keyBytes i r.2) r.1) s).fhs = s.fhs ∧
      (rows.foldl (fun s r => s.insertEntry db i (db.keyBytes i r.2) r.1) s).txnMap = s.txnMap := by
  induction rows generalizing s with
  | nil => exact ⟨rfl, rfl⟩
  | cons r rows ih => exact ih _

theorem batchInsertIndex_keeps [DecidableEq I] {db : Schema T I} {tab : T} {rows : List Loaded} (h : Db.batchInsertIndex db tab s rows = .ok u) :
    u.fhs = s.fhs ∧ u.txnMap = s.txnMap := by
  rw [Db.batchInsertIndex] at h
  split at h
  · cases h
    exact ⟨rfl, rfl⟩
  · cases h
    exact foldl_insertEntry _ _ _

/-! ### Insertions that may be undone -/

/-- The table has the records where it had them, but for some rows. -/
structure Undone (t : T) (rids : List Rid) (s u : Db T I) : Prop where
  shaped : Shaped (s.fhs t) → Shaped (u.fhs t) ∧ (rids = [] → (u.fhs t).held = (s.fhs t).held)
  rows : Shaped (s.fhs t) → ∀ r, r ∉ rids → (u.row t r).isSome = (s.row t r).isSome
  txns : u.txnMap = s.txnMap

theorem Undone.of_fhs {rids : List Rid} (hfhs : u.fhs t = s.fhs t) (htxns : u.txnMap = s.txnMap) : Undone t rids s u where
  shaped hs := by rw [hfhs]; exact ⟨hs, fun _ => rfl⟩
  rows _ r _ := by rw [Db.row, Db.row, hfhs]
  txns := htxns

theorem Undone.trans {rids rids' : List Rid} (h : Undone t rids s u) (h' : Undone t rids' u v) : Undone t (rids' ++ rids) s v where
  shaped hs := by
    obtain ⟨hshaped, hheld⟩ := h.shaped hs
    refine ⟨(h'.shaped hshaped).1, fun hnil => ?_⟩
    obtain ⟨h₁, h₂⟩ := List.append_eq_nil_iff.mp hnil
    rw [(h'.shaped hshaped).2 h₁, hheld h₂]
  rows hs r hr := by
    rw [List.mem_append, not_or] at hr
    rw [h'.rows (h.shaped hs).1 r hr.1, h.rows hs r hr.2]
  txns := h'.txns.trans h.txns

variable [DecidableEq T]

/-- The row that a write record inserted into the table. -/
def insertedRow (t : T) : WriteRecord T I → Option Rid
  | .insertTuple u rid _ => if u = t then some rid else none
  | .updateTuple .. | .deleteTuple .. | .ixInsertTuple .. | .ixDeleteTuple .. => none

/-- The rows of the table that an active transaction inserted. -/
def insertedRows (s : Db T I) (t : T) (id : Int) : List Rid := (s.writes id).filterMap (insertedRow t)

/-- The table has the records where it had them, and no transaction has inserted more. -/
structure SameRows (t : T) (s u : Db T I) : Prop where
  shaped : Shaped (s.fhs t) → Shaped (u.fhs t) ∧ (u.fhs t).held = (s.fhs t).held
  rows : Shaped (s.fhs t) → ∀ rid, (u.row t rid).isSome = (s.row t rid).isSome
  insertedRows : ∀ id, u.insertedRows t id ⊆ s.insertedRows t id

theorem SameRows.refl (t : T) (s : Db T I) : SameRows t s s := ⟨fun h => ⟨h, rfl⟩, fun _ _ => rfl, fun _ => List.Subset.refl _⟩

theorem SameRows.trans (h : SameRows t s u) (h' : SameRows t u v) : SameRows t s v where
  shaped hs := ⟨(h'.shaped (h.shaped hs).1).1, (h'.shaped (h.shaped hs).1).2.trans (h.shaped hs).2⟩
  rows hs rid := (h'.rows (h.shaped hs).1 rid).trans (h.rows hs rid)
  insertedRows id := List.Subset.trans (h'.insertedRows id) (h.insertedRows id)

/-- Neither the file nor the write sets change. -/
theorem SameRows.of_eq (hfhs : u.fhs t = s.fhs t) (hwrites : ∀ id, u.insertedRows t id ⊆ s.insertedRows t id) : SameRows t s u where
  shaped hs := by rw [hfhs]; exact ⟨hs, rfl⟩
  rows _ rid := by rw [Db.row, Db.row, hfhs]
  insertedRows := hwrites

theorem insertedRows_modifyTxn {id : Int} {g : Transaction T I → Transaction T I}
    (hg : ∀ x, (g x).writeSet.filterMap (insertedRow t) = x.writeSet.filterMap (insertedRow t)) (j : Int) :
    (s.modifyTxn id g).insertedRows t j = s.insertedRows t j := by
  rw [insertedRows, insertedRows, writes, writes, modifyTxn]
  simp only [Function.update_apply]
  split
  · next hj =>
    rw [hj]
    cases s.txnMap id with
    | none => rfl
    | some x => exact hg x
  · rfl

theorem SameRows.modifyTxn {id : Int} {g : Transaction T I → Transaction T I}
    (hg : ∀ x, (g x).writeSet.filterMap (insertedRow t) = x.writeSet.filterMap (insertedRow t)) : SameRows t s (s.modifyTxn id g) :=
  SameRows.of_eq rfl fun j => by rw [insertedRows_modifyTxn hg j]; exact List.Subset.refl _

theorem SameRows.appendWriteRecord {id : Int} {w : WriteRecord T I} (hw : insertedRow t w = none) : SameRows t s (s.appendWriteRecord id w) :=
  SameRows.modifyTxn fun x => by simp [List.filterMap_append, hw]

/-! ### Updates and deletions -/

theorem SameRows.updateTable {tab : T} {rid : Rid} {f : RmFile} {buf : Bytes} (hf : (s.fhs tab).updateRecord rid buf = .ok f)
    (hfhs : u.fhs = Function.update s.fhs tab f) (htxn : u.txnMap = s.txnMap) : SameRows t s u := by
  have hinserts : ∀ id, u.insertedRows t id ⊆ s.insertedRows t id := fun id => by rw [Db.insertedRows, Db.insertedRows, writes, writes, htxn]; exact List.Subset.refl _
  by_cases ht : t = tab
  · subst ht
    have hfile : u.fhs t = f := by rw [hfhs, Function.update_self]
    refine ⟨fun hs => ?_, fun hs r => ?_, hinserts⟩
    · obtain ⟨hshaped, hheld, -⟩ := hs.updateRecord hf
      rw [hfile]
      exact ⟨hshaped, hheld⟩
    · rw [Db.row, Db.row, hfile]
      exact (hs.updateRecord hf).2.2 r
  · exact SameRows.of_eq (by rw [hfhs, Function.update_of_ne ht]) hinserts

theorem SameRows.deleteRecordMvcc {tab : T} {id : Int} {rid : Rid} (h : s.deleteRecordMvcc id tab rid = some u) : SameRows t s u := by
  obtain ⟨chain, -, h⟩ := Option.bind_eq_some_iff.mp h
  obtain ⟨c, -, h⟩ := Option.bind_eq_some_iff.mp h
  cases h
  exact SameRows.of_eq rfl fun _ => List.Subset.refl _

theorem SameRows.updateRecord {db : Schema T I} {id : Int} {tab : T} {rid : Rid} {buf : Bytes} (h : s.updateRecord db id tab rid buf = .ok u) : SameRows t s u := by
  obtain ⟨old, -, h⟩ := Runs.ok_of_bind h
  obtain ⟨f, hf, h⟩ := Runs.ok_of_bind h
  cases h
  exact SameRows.updateTable hf rfl rfl

theorem SameRows.begin (txnMode : Bool) (s : Db T I) : SameRows t s (s.begin txnMode) := by
  refine SameRows.of_eq rfl fun j => ?_
  rw [Db.insertedRows, Db.insertedRows, writes, writes]
  show ((((Function.update s.txnMap s.nextTxnId (some ⟨.growing, txnMode, s.nextTimestamp, [], [], false⟩)) j).map (·.writeSet)).getD []).filterMap _ ⊆ _
  rw [Function.update_apply]
  split
  · exact List.nil_subset _
  · exact List.Subset.refl _

theorem insertedRows_erase {id : Int} {x : Int → Option (Transaction T I)} (hu : u.txnMap = Function.update x id none) (hx : x = s.txnMap) (j : Int) :
    u.insertedRows t j = if j = id then [] else s.insertedRows t j := by
  rw [Db.insertedRows, Db.insertedRows, writes, writes, hu, hx, Function.update_apply]
  split <;> rfl

theorem SameRows.commitTxn (db : Schema T I) {id : Int} (s : Db T I) (x : Transaction T I) : SameRows t s (s.commitTxn db id x) := by
  refine SameRows.of_eq rfl fun j => ?_
  rw [insertedRows_erase (s := s) (x := s.txnMap) rfl rfl j]
  split
  · exact List.nil_subset _
  · exact List.Subset.refl _

section Statements
variable {db : Schema T I} {id : Int} {rid : Rid}

theorem SameRows.updateRecordMvcc {tab : T} {buf : Bytes} (h : s.updateRecordMvcc db id tab rid buf = .ok (some u)) : SameRows t s u := by
  rw [Db.updateRecordMvcc] at h
  split at h
  · cases h
  · split at h
    · cases h
    · obtain ⟨v, hv, h⟩ := Runs.ok_of_bind h
      cases h
      refine SameRows.trans ?_ (SameRows.updateRecord hv)
      exact SameRows.of_eq rfl fun _ => List.Subset.refl _

theorem SameRows.lockExclusive (id : Int) (tab : T) (rid : Rid) : SameRows t s (s.lockExclusiveOnRecord id tab rid).1 := by
  have habort : SameRows t s (s.modifyTxn id fun x => { x with state := .aborted }) := SameRows.modifyTxn fun x => by rfl
  rw [lockExclusiveOnRecord]
  split
  · exact habort
  · split
    · exact SameRows.refl t s
    · split
      · exact habort
      · have hlock : SameRows t s { s with lockTable := Function.update s.lockTable (tab, rid) [id] } := SameRows.of_eq rfl fun _ => List.Subset.refl _
        exact hlock.trans (SameRows.modifyTxn fun x => by rfl)

theorem SameRows.lockRow {tab : T} {r : Db T I × Except Raised (Option Bytes)} (h : s.lockRow db id tab rid = .ok r) : SameRows t s r.1 := by
  rw [Db.lockRow] at h
  split at h
  · split at h
    all_goals
      cases h
    all_goals exact SameRows.lockExclusive id tab rid
  · cases h
    exact SameRows.lockExclusive id tab rid

/-- A loop over rows each of which keeps the table keeps it. -/
theorem SameRows.forRows {row : Db T I → Rid → Except RmError (Db T I × Option Raised)}
    (hrow : ∀ s rid r, row s rid = .ok r → SameRows t s r.1) {rids : List Rid} {r : Db T I × Option Raised}
    (h : Db.forRows row rids s = .ok r) : SameRows t s r.1 := by
  induction rids generalizing s with
  | nil =>
    cases h
    exact SameRows.refl t s
  | cons rid rids ih =>
    obtain ⟨v, hv, h⟩ := Runs.ok_of_bind h
    have hfirst := hrow s rid v hv
    split at h
    · cases h
      exact hfirst
    · exact hfirst.trans (ih h)

theorem SameRows.setTransaction (id : Int) (x : Transaction T I) (s : Db T I) : SameRows t s (s.setTransaction id x) := by
  rw [Db.setTransaction]
  split
  · have hclock : SameRows t s { s with nextTimestamp := s.nextTimestamp + 1 } := SameRows.of_eq rfl fun _ => List.Subset.refl _
    exact hclock.trans (SameRows.modifyTxn fun x => by rfl)
  · exact SameRows.refl t s

theorem SameRows.afterStatement (id : Int) (r : Db T I × Option Raised) : SameRows t r.1 (Db.afterStatement id r) := by
  rw [Db.afterStatement]
  split
  · exact SameRows.modifyTxn fun x => by rfl
  · exact SameRows.refl t r.1

/-- A statement that keeps the table whatever its outcome. -/
theorem SameRows.statement {next : Db T I → Except RmError (Db T I × Option Raised)}
    (hnext : ∀ s r, next s = .ok r → SameRows t s r.1) (h : s.statement id next = .ok u) : SameRows t s u := by
  rcases statement_cases h with ⟨rfl, -⟩ | ⟨x, r, -, hr, rfl, -⟩
  · exact SameRows.refl t u
  · exact ((SameRows.setTransaction id x s).trans (hnext _ r hr)).trans (SameRows.afterStatement id r)

variable [DecidableEq I]

theorem SameRows.removeKeys (id : Int) (rid : Rid) (rec : Bytes) (is : List I) (s : Db T I) : SameRows t s (removeKeys db id rid rec is s) := by
  induction is generalizing s with
  | nil => exact SameRows.refl t s
  | cons i is ih =>
    have hentry : SameRows t s (s.deleteEntry db i (db.keyBytes i rec)) := SameRows.of_eq rfl fun _ => List.Subset.refl _
    exact (hentry.trans (SameRows.appendWriteRecord rfl)).trans (ih _)

theorem SameRows.insertKeys (id : Int) (rid : Rid) (keys : List (I × Bytes)) (s : Db T I) : SameRows t s (insertKeys db id rid keys s) := by
  induction keys generalizing s with
  | nil => exact SameRows.refl t s
  | cons p keys ih =>
    have hentry : SameRows t s (s.insertEntry db p.1 p.2 rid) := SameRows.of_eq rfl fun _ => List.Subset.refl _
    exact (hentry.trans (SameRows.appendWriteRecord rfl)).trans (ih _)

theorem SameRows.removeOldKeys (id : Int) (rid : Rid) (old new : Bytes) (is : List I) (s : Db T I) :
    SameRows t s (removeOldKeys db id rid old new is s).1 := by
  induction is generalizing s with
  | nil => exact SameRows.refl t s
  | cons i is ih =>
    rw [Db.removeOldKeys]
    split
    · exact ih s
    · split
      · exact SameRows.refl t s
      · have hentry : SameRows t s (s.deleteEntry db i (db.keyBytes i old)) := SameRows.of_eq rfl fun _ => List.Subset.refl _
        exact (hentry.trans (SameRows.appendWriteRecord rfl)).trans (ih _)

theorem SameRows.updateTo {tab : T} {old new : Bytes} {need : Bool} {r : Db T I × Option Raised}
    (h : s.updateTo db id tab rid old new need = .ok r) : SameRows t s r.1 := by
  have hold : SameRows t s (if need then Db.removeOldKeys db id rid old new (db.indexes tab) s else (s, some [])).1 := by
    split
    · exact SameRows.removeOldKeys id rid old new _ s
    · exact SameRows.refl t s
  rw [Db.updateTo] at h
  generalize (if need then Db.removeOldKeys db id rid old new (db.indexes tab) s else (s, some [])) = q at h hold
  split at h
  · cases h
    exact hold
  · obtain ⟨v, hv, h⟩ := Runs.ok_of_bind h
    split at h
    · cases h
      exact hold
    · cases h
      exact ((hold.trans (SameRows.updateRecordMvcc hv)).trans (SameRows.insertKeys id rid _ _)).trans (SameRows.appendWriteRecord rfl)

theorem SameRows.updateRow {tab : T} {set : List (SetClause (db.tab tab))} {r : Db T I × Option Raised}
    (h : Db.updateRow db id tab set s rid = .ok r) : SameRows t s r.1 := by
  obtain ⟨q, hq, h⟩ := Runs.ok_of_bind h
  have hlock : SameRows t s q.1 := SameRows.lockRow hq
  split at h
  · cases h
    exact hlock
  · cases h
    exact hlock
  · split at h
    · cases h
      exact hlock
    · exact hlock.trans (SameRows.updateTo h)

theorem SameRows.deleteRow {tab : T} {r : Db T I × Option Raised} (h : Db.deleteRow db id tab s rid = .ok r) : SameRows t s r.1 := by
  obtain ⟨q, hq, h⟩ := Runs.ok_of_bind h
  have hlock : SameRows t s q.1 := SameRows.lockRow hq
  split at h
  · cases h
    exact hlock
  · cases h
    exact hlock
  · refine hlock.trans ?_
    dsimp only at h
    split at h
    · cases h
      exact SameRows.removeKeys id rid _ _ _
    · next hv =>
      cases h
      exact ((SameRows.removeKeys id rid _ _ _).trans (SameRows.deleteRecordMvcc hv)).trans (SameRows.appendWriteRecord rfl)

end Statements

/-! ### Insertions -/

section Insertion
variable {db : Schema T I} {id : Int} {rid : Rid}

/-- A transaction inserted a row into the table. -/
structure NewRow (t : T) (id : Int) (rid : Rid) (s u : Db T I) : Prop where
  shaped : Shaped (s.fhs t) → Shaped (u.fhs t)
  fresh : Shaped (s.fhs t) → s.row t rid = none
  rows : Shaped (s.fhs t) → ∀ r, (u.row t r).isSome ↔ (s.row t r).isSome ∨ r = rid
  insertedRows : ∀ j, ∀ r ∈ u.insertedRows t j, r ∈ s.insertedRows t j ∨ j = id ∧ r = rid

theorem NewRow.after (h : NewRow t id rid s u) (h' : SameRows t u v) : NewRow t id rid s v where
  shaped hs := (h'.shaped (h.shaped hs)).1
  fresh := h.fresh
  rows hs r := by rw [h'.rows (h.shaped hs), h.rows hs]
  insertedRows j r hr := h.insertedRows j r (h'.insertedRows j hr)

theorem NewRow.before (h : SameRows t s u) (h' : NewRow t id rid u v) : NewRow t id rid s v where
  shaped hs := h'.shaped (h.shaped hs).1
  fresh hs := by
    have hrow := h.rows hs rid
    rw [h'.fresh (h.shaped hs).1] at hrow
    exact Option.isNone_iff_eq_none.mp (by rw [← Option.not_isSome, ← hrow]; rfl)
  rows hs r := by rw [h'.rows (h.shaped hs).1, h.rows hs]
  insertedRows j r hr := (h'.insertedRows j r hr).imp (fun hmem => h.insertedRows j hmem) fun hnew => hnew

theorem insertedRows_append {w : WriteRecord T I} {j : Int} {r : Rid} (h : r ∈ (s.appendWriteRecord id w).insertedRows t j) :
    r ∈ s.insertedRows t j ∨ j = id ∧ insertedRow t w = some r := by
  rw [Db.insertedRows, writes, Db.appendWriteRecord, Db.modifyTxn] at h
  rw [Db.insertedRows, writes]
  simp only [Function.update_apply] at h
  split at h
  · next hj =>
    rw [hj]
    cases hx : s.txnMap id with
    | none =>
      rw [hx] at h
      cases h
    | some x =>
      rw [hx] at h
      simp only [Option.map_some, Option.getD_some, List.filterMap_append, List.mem_append] at h
      refine h.imp_right fun hw => ⟨rfl, ?_⟩
      obtain ⟨w', hmem, hrow⟩ := List.mem_filterMap.mp hw
      rwa [List.mem_singleton.mp hmem] at hrow
  · exact Or.inl h

theorem insertRecord_rows {tab : T} {buf : Bytes} {r : Db T I × Rid} (h : s.insertRecord db id tab buf = .ok r) :
    (tab = t → NewRow t id r.2 s (r.1.appendWriteRecord id (.insertTuple tab r.2 buf))) ∧
      (tab ≠ t → SameRows t s (r.1.appendWriteRecord id (.insertTuple tab r.2 buf))) := by
  obtain ⟨⟨f, rid⟩, hf, h⟩ := Runs.ok_of_bind h
  cases h
  constructor
  · rintro rfl
    have hfile : (Function.update s.fhs tab f) tab = f := Function.update_self ..
    refine ⟨fun hs => ?_, fun hs => (hs.insertRecord hf).2.1, fun hs r => ?_, fun j r hr => ?_⟩
    · show Shaped (Function.update s.fhs tab f tab)
      rw [hfile]
      exact (hs.insertRecord hf).1
    · show ((Function.update s.fhs tab f tab).lookup r).isSome ↔ _
      rw [hfile, (hs.insertRecord hf).2.2 r]
      by_cases hr : r = rid
      · simp [hr]
      · rw [if_neg hr]
        exact ⟨Or.inl, fun h => h.resolve_right hr⟩
    · refine (insertedRows_append hr).imp (fun hmem => hmem) fun hnew => ⟨hnew.1, ?_⟩
      have hrow := hnew.2
      rw [insertedRow, if_pos rfl] at hrow
      exact (Option.some.inj hrow).symm
  · intro hne
    refine SameRows.of_eq (Function.update_of_ne (Ne.symm hne) ..) fun j r hr => (insertedRows_append hr).resolve_right fun hnew => ?_
    have hrow := hnew.2
    rw [insertedRow, if_neg hne] at hrow
    cases hrow

variable [DecidableEq I]

/-- An INSERT raises an exception before it changes anything, or it inserts a row. -/
theorem insertNext_rows {tab : T} {values : List (Except ExecError Bytes)} {r : Db T I × Option Raised}
    (h : s.insertNext db id tab values = .ok r) :
    (r.2.isNone = false ∧ r.1 = s) ∨
      (r.2.isNone = true ∧ (tab = t → ∃ rid, NewRow t id rid s r.1) ∧ (tab ≠ t → SameRows t s r.1)) := by
  rw [insertNext] at h
  split at h
  · cases h
    exact Or.inl ⟨rfl, rfl⟩
  · split at h
    · cases h
      exact Or.inl ⟨rfl, rfl⟩
    · obtain ⟨v, hv, h⟩ := Runs.ok_of_bind h
      cases h
      obtain ⟨hown, hother⟩ := insertRecord_rows (t := t) hv
      exact Or.inr ⟨rfl, fun ht => ⟨v.2, (hown ht).after (SameRows.insertKeys id v.2 _ _)⟩,
        fun ht => (hother ht).trans (SameRows.insertKeys id v.2 _ _)⟩

end Insertion

/-! ### The end of a transaction -/

section Ends
variable [DecidableEq I] (db : Schema T I) {id : Int}

theorem rollbackSingleOperation_undone (w : WriteRecord T I) (s : Db T I) :
    Undone t (insertedRow t w).toList s (rollbackSingleOperation db w s) := by
  cases w with
  | insertTuple tab rid rec =>
    rw [rollbackSingleOperation]
    split
    · next f hf =>
      by_cases ht : tab = t
      · subst ht
        have hfile : (Function.update s.fhs tab f) tab = f := Function.update_self ..
        have hrids : (insertedRow tab (.insertTuple tab rid rec : WriteRecord T I)).toList = [rid] := by rw [insertedRow, if_pos rfl]; rfl
        rw [hrids]
        refine ⟨fun hs => ⟨?_, fun hnil => (by cases hnil)⟩, fun hs r hr => ?_, rfl⟩
        · show Shaped (Function.update s.fhs tab f tab)
          rw [hfile]
          exact (hs.deleteRecord hf).1
        · show ((Function.update s.fhs tab f tab).lookup r).isSome = _
          rw [hfile, (hs.deleteRecord hf).2 r fun heq => hr (List.mem_singleton.mpr heq)]
          rfl
      · exact Undone.of_fhs (Function.update_of_ne (Ne.symm ht) ..) rfl
    · exact Undone.of_fhs rfl rfl
  | updateTuple tab rid old =>
    rw [rollbackSingleOperation]
    split
    · next f hf =>
      have hsame : SameRows t s { s with fhs := Function.update s.fhs tab f } := SameRows.updateTable hf rfl rfl
      exact ⟨fun hs => ⟨(hsame.shaped hs).1, fun _ => (hsame.shaped hs).2⟩, fun hs r _ => hsame.rows hs r, rfl⟩
    · exact Undone.of_fhs rfl rfl
  | deleteTuple => exact Undone.of_fhs rfl rfl
  | ixInsertTuple => exact Undone.of_fhs rfl rfl
  | ixDeleteTuple => exact Undone.of_fhs rfl rfl

theorem undoWrites_undone (ws : List (WriteRecord T I)) (s : Db T I) :
    Undone t (ws.filterMap (insertedRow t)) s (undoWrites db ws s) := by
  induction ws with
  | nil => exact Undone.of_fhs rfl rfl
  | cons w ws ih =>
    have hboth := ih.trans (rollbackSingleOperation_undone (t := t) db w (undoWrites db ws s))
    have hrids : (w :: ws).filterMap (insertedRow t) = (insertedRow t w).toList ++ ws.filterMap (insertedRow t) := by
      rw [List.filterMap_cons]
      cases insertedRow t w <;> rfl
    rw [hrids]
    exact hboth

/-- An `abort` removes no rows but those that the transaction inserted, and the transaction is gone. -/
theorem abortTxn_undone {x : Transaction T I} (hx : s.txnMap id = some x) :
    ∃ v, Undone t (s.insertedRows t id) s v ∧ (s.abortTxn db id x).fhs = v.fhs ∧
      ∀ j, (s.abortTxn db id x).insertedRows t j = if j = id then [] else s.insertedRows t j := by
  have hws : s.insertedRows t id = x.writeSet.filterMap (insertedRow t) := by rw [Db.insertedRows, writes, hx]; rfl
  have hundo := undoWrites_undone (t := t) db x.writeSet (s.rollbackTransaction id (rowsOf x.writeSet))
  have htxns : (undoWrites db x.writeSet (s.rollbackTransaction id (rowsOf x.writeSet))).txnMap = s.txnMap := hundo.txns.trans rfl
  refine ⟨undoWrites db x.writeSet (s.rollbackTransaction id (rowsOf x.writeSet)), ?_, rfl, fun j => insertedRows_erase rfl htxns j⟩
  rw [hws]
  exact ⟨hundo.shaped, hundo.rows, htxns⟩

end Ends

/-! ### LOAD -/

section Load
variable [DecidableEq I] {db : Schema T I}

/-- A LOAD changes the file of its table and no write set. -/
theorem load_rows {tab : T} {csv : List Bytes} {loaded : List Loaded} (h : s.load db tab csv = .ok (u, loaded)) :
    csv ≠ [] ∧ (tab ≠ t → SameRows t s u) ∧ (∀ j, u.insertedRows t j = s.insertedRows t j) ∧
      (tab = t → Shaped (s.fhs t) → (∀ rid, s.row t rid = none) → Shaped (u.fhs t) ∧ (u.fhs t).held = loaded.length) := by
  cases csv with
  | nil => cases h
  | cons header lines =>
    obtain ⟨⟨f, v, loaded'⟩, hload, h⟩ := Runs.ok_of_bind h
    cases h
    have hkeeps := LoadExecutor.loadBatches_keeps (P := fun v => v.fhs = s.fhs ∧ v.txnMap = s.txnMap)
      (fun w rows w' hw hP => ⟨(batchInsertIndex_keeps hw).1.trans hP.1, (batchInsertIndex_keeps hw).2.trans hP.2⟩) ⟨rfl, rfl⟩ hload
    obtain ⟨hfhs, htxns⟩ := hkeeps
    have hinserts : ∀ j, (show Db T I from { v with fhs := Function.update v.fhs tab f }).insertedRows t j = s.insertedRows t j := by
      intro j
      rw [Db.insertedRows, Db.insertedRows, writes, writes]
      show (((v.txnMap j).map (·.writeSet)).getD []).filterMap _ = _
      rw [htxns]
    refine ⟨List.cons_ne_nil _ _, fun hne => SameRows.of_eq ?_ fun j => by rw [← hinserts j]; exact List.Subset.refl _, hinserts, ?_⟩
    · show Function.update v.fhs tab f t = s.fhs t
      rw [Function.update_of_ne (Ne.symm hne), hfhs]
    · rintro rfl hs hempty
      obtain ⟨hshaped, hheld⟩ := LoadExecutor.loadBatches_held hs (tail_of_empty hempty) hload
      have hfile : (Function.update v.fhs tab f) tab = f := Function.update_self ..
      show Shaped (Function.update v.fhs tab f tab) ∧ (Function.update v.fhs tab f tab).held = _
      rw [hfile, hheld, Shaped.held_eq_zero hempty, Nat.zero_add]
      exact ⟨hshaped, rfl⟩

end Load

end Db

namespace CountedDb
open Db RmFile
variable {T I : Type} [DecidableEq T] {db : Schema T I} {t : T} {s u : CountedDb T I}

/-- A valid cache counts the records, and then no active transaction has inserted one. The rows that transactions inserted are
    there, and no two of them inserted the same. -/
structure Counts (t : T) (s : CountedDb T I) : Prop where
  shaped : Shaped (s.db.fhs t)
  present : ∀ id, ∀ rid ∈ s.db.insertedRows t id, (s.db.row t rid).isSome
  apart : ∀ i j, i ≠ j → ∀ rid ∈ s.db.insertedRows t i, rid ∉ s.db.insertedRows t j
  valid : (s.caches t).countCacheValid = true → (s.caches t).totalRecordCount = (s.db.fhs t).held ∧ ∀ id, s.db.insertedRows t id = []

theorem Counts.init (db : Schema T I) (t : T) : Counts t (CountedDb.init db) :=
  ⟨Shaped.create _, fun id rid h => (by cases h), fun i j _ rid h => (by cases h), fun h => (by cases h)⟩

theorem Counts.countOk (h : Counts t s) : s.CountOk t := fun hvalid => by rw [(h.valid hvalid).1, length_rmScan h.shaped]

/-- The cache is as it was, or it is not valid. -/
theorem Counts.same (h : Counts t s) {v : Db T I} (hsame : SameRows t s.db v) {c : T → CountCache}
    (hc : (c t).countCacheValid = true → c t = s.caches t) : Counts t ⟨v, c⟩ where
  shaped := (hsame.shaped h.shaped).1
  present id rid hrid := by
    rw [hsame.rows h.shaped]
    exact h.present id rid (hsame.insertedRows id hrid)
  apart i j hij rid hi hj := h.apart i j hij rid (hsame.insertedRows i hi) (hsame.insertedRows j hj)
  valid hvalid := by
    have hcache : (CountedDb.mk v c).caches t = s.caches t := hc hvalid
    rw [hcache] at hvalid ⊢
    obtain ⟨hcount, hnone⟩ := h.valid hvalid
    exact ⟨hcount.trans (hsame.shaped h.shaped).2.symm, fun id => List.subset_nil.mp (hnone id ▸ hsame.insertedRows id)⟩

theorem Counts.newRow (h : Counts t s) {id : Int} {rid : Rid} {v : Db T I} (hnew : NewRow t id rid s.db v) {c : T → CountCache}
    (hc : (c t).countCacheValid = false) : Counts t ⟨v, c⟩ where
  shaped := hnew.shaped h.shaped
  present j r hr := (hnew.rows h.shaped r).mpr ((hnew.insertedRows j r hr).imp (h.present j r) And.right)
  apart i j hij r hi hj := by
    have hfresh : ∀ k, rid ∉ s.db.insertedRows t k := fun k hk => by
      have hsome := h.present k rid hk
      rw [hnew.fresh h.shaped] at hsome
      cases hsome
    rcases hnew.insertedRows i r hi with hi | ⟨rfl, rfl⟩
    · rcases hnew.insertedRows j r hj with hj | ⟨-, rfl⟩
      · exact h.apart i j hij r hi hj
      · exact hfresh i hi
    · rcases hnew.insertedRows j r hj with hj | ⟨rfl, -⟩
      · exact hfresh j hj
      · exact hij rfl
  valid hvalid := by
    rw [show ((CountedDb.mk v c).caches t).countCacheValid = false from hc] at hvalid
    cases hvalid

variable [DecidableEq I]

theorem Counts.abort (h : Counts t s) {id : Int} {x : Transaction T I} (hx : s.db.txnMap id = some x) :
    Counts t ⟨s.db.abortTxn db id x, s.caches⟩ := by
  obtain ⟨v, hundo, hfhs, hinserts⟩ := abortTxn_undone (t := t) db hx
  have hold : ∀ j, ∀ r ∈ (s.db.abortTxn db id x).insertedRows t j, j ≠ id ∧ r ∈ s.db.insertedRows t j := by
    intro j r hr
    rw [hinserts j] at hr
    split at hr
    · cases hr
    · next hj => exact ⟨hj, hr⟩
  refine ⟨?_, fun j r hr => ?_, fun i j hij r hi hj => h.apart i j hij r (hold i r hi).2 (hold j r hj).2, fun hvalid => ?_⟩
  · show Shaped ((s.db.abortTxn db id x).fhs t)
    rw [hfhs]
    exact (hundo.shaped h.shaped).1
  · obtain ⟨hj, hr⟩ := hold j r hr
    show (((s.db.abortTxn db id x).fhs t).lookup r).isSome
    rw [hfhs]
    exact (hundo.rows h.shaped r fun hid => h.apart id j (Ne.symm hj) r hid hr) ▸ h.present j r hr
  · obtain ⟨hcount, hnone⟩ := h.valid hvalid
    refine ⟨?_, fun j => List.eq_nil_iff_forall_not_mem.mpr fun r hr => ?_⟩
    · show (s.caches t).totalRecordCount = ((s.db.abortTxn db id x).fhs t).held
      rw [hfhs, (hundo.shaped h.shaped).2 (hnone id), hcount]
    · have hmem := (hold j r hr).2
      rw [hnone j] at hmem
      cases hmem

/-- A LOAD into the table finds it without rows. -/
def LoadsEmpty (t : T) (s : CountedDb T I) : CountAct db → Prop
  | .load tab csv => tab = t → csv ≠ [] → ∀ rid, s.db.row t rid = none
  | .act _ => True

/-- After an action the cache is as it was, or it is not valid. -/
theorem cacheAfter_valid {a : Act db} (h : (s.cacheAfter db t a).countCacheValid = true) : s.cacheAfter db t a = s.caches t := by
  cases a with
  | begin txnMode =>
    simp only [cacheAfter] at h ⊢
    split at h
    · cases h
    · next hmode => rw [if_neg hmode]
  | insert id tab values =>
    simp only [cacheAfter] at h ⊢
    split at h
    · cases h
    · next hend => rw [if_neg hend]
  | delete id tab rids =>
    simp only [cacheAfter] at h ⊢
    split at h
    · cases h
    · next hend => rw [if_neg hend]
  | update => rfl
  | commit => rfl
  | abort => rfl

theorem Counts.insert (h : Counts t s) {id : Int} {tab : T} {values : List (Except ExecError Bytes)} {v : Db T I}
    (hstep : (s.db.statement id fun s => s.insertNext db id tab values) = .ok v) :
    Counts t ⟨v, fun t => s.cacheAfter db t (.insert id tab values)⟩ := by
  rcases statement_cases hstep with ⟨rfl, -⟩ | ⟨x, r, -, hr, rfl, hend⟩
  · exact h.same (SameRows.refl t _) cacheAfter_valid
  · have hafter : SameRows t r.1 (Db.afterStatement id r) := SameRows.afterStatement id r
    rcases insertNext_rows (t := t) hr with ⟨-, hsame⟩ | ⟨hdone, hown, hother⟩
    · rw [hsame] at hafter
      exact h.same ((SameRows.setTransaction id x s.db).trans hafter) cacheAfter_valid
    · by_cases ht : tab = t
      · obtain ⟨rid, hnew⟩ := hown ht
        refine h.newRow ((NewRow.before (SameRows.setTransaction id x s.db) hnew).after hafter) ?_
        rw [hdone] at hend
        simp only [cacheAfter, if_pos (And.intro ht hend)]
        rfl
      · exact h.same (((SameRows.setTransaction id x s.db).trans (hother ht)).trans hafter) cacheAfter_valid

/-- What an action of a client keeps. -/
theorem Counts.act (h : Counts t s) {a : Act db} {v : Db T I} (hstep : s.db.step db a = .ok v) :
    Counts t ⟨v, fun t => s.cacheAfter db t a⟩ := by
  rw [Db.step.eq_def] at hstep
  split at hstep
  · cases a with
    | begin txnMode =>
      cases hstep
      exact h.same (SameRows.begin txnMode s.db) cacheAfter_valid
    | insert id tab values => exact h.insert hstep
    | update id tab rids set =>
      exact h.same (SameRows.statement (fun _ _ hr => SameRows.forRows (fun _ _ _ hrow => SameRows.updateRow hrow) hr) hstep) cacheAfter_valid
    | delete id tab rids =>
      exact h.same (SameRows.statement (fun _ _ hr => SameRows.forRows (fun _ _ _ hrow => SameRows.deleteRow hrow) hr) hstep) cacheAfter_valid
    | commit id =>
      simp only [withTxn] at hstep
      split at hstep
      · split at hstep
        · cases hstep
          exact h.same (SameRows.refl t _) cacheAfter_valid
        · cases hstep
          exact h.same (SameRows.commitTxn db s.db _) cacheAfter_valid
      · cases hstep
        exact h.same (SameRows.refl t _) cacheAfter_valid
    | abort id =>
      simp only [withTxn] at hstep
      split at hstep
      · next x hx =>
        cases hstep
        exact h.abort hx
      · cases hstep
        exact h.same (SameRows.refl t _) cacheAfter_valid
  · cases hstep

theorem Counts.load (h : Counts t s) {tab : T} {csv : List Bytes} (hempty : LoadsEmpty t s (.load tab csv : CountAct db)) {v : Db T I}
    {loaded : List Loaded} (hload : s.db.load db tab csv = .ok (v, loaded)) :
    Counts t ⟨v, Function.update s.caches tab ⟨loaded.length, true⟩⟩ := by
  obtain ⟨hcsv, hother, hinserts, hown⟩ := load_rows (t := t) hload
  by_cases ht : tab = t
  · obtain ⟨hshaped, hheld⟩ := hown ht h.shaped (hempty ht hcsv)
    have hnone : ∀ j, v.insertedRows t j = [] := by
      intro j
      rw [hinserts]
      refine List.eq_nil_iff_forall_not_mem.mpr fun r hr => ?_
      have hsome := h.present j r hr
      rw [hempty ht hcsv r] at hsome
      cases hsome
    refine ⟨hshaped, fun j r hr => ?_, fun i j _ r hr => ?_, fun _ => ⟨?_, hnone⟩⟩
    · rw [show (CountedDb.mk v _).db.insertedRows t j = [] from hnone j] at hr
      cases hr
    · rw [show (CountedDb.mk v _).db.insertedRows t i = [] from hnone i] at hr
      cases hr
    · subst ht
      show (Function.update s.caches tab ⟨loaded.length, true⟩ tab).totalRecordCount = _
      rw [Function.update_self, hheld]
  · exact h.same (hother ht) fun _ => Function.update_of_ne (Ne.symm ht) ..

/-- A step keeps what the count rests on, if a LOAD into the table finds it empty. -/
theorem Counts.step (h : Counts t s) {a : CountAct db} (ha : LoadsEmpty t s a) (hstep : s.step db a = .ok u) : Counts t u := by
  cases a with
  | act a =>
    simp only [CountedDb.step] at hstep
    split at hstep
    · next hact =>
      cases hstep
      exact h.act hact
    · cases hstep
  | load tab csv =>
    simp only [CountedDb.step] at hstep
    split at hstep
    · next hload =>
      cases hstep
      exact h.load ha hload
    · cases hstep
      exact h
    · cases hstep

/-- For every history in which each LOAD into a table finds it without rows, a valid `total_record_count` of the table is the
    number of its rows. -/
theorem countCache_ok (db : Schema T I) (t : T) (as : List (CountAct db))
    (hload : Runs.Throughout (CountedDb.step db) (LoadsEmpty t) (CountedDb.init db) as) (s : CountedDb T I)
    (hrun : Runs.exec (CountedDb.step db) (CountedDb.init db) as = .ok s) : s.CountOk t := by
  have hcounts : Counts t s := Runs.exec_of_invariant (fun _ _ _ h ha hstep => h.step ha hstep) (Counts.init db t) hload hrun
  exact hcounts.countOk

/-- A file with the line `1,2`. -/
def loadOne : CountAct pairDb := .load () [[0x61], [0x31, 0x2c, 0x32]]

theorem countCache_ok_loaded : ∃ s, Runs.exec (CountedDb.step pairDb) (CountedDb.init pairDb) [loadOne] = .ok s ∧
    (s.caches ()).countCacheValid = true ∧ s.CountOk () := by
  obtain ⟨s, hs, hvalid⟩ := Runs.exec_eval (CountedDb.step pairDb) (CountedDb.init pairDb) [loadOne]
    (fun s => (s.caches ()).countCacheValid) (b := true) (by decide)
  exact ⟨s, hs, hvalid, countCache_ok pairDb () [loadOne] ⟨fun _ _ _ => rfl, fun _ _ => trivial⟩ s hs⟩

/-- The second of two files counts its own line only. -/
theorem countCache_second : ∃ s, Runs.exec (CountedDb.step pairDb) (CountedDb.init pairDb) [loadOne, loadOne] = .ok s ∧
    ¬s.CountOk () := by
  obtain ⟨s, hs, hview⟩ := Runs.exec_eval (CountedDb.step pairDb) (CountedDb.init pairDb) [loadOne, loadOne]
    (fun s => (s.caches (), (s.db.rmScan ()).length)) (b := (⟨1, true⟩, 2)) (by decide +kernel)
  obtain ⟨hcache, hrows⟩ := Prod.mk.inj hview
  refine ⟨s, hs, fun hcount => ?_⟩
  have hne := hcount (by rw [hcache])
  rw [hcache, hrows] at hne
  cases hne

end CountedDb
end Rmdb
