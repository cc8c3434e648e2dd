import Rmdb.Theorems.Txn.Steps

/-! The end of a transaction: what `commit` and `abort` leave, and what undoing a write set does to a row and to a key of
an index. -/

namespace Rmdb
open RmFile

/-- The row that a record of an INSERT or an UPDATE names. -/
def WriteRecord.marked? {T I : Type} : WriteRecord T I → Option (T × Rid)
  | .insertTuple t rid _ | .updateTuple t rid _ => some (t, rid)
  | .deleteTuple .. | .ixInsertTuple .. | .ixDeleteTuple .. => none

/-- The row that a record of an UPDATE or a DELETE names. -/
def WriteRecord.locked? {T I : Type} : WriteRecord T I → Option (T × Rid)
  | .updateTuple t rid _ | .deleteTuple t rid _ => some (t, rid)
  | .insertTuple .. | .ixInsertTuple .. | .ixDeleteTuple .. => none

theorem WriteRecord.tuple?_of_marked {T I : Type} {w : WriteRecord T I} {row : T × Rid} (h : w.marked? = some row) :
    w.tuple? = some row := by
  cases w with
  | insertTuple => exact h
  | updateTuple => exact h
  | deleteTuple => cases h
  | ixInsertTuple => cases h
  | ixDeleteTuple => cases h

theorem WriteRecord.tuple?_of_locked {T I : Type} {w : WriteRecord T I} {row : T × Rid} (h : w.locked? = some row) :
    w.tuple? = some row := by
  cases w with
  | insertTuple => cases h
  | updateTuple => exact h
  | deleteTuple => exact h
  | ixInsertTuple => cases h
  | ixDeleteTuple => cases h

namespace Db
variable {T I : Type} {db : Schema T I}

/-- The record of a row after a write record is undone. -/
def rowUndo [DecidableEq T] (row : T × Rid) : WriteRecord T I → Option Bytes → Option Bytes
  | .insertTuple tab rid _, v => if row = (tab, rid) then none else v
  | .updateTuple tab rid old, v => if row = (tab, rid) then v.map fun _ => old else v
  | .deleteTuple .., v | .ixInsertTuple .., v | .ixDeleteTuple .., v => v

/-- The position at a key of an index after a write record is undone. -/
def keyUndo [DecidableEq I] (db : Schema T I) (p : I × Bytes) : WriteRecord T I → Option Rid → Option Rid
  | .ixInsertTuple i _ key, v => if p = (i, db.norm i key) then none else v
  | .ixDeleteTuple i rid key, v => if p = (i, db.norm i key) then v.or (some rid) else v
  | .insertTuple .., v | .updateTuple .., v | .deleteTuple .., v => v

/-! ### The entries of a row -/

/-- The key is that of the record in one of the indexes. -/
def KeyIn (db : Schema T I) (rec : Bytes) (is : List I) (p : I × Bytes) : Prop := p.1 ∈ is ∧ p.2 = db.key p.1 rec

theorem keyIn_cons {rec : Bytes} {i : I} {is : List I} {p : I × Bytes} :
    KeyIn db rec (i :: is) p ↔ p = (i, db.key i rec) ∨ KeyIn db rec is p := by
  constructor
  · rintro ⟨hmem, hkey⟩
    rcases List.mem_cons.mp hmem with rfl | hmem
    · exact Or.inl (Prod.ext rfl hkey)
    · exact Or.inr ⟨hmem, hkey⟩
  · rintro (rfl | ⟨hmem, hkey⟩)
    · exact ⟨List.mem_cons_self, rfl⟩
    · exact ⟨List.mem_cons_of_mem i hmem, hkey⟩

section
variable [DecidableEq I] {rid : Rid} {rec : Bytes} {p : I × Bytes}

instance (rec : Bytes) (is : List I) (p : I × Bytes) : Decidable (KeyIn db rec is p) := inferInstanceAs (Decidable (_ ∧ _))

theorem foldl_deletions (is : List I) (v : Option Rid) :
    (deletions db rid rec is).foldl (keyDo db p) v = if KeyIn db rec is p then none else v := by
  induction is generalizing v with
  | nil => rfl
  | cons i is ih =>
    have hone : (deletions db rid rec (i :: is)).foldl (keyDo db p) v =
        (deletions db rid rec is).foldl (keyDo db p) (if p = (i, db.key i rec) then none else v) := rfl
    rw [hone, ih]
    simp only [keyIn_cons]
    by_cases hp : p = (i, db.key i rec) <;> simp [hp]

theorem foldl_insertions (is : List I) (v : Option Rid) :
    (insertions db rid rec is).foldl (keyDo db p) v = if KeyIn db rec is p then v.or (some rid) else v := by
  induction is generalizing v with
  | nil => rfl
  | cons i is ih =>
    have hone : (insertions db rid rec (i :: is)).foldl (keyDo db p) v =
        (insertions db rid rec is).foldl (keyDo db p) (if p = (i, db.key i rec) then v.or (some rid) else v) := rfl
    rw [hone, ih]
    simp only [keyIn_cons]
    by_cases hp : p = (i, db.key i rec) <;> cases v <;> simp [hp]

theorem foldr_deletions (is : List I) (v : Option Rid) :
    (deletions db rid rec is).foldr (keyUndo db p) v = if KeyIn db rec is p then v.or (some rid) else v := by
  induction is with
  | nil => rfl
  | cons i is ih =>
    have hone : (deletions db rid rec (i :: is)).foldr (keyUndo db p) v =
        keyUndo db p (.ixDeleteTuple i rid (db.keyBytes i rec)) ((deletions db rid rec is).foldr (keyUndo db p) v) := rfl
    have hnorm : db.norm i (db.keyBytes i rec) = db.key i rec := rfl
    rw [hone, ih, keyUndo, hnorm]
    simp only [keyIn_cons]
    by_cases hp : p = (i, db.key i rec) <;> by_cases hin : KeyIn db rec is p <;> cases v <;> simp_all

theorem foldr_insertions (is : List I) (v : Option Rid) :
    (insertions db rid rec is).foldr (keyUndo db p) v = if KeyIn db rec is p then none else v := by
  induction is with
  | nil => rfl
  | cons i is ih =>
    have hone : (insertions db rid rec (i :: is)).foldr (keyUndo db p) v =
        keyUndo db p (.ixInsertTuple i rid (db.keyBytes i rec)) ((insertions db rid rec is).foldr (keyUndo db p) v) := rfl
    have hnorm : db.norm i (db.keyBytes i rec) = db.key i rec := rfl
    rw [hone, ih, keyUndo, hnorm]
    simp only [keyIn_cons]
    by_cases hp : p = (i, db.key i rec) <;> simp [hp]

end

variable [DecidableEq T]

/-! ### The end of a transaction -/

/-- What both ends of a transaction do: it is gone, its locks are released and the marks of its rows erased. -/
structure Ended (db : Schema T I) (id : Int) (x : Transaction T I) (s t : Db T I) : Prop where
  txn : s.txnMap id = some x
  txnMap : t.txnMap = Function.update s.txnMap id none
  nextTxnId : t.nextTxnId = s.nextTxnId
  lockTable : ∀ row, t.lockTable row = if row ∈ x.lockSet then (s.lockTable row).erase id else s.lockTable row
  mvccMap : ∀ m, t.mvccMap m =
    if m ∈ (rowsOf x.writeSet).map (fun row => (row.1, db.slot row.1 row.2)) then none else s.mvccMap m

theorem commitTxn_ended {s : Db T I} {id : Int} {x : Transaction T I} (h : s.txnMap id = some x) :
    Ended db id x s (s.commitTxn db id x) := ⟨h, rfl, rfl, fun _ => rfl, fun _ => rfl⟩

namespace Ended
variable {s t : Db T I} {id : Int} {x : Transaction T I}

theorem txnMap_ne (h : Ended db id x s t) {j : Int} (hj : j ≠ id) : t.txnMap j = s.txnMap j := by
  rw [h.txnMap, Function.update_of_ne hj]

theorem txnMap_self (h : Ended db id x s t) : t.txnMap id = none := by rw [h.txnMap, Function.update_self]

/-- Only other transactions have records left. -/
theorem writes (h : Ended db id x s t) {j : Int} {w : WriteRecord T I} (hw : w ∈ t.writes j) : j ≠ id ∧ w ∈ s.writes j := by
  have hj : j ≠ id := by
    rintro rfl
    rw [writes_none h.txnMap_self] at hw
    cases hw
  rw [writes_of_txnMap (h.txnMap_ne hj)] at hw
  exact ⟨hj, hw⟩

theorem sane (h : Ended db id x s t) (hs : Sane db s) (hfiles : ∀ tab, Sound (db.recordSize tab) (t.fhs tab)) : Sane db t where
  files := hfiles
  slots j w hw row hrow := hs.slots j w (h.writes hw).2 row hrow
  ids j hj := by
    have hne : j ≠ id := by
      rintro rfl
      rw [h.txnMap_self] at hj
      cases hj
    rw [h.txnMap_ne hne] at hj
    rw [h.nextTxnId]
    exact hs.ids j hj
  next := by
    rw [h.nextTxnId]
    exact hs.next
  locks row := by
    rw [h.lockTable row]
    rcases hs.locks row with hnone | ⟨j, hj, hact, hset⟩
    · rw [hnone]
      exact Or.inl (by simp)
    · by_cases hji : j = id
      · subst hji
        rw [lockSet_some h.txn] at hset
        rw [if_pos hset, hj]
        exact Or.inl (by simp)
      · refine Or.inr ⟨j, ?_, by rw [h.txnMap_ne hji]; exact hact, by rwa [lockSet_of_txnMap (h.txnMap_ne hji)]⟩
        rw [hj]
        split
        · rw [List.erase_of_not_mem (by simpa using Ne.symm hji)]
        · rfl
  growing j y hy := by
    have hne : j ≠ id := by
      rintro rfl
      rw [h.txnMap_self] at hy
      cases hy
    rw [h.txnMap_ne hne] at hy
    exact hs.growing j y hy

/-- The locks of the others are kept. -/
theorem locked (h : Ended db id x s t) {row : T × Rid} {j : Int} (hne : j ≠ id) (hj : j ∈ s.lockTable row) :
    j ∈ t.lockTable row := by
  rw [h.lockTable row]
  split
  · exact (List.mem_erase_of_ne hne).mpr hj
  · exact hj

end Ended

/-! ### Undoing a write set -/

/-- A row that was not inserted or updated is left alone. -/
theorem foldr_rowUndo {r : T × Rid} {ws : List (WriteRecord T I)} (h : ∀ w ∈ ws, w.marked? ≠ some r) (v : Option Bytes) :
    ws.foldr (rowUndo r) v = v := by
  induction ws with
  | nil => rfl
  | cons w ws ih =>
    obtain ⟨hw, hws⟩ := List.forall_mem_cons.mp h
    rw [List.foldr_cons, ih hws]
    cases w with
    | insertTuple tab rid rec => exact if_neg fun heq => hw (congrArg some heq.symm)
    | updateTuple tab rid old => exact if_neg fun heq => hw (congrArg some heq.symm)
    | deleteTuple => rfl
    | ixInsertTuple => rfl
    | ixDeleteTuple => rfl

theorem foldr_rowUndo_ix {r : T × Rid} {ws : List (WriteRecord T I)} (h : ∀ w ∈ ws, w.tuple? = none) (v : Option Bytes) :
    ws.foldr (rowUndo r) v = v := by
  refine foldr_rowUndo (fun w hw hm => ?_) v
  have := (WriteRecord.tuple?_of_marked hm).symm.trans (h w hw)
  cases this

/-- A row that was inserted is removed. -/
theorem foldr_rowUndo_insert {r : T × Rid} {rec : Bytes} {ws : List (WriteRecord T I)} (h : .insertTuple r.1 r.2 rec ∈ ws)
    (v : Option Bytes) : ws.foldr (rowUndo r) v = none := by
  induction ws with
  | nil => cases h
  | cons w ws ih =>
    rw [List.foldr_cons]
    rcases List.mem_cons.mp h with rfl | h
    · exact if_pos rfl
    · rw [ih h]
      cases w with
      | insertTuple tab rid rec => exact ite_self _
      | updateTuple tab rid old => exact ite_self _
      | deleteTuple => rfl
      | ixInsertTuple => rfl
      | ixDeleteTuple => rfl

variable [DecidableEq I]

/-- Undoing the records of a written row gives all rows their records back. -/
theorem Wrote.foldr_rowUndo {s t : Db T I} {id : Int} {row : T × Rid} {a b : List (WriteRecord T I)} {w : WriteRecord T I}
    (hw : Wrote db id row a w b s t) (r : T × Rid) :
    (a ++ w :: b).foldr (rowUndo r) (t.row r.1 r.2) = s.row r.1 r.2 := by
  rw [List.foldr_append, List.foldr_cons, foldr_rowUndo_ix hw.behind, foldr_rowUndo_ix hw.before]
  have hrec := hw.record
  have heff := hw.effect
  by_cases hr : r = row
  · subst hr
    cases w with
    | insertTuple tab rid rec =>
      cases hrec
      rw [rowUndo, if_pos rfl, heff.1]
    | updateTuple tab rid old =>
      cases hrec
      obtain ⟨v, hv⟩ := Option.isSome_iff_exists.mp heff.2.1
      rw [rowUndo, if_pos rfl, hv, heff.1.2]
      rfl
    | deleteTuple tab rid rec =>
      cases hrec
      exact heff.2.1.trans heff.1.2.symm
    | ixInsertTuple => cases hrec
    | ixDeleteTuple => cases hrec
  · rw [hw.rows r hr]
    cases w with
    | insertTuple tab rid rec => exact if_neg fun heq => hr (heq.trans (Option.some.inj hrec))
    | updateTuple tab rid old => exact if_neg fun heq => hr (heq.trans (Option.some.inj hrec))
    | deleteTuple => rfl
    | ixInsertTuple => rfl
    | ixDeleteTuple => rfl

theorem ihs_rollback (s : Db T I) (w : WriteRecord T I) (p : I × Bytes) :
    (rollbackSingleOperation db w s).ihs p = keyUndo db p w (s.ihs p) := by
  cases w with
  | insertTuple tab rid rec =>
    simp only [rollbackSingleOperation, keyUndo]
    split <;> rfl
  | updateTuple tab rid old =>
    simp only [rollbackSingleOperation, keyUndo]
    split <;> rfl
  | deleteTuple => rfl
  | ixInsertTuple i rid key =>
    simp only [rollbackSingleOperation, keyUndo, deleteEntry, Function.update_apply]
  | ixDeleteTuple i rid key =>
    simp only [rollbackSingleOperation, keyUndo, insertEntry, Function.update_apply]
    split
    · next h => rw [h]
    · rfl

theorem ihs_undoWrites (s : Db T I) (ws : List (WriteRecord T I)) (p : I × Bytes) :
    (undoWrites db ws s).ihs p = ws.foldr (keyUndo db p) (s.ihs p) := by
  induction ws with
  | nil => rfl
  | cons w ws ih =>
    rw [List.foldr_cons, ← ih]
    exact ihs_rollback _ w p

/-- Undoing a record changes the row that it names. -/
theorem row_rollback {s : Db T I} (hfiles : ∀ tab, Sound (db.recordSize tab) (s.fhs tab)) {w : WriteRecord T I}
    (hslot : ∀ row, w.tuple? = some row → db.IsSlot row.1 row.2) :
    (∀ tab, Sound (db.recordSize tab) ((rollbackSingleOperation db w s).fhs tab)) ∧
      ∀ r : T × Rid, (rollbackSingleOperation db w s).row r.1 r.2 = rowUndo r w (s.row r.1 r.2) := by
  cases w with
  | insertTuple tab rid rec =>
    obtain ⟨hper, l, H⟩ := hfiles tab
    obtain ⟨h0, hslot⟩ := hslot (tab, rid) rfl
    rcases (H.deleteRecord h0 (by rw [hper]; exact hslot)) with ⟨hnone, n, hop⟩ | ⟨f, l', -, hop, H', hext, hget⟩
    · simp only [rollbackSingleOperation, hop]
      refine ⟨hfiles, fun r => ?_⟩
      simp only [rowUndo]
      split
      · next h =>
        subst h
        exact hnone
      · rfl
    · simp only [rollbackSingleOperation, hop]
      have hfhs : { s with fhs := Function.update s.fhs tab f }.fhs = Function.update s.fhs tab f := rfl
      exact ⟨fun tab' => files_update hfhs ⟨hext.perPage.trans hper, l', H'⟩ tab' (hfiles tab'), fun r => rows_update hfhs hget r⟩
  | updateTuple tab rid old =>
    obtain ⟨hper, l, H⟩ := hfiles tab
    obtain ⟨h0, hslot⟩ := hslot (tab, rid) rfl
    rcases (H.updateRecord h0 (by rw [hper]; exact hslot) old) with ⟨hnone, n, hop⟩ | ⟨f, hsome, hop, H', hext, hget⟩
    · simp only [rollbackSingleOperation, hop]
      refine ⟨hfiles, fun r => ?_⟩
      simp only [rowUndo]
      split
      · next h =>
        subst h
        rw [row, hnone]
        rfl
      · rfl
    · simp only [rollbackSingleOperation, hop]
      have hfhs : { s with fhs := Function.update s.fhs tab f }.fhs = Function.update s.fhs tab f := rfl
      refine ⟨fun tab' => files_update hfhs ⟨hext.perPage.trans hper, l, H'⟩ tab' (hfiles tab'), fun r => ?_⟩
      rw [rows_update hfhs hget r, rowUndo]
      split
      · next h =>
        subst h
        obtain ⟨v, hv⟩ := Option.isSome_iff_exists.mp hsome
        rw [row, hv]
        rfl
      · rfl
  | deleteTuple => exact ⟨hfiles, fun _ => rfl⟩
  | ixInsertTuple => exact ⟨hfiles, fun _ => rfl⟩
  | ixDeleteTuple => exact ⟨hfiles, fun _ => rfl⟩

theorem row_undoWrites {s : Db T I} (hfiles : ∀ tab, Sound (db.recordSize tab) (s.fhs tab)) {ws : List (WriteRecord T I)}
    (hslots : ∀ w ∈ ws, ∀ row, w.tuple? = some row → db.IsSlot row.1 row.2) :
    (∀ tab, Sound (db.recordSize tab) ((undoWrites db ws s).fhs tab)) ∧
      ∀ r : T × Rid, (undoWrites db ws s).row r.1 r.2 = ws.foldr (rowUndo r) (s.row r.1 r.2) := by
  induction ws with
  | nil => exact ⟨hfiles, fun _ => rfl⟩
  | cons w ws ih =>
    obtain ⟨hw, hws⟩ := List.forall_mem_cons.mp hslots
    obtain ⟨hfiles', hrows⟩ := ih hws
    obtain ⟨hfiles'', hrow⟩ := row_rollback hfiles' hw
    refine ⟨hfiles'', fun r => ?_⟩
    rw [List.foldr_cons, ← hrows r]
    exact hrow r

/-- Undoing touches nothing but tables and indexes. -/
theorem undoWrites_frame (db : Schema T I) (ws : List (WriteRecord T I)) (s : Db T I) :
    (undoWrites db ws s).mvccMap = s.mvccMap ∧ (undoWrites db ws s).lockTable = s.lockTable ∧
      (undoWrites db ws s).txnMap = s.txnMap ∧ (undoWrites db ws s).nextTxnId = s.nextTxnId ∧
      (undoWrites db ws s).versionChains = s.versionChains := by
  have hone : ∀ (w : WriteRecord T I) (s : Db T I), (rollbackSingleOperation db w s).mvccMap = s.mvccMap ∧
      (rollbackSingleOperation db w s).lockTable = s.lockTable ∧ (rollbackSingleOperation db w s).txnMap = s.txnMap ∧
      (rollbackSingleOperation db w s).nextTxnId = s.nextTxnId ∧
      (rollbackSingleOperation db w s).versionChains = s.versionChains := by
    intro w s
    cases w with
    | insertTuple tab rid rec =>
      simp only [rollbackSingleOperation]
      split <;> exact ⟨rfl, rfl, rfl, rfl, rfl⟩
    | updateTuple tab rid old =>
      simp only [rollbackSingleOperation]
      split <;> exact ⟨rfl, rfl, rfl, rfl, rfl⟩
    | deleteTuple => exact ⟨rfl, rfl, rfl, rfl, rfl⟩
    | ixInsertTuple => exact ⟨rfl, rfl, rfl, rfl, rfl⟩
    | ixDeleteTuple => exact ⟨rfl, rfl, rfl, rfl, rfl⟩
  induction ws with
  | nil => exact ⟨rfl, rfl, rfl, rfl, rfl⟩
  | cons w ws ih =>
    obtain ⟨h₁, h₂, h₃, h₄, h₅⟩ := hone w (undoWrites db ws s)
    obtain ⟨k₁, k₂, k₃, k₄, k₅⟩ := ih
    exact ⟨h₁.trans k₁, h₂.trans k₂, h₃.trans k₃, h₄.trans k₄, h₅.trans k₅⟩

/-! ### Abort -/

theorem abortTxn_ended {s : Db T I} {id : Int} {x : Transaction T I} (h : s.txnMap id = some x) :
    Ended db id x s (s.abortTxn db id x) := by
  obtain ⟨hm, hl, ht, hn, -⟩ := undoWrites_frame db x.writeSet (s.rollbackTransaction id (rowsOf x.writeSet))
  exact {
    txn := h
    txnMap := by
      simp only [abortTxn, addLog, eraseTxn, releaseLocks, commitMarks, ht]
      rfl
    nextTxnId := hn
    lockTable := fun row => by
      have hrow := congrFun hl row
      simp only [abortTxn, addLog, eraseTxn, releaseLocks, commitMarks]
      rw [hrow]
      rfl
    mvccMap := fun m => by
      have hrow := congrFun hm m
      simp only [abortTxn, addLog, eraseTxn, releaseLocks, commitMarks]
      rw [hrow]
      rfl }

theorem ihs_abortTxn {s : Db T I} {id : Int} {x : Transaction T I} (p : I × Bytes) :
    (s.abortTxn db id x).ihs p = x.writeSet.foldr (keyUndo db p) (s.ihs p) :=
  ihs_undoWrites (s.rollbackTransaction id (rowsOf x.writeSet)) x.writeSet p

theorem row_abortTxn {s : Db T I} (hs : Sane db s) {id : Int} {x : Transaction T I} (hx : s.txnMap id = some x) :
    (∀ tab, Sound (db.recordSize tab) ((s.abortTxn db id x).fhs tab)) ∧
      ∀ r : T × Rid, (s.abortTxn db id x).row r.1 r.2 = x.writeSet.foldr (rowUndo r) (s.row r.1 r.2) := by
  refine row_undoWrites (s := s.rollbackTransaction id (rowsOf x.writeSet)) hs.files fun w hw => ?_
  exact hs.slots id w (by rw [writes_some hx]; exact hw)

/-! ### Steps keep the state sane -/

theorem Sane.stepped {C : RowCond T I} {s t : Db T I} {a : Act db} (h : Sane db s) (hs : Stepped C s a t) : Sane db t := by
  cases hs with
  | idle => exact h
  | begin txnMode => exact h.begin txnMode
  | statement _ _ _ _ _ hm => exact h.moves hm
  | commit id x hx _ => exact (commitTxn_ended hx).sane h h.files
  | abort id x hx => exact (abortTxn_ended hx).sane h (row_abortTxn h hx).1

theorem Sane.exec {s t : Db T I} {as : List (Act db)} (h : Sane db s) (hs : Runs.exec (step db) s as = .ok t) : Sane db t := by
  refine (Runs.always_of_invariant (I := Sane db) ?_ (fun _ hu => hu) h (fits_of_exec hs)).at_end hs
  intro u a hu hfits
  obtain ⟨v, hop, hstep⟩ := step_spec hu hfits (stepMeets_true u a)
  exact ⟨v, hop, hu.stepped hstep⟩

end Db
end Rmdb
