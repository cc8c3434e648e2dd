import Rmdb.Theorems.Txn.CommittedRows

/-! What `abort` takes back. The write set is undone from its end on, and every write of the transaction to a row is undone
by it. An index entry is written under its key alone: undoing the removal of an entry gives the key to the row whose entry
was to be removed, whether it had it or not. -/

namespace Rmdb
open RmFile

namespace Db
variable {T I : Type} {db : Schema T I}

/-- The tables and the indexes are the same. -/
structure Same (s t : Db T I) : Prop where
  rows : ∀ row : T × Rid, t.row row.1 row.2 = s.row row.1 row.2
  ihs : ∀ p, t.ihs p = s.ihs p

/-- The transaction of an action. -/
def actTxn? : Act db → Option Int
  | .begin _ => none
  | .insert id .. | .update id .. | .delete id .. | .commit id | .abort id => some id

variable [DecidableEq I]

/-- The position at a key after the write set of the transaction is undone, if it is `v` now. -/
def undoAt (db : Schema T I) (s : Db T I) (id : Int) (p : I × Bytes) (v : Option Rid) : Option Rid :=
  (s.writes id).foldr (keyUndo db p) v

/-- For what the undo gives it does not matter that the entries that are removed, or those that are inserted, may not be as
    they should: those of the row, and none. -/
def UndoOwn (db : Schema T I) : RowCond T I := fun s id r => ∀ i ∈ r.ixs,
  undoAt db s id (i, db.key i r.old) (some r.rid) = undoAt db s id (i, db.key i r.old) (s.ihs (i, db.key i r.old)) ∧
  (db.key i r.new ≠ db.key i r.old →
    undoAt db s id (i, db.key i r.new) none = undoAt db s id (i, db.key i r.new) (s.ihs (i, db.key i r.new)))

theorem foldr_entries (rid : Rid) (old new : Bytes) (is js : List I) (p : I × Bytes) (v : Option Rid) :
    (deletions db rid old is ++ insertions db rid new js).foldr (keyUndo db p)
        ((deletions db rid old is ++ insertions db rid new js).foldl (keyDo db p) v) =
      if KeyIn db old is p then some rid else if KeyIn db new js p then none else v := by
  rw [List.foldl_append, List.foldr_append, foldl_deletions, foldl_insertions, foldr_insertions, foldr_deletions]
  by_cases hold : KeyIn db old is p <;> by_cases hnew : KeyIn db new js p <;> simp [hold, hnew]

theorem fold_skip {p : I × Bytes} {a b : List (WriteRecord T I)} {w : WriteRecord T I} {row : T × Rid} (hw : w.tuple? = some row)
    (v : Option Rid) : (a ++ w :: b).foldr (keyUndo db p) ((a ++ w :: b).foldl (keyDo db p) v) =
      (a ++ b).foldr (keyUndo db p) ((a ++ b).foldl (keyDo db p) v) := by
  simp only [List.foldl_append, List.foldl_cons, List.foldr_append, List.foldr_cons]
  cases w with
  | insertTuple => rfl
  | updateTuple => rfl
  | deleteTuple => rfl
  | ixInsertTuple => cases hw
  | ixDeleteTuple => cases hw

/-- The entries of a row that meets the condition. -/
theorem undoAt_entries {t : Db T I} {id : Int} {r : RowWork T I} (hown : UndoOwn db t id r) {js : List I} (hjs : js ⊆ r.ixs) (p : I × Bytes) :
    undoAt db t id p (if KeyIn db r.old r.ixs p then some r.rid else if KeyIn db r.new js p then none else t.ihs p) =
      undoAt db t id p (t.ihs p) := by
  by_cases hold : KeyIn db r.old r.ixs p
  · obtain ⟨hmem, hkey⟩ := hold
    have hp : p = (p.1, db.key p.1 r.old) := Prod.ext rfl hkey
    rw [if_pos ⟨hmem, hkey⟩, hp]
    exact (hown p.1 hmem).1
  · rw [if_neg hold]
    by_cases hnew : KeyIn db r.new js p
    · obtain ⟨hmem, hkey⟩ := hnew
      have hp : p = (p.1, db.key p.1 r.new) := Prod.ext rfl hkey
      rw [if_pos ⟨hmem, hkey⟩, hp]
      refine (hown p.1 (hjs hmem)).2 fun heq => hold ⟨hjs hmem, ?_⟩
      rw [hkey, heq]
    · rw [if_neg hnew]

variable [DecidableEq T]

/-- Undoing the write set of the transaction in `t` gives what there was in `s`. -/
structure Undoable (db : Schema T I) (id : Int) (s t : Db T I) : Prop where
  rows : ∀ row : T × Rid, (t.writes id).foldr (rowUndo row) (t.row row.1 row.2) = s.row row.1 row.2
  keys : ∀ p, undoAt db t id p (t.ihs p) = s.ihs p

namespace Undoable
variable {id : Int} {s t u : Db T I}

theorem gained (h : Undoable db id s t) {ws : List (WriteRecord T I)} (hg : Gained db id ws t u)
    (hrows : ∀ r : T × Rid, ws.foldr (rowUndo r) (u.row r.1 r.2) = t.row r.1 r.2)
    (hkeys : ∀ p, undoAt db t id p (ws.foldr (keyUndo db p) (ws.foldl (keyDo db p) (t.ihs p))) = undoAt db t id p (t.ihs p)) :
    Undoable db id s u where
  rows r := by
    rw [hg.1, List.foldr_append, hrows r]
    exact h.rows r
  keys p := by
    rw [← h.keys p, ← hkeys p, undoAt, hg.1, List.foldr_append, hg.2 p]
    rfl

/-- A row that meets the condition loses and gains entries. -/
theorem entries (h : Undoable db id s t) {r : RowWork T I} (hown : UndoOwn db t id r) {js : List I} (hjs : js ⊆ r.ixs)
    {ws : List (WriteRecord T I)} (hg : Gained db id ws t u)
    (hws : ∀ p, ws.foldr (keyUndo db p) (ws.foldl (keyDo db p) (t.ihs p)) =
      (deletions db r.rid r.old r.ixs ++ insertions db r.rid r.new js).foldr (keyUndo db p)
        ((deletions db r.rid r.old r.ixs ++ insertions db r.rid r.new js).foldl (keyDo db p) (t.ihs p)))
    (hrows : ∀ r : T × Rid, ws.foldr (rowUndo r) (u.row r.1 r.2) = t.row r.1 r.2) : Undoable db id s u := by
  refine h.gained hg hrows fun p => ?_
  rw [hws p, foldr_entries, undoAt_entries hown hjs]

theorem quiet (h : Undoable db id s t) {r : RowWork T I} (hown : UndoOwn db t id r)
    (hq : Quiet db id (deletions db r.rid r.old r.ixs) t u) : Undoable db id s u := by
  refine h.entries hown (List.nil_subset _) hq.gained (fun p => ?_) fun row => ?_
  · have hnil : insertions db r.rid r.new [] = [] := rfl
    rw [hnil, List.append_nil]
  · rw [hq.row, foldr_rowUndo_ix hq.onlyIx]

theorem move {a : Act db} (h : Undoable db id s t) (hm : Move (UndoOwn db) id a t u) : Undoable db id s u := by
  cases hm with
  | quiet hq =>
    refine h.gained hq.gained (fun row => ?_) fun p => rfl
    rw [hq.row]
    rfl
  | @insert tab values _ _ rid rec hfree hw =>
    refine h.gained hw.gained hw.foldr_rowUndo fun p => ?_
    rw [fold_skip hw.record, List.nil_append, foldl_insertions, foldr_insertions]
    split
    · next hp =>
      have hnone := hfree p.1 hp.1
      rw [← hp.2] at hnone
      rw [hnone]
    · rfl
  | @update tab rids set _ _ rid old new e hread hset hown hlock hout =>
    cases hout with
    | uniqueCheck pre post i hsplit htaken hpre hq =>
      rw [removed_of_taken hsplit htaken hpre] at hown
      exact h.quiet hown hq
    | abort hfree hq =>
      rw [removed_of_free hfree] at hown
      exact h.quiet hown hq
    | done hfree _ hw =>
      rw [removed_of_free hfree] at hown
      refine h.entries hown (List.Subset.refl _) hw.gained (fun p => ?_) hw.foldr_rowUndo
      rw [fold_skip hw.record, List.append_nil]
  | @deleteFailed tab rids _ _ rid rec hread hown hlock hq => exact h.quiet hown hq
  | @delete tab rids _ _ rid rec hread hown hw =>
    refine h.entries hown (List.nil_subset _) hw.gained (fun p => ?_) hw.foldr_rowUndo
    rw [fold_skip hw.record]
    rfl

theorem moves {a : Act db} (h : Undoable db id s t) (hm : Moves (UndoOwn db) id a t u) : Undoable db id s u := by
  induction hm with
  | refl => exact h
  | tail _ hm ih => exact ih.move hm

/-- What others do without changing tables and indexes. -/
theorem other (h : Undoable db id s t) (hsame : Same t u) (htxn : u.txnMap id = t.txnMap id) : Undoable db id s u where
  rows row := by
    rw [writes_of_txnMap htxn, hsame.rows row]
    exact h.rows row
  keys p := by
    rw [undoAt, writes_of_txnMap htxn, hsame.ihs p]
    exact h.keys p

end Undoable

theorem Stepped.txnMap_ne {C : RowCond T I} {s t : Db T I} {a : Act db} (h : Stepped C s a t) (hs : Sane db s) {id : Int}
    (hid : (s.txnMap id).isSome) (ha : actTxn? a ≠ some id) : t.txnMap id = s.txnMap id := by
  have hne : ∀ {j}, actTxn? a = some j → id ≠ j := by
    rintro j hj rfl
    exact ha hj
  cases h with
  | idle => rfl
  | begin => exact txnMap_begin_ne (hs.ids id hid).2.ne
  | statement _ j _ hj _ hm =>
    refine (Moves.frame hm).others id (hne ?_)
    cases a with
    | insert => exact hj
    | update => exact hj
    | delete => exact hj
    | begin => cases hj
    | commit => cases hj
    | abort => cases hj
  | commit j x hx _ => exact (commitTxn_ended hx).txnMap_ne (hne rfl)
  | abort j x hx => exact (abortTxn_ended hx).txnMap_ne (hne rfl)

end Db

end Rmdb
