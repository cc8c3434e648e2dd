import Rmdb.Theorems.Txn.CommittedRows

/-! Deleted rows. DELETE removes the index entries of a row and adds a version to its chain; the record stays in the table
file, where sequential scans find it after the deletion has committed. -/

namespace Rmdb
open RmFile

/-- The row that a record of a DELETE names. -/
def WriteRecord.deleted? {T I : Type} : WriteRecord T I → Option (T × Rid)
  | .deleteTuple t rid _ => some (t, rid)
  | .insertTuple .. | .updateTuple .. | .ixInsertTuple .. | .ixDeleteTuple .. => none

namespace Db
variable {T I : Type} {db : Schema T I}

/-- The step is an INSERT. -/
def inserts : Act db → Bool
  | .insert .. => true
  | .begin _ | .update .. | .delete .. | .commit _ | .abort _ => false

/-- Scans of the transaction do not come to the row. -/
structure Gone (db : Schema T I) (s : Db T I) (id : Int) (row : T × Rid) : Prop where
  seq : ∀ conds rows, s.seqScan db id row.1 conds = .ok rows → ∀ r ∈ rows, r.1 ≠ row.2
  count : ∀ conds rows n, s.seqScan db id row.1 conds = .ok rows → s.countStar db id row.1 conds = .ok n →
    n = rows.countP (·.1 ≠ row.2)
  index : ∀ i ∈ db.indexes row.1, ∀ conds key b, s.indexScanAt db id row.1 i conds key ≠ .ok (some (row.2, b))

theorem countStar_of_seqScan {s : Db T I} {id : Int} {tab : T} {conds : List (Condition (db.tab tab))}
    {rows : List (Rid × Option Bytes)} (h : s.seqScan db id tab conds = .ok rows) :
    s.countStar db id tab conds = .ok rows.length := by
  rw [countStar, h]
  rfl

/-- A row without a record is gone. -/
theorem gone_of_row_none {s : Db T I} (hs : Sane db s) {row : T × Rid} (hrow : s.row row.1 row.2 = none) (id : Int) :
    Gone db s id row := by
  have hseq : ∀ conds rows, s.seqScan db id row.1 conds = .ok rows → ∀ r ∈ rows, r.1 ≠ row.2 := by
    intro conds rows hrows r hr heq
    obtain ⟨rows', hrows', hiff⟩ := seqScan_spec (hs.files row.1) id conds
    rw [hrows] at hrows'
    cases hrows'
    have := ((hiff r).mp hr).1
    rw [heq, hrow] at this
    cases this
  refine ⟨hseq, fun conds rows n hrows hn => ?_, fun i _ conds key b hscan => ?_⟩
  · rw [countStar_of_seqScan hrows] at hn
    cases hn
    refine (List.countP_eq_length.mpr fun r hr => ?_).symm
    simpa using hseq conds rows hrows r hr
  · have hseen := ((indexScanAt_iff (hs.files row.1)).mp hscan).2.1
    rw [seen, hrow, ite_self] at hseen
    cases hseen

theorem not_gone_of_row_some {s : Db T I} (hs : Sane db s) {row : T × Rid} (hrow : (s.row row.1 row.2).isSome) (id : Int) :
    ¬Gone db s id row := by
  intro h
  obtain ⟨rows, hrows, hiff⟩ := seqScan_spec (hs.files row.1) id []
  exact h.seq [] rows hrows (row.2, s.seen db id row.1 row.2) ((hiff _).mpr ⟨hrow, rfl, Or.inl rfl⟩) rfl

section
variable [DecidableEq I]

theorem Moves.row_none {C : RowCond T I} {s t : Db T I} {id : Int} {a : Act db} (hm : Moves C id a s t) (ha : inserts a = false)
    {row : T × Rid} (h : s.row row.1 row.2 = none) : t.row row.1 row.2 = none := by
  induction hm with
  | refl => exact h
  | tail _ hm ih =>
    rcases hm.cases with ⟨ws, hq⟩ | ⟨r, a', w, b, hw, hins, -, -⟩
    · rw [hq.row]
      exact ih
    · have hne : row ≠ r := by
        rintro rfl
        have hrec := hw.record
        have heff := hw.effect
        cases w with
        | insertTuple tab rid rec =>
          obtain ⟨values, rfl⟩ := hins tab rid rec rfl
          cases ha
        | updateTuple tab rid old =>
          cases hrec
          cases heff.1.2.symm.trans ih
        | deleteTuple tab rid rec =>
          cases hrec
          cases heff.1.2.symm.trans ih
        | ixInsertTuple => cases hrec
        | ixDeleteTuple => cases hrec
      rw [hw.rows row hne]
      exact ih

end

variable [DecidableEq T]

/-- The rows that committed transactions have deleted, each with the first id of the transactions that begin afterwards. A
    row is not deleted any more when it is inserted again. -/
def noteDeleted (s : Db T I) (a : Act db) (t : Db T I) (d : T × Rid → Option Int) (row : T × Rid) : Option Int :=
  if inserts a ∧ s.row row.1 row.2 = none ∧ (t.row row.1 row.2).isSome then none
  else match commits? s a with
    | none => d row
    | some id => if ∃ w ∈ s.writes id, w.deleted? = some row then some s.nextTxnId else d row

/-- No scan of a later transaction returns or counts a row whose deletion has committed. -/
def DeletedGone (db : Schema T I) (p : Db T I × (T × Rid → Option Int)) : Prop :=
  ∀ row n, p.2 row = some n → ∀ id, n ≤ id → Gone db p.1 id row

theorem foldr_rowUndo_none {row : T × Rid} (ws : List (WriteRecord T I)) : ws.foldr (rowUndo row) none = none := by
  induction ws with
  | nil => rfl
  | cons w ws ih =>
    rw [List.foldr_cons, ih]
    cases w with
    | insertTuple => exact ite_self _
    | updateTuple => exact ite_self _
    | deleteTuple => rfl
    | ixInsertTuple => rfl
    | ixDeleteTuple => rfl

/-- The transaction that commits, if the step is a commit, has deleted no row whose record is in the table file. -/
def CommitsNoDelete (s : Db T I) (a : Act db) : Prop :=
  ∀ id, commits? s a = some id → ∀ w ∈ s.writes id, ∀ row, w.deleted? = some row → s.row row.1 row.2 = none

variable [DecidableEq I]

theorem Stepped.row_none {C : RowCond T I} {s t : Db T I} {a : Act db} (hs : Sane db s) (h : Stepped C s a t)
    (ha : inserts a = false) {row : T × Rid} (hrow : s.row row.1 row.2 = none) : t.row row.1 row.2 = none := by
  cases h with
  | idle => exact hrow
  | begin => exact hrow
  | statement _ _ _ _ _ hm => exact Moves.row_none hm ha hrow
  | commit => exact hrow
  | abort id x hx => rw [(row_abortTxn hs hx).2 row, hrow, foldr_rowUndo_none]

theorem Stepped.of_commits {C : RowCond T I} {s t : Db T I} {a : Act db} (h : Stepped C s a t) {id : Int}
    (hid : commits? s a = some id) : t.fhs = s.fhs ∧ t.nextTxnId = s.nextTxnId ∧ inserts a = false := by
  cases a with
  | commit j =>
    cases h with
    | idle => exact ⟨rfl, rfl, rfl⟩
    | statement _ _ _ ha => cases ha
    | commit => exact ⟨rfl, rfl, rfl⟩
  | begin => cases hid
  | insert => cases hid
  | update => cases hid
  | delete => cases hid
  | abort => cases hid

/-- Deleted rows are gone in all states of a run from a fresh server exactly when no transaction commits that has deleted a
    row whose record is in the table file. -/
theorem deletedGone_always_iff (db : Schema T I) (as : List (Act db))
    (hfits : Runs.Throughout (step db) (fun s _ => s.Fits) (Db.init db) as) :
    Runs.Always (Runs.noting (step db) noteDeleted) (DeletedGone db) (Db.init db, fun _ => none) as ↔
      Runs.Throughout (step db) CommitsNoDelete (Db.init db) as := by
  rw [← Runs.throughout_noting noteDeleted fun _ => none]
  refine Runs.always_iff_throughout (I := fun p => Sane db p.1 ∧ ∀ row n, p.2 row = some n → p.1.row row.1 row.2 = none)
    (D := fun p _ => p.1.Fits) ?_ (fun p hp row n hn id _ => gone_of_row_none hp.1 (hp.2 row n hn) id)
    ⟨Sane.init, fun _ _ h => by cases h⟩ ((Runs.throughout_noting _ _).mpr hfits)
  rintro ⟨s, d⟩ a ⟨hs, hnone⟩ hfits
  obtain ⟨t, hop, hstep⟩ := step_spec hs hfits (stepMeets_true s a)
  refine ⟨_, Runs.noting_ok hop d, fun hcommit => ⟨hs.stepped hstep, fun row n hn => ?_⟩, fun hcommit hgone => ?_⟩
  · -- a row that stays deleted had no record, and gets none
    have hn : noteDeleted s a t d row = some n := hn
    have hrow : s.row row.1 row.2 = none := by
      simp only [noteDeleted] at hn
      split at hn
      · cases hn
      · split at hn
        · exact hnone row n hn
        · next id hid =>
          split at hn
          · next hw =>
            obtain ⟨w, hw, hdel⟩ := hw
            exact hcommit id hid w hw row hdel
          · exact hnone row n hn
    cases ha : inserts a with
    | false => exact hstep.row_none hs ha hrow
    | true =>
      by_contra hsome
      rw [noteDeleted, if_pos ⟨ha, hrow, Option.isSome_iff_ne_none.mpr hsome⟩] at hn
      cases hn
  · -- a committed deletion of a row with a record: the next transaction counts it
    have hbad : ∃ id, commits? s a = some id ∧ ∃ w ∈ s.writes id, ∃ row, w.deleted? = some row ∧ s.row row.1 row.2 ≠ none := by
      by_contra hno
      exact hcommit fun id hid w hw row hrow => by_contra fun hsome => hno ⟨id, hid, w, hw, row, hrow, hsome⟩
    obtain ⟨id, hid, w, hw, row, hdel, hsome⟩ := hbad
    obtain ⟨hfhs, hnext, ha⟩ := hstep.of_commits hid
    have hn : noteDeleted s a t d row = some s.nextTxnId := by
      rw [noteDeleted, if_neg (by rw [ha]; simp), hid]
      exact if_pos ⟨w, hw, hdel⟩
    have hthere : (t.row row.1 row.2).isSome := by
      rw [Db.row, hfhs]
      exact Option.isSome_iff_ne_none.mpr hsome
    exact not_gone_of_row_some (hs.stepped hstep) hthere t.nextTxnId (hgone row _ hn t.nextTxnId hnext.ge)

end Db

/-- Transaction 1 inserts a row, transaction 2 deletes it, both commit, and transaction 3 begins. -/
def deleteCommit : List (Act pairDb) := insertCommit ++ [deleteFirst 2, .commit 2, .begin true]

theorem deletedGone_iff_deleteCommit :
    Runs.Always (Runs.noting (Db.step pairDb) Db.noteDeleted) (Db.DeletedGone pairDb) (Db.init pairDb, fun _ => none)
      deleteCommit ↔ Runs.Throughout (Db.step pairDb) Db.CommitsNoDelete (Db.init pairDb) deleteCommit := by
  obtain ⟨u, hu, -⟩ := Runs.exec_eval (Db.step pairDb) (Db.init pairDb) deleteCommit (fun t => t.nextTxnId) (b := 4)
    (by decide)
  exact Db.deletedGone_always_iff pairDb deleteCommit (Db.fits_of_exec hu)

/-- Transaction 3 reads the deleted row. -/
theorem deletedGone_returned : ¬Runs.Always (Runs.noting (Db.step pairDb) Db.noteDeleted) (Db.DeletedGone pairDb)
    (Db.init pairDb, fun _ => none) deleteCommit := by
  intro h
  obtain ⟨p, hp, hview⟩ := Runs.exec_eval (Runs.noting (Db.step pairDb) Db.noteDeleted) (Db.init pairDb, fun _ => none)
    deleteCommit (fun p => decide (p.2 ((), ⟨1, 0⟩) = some 3 ∧
      (p.1.seqScan pairDb 3 () []).toOption = some [(⟨1, 0⟩, some [5, 0, 0, 0, 6, 0, 0, 0])])) (b := true) (by decide +kernel)
  obtain ⟨hdel, hscan⟩ := of_decide_eq_true hview
  have hgone := h.at_end hp ((), ⟨1, 0⟩) 3 hdel 3 (by decide)
  cases hrows : p.1.seqScan pairDb 3 () [] with
  | error e =>
    rw [hrows] at hscan
    cases hscan
  | ok rows =>
    rw [hrows] at hscan
    cases hscan
    exact hgone.seq [] _ hrows _ List.mem_cons_self rfl

end Rmdb
