import Rmdb.Theorems.Txn.DirtyWrite
import Rmdb.Theorems.Txn.Scans

/-! Committed rows under uncommitted writes.

An UPDATE overwrites the record in the table file, and a reader is sent away by its mark: the version chain that holds the
committed record is not read. `Based`: undoing what its writer has done to a row gives the committed record back. -/

namespace Rmdb
open RmFile

namespace Db
variable {T I : Type} {db : Schema T I} [DecidableEq T]

/-- The transaction that a step commits. -/
def commits? (s : Db T I) : Act db → Option Int
  | .commit id => if (s.txnMap id).any (fun x => !x.mustAbort) then some id else none
  | .begin _ | .insert .. | .update .. | .delete .. | .abort _ => none

/-- The last record of a row in a write set. -/
def lastOn (row : T × Rid) (ws : List (WriteRecord T I)) : Option (WriteRecord T I) :=
  ws.reverse.find? fun w => w.tuple? = some row

/-- What a commit leaves of a row, after the last record of it: nothing after a DELETE. -/
def committedOf (v : Option Bytes) : WriteRecord T I → Option Bytes
  | .deleteTuple .. => none
  | .insertTuple .. | .updateTuple .. | .ixInsertTuple .. | .ixDeleteTuple .. => v

/-- The committed records of the rows after a step. -/
def noteCommit (s : Db T I) (a : Act db) (_ : Db T I) (c : T × Rid → Option Bytes) (row : T × Rid) : Option Bytes :=
  match commits? s a with
  | none => c row
  | some id => ((lastOn row (s.writes id)).map (committedOf (s.row row.1 row.2))).getD (c row)

section
variable {s t : Db T I} {c : T × Rid → Option Bytes} {row : T × Rid} {ws : List (WriteRecord T I)} {a : Act db}

theorem lastOn_none (h : ∀ w ∈ ws, w.tuple? ≠ some row) : lastOn row ws = none := by
  refine List.find?_eq_none.mpr fun w hw => ?_
  simpa using h w (List.mem_reverse.mp hw)

theorem lastOn_some {w : WriteRecord T I} (hw : w ∈ ws) (hrow : w.tuple? = some row) :
    ∃ v ∈ ws, lastOn row ws = some v ∧ v.tuple? = some row := by
  have hsome : (lastOn row ws).isSome := List.find?_isSome.mpr ⟨w, List.mem_reverse.mpr hw, by simpa using hrow⟩
  obtain ⟨v, hv⟩ := Option.isSome_iff_exists.mp hsome
  refine ⟨v, List.mem_reverse.mp (List.mem_of_find?_eq_some hv), hv, ?_⟩
  simpa using List.find?_some hv

theorem noteCommit_of_none (h : commits? s a = none) : noteCommit s a t c = c := by
  funext row
  rw [noteCommit, h]

end

/-- The committed record of a row is what undoing its writer leaves. -/
structure Based (s : Db T I) (c : T × Rid → Option Bytes) : Prop where
  written : ∀ row b, c row = some b → ∀ id, ∀ w ∈ s.writes id, w.tuple? = some row →
    (s.writes id).foldr (rowUndo row) (s.row row.1 row.2) = some b
  free : ∀ row b, c row = some b → (∀ id, ∀ w ∈ s.writes id, w.tuple? ≠ some row) → s.row row.1 row.2 = some b

namespace Based
variable {s t : Db T I} {c : T × Rid → Option Bytes} {id : Int} {row : T × Rid} {b : Bytes}

theorem init : Based (Db.init db) fun _ => none where
  written _ _ h := by cases h
  free _ _ h := by cases h

/-- A committed row is there. -/
theorem there (h : Based s c) (hs : Exclusive db s) (hc : c row = some b) : (s.row row.1 row.2).isSome := by
  by_cases hw : ∃ id, ∃ w ∈ s.writes id, w.tuple? = some row
  · obtain ⟨id, w, hw, hrow⟩ := hw
    exact hs.occupied id w hw row hrow
  · rw [h.free row b hc fun id w hmem hrow => hw ⟨id, w, hmem, hrow⟩]
    rfl

/-- Undoing the transaction that may write the row gives the committed record. -/
theorem undo (h : Based s c) (hc : c row = some b) (hid : ∀ j, ∀ w ∈ s.writes j, w.tuple? = some row → j = id) :
    (s.writes id).foldr (rowUndo row) (s.row row.1 row.2) = some b := by
  by_cases hw : ∃ w ∈ s.writes id, w.tuple? = some row
  · obtain ⟨w, hw, hrow⟩ := hw
    exact h.written row b hc id w hw hrow
  · rw [foldr_rowUndo fun w hmem hm => hw ⟨w, hmem, WriteRecord.tuple?_of_marked hm⟩]
    refine h.free row b hc fun j w hmem hrow => ?_
    have hj := hid j w hmem hrow
    subst hj
    exact hw ⟨w, hmem, hrow⟩

theorem begin (h : Based s c) (hs : Sane db s) (txnMode : Bool) : Based (s.begin txnMode) c where
  written row b hc j w hw hrow := by
    rw [writes_begin hs] at hw ⊢
    exact h.written row b hc j w hw hrow
  free row b hc hno := h.free row b hc fun j w hw => hno j w (by rwa [writes_begin hs])

section
variable [DecidableEq I] {a ws : List (WriteRecord T I)} {w : WriteRecord T I} {r : T × Rid}

theorem quiet (h : Based s c) (hq : Quiet db id ws s t) : Based t c where
  written row b hc j w hw hrow := by
    rw [hq.row]
    by_cases hj : j = id
    · subst hj
      rw [hq.gained.1, List.mem_append] at hw
      rw [hq.gained.1, List.foldr_append, foldr_rowUndo_ix hq.onlyIx]
      rcases hw with hw | hw
      · exact h.written row b hc j w hw hrow
      · rw [hq.onlyIx w hw] at hrow
        cases hrow
    · rw [hq.writes_ne hj] at hw ⊢
      exact h.written row b hc j w hw hrow
  free row b hc hno := by
    rw [hq.row]
    refine h.free row b hc fun j w hw => hno j w ?_
    by_cases hj : j = id
    · subst hj
      rw [hq.gained.1]
      exact List.mem_append_left _ hw
    · rwa [hq.writes_ne hj]

theorem wrote (h : Based s c) (hs : Exclusive db s) (hw : Wrote db id row a w ws s t)
    (hfirst : (∃ rec, w = .insertTuple row.1 row.2 rec) ∨ NotOfFirst s id row) : Based t c where
  written r b hc j v hv hr := by
    have hfold : (t.writes id).foldr (rowUndo r) (t.row r.1 r.2) = (s.writes id).foldr (rowUndo r) (s.row r.1 r.2) := by
      rw [hw.gained.1, List.foldr_append, hw.foldr_rowUndo r]
    by_cases hrr : r = row
    · subst hrr
      have hj : j = id := by
        rcases Exclusive.mem_writes hw hv hr with hv | ⟨rfl, -, -⟩
        · exact hs.wrote_single hw hfirst hv hr
        · rfl
      subst hj
      rw [hfold]
      exact h.undo hc fun k u hu hur => hs.wrote_single hw hfirst hu hur
    · have hv' : v ∈ s.writes j := by
        rcases Exclusive.mem_writes hw hv hr with hv | ⟨-, -, heq⟩
        · exact hv
        · exact absurd heq hrr
      by_cases hj : j = id
      · subst hj
        rw [hfold]
        exact h.written r b hc j v hv' hr
      · rw [hw.writes_ne hj, hw.rows r hrr]
        exact h.written r b hc j v hv' hr
  free r b hc hno := by
    have hrr : r ≠ row := by
      rintro rfl
      refine hno id w ?_ hw.record
      rw [hw.gained.1]
      simp
    rw [hw.rows r hrr]
    refine h.free r b hc fun j v hv => hno j v ?_
    by_cases hj : j = id
    · subst hj
      rw [hw.gained.1]
      exact List.mem_append_left _ hv
    · rwa [hw.writes_ne hj]

end

/-- The rows of a transaction that ends have their committed records. -/
theorem ended {x : Transaction T I} {c' : T × Rid → Option Bytes} (h : Based s c) (hs : Exclusive db s)
    (hE : Ended db id x s t)
    (hown : ∀ row b, c' row = some b → ∀ w ∈ s.writes id, w.tuple? = some row → t.row row.1 row.2 = some b)
    (hother : ∀ row, (∀ w ∈ s.writes id, w.tuple? ≠ some row) → c' row = c row ∧ t.row row.1 row.2 = s.row row.1 row.2) :
    Based t c' where
  written row b hc j w hw hrow := by
    obtain ⟨hj, hw⟩ := hE.writes hw
    obtain ⟨hc', hrow'⟩ := hother row fun v hv hvr => hj (hs.single j id w hw v hv row hrow hvr)
    rw [hrow', writes_of_txnMap (hE.txnMap_ne hj)]
    exact h.written row b (hc' ▸ hc) j w hw hrow
  free row b hc hno := by
    by_cases hw : ∃ w ∈ s.writes id, w.tuple? = some row
    · obtain ⟨w, hw, hrow⟩ := hw
      exact hown row b hc w hw hrow
    · obtain ⟨hc', hrow'⟩ := hother row fun v hv hvr => hw ⟨v, hv, hvr⟩
      rw [hrow']
      refine h.free row b (hc' ▸ hc) fun j v hv hvr => ?_
      by_cases hj : j = id
      · subst hj
        exact hw ⟨v, hv, hvr⟩
      · refine hno j v ?_ hvr
        rwa [writes_of_txnMap (hE.txnMap_ne hj)]

variable [DecidableEq I] {C : RowCond T I} {a : Act db}

theorem moves (h : Based s c) (hs : Exclusive db s) (hm : Moves C id a s t)
    (hfirst : ∀ u r, C u id r → NotOfFirst u id r.row) : Based t c := by
  induction hm with
  | refl => exact h
  | tail hms hm ih =>
    have hu := hs.moves hms fun u r _ => hfirst u r
    rcases hm.cases with ⟨ws, hq⟩ | ⟨row, a', w, b, hw, -, -, hins | ⟨r, hC, rfl⟩⟩
    · exact ih.quiet hq
    · exact ih.wrote hu hw (Or.inl hins)
    · exact ih.wrote hu hw (Or.inr (hfirst _ r hC))

theorem stepped (h : Based s c) (hs : Exclusive db s) (hstep : Stepped C s a t)
    (hfirst : ∀ u id r, C u id r → NotOfFirst u id r.row) : Based t (noteCommit s a t c) := by
  cases hstep with
  | idle _ hidle =>
    rw [noteCommit_of_none]
    · exact h
    · cases a with
      | commit id =>
        cases hx : s.txnMap id with
        | none => simp [commits?, hx]
        | some x => simp [commits?, hx, hidle x hx]
      | begin => rfl
      | insert => rfl
      | update => rfl
      | delete => rfl
      | abort => rfl
  | begin txnMode =>
    rw [noteCommit_of_none rfl]
    exact h.begin hs.toSane txnMode
  | statement _ id _ ha _ hm =>
    rw [noteCommit_of_none]
    · exact h.moves hs hm fun u => hfirst u id
    · cases a with
      | commit => cases ha
      | begin => rfl
      | insert => rfl
      | update => rfl
      | delete => rfl
      | abort => rfl
  | commit id x hx hmust =>
    have hcommit : commits? s (.commit id : Act db) = some id := by simp [commits?, hx, hmust]
    refine h.ended hs (commitTxn_ended hx) (fun row b hc w hw hrow => ?_) fun row hno => ⟨?_, rfl⟩
    · obtain ⟨v, -, hlast, hv⟩ := lastOn_some hw hrow
      simp only [noteCommit, hcommit, hlast, Option.map_some, Option.getD_some] at hc
      cases v with
      | deleteTuple => cases hc
      | insertTuple => exact hc
      | updateTuple => exact hc
      | ixInsertTuple => cases hv
      | ixDeleteTuple => cases hv
    · simp only [noteCommit, hcommit, lastOn_none hno, Option.map_none, Option.getD_none]
  | abort id x hx =>
    rw [noteCommit_of_none rfl]
    obtain ⟨-, hrows⟩ := row_abortTxn hs.toSane hx
    refine h.ended hs (abortTxn_ended hx) (fun row b hc w hw hrow => ?_) fun row hno => ⟨rfl, ?_⟩
    · rw [hrows row, ← writes_some hx]
      exact h.written row b hc id w hw hrow
    · rw [hrows row, ← writes_some hx, foldr_rowUndo]
      exact fun v hv hm => hno v hv (WriteRecord.tuple?_of_marked hm)

end Based

/-! ### Reading a committed row -/

/-- Scans of the transaction return the row with the record. -/
structure Readable (db : Schema T I) (s : Db T I) (id : Int) (row : T × Rid) (b : Bytes) : Prop where
  seq : ∀ conds, evalConds conds b = true → ∃ rows, s.seqScan db id row.1 conds = .ok rows ∧ (row.2, some b) ∈ rows
  index : ∀ i ∈ db.indexes row.1, ∀ conds, cmpConds conds b = true →
    s.indexScanAt db id row.1 i conds (db.key i b) = .ok (some (row.2, b))

/-- No other transaction has updated the row, or only transaction 0, which left its record as it was. -/
def Unchanged (s : Db T I) (id : Int) (row : T × Rid) (b : Bytes) : Prop :=
  ∀ j, j ≠ id → ∀ old, .updateTuple row.1 row.2 old ∈ s.writes j → j = 0 ∧ s.row row.1 row.2 = some b

section
variable {s : Db T I} {c : T × Rid → Option Bytes} {id : Int} {row : T × Rid} {b : Bytes}

theorem visitRecord_first (id : Int) : visitRecord (some (insertMark 0)) id = .success := rfl

/-- A transaction that has not written a committed row sees its committed record, unless another one has updated it. -/
theorem seen_iff_unchanged (hs : Exclusive db s) (h : Based s c) (hc : c row = some b)
    (hid : ∀ w ∈ s.writes id, w.tuple? ≠ some row) : s.seen db id row.1 row.2 = some b ↔ Unchanged s id row b := by
  constructor
  · intro hseen j hj old hold
    rw [seen] at hseen
    split at hseen
    · next hvisit =>
      refine ⟨?_, hseen⟩
      by_contra hzero
      have hpos : 0 < j := by
        have := hs.ids j (active_of_write hold)
        omega
      rw [hs.marked j _ hold row rfl, visitRecord_insertMark hpos] at hvisit
      exact hj hvisit.symm
    · cases hseen
  · intro hun
    have hslot := (inFile_of_row (hs.files row.1) (h.there hs hc)).1
    have hins : ∀ j rec, .insertTuple row.1 row.2 rec ∉ s.writes j := by
      intro j rec hmem
      have := h.written row b hc j _ hmem rfl
      rw [foldr_rowUndo_insert hmem] at this
      cases this
    have hvisit : visitRecord (s.mvccMap (row.1, db.slot row.1 row.2)) id = .success := by
      cases hm : s.mvccMap (row.1, db.slot row.1 row.2) with
      | none => rfl
      | some f =>
        obtain ⟨j, w, hw, r, hr, heq⟩ := hs.owned _ f hm
        have hrr := Exclusive.row_of_mark hslot (hs.slots j w hw r (WriteRecord.tuple?_of_marked hr)) heq
        subst hrr
        have hj : j ≠ id := by
          rintro rfl
          exact hid w hw (WriteRecord.tuple?_of_marked hr)
        cases w with
        | insertTuple tab rid rec =>
          cases hr
          exact absurd hw (hins j rec)
        | updateTuple tab rid old =>
          cases hr
          obtain ⟨rfl, -⟩ := hun j hj old hw
          rw [← hm, hs.marked 0 _ hw (tab, rid) rfl]
          exact visitRecord_first id
        | deleteTuple => cases hr
        | ixInsertTuple => cases hr
        | ixDeleteTuple => cases hr
    rw [seen, if_pos hvisit]
    by_cases hupd : ∃ j old, .updateTuple row.1 row.2 old ∈ s.writes j
    · obtain ⟨j, old, hold⟩ := hupd
      refine (hun j ?_ old hold).2
      rintro rfl
      exact hid _ hold rfl
    · -- the row is at most deleted, and a DELETE leaves the record where it is
      by_cases hw : ∃ j, ∃ w ∈ s.writes j, w.tuple? = some row
      · obtain ⟨j, w, hw, hr⟩ := hw
        have hbase := h.written row b hc j w hw hr
        rwa [foldr_rowUndo] at hbase
        intro v hv hm
        cases v with
        | insertTuple tab rid rec =>
          cases hm
          exact hins j rec hv
        | updateTuple tab rid old =>
          cases hm
          exact hupd ⟨j, old, hv⟩
        | deleteTuple => cases hm
        | ixInsertTuple => cases hm
        | ixDeleteTuple => cases hm
      · exact h.free row b hc fun j w hmem hr => hw ⟨j, w, hmem, hr⟩

/-- When the scans of a transaction return a committed row that it has not written. -/
theorem readable_iff (hs : Exclusive db s) (h : Based s c) (hc : c row = some b)
    (hid : ∀ w ∈ s.writes id, w.tuple? ≠ some row) :
    Readable db s id row b ↔ Unchanged s id row b ∧ ∀ i ∈ db.indexes row.1, s.ihs (i, db.key i b) = some row.2 := by
  have hseen := seen_iff_unchanged hs h hc hid
  have hthere := h.there hs hc
  constructor
  · intro hread
    obtain ⟨rows, hrows, hmem⟩ := hread.seq [] rfl
    obtain ⟨rows', hrows', hiff⟩ := seqScan_spec (hs.files row.1) id []
    rw [hrows] at hrows'
    cases hrows'
    refine ⟨hseen.mp ((hiff _).mp hmem).2.1.symm, fun i hi => ?_⟩
    exact ((indexScanAt_iff (hs.files row.1)).mp (hread.index i hi [] rfl)).1
  · rintro ⟨hun, hkeys⟩
    have hval := hseen.mpr hun
    constructor
    · intro conds heval
      obtain ⟨rows, hrows, hiff⟩ := seqScan_spec (hs.files row.1) id conds
      exact ⟨rows, hrows, (hiff _).mpr ⟨hthere, hval.symm, Or.inr ⟨b, rfl, heval⟩⟩⟩
    · exact fun i hi conds heval => (indexScanAt_iff (hs.files row.1)).mpr ⟨hkeys i hi, hval, heval⟩

end

/-- The committed rows that a transaction has not written are returned by its scans. -/
def CommittedReadable (db : Schema T I) (p : Db T I × (T × Rid → Option Bytes)) : Prop :=
  ∀ row b id, p.2 row = some b → (∀ w ∈ p.1.writes id, w.tuple? ≠ some row) → Readable db p.1 id row b

/-- Exactly the committed rows that no other transaction has updated, and whose index entries are there, are. -/
def CommittedReadableIff (db : Schema T I) (p : Db T I × (T × Rid → Option Bytes)) : Prop :=
  ∀ row b id, p.2 row = some b → (∀ w ∈ p.1.writes id, w.tuple? ≠ some row) →
    (Readable db p.1 id row b ↔
      Unchanged p.1 id row b ∧ ∀ i ∈ db.indexes row.1, p.1.ihs (i, db.key i b) = some row.2)

/-- In every run from a fresh server in which no UPDATE or DELETE comes to a row that transaction 0 has inserted, a committed
    row that a transaction has not written is returned by its scans exactly when no other one has updated it and its entries
    are there. -/
theorem committedReadable_iff_always [DecidableEq I] (db : Schema T I) (as : List (Act db))
    (hrun : Runs.Throughout (step db)
      (fun s a => s.Fits ∧ StepMeets (fun u id r => NotOfFirst u id r.row) s a) (Db.init db) as) :
    Runs.Always (Runs.noting (step db) noteCommit) (CommittedReadableIff db) (Db.init db, fun _ => none) as := by
  refine Runs.always_of_invariant (I := fun p => Exclusive db p.1 ∧ Based p.1 p.2) ?_ ?_ ⟨Exclusive.init, Based.init⟩
    ((Runs.throughout_noting _ _).mpr hrun)
  · rintro ⟨s, c⟩ a ⟨hs, hbase⟩ ⟨hfits, hmeet⟩
    obtain ⟨t, hop, hstep⟩ := step_spec hs.toSane hfits hmeet
    refine ⟨_, Runs.noting_ok hop c, hs.stepped hstep fun _ _ _ _ _ h => h, ?_⟩
    exact hbase.stepped hs hstep fun _ _ _ h => h
  · exact fun p hp row b id hc hid => readable_iff hp.1 hp.2 hc hid

end Db

theorem numCol_mem : numCol ∈ pairTab.cols := by decide

theorem numCol_length (n : UInt8) : [n, 0, 0, 0].length = numCol.len := rfl

/-- `SET a = n`. -/
def setNum (n : UInt8) : SetClause pairTab := ⟨numCol, numCol_mem, fun _ => .ok ⟨[n, 0, 0, 0], numCol_length n⟩⟩

/-- `UPDATE t SET a = n`, with the first row as the one that the scan found. -/
def updateFirst (id : Int) (n : UInt8) : Act pairDb := .update id () [⟨⟨1, 0⟩, firstSlot⟩] [setNum n]

/-- Transaction 1 inserts a row and commits, and transaction 2 updates it. -/
def insertCommit : List (Act pairDb) := [.begin true, .begin true, .begin true, pairInsert 1 5 6, .commit 1]

theorem committedReadable_updated : Runs.Always (Runs.noting (Db.step pairDb) Db.noteCommit) (Db.CommittedReadableIff pairDb)
    (Db.init pairDb, fun _ => none) (insertCommit ++ [updateFirst 2 9]) := by
  obtain ⟨u, hu, -⟩ := Runs.exec_eval (Db.step pairDb) (Db.init pairDb) (insertCommit ++ [updateFirst 2 9])
    (fun t => t.nextTxnId) (b := 3) (by decide)
  refine Db.committedReadable_iff_always pairDb _
    ((Db.fits_of_exec hu).and (Runs.Throughout.append ?_ fun s hs => ⟨?_, fun _ _ => trivial⟩))
  · have hacts : ∀ a ∈ insertCommit, Db.changer? a = none := by simp [insertCommit, pairInsert, Db.changer?]
    exact (Runs.throughout_of_forall hacts).imp fun s a h => Db.stepMeets_of_changer h
  · obtain ⟨t, ht, hw₀⟩ := Runs.exec_eval (Db.step pairDb) (Db.init pairDb) insertCommit (fun t => t.writes 0) (b := [])
      (by decide)
    rw [hs] at ht
    cases ht
    intro id x hid _ _
    cases hid
    have hq := Db.quiet_setTransaction pairDb s 2 x
    refine ⟨fun old new _ _ _ rec hmem => ?_, fun _ _ => trivial⟩
    rw [hq.writes_ne (by decide), hw₀] at hmem
    cases hmem

/-- The row is hidden from transaction 0 until transaction 2 ends. -/
theorem committedReadable_hidden : ¬Runs.Always (Runs.noting (Db.step pairDb) Db.noteCommit) (Db.CommittedReadable pairDb)
    (Db.init pairDb, fun _ => none) (insertCommit ++ [updateFirst 2 9]) := by
  intro h
  obtain ⟨p, hp, hview⟩ := Runs.exec_eval (Runs.noting (Db.step pairDb) Db.noteCommit) (Db.init pairDb, fun _ => none)
    (insertCommit ++ [updateFirst 2 9])
    (fun p => decide (p.2 ((), ⟨1, 0⟩) = some [5, 0, 0, 0, 6, 0, 0, 0] ∧ p.1.writes 0 = [] ∧
      (p.1.seqScan pairDb 0 () []).toOption = some [(⟨1, 0⟩, none)])) (b := true) (by decide +kernel)
  obtain ⟨hc, hw₀, hscan⟩ := of_decide_eq_true hview
  have hread := h.at_end hp ((), ⟨1, 0⟩) _ 0 hc (by rw [hw₀]; simp)
  obtain ⟨rows, hrows, hmem⟩ := hread.seq [] rfl
  rw [hrows] at hscan
  cases hscan
  simp at hmem

end Rmdb
