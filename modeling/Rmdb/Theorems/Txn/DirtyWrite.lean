import Rmdb.Theorems.Txn.Isolation

/-! Dirty writes: whether an UPDATE or a DELETE changes a row that another active transaction has written.

The row itself is safe. Its index entries are, unless the statement removes them under the key of another row: `delete_entry`
goes by the key alone. -/

namespace Rmdb
open RmFile

namespace Db
variable {T I : Type} {db : Schema T I}

/-- The record, the version chain and the index entries of a row are as they were. -/
structure Untouched (db : Schema T I) (row : T × Rid) (s t : Db T I) : Prop where
  record : t.row row.1 row.2 = s.row row.1 row.2
  chain : t.versionChains row = s.versionChains row
  entries : ∀ i ∈ db.indexes row.1, ∀ key, t.ihs (i, key) = some row.2 ↔ s.ihs (i, key) = some row.2

theorem Untouched.refl (db : Schema T I) (row : T × Rid) (s : Db T I) : Untouched db row s s := ⟨rfl, rfl, fun _ _ _ => Iff.rfl⟩

theorem Untouched.trans {row : T × Rid} {s t u : Db T I} (h : Untouched db row s t) (k : Untouched db row t u) :
    Untouched db row s u :=
  ⟨k.record.trans h.record, k.chain.trans h.chain, fun i hi key => (k.entries i hi key).trans (h.entries i hi key)⟩

/-- No other transaction has written the row that has the key. -/
def NotOthers (s : Db T I) (id : Int) (tab : T) (p : I × Bytes) : Prop :=
  ∀ q, s.ihs p = some q → ∀ j, j ≠ id → ∀ w ∈ s.writes j, w.tuple? ≠ some (tab, q)

/-- The row is not one that transaction 0 has inserted, and the entries that are removed are not those of rows that other
    transactions have written. -/
def RowOwn (db : Schema T I) : RowCond T I := fun s id r =>
  NotOfFirst s id r.row ∧ ∀ i ∈ r.ixs, NotOthers s id r.tab (i, db.key i r.old)

/-- The transaction of an UPDATE or a DELETE. -/
def changer? : Act db → Option Int
  | .update id .. | .delete id .. => some id
  | .begin _ | .insert .. | .commit _ | .abort _ => none

/-- No UPDATE or DELETE touches a row that another active transaction has written. -/
def NoDirtyWrite (db : Schema T I) (s : Db T I) (a : Act db) (t : Db T I) : Prop :=
  ∀ id, changer? a = some id → ∀ writer, writer ≠ id → ∀ w ∈ s.writes writer, ∀ row, w.tuple? = some row →
    Untouched db row s t

variable [DecidableEq I]

/-- Writes of entries of other rows, at keys that the row has not, leave the entries of the row alone. -/
theorem foldl_keyDo_iff {p : I × Bytes} {q : Rid} {ws : List (WriteRecord T I)} {v : Option Rid}
    (hdel : ∀ i rid key, .ixDeleteTuple i rid key ∈ ws → p = (i, db.norm i key) → v ≠ some q)
    (hins : ∀ i rid key, .ixInsertTuple i rid key ∈ ws → rid ≠ q) : ws.foldl (keyDo db p) v = some q ↔ v = some q := by
  induction ws generalizing v with
  | nil => exact Iff.rfl
  | cons w ws ih =>
    have hone : keyDo db p v w = some q ↔ v = some q := by
      cases w with
      | ixInsertTuple i rid key =>
        have hne := hins i rid key List.mem_cons_self
        simp only [keyDo]
        split
        · cases v <;> simp [hne]
        · rfl
      | ixDeleteTuple i rid key =>
        have hne := hdel i rid key List.mem_cons_self
        simp only [keyDo]
        split
        · next hp => simp [hne hp]
        · rfl
      | insertTuple => rfl
      | updateTuple => rfl
      | deleteTuple => rfl
    rw [List.foldl_cons, ih, hone]
    · intro i rid key hmem hp
      rw [Ne, hone]
      exact hdel i rid key (List.mem_cons_of_mem w hmem) hp
    · exact fun i rid key hmem => hins i rid key (List.mem_cons_of_mem w hmem)

/-- The entries of a row when another row loses its old entries and gains new ones. -/
theorem entries_of_gained {s t : Db T I} {id writer : Int} {tab : T} {row : T × Rid} {rid : Rid} {old new : Bytes}
    {is js : List I} {ws : List (WriteRecord T I)} (hgained : Gained db id ws s t)
    (hws : ∀ w ∈ ws, w ∈ deletions db rid old is ∨ w ∈ insertions db rid new js ∨ w.tuple? ≠ none)
    (his : ∀ i ∈ is, i ∈ db.indexes tab ∧ NotOthers s id tab (i, db.key i old)) (hjs : ∀ i ∈ js, i ∈ db.indexes tab)
    (hne : row ≠ (tab, rid)) (hwriter : writer ≠ id) {w : WriteRecord T I} (hw : w ∈ s.writes writer)
    (hrow : w.tuple? = some row) :
    ∀ i ∈ db.indexes row.1, ∀ key, t.ihs (i, key) = some row.2 ↔ s.ihs (i, key) = some row.2 := by
  intro i hi key
  by_cases htab : row.1 = tab
  · rw [hgained.2]
    refine foldl_keyDo_iff ?_ ?_
    · intro k r key' hmem hp hv
      rcases hws _ hmem with hd | hd | hd
      · obtain ⟨k', hk', heq⟩ := mem_deletions hd
        cases heq
        rw [hp] at hv
        refine (his k hk').2 row.2 hv writer hwriter w hw ?_
        rw [hrow, ← htab]
      · obtain ⟨k', -, heq⟩ := mem_insertions hd
        cases heq
      · exact hd rfl
    · intro k r key' hmem
      rcases hws _ hmem with hd | hd | hd
      · obtain ⟨k', -, heq⟩ := mem_deletions hd
        cases heq
      · obtain ⟨k', -, heq⟩ := mem_insertions hd
        cases heq
        exact fun heq => hne (Prod.ext htab heq.symm)
      · exact absurd rfl hd
  · -- the indexes of another table have other keys
    have hother : ∀ k ∈ db.indexes tab, ∀ key', some (k, key') ≠ some (i, key) := by
      intro k hk key' heq
      have hki : k = i := congrArg (·.1) (Option.some.inj heq)
      exact htab (db.disjoint row.1 tab i hi (hki ▸ hk))
    rw [hgained.2, foldl_keyDo]
    intro v hv
    rcases hws v hv with hd | hd | hd
    · obtain ⟨k, hk, rfl⟩ := mem_deletions hd
      exact hother k (his k hk).1 _
    · obtain ⟨k, hk, rfl⟩ := mem_insertions hd
      exact hother k (hjs k hk) _
    · cases v with
      | insertTuple => simp [keyOf]
      | updateTuple => simp [keyOf]
      | deleteTuple => simp [keyOf]
      | ixInsertTuple => exact absurd rfl hd
      | ixDeleteTuple => exact absurd rfl hd

/-- A row that another transaction has written keeps its record, its version chain and its entries when the statement works
    on a row that it has locked and read. -/
theorem untouched_of_gained {s t : Db T I} {id writer : Int} {tab : T} {row : T × Rid} {rid : Rid} {old : Bytes}
    (new : Bytes) (js : List I) {is : List I} {ws : List (WriteRecord T I)} (h : Exclusive db s) (hread : Reads db s id tab rid old)
    (hfirst : NotOfFirst s id (tab, rid)) (hlock : id ∈ t.lockTable (tab, rid)) (hframe : Frame id s t)
    (hrows : ∀ r : T × Rid, r ≠ (tab, rid) → t.row r.1 r.2 = s.row r.1 r.2 ∧ t.versionChains r = s.versionChains r)
    (hgained : Gained db id ws s t)
    (hws : ∀ w ∈ ws, w ∈ deletions db rid old is ∨ w ∈ insertions db rid new js ∨ w.tuple? ≠ none)
    (his : ∀ i ∈ is, i ∈ db.indexes tab ∧ NotOthers s id tab (i, db.key i old)) (hjs : ∀ i ∈ js, i ∈ db.indexes tab)
    (hsane : Sane db t) (hwriter : writer ≠ id) {w : WriteRecord T I} (hw : w ∈ s.writes writer)
    (hrow : w.tuple? = some row) : Untouched db row s t := by
  have hne : row ≠ (tab, rid) := by
    rintro rfl
    exact hwriter (h.no_other hread hfirst (fun j hj => hsane.holder (hframe.locked hj) hlock) hw hrow)
  exact ⟨(hrows row hne).1, (hrows row hne).2, entries_of_gained hgained hws his hjs hne hwriter hw hrow⟩

theorem Quiet.untouched {s t : Db T I} {id : Int} (h : Quiet db id [] s t) (row : T × Rid) : Untouched db row s t where
  record := h.row row.1 row.2
  chain := congrFun h.chains row
  entries i _ key := by rw [h.ihs]

theorem Move.untouched {s t : Db T I} {id writer : Int} {a : Act db} (h : Exclusive db s)
    (hm : Move (RowOwn db) id a s t) (ha : changer? a = some id) (hwriter : writer ≠ id) {w : WriteRecord T I}
    (hw : w ∈ s.writes writer) {row : T × Rid} (hrow : w.tuple? = some row) : Untouched db row s t := by
  have hsane := h.toSane.move hm
  cases hm with
  | quiet hq => exact hq.untouched row
  | insert => cases ha
  | @update tab _ _ _ _ rid old new e hread _ hown hlock hout =>
    have hin : ∀ i ∈ changed db old new (db.indexes tab), i ∈ db.indexes tab := fun i hi => (List.mem_filter.mp hi).1
    obtain ⟨hfirst, hown⟩ := hown
    cases hout with
    | uniqueCheck pre post i hsplit htaken hpre hq =>
      rw [removed_of_taken hsplit htaken hpre] at hown
      refine untouched_of_gained new [] h hread hfirst hlock hq.toFrame
        (fun r _ => ⟨hq.row r.1 r.2, congrFun hq.chains r⟩) hq.gained (fun _ hv => Or.inl hv) (fun k hk => ⟨?_, hown k hk⟩)
        (by simp) hsane hwriter hw hrow
      exact hin k (hsplit ▸ List.mem_append_left _ hk)
    | abort hfree hq =>
      rw [removed_of_free hfree] at hown
      exact untouched_of_gained new [] h hread hfirst hlock hq.toFrame
        (fun r _ => ⟨hq.row r.1 r.2, congrFun hq.chains r⟩) hq.gained (fun _ hv => Or.inl hv)
        (fun k hk => ⟨hin k hk, hown k hk⟩) (by simp) hsane hwriter hw hrow
    | done hfree _ hwr =>
      rw [removed_of_free hfree] at hown
      refine untouched_of_gained new (changed db old new (db.indexes tab)) h hread hfirst hlock hwr.toFrame (fun r hr => ⟨hwr.rows r hr, hwr.chains r hr⟩) hwr.gained
        (fun v hv => ?_) (fun k hk => ⟨hin k hk, hown k hk⟩) hin hsane hwriter hw hrow
      rw [List.mem_append, List.mem_append, List.mem_singleton] at hv
      rcases hv with (hv | hv) | rfl
      · exact Or.inl hv
      · exact Or.inr (Or.inl hv)
      · exact Or.inr (Or.inr (by simp [WriteRecord.tuple?]))
  | @deleteFailed tab _ _ _ rid rec hread hown hlock hq =>
    obtain ⟨hfirst, hown⟩ := hown
    exact untouched_of_gained rec [] h hread hfirst hlock hq.toFrame
      (fun r _ => ⟨hq.row r.1 r.2, congrFun hq.chains r⟩) hq.gained (fun _ hv => Or.inl hv)
      (fun k hk => ⟨hk, hown k hk⟩) (by simp) hsane hwriter hw hrow
  | @delete tab _ _ _ rid rec hread hown hwr =>
    obtain ⟨hfirst, hown⟩ := hown
    refine untouched_of_gained rec [] h hread hfirst hwr.effect.2.2.2 hwr.toFrame
      (fun r hr => ⟨hwr.rows r hr, hwr.chains r hr⟩) hwr.gained (fun v hv => ?_) (fun k hk => ⟨hk, hown k hk⟩) (by simp)
      hsane hwriter hw hrow
    rw [List.mem_append, List.mem_singleton] at hv
    rcases hv with hv | rfl
    · exact Or.inl hv
    · exact Or.inr (Or.inr (by simp [WriteRecord.tuple?]))

theorem Moves.untouched {s t : Db T I} {id writer : Int} {a : Act db} (h : Exclusive db s)
    (hm : Moves (RowOwn db) id a s t) (ha : changer? a = some id) (hwriter : writer ≠ id) {w : WriteRecord T I}
    (hw : w ∈ s.writes writer) {row : T × Rid} (hrow : w.tuple? = some row) : Untouched db row s t := by
  induction hm with
  | refl => exact Untouched.refl db row s
  | tail hms hm ih =>
    refine ih.trans (hm.untouched (h.moves hms fun _ _ _ hC => hC.1) ha hwriter ?_ hrow)
    rwa [(Moves.frame hms).writes_ne hwriter]

variable [DecidableEq T]

theorem stepMeets_of_changer {C : RowCond T I} {s : Db T I} {a : Act db} (h : changer? a = none) : StepMeets C s a := by
  intro id x _ _ _
  cases a with
  | update => cases h
  | delete => cases h
  | begin => trivial
  | insert => trivial
  | commit => trivial
  | abort => trivial

/-- In every run from a fresh server in which no UPDATE or DELETE comes to a row that transaction 0 has inserted or removes
    the entry of a row that another active transaction has written, there is no dirty write. -/
theorem noDirtyWrite_each (db : Schema T I) (as : List (Act db))
    (hrun : Runs.Throughout (step db) (fun s a => s.Fits ∧ StepMeets (RowOwn db) s a) (Db.init db) as) :
    Runs.EachStep (step db) (NoDirtyWrite db) (Db.init db) as := by
  refine Runs.eachStep_of_invariant (I := Exclusive db) ?_ Exclusive.init hrun
  rintro s a hs ⟨hfits, hown⟩
  obtain ⟨t, hop, hstep⟩ := step_spec hs.toSane hfits hown
  refine ⟨t, hop, hs.stepped hstep (fun _ _ _ _ _ hC => hC.1), ?_⟩
  intro id ha writer hwriter w hw row hrow
  cases hstep with
  | idle => exact Untouched.refl db row s
  | begin => cases ha
  | statement _ j _ hj _ hm =>
    have hid : j = id := by
      cases a with
      | update => exact (Option.some.inj hj).symm.trans (Option.some.inj ha)
      | delete => exact (Option.some.inj hj).symm.trans (Option.some.inj ha)
      | begin => cases ha
      | insert => cases ha
      | commit => cases ha
      | abort => cases ha
    subst hid
    exact Moves.untouched hs hm ha hwriter hw hrow
  | commit => cases ha
  | abort => cases ha

end Db

/-! ### Runs on the table with two indexes -/

theorem firstSlot : pairDb.IsSlot () ⟨1, 0⟩ := by decide

theorem secondSlot : pairDb.IsSlot () ⟨1, 1⟩ := by decide

/-- `DELETE FROM t`, with the second row as the one that the scan found. -/
def deleteSecond (id : Int) : Act pairDb := .delete id () [⟨⟨1, 1⟩, secondSlot⟩]

/-- Transactions 1 and 2 insert a row each. -/
def twoInserts : List (Act pairDb) := [.begin true, .begin true, .begin true, pairInsert 1 5 6, pairInsert 2 7 8]

theorem twoInserts_eval : ∃ t, Runs.exec (Db.step pairDb) (Db.init pairDb) twoInserts = .ok t ∧ t.nextTxnId = 3 ∧
    t.row () ⟨1, 1⟩ = some [7, 0, 0, 0, 8, 0, 0, 0] ∧ t.ihs (false, [7, 0, 0, 0]) = some ⟨1, 1⟩ ∧
    t.ihs (true, [8, 0, 0, 0]) = some ⟨1, 1⟩ ∧ (∀ w ∈ t.writes 0, w.tuple? = none) ∧
    ∀ w ∈ t.writes 1, w.tuple? ≠ some ((), ⟨1, 1⟩) := by
  obtain ⟨t, ht, hview⟩ := Runs.exec_eval (Db.step pairDb) (Db.init pairDb) twoInserts
    (fun t => decide (t.nextTxnId = 3 ∧ t.row () ⟨1, 1⟩ = some [7, 0, 0, 0, 8, 0, 0, 0] ∧
      t.ihs (false, [7, 0, 0, 0]) = some ⟨1, 1⟩ ∧ t.ihs (true, [8, 0, 0, 0]) = some ⟨1, 1⟩ ∧
      (∀ w ∈ t.writes 0, w.tuple? = none) ∧ ∀ w ∈ t.writes 1, w.tuple? ≠ some ((), ⟨1, 1⟩))) (b := true) (by decide)
  exact ⟨t, ht, of_decide_eq_true hview⟩

/-- The entries of the second row are not those of a row of transaction 1. -/
theorem rowOwn_twoInserts {s : Db Unit Bool} (h : Runs.exec (Db.step pairDb) (Db.init pairDb) twoInserts = .ok s) :
    Db.StepMeets (Db.RowOwn pairDb) s (deleteSecond 2) := by
  have hsane := Db.Sane.init.exec h
  obtain ⟨t, ht, hnext, hrow, hfst, hsnd, hw₀, hw₁⟩ := twoInserts_eval
  rw [h] at ht
  cases ht
  intro id x hid hx _
  cases hid
  have hq := Db.quiet_setTransaction pairDb s 2 x
  refine ⟨fun rec hget => ⟨fun _ rec' hmem => ?_, fun i _ q hkey j hj w hw heq => ?_⟩, fun _ _ => trivial⟩
  · rw [hq.writes_ne (by decide)] at hmem
    have := hw₀ _ hmem
    cases this
  have hrec : rec = [7, 0, 0, 0, 8, 0, 0, 0] := by
    have := hget.2.2
    rw [hq.row, hrow] at this
    exact (Option.some.inj this).symm
  have hrid : q = ⟨1, 1⟩ := by
    rw [hq.ihs, hrec] at hkey
    cases i with
    | false => exact Option.some.inj (hkey.symm.trans hfst)
    | true => exact Option.some.inj (hkey.symm.trans hsnd)
  subst hrid
  have hact := Db.active_of_write hw
  rw [hq.active] at hact
  rw [hq.writes_ne hj] at hw
  have hids := hsane.ids j hact
  have hj' : j = 0 ∨ j = 1 := by omega
  rcases hj' with rfl | rfl
  · rw [hw₀ w hw] at heq
    cases heq
  · exact hw₁ w hw heq

theorem noDirtyWrite_deleteSecond :
    Runs.EachStep (Db.step pairDb) (Db.NoDirtyWrite pairDb) (Db.init pairDb) (twoInserts ++ [deleteSecond 2]) := by
  obtain ⟨u, hu, -⟩ := Runs.exec_eval (Db.step pairDb) (Db.init pairDb) (twoInserts ++ [deleteSecond 2]) (fun t => t.nextTxnId)
    (b := 3) (by decide)
  refine Db.noDirtyWrite_each pairDb _ ((Db.fits_of_exec hu).and (Runs.Throughout.append ?_ fun s hs => ⟨?_, fun _ _ => trivial⟩))
  · have hacts : ∀ a ∈ twoInserts, Db.changer? a = none := by simp [twoInserts, pairInsert, Db.changer?]
    exact (Runs.throughout_of_forall hacts).imp fun s a h => Db.stepMeets_of_changer h
  · exact rowOwn_twoInserts hs

/-- `DELETE FROM t`, with the first row as the one that the scan found. -/
def deleteFirst (id : Int) : Act pairDb := .delete id () [⟨⟨1, 0⟩, firstSlot⟩]

/-- Transaction 0 inserts a row. -/
def insertByFirst : List (Act pairDb) := [.begin true, .begin true, pairInsert 0 5 6]

/-- The row that transaction 0 inserted is deleted by transaction 1. -/
theorem noDirtyWrite_first : ¬Runs.EachStep (Db.step pairDb) (Db.NoDirtyWrite pairDb) (Db.init pairDb)
    (insertByFirst ++ [deleteFirst 1]) := by
  intro h
  obtain ⟨t, ht, hview⟩ := Runs.exec_eval (Db.step pairDb) (Db.init pairDb) insertByFirst
    (fun t => decide (.insertTuple () ⟨1, 0⟩ [5, 0, 0, 0, 6, 0, 0, 0] ∈ t.writes 0 ∧
      (t.versionChains ((), ⟨1, 0⟩)).isSome = false)) (b := true) (by decide)
  obtain ⟨hwrite, hnone⟩ := of_decide_eq_true hview
  obtain ⟨u, hu, hsome⟩ := Runs.exec_eval (Db.step pairDb) (Db.init pairDb) (insertByFirst ++ [deleteFirst 1])
    (fun t => (t.versionChains ((), ⟨1, 0⟩)).isSome) (b := true) (by decide)
  obtain ⟨v, hv, hdirty⟩ := h.at_exec ht
  have huv : u = v := by
    rw [Runs.exec_append ht, Runs.exec, hv] at hu
    exact (Except.ok.inj hu).symm
  subst huv
  rw [(hdirty 1 rfl 0 (by decide) _ hwrite _ rfl).chain, hnone] at hsome
  cases hsome

end Rmdb
