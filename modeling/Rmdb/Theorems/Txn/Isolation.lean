import Rmdb.Theorems.Txn.Undo
import Rmdb.Theorems.Exec.LoadIndex

/-! Isolation of uncommitted writes.

`Exclusive`: a row with an uncommitted write has one writer. The row is there, its mark names the writer if it was inserted or
updated, and the writer holds its lock if it was updated or deleted. It is kept as long as no UPDATE or DELETE comes to a row
that transaction 0 has inserted: INSERT takes no lock, and the mark of transaction 0 hides nothing. -/

namespace Rmdb
open RmFile

/-- The mark of a transaction other than 0 is seen by that transaction only. -/
theorem visitRecord_insertMark {j id : Int} (hj : 0 < j) : visitRecord (some (insertMark j)) id = .success ↔ id = j := by
  have h₁ : ¬(0 < (insertMark j).xmin ∧ 0 < (insertMark j).xmax) := by
    simp only [insertMark]
    omega
  have h₂ : (insertMark j).xmin < 0 := by
    simp only [insertMark]
    omega
  simp only [visitRecord, if_neg h₁, if_pos h₂]
  simp only [insertMark, Int.neg_neg]
  by_cases h : j = id
  · simp [h]
  · simp [h, Ne.symm h]

namespace Db
variable {T I : Type} {db : Schema T I}

/-- The row is not an uncommitted one that transaction 0 inserted, for another transaction. -/
def NotOfFirst (s : Db T I) (id : Int) (row : T × Rid) : Prop := id ≠ 0 → ∀ rec, .insertTuple row.1 row.2 rec ∉ s.writes 0

/-- One writer to a row. -/
structure Exclusive (db : Schema T I) (s : Db T I) : Prop extends Sane db s where
  occupied : ∀ id, ∀ w ∈ s.writes id, ∀ row, w.tuple? = some row → (s.row row.1 row.2).isSome
  marked : ∀ id, ∀ w ∈ s.writes id, ∀ row, w.marked? = some row → s.mvccMap (row.1, db.slot row.1 row.2) = some (insertMark id)
  locked : ∀ id, ∀ w ∈ s.writes id, ∀ row, w.locked? = some row → id ∈ s.lockTable row
  single : ∀ id j, ∀ w ∈ s.writes id, ∀ v ∈ s.writes j, ∀ row, w.tuple? = some row → v.tuple? = some row → id = j
  owned : ∀ m f, s.mvccMap m = some f → ∃ id, ∃ w ∈ s.writes id, ∃ row, w.marked? = some row ∧ m = (row.1, db.slot row.1 row.2)

namespace Exclusive
variable {s t : Db T I} {id : Int}

theorem init : Exclusive db (Db.init db) where
  toSane := Sane.init
  occupied _ _ hw := by cases hw
  marked _ _ hw := by cases hw
  locked _ _ hw := by cases hw
  single _ _ _ hw := by cases hw
  owned _ _ h := by cases h

/-- A row that a transaction sees and has locked has no other writer. -/
theorem no_other (h : Exclusive db s) {tab : T} {rid : Rid} {rec : Bytes} (hread : Reads db s id tab rid rec)
    (hfirst : NotOfFirst s id (tab, rid)) (hlock : ∀ j ∈ s.lockTable (tab, rid), j = id) {j : Int} {v : WriteRecord T I} (hv : v ∈ s.writes j)
    (hrow : v.tuple? = some (tab, rid)) : j = id := by
  cases v with
  | insertTuple tab' rid' rec' =>
    cases hrow
    have hmark := h.marked j _ hv (tab, rid) rfl
    by_contra hj
    have hzero : j ≠ 0 := by
      rintro rfl
      exact hfirst (Ne.symm hj) rec' hv
    have hpos : 0 < j := by
      have := h.ids j (active_of_write hv)
      omega
    have hvisit := hread.1
    rw [hmark, visitRecord_insertMark hpos] at hvisit
    exact hj hvisit.symm
  | updateTuple tab' rid' old =>
    cases hrow
    exact hlock j (h.locked j _ hv (tab, rid) rfl)
  | deleteTuple tab' rid' rec' =>
    cases hrow
    exact hlock j (h.locked j _ hv (tab, rid) rfl)
  | ixInsertTuple => cases hrow
  | ixDeleteTuple => cases hrow

/-- Two rows with one mark are one row. -/
theorem row_of_mark {r q : T × Rid} (hr : db.IsSlot r.1 r.2) (hq : db.IsSlot q.1 q.2)
    (h : (r.1, db.slot r.1 r.2) = (q.1, db.slot q.1 q.2)) : r = q := by
  obtain ⟨tab, rid⟩ := r
  obtain ⟨tab', rid'⟩ := q
  simp only [Prod.mk.injEq] at h
  obtain ⟨rfl, h⟩ := h
  exact congrArg (Prod.mk tab) (slot_inj hr hq h)

theorem begin (h : Exclusive db s) (txnMode : Bool) : Exclusive db (s.begin txnMode) where
  toSane := h.toSane.begin txnMode
  occupied j w hw := h.occupied j w (writes_begin h.toSane ▸ hw)
  marked j w hw := h.marked j w (writes_begin h.toSane ▸ hw)
  locked j w hw := h.locked j w (writes_begin h.toSane ▸ hw)
  single j k w hw v hv := h.single j k w (writes_begin h.toSane ▸ hw) v (writes_begin h.toSane ▸ hv)
  owned m f hm := by
    obtain ⟨j, w, hw, row, hrow, heq⟩ := h.owned m f hm
    exact ⟨j, w, by rwa [writes_begin h.toSane], row, hrow, heq⟩

theorem mark_mem {x : Transaction T I} (hx : s.txnMap id = some x) {w : WriteRecord T I} (hw : w ∈ s.writes id) {row : T × Rid}
    (hrow : w.tuple? = some row) :
    (row.1, db.slot row.1 row.2) ∈ (rowsOf x.writeSet).map fun row => (row.1, db.slot row.1 row.2) := by
  rw [writes_some hx] at hw
  exact List.mem_map_of_mem (List.mem_filterMap.mpr ⟨w, hw, hrow⟩)

section
variable [DecidableEq T] {x : Transaction T I}

theorem ended (h : Exclusive db s) (hE : Ended db id x s t) (hfiles : ∀ tab, Sound (db.recordSize tab) (t.fhs tab))
    (hrows : ∀ r : T × Rid, (∀ w ∈ s.writes id, w.tuple? ≠ some r) → t.row r.1 r.2 = s.row r.1 r.2) : Exclusive db t where
  toSane := hE.sane h.toSane hfiles
  occupied j w hw row hrow := by
    obtain ⟨hj, hw⟩ := hE.writes hw
    rw [hrows row fun v hv hvr => hj (h.single j id w hw v hv row hrow hvr)]
    exact h.occupied j w hw row hrow
  marked j w hw row hrow := by
    obtain ⟨hj, hw⟩ := hE.writes hw
    rw [hE.mvccMap, if_neg]
    · exact h.marked j w hw row hrow
    · intro hmem
      obtain ⟨r, hr, heq⟩ := List.mem_map.mp hmem
      obtain ⟨v, hv, hvr⟩ := List.mem_filterMap.mp hr
      rw [← writes_some hE.txn] at hv
      have hwr := WriteRecord.tuple?_of_marked hrow
      have hrr : r = row := row_of_mark (h.slots id v hv r hvr) (h.slots j w hw row hwr) heq
      subst hrr
      exact hj (h.single j id w hw v hv r hwr hvr)
  locked j w hw row hrow := by
    obtain ⟨hj, hw⟩ := hE.writes hw
    exact hE.locked hj (h.locked j w hw row hrow)
  single j k w hw v hv row hwr hvr := h.single j k w (hE.writes hw).2 v (hE.writes hv).2 row hwr hvr
  owned m f hm := by
    rw [hE.mvccMap] at hm
    split at hm
    · cases hm
    · next hmem =>
      obtain ⟨j, w, hw, row, hrow, heq⟩ := h.owned m f hm
      have hj : j ≠ id := by
        rintro rfl
        exact hmem (heq ▸ mark_mem hE.txn hw (WriteRecord.tuple?_of_marked hrow))
      refine ⟨j, w, ?_, row, hrow, heq⟩
      rwa [writes_of_txnMap (hE.txnMap_ne hj)]

end

variable [DecidableEq I]

theorem quiet {ws : List (WriteRecord T I)} (h : Exclusive db s) (hq : Quiet db id ws s t) : Exclusive db t := by
  have hback : ∀ j, ∀ w ∈ t.writes j, ∀ row, w.tuple? = some row → w ∈ s.writes j := by
    intro j w hw row hrow
    by_cases hj : j = id
    · subst hj
      rw [hq.gained.1, List.mem_append] at hw
      rcases hw with hw | hw
      · exact hw
      · rw [hq.onlyIx w hw] at hrow
        cases hrow
    · rwa [hq.writes_ne hj] at hw
  have hforth : ∀ j, ∀ w ∈ s.writes j, w ∈ t.writes j := by
    intro j w hw
    by_cases hj : j = id
    · subst hj
      rw [hq.gained.1, List.mem_append]
      exact Or.inl hw
    · rwa [hq.writes_ne hj]
  exact {
    toSane := h.toSane.quiet hq
    occupied := fun j w hw row hrow => by
      rw [hq.row]
      exact h.occupied j w (hback j w hw row hrow) row hrow
    marked := fun j w hw row hrow => by
      rw [hq.mvccMap]
      exact h.marked j w (hback j w hw row (WriteRecord.tuple?_of_marked hrow)) row hrow
    locked := fun j w hw row hrow =>
      hq.toFrame.locked (h.locked j w (hback j w hw row (WriteRecord.tuple?_of_locked hrow)) row hrow)
    single := fun j k w hw v hv row hwr hvr => h.single j k w (hback j w hw row hwr) v (hback k v hv row hvr) row hwr hvr
    owned := fun m f hm => by
      rw [hq.mvccMap] at hm
      obtain ⟨j, w, hw, row, hrow, heq⟩ := h.owned m f hm
      exact ⟨j, w, hforth j w hw, row, hrow, heq⟩ }

section
variable {row : T × Rid} {a b : List (WriteRecord T I)} {w : WriteRecord T I}

/-- The row that is written has no other writer. -/
theorem wrote_single (h : Exclusive db s) (hw : Wrote db id row a w b s t)
    (hfirst : (∃ rec, w = .insertTuple row.1 row.2 rec) ∨ NotOfFirst s id row) {j : Int} {v : WriteRecord T I}
    (hv : v ∈ s.writes j) (hrow : v.tuple? = some row) : j = id := by
  have hsane := h.toSane.wrote hw
  have hlock : ∀ k ∈ s.lockTable row, id ∈ t.lockTable row → k = id := fun k hk hid =>
    hsane.holder (hw.toFrame.locked hk) hid
  have hrec := hw.record
  have heff := hw.effect
  cases w with
  | insertTuple tab rid rec =>
    cases hrec
    have hsome := h.occupied j v hv (tab, rid) hrow
    rw [heff.1] at hsome
    cases hsome
  | updateTuple tab rid old =>
    cases hrec
    rcases hfirst with ⟨_, heq⟩ | hfirst
    · cases heq
    · exact h.no_other heff.1 hfirst (fun k hk => hlock k hk heff.2.2.2) hv hrow
  | deleteTuple tab rid rec =>
    cases hrec
    rcases hfirst with ⟨_, heq⟩ | hfirst
    · cases heq
    · exact h.no_other heff.1 hfirst (fun k hk => hlock k hk heff.2.2.2) hv hrow
  | ixInsertTuple => cases hrec
  | ixDeleteTuple => cases hrec

/-- The records of the rows after a write: those before it, and the one of the write. -/
theorem mem_writes (hw : Wrote db id row a w b s t) {j : Int} {v : WriteRecord T I} {r : T × Rid}
    (hv : v ∈ t.writes j) (hr : v.tuple? = some r) : v ∈ s.writes j ∨ j = id ∧ v = w ∧ r = row := by
  by_cases hj : j = id
  · subst hj
    rw [hw.gained.1, List.mem_append, List.mem_append, List.mem_cons] at hv
    rcases hv with hv | hv | rfl | hv
    · exact Or.inl hv
    · rw [hw.before v hv] at hr
      cases hr
    · rw [hw.record] at hr
      cases hr
      exact Or.inr ⟨rfl, rfl, rfl⟩
    · rw [hw.behind v hv] at hr
      cases hr
  · rw [hw.writes_ne hj] at hv
    exact Or.inl hv

/-- The row is there, its mark is the writer's or was left alone by a DELETE, and the writer of a row that was there has
    its lock. -/
theorem wrote_facts (hw : Wrote db id row a w b s t) : (t.row row.1 row.2).isSome ∧
    (t.mvccMap (row.1, db.slot row.1 row.2) = some (insertMark id) ∧ w.marked? = some row ∨
      t.mvccMap (row.1, db.slot row.1 row.2) = s.mvccMap (row.1, db.slot row.1 row.2) ∧ w.marked? = none) ∧
    ∀ {r}, w.locked? = some r → id ∈ t.lockTable r := by
  have hrec := hw.record
  have heff := hw.effect
  cases w with
  | insertTuple tab rid rec =>
    cases hrec
    exact ⟨Option.isSome_iff_exists.mpr ⟨rec, heff.2.1⟩, Or.inl ⟨heff.2.2, rfl⟩, fun h => by cases h⟩
  | updateTuple tab rid old =>
    cases hrec
    refine ⟨heff.2.1, Or.inl ⟨heff.2.2.1, rfl⟩, fun h => ?_⟩
    cases h
    exact heff.2.2.2
  | deleteTuple tab rid rec =>
    cases hrec
    refine ⟨Option.isSome_iff_exists.mpr ⟨rec, heff.2.1⟩, Or.inr ⟨heff.2.2.1, rfl⟩, fun h => ?_⟩
    cases h
    exact heff.2.2.2
  | ixInsertTuple => cases hrec
  | ixDeleteTuple => cases hrec

theorem wrote (h : Exclusive db s) (hw : Wrote db id row a w b s t)
    (hfirst : (∃ rec, w = .insertTuple row.1 row.2 rec) ∨ NotOfFirst s id row) : Exclusive db t := by
  have hsane := h.toSane.wrote hw
  obtain ⟨hthere, hmark, hlocked⟩ := wrote_facts hw
  have hmem : w ∈ t.writes id := by
    rw [hw.gained.1]
    simp
  have hforth : ∀ j, ∀ v ∈ s.writes j, v ∈ t.writes j := by
    intro j v hv
    by_cases hj : j = id
    · subst hj
      rw [hw.gained.1, List.mem_append]
      exact Or.inl hv
    · rwa [hw.writes_ne hj]
  exact {
    toSane := hsane
    occupied := fun j v hv r hr => by
      by_cases hrr : r = row
      · subst hrr
        exact hthere
      · rcases mem_writes hw hv hr with hv | ⟨-, -, hrow⟩
        · rw [hw.rows r hrr]
          exact h.occupied j v hv r hr
        · exact absurd hrow hrr
    marked := fun j v hv r hr => by
      have hslot : db.IsSlot r.1 r.2 := hsane.slots j v hv r (WriteRecord.tuple?_of_marked hr)
      rcases mem_writes hw hv (WriteRecord.tuple?_of_marked hr) with hv' | ⟨rfl, rfl, rfl⟩
      · by_cases hrr : r = row
        · subst hrr
          have hj := h.wrote_single hw hfirst hv' (WriteRecord.tuple?_of_marked hr)
          subst hj
          rcases hmark with ⟨hm, -⟩ | ⟨hm, -⟩
          · exact hm
          · rw [hm]
            exact h.marked j v hv' r hr
        · rw [hw.marks _ fun heq => hrr (row_of_mark hslot hw.slot heq)]
          exact h.marked j v hv' r hr
      · rcases hmark with ⟨hm, -⟩ | ⟨-, hm⟩
        · exact hm
        · rw [hm] at hr
          cases hr
    locked := fun j v hv r hr => by
      rcases mem_writes hw hv (WriteRecord.tuple?_of_locked hr) with hv' | ⟨rfl, rfl, rfl⟩
      · exact hw.toFrame.locked (h.locked j v hv' r hr)
      · exact hlocked hr
    single := fun j k v hv u hu r hvr hur => by
      rcases mem_writes hw hv hvr with hv' | ⟨rfl, -, rfl⟩
      · rcases mem_writes hw hu hur with hu' | ⟨rfl, -, rfl⟩
        · exact h.single j k v hv' u hu' r hvr hur
        · exact h.wrote_single hw hfirst hv' hvr
      · rcases mem_writes hw hu hur with hu' | ⟨rfl, -, -⟩
        · exact (h.wrote_single hw hfirst hu' hur).symm
        · rfl
    owned := fun m f hm => by
      by_cases hmr : m = (row.1, db.slot row.1 row.2)
      · subst hmr
        rcases hmark with ⟨-, hrec⟩ | ⟨hm', -⟩
        · exact ⟨id, w, hmem, row, hrec, rfl⟩
        · rw [hm'] at hm
          obtain ⟨j, v, hv, r, hr, heq⟩ := h.owned _ f hm
          exact ⟨j, v, hforth j v hv, r, hr, heq⟩
      · rw [hw.marks m hmr] at hm
        obtain ⟨j, v, hv, r, hr, heq⟩ := h.owned m f hm
        exact ⟨j, v, hforth j v hv, r, hr, heq⟩ }

end

theorem moves {C : RowCond T I} {a : Act db} (h : Exclusive db s) (hm : Moves C id a s t)
    (hfirst : ∀ u r, Moves C id a s u → C u id r → NotOfFirst u id r.row) : Exclusive db t := by
  induction hm with
  | refl => exact h
  | tail hms hm ih =>
    rcases hm.cases with ⟨ws, hq⟩ | ⟨row, a', w, b, hw, -, -, hins | ⟨r, hC, rfl⟩⟩
    · exact ih.quiet hq
    · exact ih.wrote hw (Or.inl hins)
    · exact ih.wrote hw (Or.inr (hfirst _ r hms hC))

variable [DecidableEq T] {x : Transaction T I}

theorem abort (h : Exclusive db s) (hx : s.txnMap id = some x) : Exclusive db (s.abortTxn db id x) := by
  obtain ⟨hfiles, hrows⟩ := row_abortTxn h.toSane hx
  refine h.ended (abortTxn_ended hx) hfiles fun r hr => ?_
  rw [hrows r, foldr_rowUndo]
  rw [writes_some hx] at hr
  exact fun w hw hm => hr w hw (WriteRecord.tuple?_of_marked hm)

theorem stepped {C : RowCond T I} {a : Act db} (h : Exclusive db s) (hs : Stepped C s a t)
    (hfirst : ∀ id u r, stmtTxn? a = some id → Moves C id a s u → C u id r → NotOfFirst u id r.row) :
    Exclusive db t := by
  cases hs with
  | idle => exact h
  | begin txnMode => exact h.begin txnMode
  | statement _ id _ ha _ hm => exact h.moves hm fun u r => hfirst id u r ha
  | commit id x hx _ => exact h.ended (commitTxn_ended hx) h.files fun _ _ => rfl
  | abort id x hx => exact h.abort hx

end Exclusive

/-! ### Dirty reads -/

/-- A value that a transaction wrote into a row is not returned to another one before the writer ends. -/
def NoDirtyRead (db : Schema T I) (s : Db T I) : Prop :=
  ∀ writer reader, reader ≠ writer → ∀ w ∈ s.writes writer, ∀ tab rid, w.marked? = some (tab, rid) → ∀ buf,
    s.row tab rid = some buf → s.getRecordMvcc db reader tab rid ≠ .ok (some buf)

/-- Transaction 0 inserts and updates nothing. -/
def WriteNotFirst (a : Act db) : Prop :=
  (∀ id tab values, a = .insert id tab values → id ≠ 0) ∧ ∀ id tab rids set, a = .update id tab rids set → id ≠ 0

theorem Exclusive.noDirtyRead {s : Db T I} (h : Exclusive db s)
    (hzero : ∀ j, ∀ w ∈ s.writes j, w.tuple? ≠ none → w.marked? ≠ none → j ≠ 0) : NoDirtyRead db s := by
  intro writer reader hne w hw tab rid hrow buf _ hget
  have htuple := WriteRecord.tuple?_of_marked hrow
  have hpos : 0 < writer := by
    have h₁ := h.ids writer (active_of_write hw)
    have h₂ := hzero writer w hw (by rw [htuple]; simp) (by rw [hrow]; simp)
    omega
  have hmark := h.marked writer w hw (tab, rid) hrow
  have hvisit : ¬visitRecord (s.mvccMap (tab, db.slot tab rid)) reader = .success := by
    rw [hmark, visitRecord_insertMark hpos]
    exact hne
  rw [getRecordMvcc, if_neg hvisit] at hget
  cases hget

variable [DecidableEq I]

/-- What a statement has to satisfy for its new records holds of all records of rows. -/
theorem records_moves {C : RowCond T I} {s t : Db T I} {id : Int} {a : Act db} {K : Int → WriteRecord T I → Prop}
    (hK : ∀ w, (∀ tab rid rec, w = .insertTuple tab rid rec → ∃ values, a = .insert id tab values) →
      (∀ tab rid old, w = .updateTuple tab rid old → ∃ rids set, a = .update id tab rids set) → K id w)
    (h : ∀ j, ∀ w ∈ s.writes j, w.tuple? ≠ none → K j w) (hm : Moves C id a s t) :
    ∀ j, ∀ w ∈ t.writes j, w.tuple? ≠ none → K j w := by
  induction hm with
  | refl => exact h
  | tail _ hm ih =>
    intro j v hv hne
    obtain ⟨r, hr⟩ := Option.ne_none_iff_exists'.mp hne
    rcases hm.cases with ⟨ws, hq⟩ | ⟨row, a', w, b, hw, hins, hupd, -⟩
    · by_cases hj : j = id
      · subst hj
        rw [hq.gained.1, List.mem_append] at hv
        rcases hv with hv | hv
        · exact ih j v hv hne
        · exact absurd (hq.onlyIx v hv) hne
      · rw [hq.writes_ne hj] at hv
        exact ih j v hv hne
    · rcases Exclusive.mem_writes hw hv hr with hv | ⟨rfl, rfl, -⟩
      · exact ih j v hv hne
      · exact hK v hins hupd

variable [DecidableEq T]

theorem records_stepped {C : RowCond T I} {s t : Db T I} {a : Act db} {K : Int → WriteRecord T I → Prop} (hs : Sane db s)
    (hK : ∀ id w, (∀ tab rid rec, w = .insertTuple tab rid rec → ∃ values, a = .insert id tab values) →
      (∀ tab rid old, w = .updateTuple tab rid old → ∃ rids set, a = .update id tab rids set) → K id w)
    (h : ∀ j, ∀ w ∈ s.writes j, w.tuple? ≠ none → K j w) (hstep : Stepped C s a t) :
    ∀ j, ∀ w ∈ t.writes j, w.tuple? ≠ none → K j w := by
  cases hstep with
  | idle => exact h
  | begin txnMode => exact fun j w hw => h j w (writes_begin hs ▸ hw)
  | statement _ id _ _ _ hm => exact records_moves (hK id) h hm
  | commit id x hx _ => exact fun j w hw => h j w ((commitTxn_ended hx).writes hw).2
  | abort id x hx => exact fun j w hw => h j w ((abortTxn_ended hx).writes hw).2

/-- In every run from a fresh server in which transaction 0 inserts and updates nothing there is no dirty read. -/
theorem noDirtyRead_always (db : Schema T I) (as : List (Act db))
    (hfits : Runs.Throughout (step db) (fun s _ => s.Fits) (Db.init db) as) (hfirst : ∀ a ∈ as, WriteNotFirst a) :
    Runs.Always (step db) (NoDirtyRead db) (Db.init db) as := by
  refine Runs.always_of_invariant
    (I := fun s => Exclusive db s ∧ ∀ j, ∀ w ∈ s.writes j, w.tuple? ≠ none → w.marked? ≠ none → j ≠ 0)
    ?_ (fun s hs => hs.1.noDirtyRead hs.2) ⟨Exclusive.init, fun _ _ hw => by cases hw⟩
    (hfits.and (Runs.throughout_of_forall hfirst))
  rintro s a ⟨hs, hmarked⟩ ⟨hfits, hins, hupd⟩
  have hnew : ∀ (id : Int) (w : WriteRecord T I),
      (∀ tab rid rec, w = .insertTuple tab rid rec → ∃ values, a = .insert id tab values) →
      (∀ tab rid old, w = .updateTuple tab rid old → ∃ rids set, a = .update id tab rids set) → w.marked? ≠ none → id ≠ 0 := by
    intro id w hwi hwu hm
    cases w with
    | insertTuple tab rid rec =>
      obtain ⟨values, rfl⟩ := hwi tab rid rec rfl
      exact hins id tab values rfl
    | updateTuple tab rid old =>
      obtain ⟨rids, set, rfl⟩ := hwu tab rid old rfl
      exact hupd id tab rids set rfl
    | deleteTuple => exact absurd rfl hm
    | ixInsertTuple => exact absurd rfl hm
    | ixDeleteTuple => exact absurd rfl hm
  obtain ⟨t, hop, hstep⟩ := step_spec hs.toSane hfits (stepMeets_true s a)
  refine ⟨t, hop, hs.stepped hstep ?_, records_stepped hs.toSane hnew hmarked hstep⟩
  intro id u r _ hu _ _ rec hmem
  exact records_moves (hnew id) hmarked hu 0 _ hmem (by simp [WriteRecord.tuple?]) (by simp [WriteRecord.marked?]) rfl

end Db

/-! ### A table with two indexes -/

def pairIndexCols : Bool → List ColMeta
  | false => [numCol]
  | true => [secondCol]

theorem pair_accepts : RmAccepts 8 := ⟨by decide, by decide⟩

theorem pair_apart : ∀ c ∈ pairTab.cols, ∀ d ∈ pairTab.cols, c.name ≠ d.name →
    c.offset + c.len ≤ d.offset ∨ d.offset + d.len ≤ c.offset := by decide

theorem pair_sub : ∀ i ∈ [false, true], ∀ c ∈ pairIndexCols i, c ∈ pairTab.cols := by decide

theorem pair_nodup : [false, true].Nodup := by decide

/-- The table `t` with an index on each of its columns. -/
def pairDb : Schema Unit Bool where
  tab _ := pairTab
  recordSize _ := 8
  indexes _ := [false, true]
  indexCols := pairIndexCols
  accepts _ := pair_accepts
  apart _ := pair_apart
  sub _ := pair_sub
  nodup _ := pair_nodup
  disjoint _ _ _ _ _ := rfl

/-- `INSERT INTO t VALUES (a, b)`. -/
def pairInsert (id : Int) (a b : UInt8) : Act pairDb := .insert id () [.ok [a, 0, 0, 0], .ok [b, 0, 0, 0]]

/-- Transaction 1 inserts a row that transaction 2 looks at. -/
def insertAndRead : List (Act pairDb) := [.begin true, .begin true, .begin true, pairInsert 1 5 6]

theorem insertAndRead_runs : ∃ t, Runs.exec (Db.step pairDb) (Db.init pairDb) insertAndRead = .ok t := by
  obtain ⟨t, ht, -⟩ := Runs.exec_eval (Db.step pairDb) (Db.init pairDb) insertAndRead (fun t => t.nextTxnId) (b := 3)
    (by decide)
  exact ⟨t, ht⟩

theorem noDirtyRead_insertAndRead :
    Runs.Always (Db.step pairDb) (Db.NoDirtyRead pairDb) (Db.init pairDb) insertAndRead := by
  obtain ⟨t, ht⟩ := insertAndRead_runs
  refine Db.noDirtyRead_always pairDb insertAndRead (Db.fits_of_exec ht) ?_
  simp [insertAndRead, pairInsert, Db.WriteNotFirst]

/-- The row that transaction 0 inserted is returned to transaction 1. -/
theorem noDirtyRead_first : ¬Runs.Always (Db.step pairDb) (Db.NoDirtyRead pairDb) (Db.init pairDb)
    [.begin true, .begin true, pairInsert 0 5 6] := by
  intro h
  obtain ⟨t, ht, hview⟩ := Runs.exec_eval (Db.step pairDb) (Db.init pairDb) [.begin true, .begin true, pairInsert 0 5 6]
    (fun t => ((t.writes 0).head?, t.row () ⟨1, 0⟩, (t.getRecordMvcc pairDb 1 () ⟨1, 0⟩).toOption))
    (b := (some (.insertTuple () ⟨1, 0⟩ [5, 0, 0, 0, 6, 0, 0, 0]), some [5, 0, 0, 0, 6, 0, 0, 0],
      some (some [5, 0, 0, 0, 6, 0, 0, 0]))) (by decide)
  simp only [Prod.mk.injEq] at hview
  obtain ⟨hhead, hrow, hget⟩ := hview
  have hget' : t.getRecordMvcc pairDb 1 () ⟨1, 0⟩ = .ok (some [5, 0, 0, 0, 6, 0, 0, 0]) := by
    cases hx : t.getRecordMvcc pairDb 1 () ⟨1, 0⟩ with
    | error e =>
      rw [hx] at hget
      cases hget
    | ok v =>
      rw [hx] at hget
      exact congrArg Except.ok (Option.some.inj hget)
  exact h.at_end ht 0 1 (by decide) _ (List.mem_of_head? hhead) () ⟨1, 0⟩ rfl _ hrow hget'

end Rmdb
