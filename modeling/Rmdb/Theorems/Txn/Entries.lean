import Rmdb.Theorems.Txn.Traces
import Rmdb.Theorems.Txn.Atomicity

/-! The indexes and the rows, whenever no transaction is active.

A row that a transaction has touched, also one whose entry an UPDATE removed before it failed, is touched by no other
transaction. `Entries` is the invariant: an index has the entries of the rows of its table but those that a transaction owes,
and the records of a transaction lead from the keys that its rows would get back to the ones that they have. `commit` keeps it
if the transaction owes nothing, `abort` if no other row got a key that the transaction has to give back. -/

namespace Rmdb
open RmFile

namespace Db
variable {T I : Type} {db : Schema T I}

/-! ### Touched rows -/

/-- One transaction touches a row, which is there and is locked by it or was inserted by it. -/
structure Touched (db : Schema T I) (s : Db T I) : Prop extends Exclusive db s where
  there : ∀ j, ∀ w ∈ s.writes j, ∀ row, Touches db w row → (s.row row.1 row.2).isSome
  holder : ∀ j, ∀ w ∈ s.writes j, ∀ row, Touches db w row → (∃ rec, .insertTuple row.1 row.2 rec ∈ s.writes j) ∨ j ∈ s.lockTable row
  alone : ∀ j k, ∀ w ∈ s.writes j, ∀ v ∈ s.writes k, ∀ row, Touches db w row → Touches db v row → j = k

namespace Touched
variable {s t : Db T I} {id : Int}

theorem init : Touched db (Db.init db) where
  toExclusive := Exclusive.init
  there _ _ hw := by cases hw
  holder _ _ hw := by cases hw
  alone _ _ _ hw := by cases hw

/-- Nothing happens to the rows and the write sets. -/
theorem of_same (h : Touched db s) (ht : Exclusive db t) (hwrites : ∀ j, t.writes j = s.writes j)
    (hrows : ∀ row : T × Rid, t.row row.1 row.2 = s.row row.1 row.2) (hlocks : ∀ row j, j ∈ s.lockTable row → j ∈ t.lockTable row) :
    Touched db t where
  toExclusive := ht
  there j w hw row hrow := by
    rw [hwrites] at hw
    rw [hrows]
    exact h.there j w hw row hrow
  holder j w hw row hrow := by
    rw [hwrites] at hw ⊢
    rcases h.holder j w hw row hrow with hins | hlock
    · exact Or.inl hins
    · exact Or.inr (hlocks row j hlock)
  alone j k w hw v hv row hwr hvr := by
    rw [hwrites] at hw hv
    exact h.alone j k w hw v hv row hwr hvr

theorem ended [DecidableEq T] {x : Transaction T I} (h : Touched db s) (ht : Exclusive db t) (hE : Ended db id x s t)
    (hrows : ∀ r : T × Rid, (∀ w ∈ s.writes id, ¬Touches db w r) → t.row r.1 r.2 = s.row r.1 r.2) : Touched db t where
  toExclusive := ht
  there j w hw row hrow := by
    obtain ⟨hj, hw⟩ := hE.writes hw
    rw [hrows row fun v hv hvr => hj (h.alone j id w hw v hv row hrow hvr)]
    exact h.there j w hw row hrow
  holder j w hw row hrow := by
    obtain ⟨hj, hw⟩ := hE.writes hw
    rw [writes_of_txnMap (hE.txnMap_ne hj)]
    rcases h.holder j w hw row hrow with hins | hlock
    · exact Or.inl hins
    · exact Or.inr (hE.locked hj hlock)
  alone j k w hw v hv row hwr hvr := h.alone j k w (hE.writes hw).2 v (hE.writes hv).2 row hwr hvr

variable [DecidableEq I] [DecidableEq T] {row : T × Rid} {ws : List (WriteRecord T I)}

theorem no_other_touch (h : Touched db s) (hw : Worked db id row ws s t) (ht : Sane db t) {j : Int} {v : WriteRecord T I} (hv : v ∈ s.writes j)
    (hrow : Touches db v row) : j = id := by
  have hthere := h.there j v hv row hrow
  rcases hw.held with ⟨hnone, -⟩ | ⟨⟨old, hread⟩, hfirst, hlock⟩
  · rw [hnone] at hthere
    cases hthere
  · have hheld : ∀ k ∈ s.lockTable row, k = id := fun k hk => ht.holder (hw.locked hk) hlock
    rcases h.holder j v hv row hrow with ⟨rec, hins⟩ | hlock
    · exact h.no_other hread hfirst hheld hins rfl
    · exact hheld j hlock

theorem mem_of_worked (hw : Worked db id row ws s t) {j : Int} {v : WriteRecord T I} (hv : v ∈ t.writes j) :
    v ∈ s.writes j ∨ j = id ∧ v ∈ ws := by
  by_cases hj : j = id
  · subst hj
    rw [hw.writes, List.mem_append] at hv
    rcases hv with hv | hv
    · exact Or.inl hv
    · exact Or.inr ⟨rfl, hv⟩
  · rw [hw.writes_ne hj] at hv
    exact Or.inl hv

theorem worked (h : Touched db s) (hw : Worked db id row ws s t) (ht : Exclusive db t) : Touched db t where
  toExclusive := ht
  there j v hv q hq := by
    by_cases hqr : q = row
    · subst hqr
      exact hw.there
    · rw [hw.rows q hqr]
      rcases mem_of_worked hw hv with hv | ⟨-, hv⟩
      · exact h.there j v hv q hq
      · exact absurd (hw.touches v hv q hq) hqr
  holder j v hv q hq := by
    have hforth : ∀ u ∈ s.writes j, u ∈ t.writes j := by
      intro u hu
      by_cases hj : j = id
      · subst hj
        rw [hw.writes, List.mem_append]
        exact Or.inl hu
      · rwa [hw.writes_ne hj]
    rcases mem_of_worked hw hv with hv | ⟨rfl, hv⟩
    · rcases h.holder j v hv q hq with ⟨rec, hins⟩ | hlock
      · exact Or.inl ⟨rec, hforth _ hins⟩
      · exact Or.inr (hw.locked hlock)
    · have hqr := hw.touches v hv q hq
      subst hqr
      rcases hw.held with ⟨-, rec, hins⟩ | ⟨-, -, hlock⟩
      · refine Or.inl ⟨rec, ?_⟩
        rw [hw.writes, List.mem_append]
        exact Or.inr hins
      · exact Or.inr hlock
  alone j k v hv u hu q hvq huq := by
    rcases mem_of_worked hw hv with hv | ⟨rfl, hv⟩
    · rcases mem_of_worked hw hu with hu | ⟨rfl, hu⟩
      · exact h.alone j k v hv u hu q hvq huq
      · have hqr := hw.touches u hu q huq
        subst hqr
        exact h.no_other_touch hw ht.toSane hv hvq
    · have hqr := hw.touches v hv q hvq
      subst hqr
      rcases mem_of_worked hw hu with hu | ⟨rfl, -⟩
      · exact (h.no_other_touch hw ht.toSane hu huq).symm
      · rfl

end Touched

/-! ### The invariant -/

variable [DecidableEq I]

/-- A transaction owes the entry of the row. -/
def Owed (db : Schema T I) (s : Db T I) (i : I) (rid : Rid) : Prop := ∃ j, Owes db (s.writes j) i rid

theorem not_owes_untouched {ws : List (WriteRecord T I)} {tab : T} {i : I} {rid : Rid} (hi : i ∈ db.indexes tab)
    (h : ∀ w ∈ ws, ¬Touches db w (tab, rid)) : ¬Owes db ws i rid := by
  rw [Owes, entryTrace_untouched hi h]
  intro heq
  cases heq

theorem owed_iff {s : Db T I} {tab : T} {i : I} {rid : Rid} (hi : i ∈ db.indexes tab) {id : Int}
    (hid : ∀ j, ∀ w ∈ s.writes j, Touches db w (tab, rid) → j = id) : Owed db s i rid ↔ Owes db (s.writes id) i rid := by
  refine ⟨fun ⟨j, hj⟩ => ?_, fun h => ⟨id, h⟩⟩
  by_cases hji : j = id
  · rwa [← hji]
  · exact absurd hj (not_owes_untouched hi fun w hw hrow => hji (hid j w hw hrow))

section
variable [DecidableEq T]

/-- The key that a row gets back when the transaction aborts. -/
def undoneKey (db : Schema T I) (s : Db T I) (id : Int) (i : I) (tab : T) (rid : Rid) : Option Bytes :=
  ((s.writes id).foldr (rowUndo (tab, rid)) (s.row tab rid)).map (db.key i)

omit [DecidableEq I] in
theorem undoneKey_untouched {s : Db T I} {id : Int} {i : I} {tab : T} {rid : Rid} (h : ∀ w ∈ s.writes id, ¬Touches db w (tab, rid)) :
    undoneKey db s id i tab rid = rowKey db s i tab rid := by
  rw [undoneKey, foldr_rowUndo, rowKey]
  exact fun w hw hm => h w hw (Or.inl (WriteRecord.tuple?_of_marked hm))

/-- The indexes have the entries of the rows that are not owed, and the records of each transaction lead from the keys that
    its rows get back to those that they have. -/
structure Entries (db : Schema T I) (s : Db T I) : Prop extends Touched db s where
  traced : ∀ j tab, ∀ i ∈ db.indexes tab, ∀ rid,
    Traced (undoneKey db s j i tab rid) (entryTrace db i rid (s.writes j)) (rowKey db s i tab rid)
  entries : ∀ tab, ∀ i ∈ db.indexes tab, ∀ k rid, s.ihs (i, k) = some rid ↔ rowKey db s i tab rid = some k ∧ ¬Owed db s i rid

theorem traced_untouched {s : Db T I} {id : Int} {i : I} {tab : T} {rid : Rid} (hi : i ∈ db.indexes tab)
    (h : ∀ w ∈ s.writes id, ¬Touches db w (tab, rid)) :
    Traced (undoneKey db s id i tab rid) (entryTrace db i rid (s.writes id)) (rowKey db s i tab rid) := by
  rw [undoneKey_untouched h, entryTrace_untouched hi h]
  exact ⟨rfl, fun _ hk => by cases hk⟩

namespace Entries
variable {s t : Db T I} {id : Int}

theorem init : Entries db (Db.init db) where
  toTouched := Touched.init
  traced _ _ _ hi _ := traced_untouched hi fun _ hw => by cases hw
  entries tab i hi k rid := by
    have hrow : (Db.init db).row tab rid = none := rfl
    rw [rowKey, hrow]
    exact ⟨fun h => (by cases h), fun h => (by cases h.1)⟩

/-- Nothing happens to the rows, the write sets and the indexes. -/
theorem of_same (h : Entries db s) (ht : Exclusive db t) (hwrites : ∀ j, t.writes j = s.writes j)
    (hrows : ∀ row : T × Rid, t.row row.1 row.2 = s.row row.1 row.2) (hlocks : ∀ row j, j ∈ s.lockTable row → j ∈ t.lockTable row)
    (hihs : ∀ p, t.ihs p = s.ihs p) : Entries db t where
  toTouched := h.toTouched.of_same ht hwrites hrows hlocks
  traced j tab i hi rid := by
    have hrow := hrows (tab, rid)
    have := h.traced j tab i hi rid
    simpa only [undoneKey, rowKey, hwrites, hrow] using this
  entries tab i hi k rid := by
    have hrow := hrows (tab, rid)
    have := h.entries tab i hi k rid
    simpa only [rowKey, Owed, hwrites, hrow, hihs] using this

variable {row : T × Rid} {ws : List (WriteRecord T I)}

theorem worked (h : Entries db s) (hw : Worked db id row ws s t) (ht : Exclusive db t) : Entries db t where
  toTouched := h.toTouched.worked hw ht
  traced j tab i hi rid := by
    by_cases hj : j = id
    · subst hj
      by_cases hrow : (tab, rid) = row
      · subst hrow
        have hundo : undoneKey db t j i tab rid = undoneKey db s j i tab rid := by
          rw [undoneKey, hw.writes, List.foldr_append, hw.undo]
          rfl
        rw [hundo, hw.writes, entryTrace_append]
        exact (hw.entry i hi).traced (h.traced j tab i hi rid)
      · -- the new records are of another row
        have hnil : entryTrace db i rid ws = [] :=
          entryTrace_untouched hi fun w hw' hq => hrow (hw.touches w hw' (tab, rid) hq)
        have hsame : ws.foldr (rowUndo (tab, rid)) (t.row tab rid) = s.row tab rid := by
          rw [hw.rows (tab, rid) hrow, foldr_rowUndo]
          exact fun w hw' hm => hrow (hw.touches w hw' _ (Or.inl (WriteRecord.tuple?_of_marked hm)))
        have hrk : rowKey db t i tab rid = rowKey db s i tab rid := by
          rw [rowKey, rowKey, hw.rows (tab, rid) hrow]
        rw [undoneKey, hw.writes, List.foldr_append, hsame, entryTrace_append, hnil, List.append_nil, hrk]
        exact h.traced j tab i hi rid
    · by_cases hrow : (tab, rid) = row
      · subst hrow
        refine traced_untouched hi fun w hw' hq => hj ?_
        rw [hw.writes_ne hj] at hw'
        exact h.no_other_touch hw ht.toSane hw' hq
      · have hrk : rowKey db t i tab rid = rowKey db s i tab rid := by
          rw [rowKey, rowKey, hw.rows (tab, rid) hrow]
        rw [undoneKey, hw.writes_ne hj, hw.rows (tab, rid) hrow, hrk]
        exact h.traced j tab i hi rid
  entries tab i hi := by
    -- what is owed of another row is owed as before
    have howed : ∀ rid, (tab, rid) ≠ row → (Owed db t i rid ↔ Owed db s i rid) := by
      intro rid hrow
      have hnil : entryTrace db i rid ws = [] :=
        entryTrace_untouched hi fun w hw' hq => hrow (hw.touches w hw' (tab, rid) hq)
      refine exists_congr fun j => ?_
      by_cases hj : j = id
      · subst hj
        rw [hw.writes]
        exact owes_append_of_nil hnil
      · rw [hw.writes_ne hj]
    have hrk : ∀ rid, (tab, rid) ≠ row → rowKey db t i tab rid = rowKey db s i tab rid := by
      intro rid hrow
      rw [rowKey, rowKey, hw.rows (tab, rid) hrow]
    by_cases hin : i ∈ db.indexes row.1
    · have htab := db.disjoint tab row.1 i hi hin
      subst htab
      refine (hw.entry i hi).entries (h.entries row.1 i hi) rfl rfl (fun rid hrid => ?_) ?_
      · have hne : (row.1, rid) ≠ row := fun heq => hrid (congrArg (·.2) heq)
        exact ⟨hrk rid hne, howed rid hne⟩
      · have hmine : ∀ j, ∀ w ∈ s.writes j, Touches db w row → j = id :=
          fun j w hw' hq => h.no_other_touch hw ht.toSane hw' hq
        have hmine' : ∀ j, ∀ w ∈ t.writes j, Touches db w row → j = id := by
          intro j w hw' hq
          rcases Touched.mem_of_worked hw hw' with hw' | ⟨hj, -⟩
          · exact hmine j w hw' hq
          · exact hj
        rw [owed_iff hi hmine', owed_iff hi hmine, hw.writes]
        split
        · next hnil => exact owes_append_of_nil hnil
        · next hne => exact owes_append_of_ne hne
    · have hother : ∀ rid, (tab, rid) ≠ row := by
        rintro rid rfl
        exact hin hi
      intro k rid
      rw [hw.elsewhere i hin, hrk rid (hother rid), howed rid (hother rid)]
      exact h.entries tab i hi k rid

end Entries

end

/-! ### Giving keys back -/

/-- The key that a record of an entry names, and its row. -/
def keyRow? (db : Schema T I) : WriteRecord T I → Option ((I × Bytes) × Rid)
  | .ixInsertTuple i rid key | .ixDeleteTuple i rid key => some ((i, db.norm i key), rid)
  | .insertTuple .. | .updateTuple .. | .deleteTuple .. => none

/-- What a record says about a key: the row whose entry is inserted (`true`) or removed there. -/
def keyWrite (db : Schema T I) (p : I × Bytes) : WriteRecord T I → Option (Bool × Rid)
  | .ixInsertTuple i rid key => if p = (i, db.norm i key) then some (true, rid) else none
  | .ixDeleteTuple i rid key => if p = (i, db.norm i key) then some (false, rid) else none
  | .insertTuple .. | .updateTuple .. | .deleteTuple .. => none

/-- At a key that was written for a row, with records `ws` behind it: the next record at the key is an insertion or is of the
    row, and without one the key belongs to no other row. -/
def Follows (db : Schema T I) (ihs : I × Bytes → Option Rid) (ws : List (WriteRecord T I)) (p : I × Bytes) (rid : Rid) : Prop :=
  match (ws.filterMap (keyWrite db p)).head? with
  | none => ihs p = none ∨ ihs p = some rid
  | some (inserted, q) => inserted = true ∨ q = rid

/-- No other row has got a key that undoing the records would give back or take away. -/
def Restorable (db : Schema T I) (ihs : I × Bytes → Option Rid) : List (WriteRecord T I) → Prop
  | [] => True
  | w :: ws => (∀ e ∈ keyRow? db w, Follows db ihs ws e.1 e.2) ∧ Restorable db ihs ws

instance (ihs : I × Bytes → Option Rid) (ws : List (WriteRecord T I)) (p : I × Bytes) (rid : Rid) :
    Decidable (Follows db ihs ws p rid) := by
  unfold Follows
  split <;> infer_instance

instance decidableRestorable (ihs : I × Bytes → Option Rid) : ∀ ws : List (WriteRecord T I), Decidable (Restorable db ihs ws)
  | [] => inferInstanceAs (Decidable True)
  | _ :: ws =>
    have := decidableRestorable ihs ws
    inferInstanceAs (Decidable (_ ∧ _))

section
variable {ihs : I × Bytes → Option Rid} {p : I × Bytes} {rid : Rid} {w : WriteRecord T I} {ws : List (WriteRecord T I)}

theorem follows_cons_none (h : keyWrite db p w = none) : Follows db ihs (w :: ws) p rid ↔ Follows db ihs ws p rid := by
  rw [Follows, Follows, List.filterMap_cons_none h]

theorem keyUndo_of_keyWrite_none (h : keyWrite db p w = none) (v : Option Rid) : keyUndo db p w v = v := by
  cases w with
  | insertTuple => rfl
  | updateTuple => rfl
  | deleteTuple => rfl
  | ixInsertTuple i r key =>
    rw [keyWrite] at h
    split at h
    · cases h
    · next hp => exact if_neg hp
  | ixDeleteTuple i r key =>
    rw [keyWrite] at h
    split at h
    · cases h
    · next hp => exact if_neg hp

/-- A record of a row says nothing about entries; one of an entry is of one row at one key. -/
theorem record_cases (db : Schema T I) (w : WriteRecord T I) :
    (keyRow? db w = none ∧ (∀ i rid, entryAt db i rid w = none) ∧ ∀ p v, keyUndo db p w v = v) ∨
      ∃ inserted i k rid, keyRow? db w = some ((i, k), rid) ∧
        (∀ j r, entryAt db j r w = if i = j ∧ rid = r then some (inserted, k) else none) ∧
        ∀ p v, keyUndo db p w v = if p = (i, k) then (if inserted then none else v.or (some rid)) else v := by
  cases w with
  | insertTuple => exact Or.inl ⟨rfl, fun _ _ => rfl, fun _ _ => rfl⟩
  | updateTuple => exact Or.inl ⟨rfl, fun _ _ => rfl, fun _ _ => rfl⟩
  | deleteTuple => exact Or.inl ⟨rfl, fun _ _ => rfl, fun _ _ => rfl⟩
  | ixInsertTuple i rid key =>
    refine Or.inr ⟨true, i, db.norm i key, rid, rfl, fun j r => ?_, fun _ _ => rfl⟩
    rw [entryAt]
    split
    · next h => rw [h.1]
    · rfl
  | ixDeleteTuple i rid key =>
    refine Or.inr ⟨false, i, db.norm i key, rid, rfl, fun j r => ?_, fun _ _ => rfl⟩
    rw [entryAt]
    split
    · next h => rw [h.1]
    · rfl

/-- Undoing a record at its key finds there no entry of another row. -/
theorem Follows.undone (hws : Restorable db ihs ws) (h : Follows db ihs ws p rid) {q : Rid}
    (hq : ws.foldr (keyUndo db p) (ihs p) = some q) : q = rid := by
  induction ws generalizing rid q with
  | nil =>
    have hihs : ihs p = some q := hq
    obtain h | h : ihs p = none ∨ ihs p = some rid := h
    · rw [hihs] at h
      cases h
    · exact Option.some.inj (hihs.symm.trans h)
  | cons w ws ih =>
    obtain ⟨hw, hws⟩ := hws
    rw [List.foldr_cons] at hq
    cases hk : keyWrite db p w with
    | none =>
      rw [keyUndo_of_keyWrite_none hk] at hq
      exact ih hws ((follows_cons_none hk).mp h) hq
    | some e =>
      rw [Follows, List.filterMap_cons_some hk, List.head?_cons] at h
      cases w with
      | insertTuple => cases hk
      | updateTuple => cases hk
      | deleteTuple => cases hk
      | ixInsertTuple i r key =>
        rw [keyWrite] at hk
        split at hk
        · next hp =>
          rw [keyUndo, if_pos hp] at hq
          cases hq
        · cases hk
      | ixDeleteTuple i r key =>
        rw [keyWrite] at hk
        split at hk
        · next hp =>
          subst hp
          cases hk
          rcases h with h | rfl
          · cases h
          · rw [keyUndo, if_pos rfl] at hq
            cases hv : ws.foldr (keyUndo db (i, db.norm i key)) (ihs (i, db.norm i key)) with
            | none =>
              rw [hv] at hq
              exact (Option.some.inj hq).symm
            | some r' =>
              rw [hv] at hq
              have hr' : r' = r := ih hws (hw _ rfl) hv
              exact (Option.some.inj hq).symm.trans hr'
        · cases hk

end

/-- The entry that a row has in an index after records of its entry are undone, if it has those of `base` before. -/
def HasEntry (base : Bytes → Prop) : List (Bool × Bytes) → Bytes → Prop
  | [], k => base k
  | (false, k') :: _, k => k = k'
  | (true, _) :: _, _ => False

theorem Leads.hasEntry {e : Option Bytes} {k k' : Bytes} {tr : List (Bool × Bytes)} {base : Bytes → Prop} (h : Leads (some k) tr e)
    (hbase : ∀ k, base k → e = some k) (hk : HasEntry base tr k') : k' = k := by
  cases tr with
  | nil =>
    have he : some k = e := h
    exact Option.some.inj ((hbase k' hk).symm.trans he.symm)
  | cons x tr =>
    obtain ⟨inserted, k''⟩ := x
    cases inserted with
    | true => cases hk
    | false =>
      have hkk : k' = k'' := hk
      exact hkk.trans (Option.some.inj h.1).symm

/-- Undoing records gives rows their entries back. -/
theorem ihs_undone {ihs : I × Bytes → Option Rid} {i : I} {ws : List (WriteRecord T I)} (hws : Restorable db ihs ws)
    {key : Rid → Option Bytes} {base : Rid → Bytes → Prop} (hbase : ∀ rid k, base rid k → key rid = some k)
    (hihs : ∀ k rid, ihs (i, k) = some rid ↔ base rid k)
    (hleads : ∀ rid, ∃ e, Leads e (entryTrace db i rid ws) (key rid)) (k : Bytes) (rid : Rid) :
    ws.foldr (keyUndo db (i, k)) (ihs (i, k)) = some rid ↔ HasEntry (base rid) (entryTrace db i rid ws) k := by
  induction ws generalizing k rid with
  | nil => exact hihs k rid
  | cons w ws ih =>
    obtain ⟨hw, hws⟩ := hws
    have hleads' : ∀ rid, ∃ e, Leads e (entryTrace db i rid ws) (key rid) := by
      intro rid
      obtain ⟨e, he⟩ := hleads rid
      cases hx : entryAt db i rid w with
      | none =>
        rw [entryTrace_cons_none hx] at he
        exact ⟨e, he⟩
      | some x =>
        rw [entryTrace, List.filterMap_cons_some hx] at he
        obtain ⟨inserted, k⟩ := x
        cases inserted with
        | true => exact ⟨_, he⟩
        | false => exact ⟨_, he.2⟩
    have ih := fun k rid => ih hws hleads' k rid
    rw [List.foldr_cons]
    rcases record_cases db w with ⟨-, hat, hundo⟩ | ⟨inserted, i', k₀, r, hrow, hat, hundo⟩
    · rw [hundo, entryTrace_cons_none (hat i rid)]
      exact ih k rid
    · rw [hundo]
      have hfollows := hw _ hrow
      by_cases hi : i' = i
      · subst hi
        have hpair : (i', k) = (i', k₀) ↔ k = k₀ := by simp
        have hx := hat i' rid
        simp only [hpair]
        by_cases hr : r = rid
        · subst hr
          rw [if_pos ⟨rfl, rfl⟩] at hx
          obtain ⟨e, he⟩ := hleads r
          rw [entryTrace, List.filterMap_cons_some hx, ← entryTrace] at he ⊢
          have hlead : Leads (some k₀) (entryTrace db i' r ws) (key r) := by
            cases inserted with
            | true => exact he
            | false => exact he.2
          by_cases hk : k = k₀
          · subst hk
            rw [if_pos rfl]
            cases inserted with
            | true => exact ⟨fun h => (by cases h), fun h => (by cases h)⟩
            | false =>
              refine ⟨fun _ => rfl, fun _ => ?_⟩
              cases hv : ws.foldr (keyUndo db (i', k)) (ihs (i', k)) with
              | none => rfl
              | some q => exact congrArg some (hfollows.undone hws hv)
          · -- before the record the row had no entry under another key
            have hno : ws.foldr (keyUndo db (i', k)) (ihs (i', k)) ≠ some r :=
              fun hv => hk (hlead.hasEntry (hbase r) ((ih k r).mp hv))
            rw [if_neg hk]
            cases inserted with
            | true => exact ⟨fun h => absurd h hno, fun h => by cases h⟩
            | false => exact ⟨fun h => absurd h hno, fun h => absurd h hk⟩
        · rw [if_neg fun h => hr h.2] at hx
          rw [entryTrace_cons_none hx]
          by_cases hk : k = k₀
          · subst hk
            have hno : ws.foldr (keyUndo db (i', k)) (ihs (i', k)) ≠ some rid :=
              fun hv => hr (hfollows.undone hws hv).symm
            rw [if_pos rfl, ← ih k rid]
            cases inserted with
            | true => exact ⟨fun h => (by cases h), fun h => absurd h hno⟩
            | false =>
              refine ⟨fun h => ?_, fun h => absurd h hno⟩
              cases hv : ws.foldr (keyUndo db (i', k)) (ihs (i', k)) with
              | none =>
                rw [hv] at h
                exact absurd (Option.some.inj h) hr
              | some q =>
                rw [hv] at h
                exact h
          · rw [if_neg hk]
            exact ih k rid
      · rw [if_neg fun h => hi (congrArg (·.1) h).symm, entryTrace_cons_none ((hat i rid).trans (if_neg fun h => hi h.1))]
        exact ih k rid

/-! ### The end of a transaction -/

/-- No entry is owed by the records. -/
def OwesNothing (db : Schema T I) (ws : List (WriteRecord T I)) : Prop := ∀ w ∈ ws, ∀ e ∈ w.entry?, ¬Owes db ws e.1 e.2

instance (ws : List (WriteRecord T I)) : Decidable (OwesNothing db ws) := inferInstanceAs (Decidable (∀ w ∈ ws, ∀ e ∈ w.entry?, _))

theorem entry?_of_entryAt {w : WriteRecord T I} {i : I} {rid : Rid} {x : Bool × Bytes} (h : entryAt db i rid w = some x) :
    w.entry? = some (i, rid) := by
  by_contra hne
  rw [entryAt_eq_none hne] at h
  cases h

theorem touches_of_entryTrace {ws : List (WriteRecord T I)} {i : I} {rid : Rid} {tab : T} (hi : i ∈ db.indexes tab)
    (h : entryTrace db i rid ws ≠ []) : ∃ w ∈ ws, Touches db w (tab, rid) := by
  by_contra hno
  exact h (entryTrace_untouched hi fun w hw hrow => hno ⟨w, hw, hrow⟩)

theorem OwesNothing.not_owes {ws : List (WriteRecord T I)} (h : OwesNothing db ws) (i : I) (rid : Rid) : ¬Owes db ws i rid := by
  intro howes
  obtain ⟨x, hx, -⟩ := Option.map_eq_some_iff.mp howes
  obtain ⟨w, hw, hat⟩ := List.mem_filterMap.mp (List.mem_of_getLast? hx)
  exact h w hw _ (entry?_of_entryAt hat) howes

variable [DecidableEq T]

namespace Entries
variable {s t : Db T I} {id : Int} {x : Transaction T I}

omit [DecidableEq I] in
theorem writes_ended (hE : Ended db id x s t) (j : Int) : t.writes j = if j = id then [] else s.writes j := by
  split
  · next hj =>
    subst hj
    exact writes_none hE.txnMap_self
  · next hj => exact writes_of_txnMap (hE.txnMap_ne hj)

theorem owed_ended (hE : Ended db id x s t) {i : I} {rid : Rid} (h : ¬Owes db x.writeSet i rid) : Owed db t i rid ↔ Owed db s i rid := by
  refine exists_congr fun j => ?_
  rw [writes_ended hE]
  split
  · next hj =>
    subst hj
    rw [writes_some hE.txn]
    exact ⟨fun ho => (by cases ho), fun ho => absurd ho h⟩
  · rfl

theorem commit (h : Entries db s) (hx : s.txnMap id = some x) (hno : OwesNothing db x.writeSet) :
    Entries db (s.commitTxn db id x) where
  toTouched := h.toTouched.ended (h.toExclusive.ended (commitTxn_ended hx) h.files fun _ _ => rfl) (commitTxn_ended hx) fun _ _ => rfl
  traced j tab i hi rid := by
    by_cases hj : j = id
    · refine traced_untouched hi fun w hw => ?_
      rw [writes_ended (commitTxn_ended hx), if_pos hj] at hw
      cases hw
    · rw [undoneKey, writes_ended (commitTxn_ended hx), if_neg hj]
      exact h.traced j tab i hi rid
  entries tab i hi k rid := by
    rw [owed_ended (commitTxn_ended hx) (hno.not_owes i rid)]
    exact h.entries tab i hi k rid

theorem abort (h : Entries db s) (hx : s.txnMap id = some x) (hr : Restorable db s.ihs x.writeSet) :
    Entries db (s.abortTxn db id x) := by
  have hE : Ended db id x s (s.abortTxn db id x) := abortTxn_ended hx
  have hrows := (row_abortTxn h.toSane hx).2
  rw [← writes_some hx] at hrows
  have hsame : ∀ r : T × Rid, (∀ w ∈ s.writes id, ¬Touches db w r) → (s.abortTxn db id x).row r.1 r.2 = s.row r.1 r.2 := by
    intro r hr
    rw [hrows r, foldr_rowUndo]
    exact fun w hw hm => hr w hw (Or.inl (WriteRecord.tuple?_of_marked hm))
  refine { toTouched := h.toTouched.ended (h.toExclusive.abort hx) hE hsame, traced := ?_, entries := ?_ }
  · intro j tab i hi rid
    by_cases htouch : ∃ w ∈ (s.abortTxn db id x).writes j, Touches db w (tab, rid)
    · obtain ⟨w, hw, hrow⟩ := htouch
      obtain ⟨hj, hw⟩ := hE.writes hw
      have hrow' : (s.abortTxn db id x).row tab rid = s.row tab rid :=
        hsame (tab, rid) fun v hv hvr => hj (h.alone j id w hw v hv (tab, rid) hrow hvr)
      rw [undoneKey, writes_ended hE, if_neg hj, rowKey, hrow']
      exact h.traced j tab i hi rid
    · exact traced_untouched hi fun w hw hrow => htouch ⟨w, hw, hrow⟩
  · intro tab i hi k rid
    have hkey : rowKey db (s.abortTxn db id x) i tab rid = undoneKey db s id i tab rid := by
      rw [rowKey, hrows (tab, rid)]
      rfl
    have htraced := h.traced id tab i hi rid
    have hleads : ∀ r, ∃ e, Leads e (entryTrace db i r x.writeSet) (rowKey db s i tab r) := by
      intro r
      rw [← writes_some hx]
      exact ⟨_, (h.traced id tab i hi r).1⟩
    rw [ihs_abortTxn, ihs_undone hr (fun _ _ hb => hb.1) (h.entries tab i hi) hleads, hkey, ← writes_some hx]
    -- whether the row's entry was first inserted or first removed, or not written at all
    cases htr : entryTrace db i rid (s.writes id) with
    | nil =>
      have hnot : ¬Owes db x.writeSet i rid := by
        rw [← writes_some hx, Owes, htr]
        intro heq
        cases heq
      rw [htr] at htraced
      have heq : undoneKey db s id i tab rid = rowKey db s i tab rid := htraced.1
      rw [heq, owed_ended hE hnot]
      rfl
    | cons y tr =>
      obtain ⟨v, hv, hrow⟩ := touches_of_entryTrace hi (by rw [htr]; simp)
      have hnot : ¬Owed db (s.abortTxn db id x) i rid := by
        rintro ⟨j, hj⟩
        refine not_owes_untouched hi (fun w hw hwr => ?_) hj
        obtain ⟨hne, hw⟩ := hE.writes hw
        exact hne (h.alone j id w hw v hv (tab, rid) hwr hrow)
      rw [htr] at htraced
      obtain ⟨inserted, k₀⟩ := y
      cases inserted with
      | true =>
        rw [htraced.2 k₀ rfl]
        exact ⟨fun hk => (by cases hk), fun hk => (by cases hk.1)⟩
      | false =>
        rw [htraced.1.1, and_iff_left hnot]
        exact ⟨fun hk => congrArg some (Eq.symm hk), fun hk => (Option.some.inj hk).symm⟩

theorem move {a : Act db} (h : Entries db s) (hm : Move (RemovesOwn db) id a s t) : Entries db t := by
  have hex : Exclusive db t := h.toExclusive.moves (.single hm) fun _ _ _ hC => hC.1
  rcases hm.worked with hq | ⟨row, ws, hw⟩
  · refine h.of_same hex (fun j => ?_) (fun row => hq.row row.1 row.2) (fun row j => hq.toFrame.locked) fun p => hq.gained.2 p
    by_cases hj : j = id
    · subst hj
      rw [hq.gained.1, List.append_nil]
    · exact hq.writes_ne hj
  · exact h.worked hw hex

theorem moves {a : Act db} (h : Entries db s) (hm : Moves (RemovesOwn db) id a s t) : Entries db t := by
  induction hm with
  | refl => exact h
  | tail _ hm ih => exact ih.move hm

end Entries

/-! ### Runs -/

/-- A commit of a transaction that owes nothing, or an abort of one that can give all keys back. -/
def EndMeets (db : Schema T I) (s : Db T I) : Act db → Prop
  | .commit id => ∀ x ∈ s.txnMap id, x.mustAbort = false → OwesNothing db x.writeSet
  | .abort id => ∀ x ∈ s.txnMap id, Restorable db s.ihs x.writeSet
  | .begin _ | .insert .. | .update .. | .delete .. => True

theorem Entries.stepped {s t : Db T I} {a : Act db} (h : Entries db s) (hs : Stepped (RemovesOwn db) s a t) (hend : EndMeets db s a) :
    Entries db t := by
  cases hs with
  | idle => exact h
  | begin txnMode =>
    exact h.of_same (h.toExclusive.begin txnMode) (fun _ => writes_begin h.toSane) (fun _ => rfl) (fun _ _ hj => hj) fun _ => rfl
  | statement _ id _ _ _ hm => exact h.moves hm
  | commit id x hx hmust => exact h.commit hx (hend x hx hmust)
  | abort id x hx => exact h.abort hx (hend x hx)

instance (s : Db T I) : DecidablePred (EndMeets db s)
  | .commit id => inferInstanceAs (Decidable (∀ x ∈ s.txnMap id, _))
  | .abort id => inferInstanceAs (Decidable (∀ x ∈ s.txnMap id, _))
  | .begin _ | .insert .. | .update .. | .delete .. => inferInstanceAs (Decidable True)

end Db

/-! ### Runs on the table with two indexes -/

end Rmdb
