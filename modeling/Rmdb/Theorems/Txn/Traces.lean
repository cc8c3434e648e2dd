import Rmdb.Theorems.Txn.Rollback

/-! The records of a row's entries in a write set.

An UPDATE or a DELETE removes the entry of a row under its key, and an UPDATE or an INSERT inserts one under its new key; the
write set has a record of either. `entryTrace` is what it has of one row in one index, `Leads` what these records say about the
key of the row, and `EntryMove` what working on a row does to its entry. -/

namespace Rmdb

/-- The index and the row that a record of an entry names. -/
def WriteRecord.entry? {T I : Type} : WriteRecord T I → Option (I × Rid)
  | .ixInsertTuple i rid _ | .ixDeleteTuple i rid _ => some (i, rid)
  | .insertTuple .. | .updateTuple .. | .deleteTuple .. => none

namespace Db
variable {T I : Type} {db : Schema T I}

/-- The record is one of the row or of an entry of it. -/
def Touches (db : Schema T I) (w : WriteRecord T I) (row : T × Rid) : Prop :=
  w.tuple? = some row ∨ ∃ i ∈ db.indexes row.1, w.entry? = some (i, row.2)

theorem touches_tuple {w : WriteRecord T I} {row q : T × Rid} (h : w.tuple? = some row) (hq : Touches db w q) : q = row := by
  rcases hq with hq | ⟨i, -, hq⟩
  · exact Option.some.inj (hq.symm.trans h)
  · cases w with
    | insertTuple => cases hq
    | updateTuple => cases hq
    | deleteTuple => cases hq
    | ixInsertTuple => cases h
    | ixDeleteTuple => cases h

theorem touches_entry {w : WriteRecord T I} {i : I} {rid : Rid} {tab : T} (hi : i ∈ db.indexes tab) (h : w.entry? = some (i, rid))
    {q : T × Rid} (hq : Touches db w q) : q = (tab, rid) := by
  rcases hq with hq | ⟨k, hk, hq⟩
  · cases w with
    | insertTuple => cases h
    | updateTuple => cases h
    | deleteTuple => cases h
    | ixInsertTuple => cases hq
    | ixDeleteTuple => cases hq
  · obtain ⟨rfl, rfl⟩ := Prod.mk.inj (Option.some.inj (hq.symm.trans h))
    exact Prod.ext (db.disjoint _ _ _ hk hi) rfl

theorem touches_deletions {tab : T} {rid : Rid} {rec : Bytes} {is : List I} (his : is ⊆ db.indexes tab) :
    ∀ w ∈ deletions db rid rec is, ∀ q, Touches db w q → q = (tab, rid) := by
  intro w hw q hq
  obtain ⟨i, hi, rfl⟩ := mem_deletions hw
  exact touches_entry (his hi) rfl hq

theorem touches_insertions {tab : T} {rid : Rid} {rec : Bytes} {is : List I} (his : is ⊆ db.indexes tab) :
    ∀ w ∈ insertions db rid rec is, ∀ q, Touches db w q → q = (tab, rid) := by
  intro w hw q hq
  obtain ⟨i, hi, rfl⟩ := mem_insertions hw
  exact touches_entry (his hi) rfl hq

/-! ### Keys of a row -/

/-- What records of entries, from the first on, say about the key of their row: an entry is removed under the key of the
    row, and inserted under the key that the row gets. An inserted entry is `true`. -/
def Leads : Option Bytes → List (Bool × Bytes) → Option Bytes → Prop
  | e, [], e' => e = e'
  | e, (false, k) :: tr, e' => e = some k ∧ Leads (some k) tr e'
  | _, (true, k) :: tr, e' => Leads (some k) tr e'

theorem leads_append {e e' e'' : Option Bytes} {tr tr' : List (Bool × Bytes)} (h : Leads e tr e') (h' : Leads e' tr' e'') :
    Leads e (tr ++ tr') e'' := by
  induction tr generalizing e with
  | nil =>
    cases h
    exact h'
  | cons x tr ih =>
    obtain ⟨inserted, k⟩ := x
    cases inserted with
    | true => exact ih h
    | false => exact ⟨h.1, ih h.2⟩

/-- The records lead from the key that the row had to the one that it has. A row whose entry is first inserted was not
    there. -/
def Traced (e : Option Bytes) (tr : List (Bool × Bytes)) (e' : Option Bytes) : Prop :=
  Leads e tr e' ∧ ∀ k, tr.head? = some (true, k) → e = none

/-- What working on a row does to its key `e` and to an index `v` of its table, with records `tr`. -/
inductive EntryMove (rid : Rid) (e : Option Bytes) (v : Bytes → Option Rid) :
    List (Bool × Bytes) → Option Bytes → (Bytes → Option Rid) → Prop where
  | kept : EntryMove rid e v [] e v
  | removed (k : Bytes) : e = some k → (v k = none ∨ v k = some rid) → EntryMove rid e v [(false, k)] e (Function.update v k none)
  | moved (k k' : Bytes) : e = some k → (v k = none ∨ v k = some rid) → (v k' = none ∨ v k' = some rid) →
    EntryMove rid e v [(false, k), (true, k')] (some k') (Function.update (Function.update v k none) k' (some rid))
  | added (k' : Bytes) : e = none → v k' = none → EntryMove rid e v [(true, k')] (some k') (Function.update v k' (some rid))

namespace EntryMove
variable {rid : Rid} {e e' : Option Bytes} {v v' : Bytes → Option Rid} {tr : List (Bool × Bytes)}

theorem traced (h : EntryMove rid e v tr e' v') {e₀ : Option Bytes} {tr₀ : List (Bool × Bytes)} (ht : Traced e₀ tr₀ e) :
    Traced e₀ (tr₀ ++ tr) e' := by
  obtain ⟨hleads, hfirst⟩ := ht
  refine ⟨leads_append hleads ?_, fun k hk => ?_⟩
  · cases h with
    | kept => rfl
    | removed k he => exact ⟨he, he.symm⟩
    | moved k k' he => exact ⟨he, rfl⟩
    | added k' he => rfl
  · cases tr₀ with
    | cons x tr₀ => exact hfirst k hk
    | nil =>
      have heq : e₀ = e := hleads
      cases h with
      | kept => cases hk
      | removed => cases hk
      | moved => cases hk
      | added _ he => exact heq.trans he

section Updates
variable {k k' : Bytes} {x : Option Rid} {r : Rid}

theorem update_others (hown : v k = none ∨ v k = some rid) (hx : x = none ∨ x = some rid) (hr : r ≠ rid) (k'' : Bytes) :
    Function.update v k x k'' = some r ↔ v k'' = some r := by
  have hnot : ∀ {y : Option Rid}, y = none ∨ y = some rid → y ≠ some r := by
    rintro y (rfl | rfl) h
    · cases h
    · exact hr (Option.some.inj h).symm
  by_cases hkk : k'' = k
  · subst hkk
    rw [Function.update_self]
    exact iff_of_false (hnot hx) (hnot hown)
  · rw [Function.update_of_ne hkk]

theorem own_update (hown : v k' = none ∨ v k' = some rid) : Function.update v k none k' = none ∨ Function.update v k none k' = some rid := by
  by_cases hkk : k' = k
  · subst hkk
    exact Or.inl (Function.update_self ..)
  · rwa [Function.update_of_ne hkk]

theorem update_none_ne (h : ∀ k'', v k'' = some rid → k'' = k) (k'' : Bytes) : Function.update v k none k'' ≠ some rid := by
  by_cases hkk : k'' = k
  · subst hkk
    rw [Function.update_self]
    exact Option.some_ne_none rid ∘ Eq.symm
  · rw [Function.update_of_ne hkk]
    exact fun hk => hkk (h k'' hk)

theorem update_some_iff (h : ∀ k'', v k'' ≠ some rid) (k'' : Bytes) :
    Function.update v k' (some rid) k'' = some rid ↔ some k' = some k'' := by
  by_cases hkk : k'' = k'
  · subst hkk
    exact iff_of_true (Function.update_self ..) rfl
  · rw [Function.update_of_ne hkk]
    exact iff_of_false (h k'') fun hk => hkk (Option.some.inj hk).symm

end Updates

/-- The index has the entries of the rows that are not owed theirs, and still has them afterwards. -/
theorem entries (h : EntryMove rid e v tr e' v') {key key' : Rid → Option Bytes} {owed owed' : Rid → Prop}
    (hv : ∀ k r, v k = some r ↔ key r = some k ∧ ¬owed r) (hkey : key rid = e) (hkey' : key' rid = e')
    (hothers : ∀ r, r ≠ rid → key' r = key r ∧ (owed' r ↔ owed r))
    (howed : owed' rid ↔ if tr = [] then owed rid else tr.getLast?.map (·.1) = some false) : ∀ k r, v' k = some r ↔ key' r = some k ∧ ¬owed' r := by
  intro k'' r
  by_cases hr : r = rid
  · subst hr
    have hold : ∀ k, v k = some r → e = some k := fun k hk => hkey ▸ ((hv k r).mp hk).1
    cases h with
    | kept =>
      rw [if_pos rfl] at howed
      rw [hv, hkey, hkey', howed]
    | removed k he =>
      have hyes : owed' r := howed.mpr rfl
      have honly : ∀ k'', v k'' = some r → k'' = k := fun k'' hk => Option.some.inj ((hold k'' hk).symm.trans he)
      exact iff_of_false (update_none_ne honly k'') fun hk => hk.2 hyes
    | moved k k' he =>
      have hno : ¬owed' r := fun ho => by simpa using howed.mp ho
      have honly : ∀ k'', v k'' = some r → k'' = k := fun k'' hk => Option.some.inj ((hold k'' hk).symm.trans he)
      rw [hkey', and_iff_left hno]
      exact update_some_iff (update_none_ne honly) k''
    | added k' he =>
      have hno : ¬owed' r := fun ho => by simpa using howed.mp ho
      rw [hkey', and_iff_left hno]
      exact update_some_iff (fun k'' hk => Option.some_ne_none k'' ((hold k'' hk).symm.trans he)) k''
  · obtain ⟨hkr, hor⟩ := hothers r hr
    rw [hkr, hor, ← hv]
    cases h with
    | kept => exact Iff.rfl
    | removed k he hown => exact update_others hown (Or.inl rfl) hr k''
    | moved k k' he hown hown' =>
      exact (update_others (own_update hown') (Or.inr rfl) hr k'').trans (update_others hown (Or.inl rfl) hr k'')
    | added k' he hfree => exact update_others (Or.inl hfree) (Or.inr rfl) hr k''

end EntryMove

/-! ### The records of a row -/

variable [DecidableEq I]

/-- What a record says about the entry of a row in an index. -/
def entryAt (db : Schema T I) (i : I) (rid : Rid) : WriteRecord T I → Option (Bool × Bytes)
  | .ixInsertTuple k r key => if k = i ∧ r = rid then some (true, db.norm i key) else none
  | .ixDeleteTuple k r key => if k = i ∧ r = rid then some (false, db.norm i key) else none
  | .insertTuple .. | .updateTuple .. | .deleteTuple .. => none

/-- The records of the entry of a row in an index. -/
def entryTrace (db : Schema T I) (i : I) (rid : Rid) (ws : List (WriteRecord T I)) : List (Bool × Bytes) :=
  ws.filterMap (entryAt db i rid)

/-- The entry of the row is gone: the last of its records is a removal. -/
def Owes (db : Schema T I) (ws : List (WriteRecord T I)) (i : I) (rid : Rid) : Prop :=
  (entryTrace db i rid ws).getLast?.map (·.1) = some false

instance (ws : List (WriteRecord T I)) (i : I) (rid : Rid) : Decidable (Owes db ws i rid) := inferInstanceAs (Decidable (_ = _))

section
variable {i : I} {rid : Rid} {ws vs : List (WriteRecord T I)} {w : WriteRecord T I}

theorem entryAt_eq_none (h : w.entry? ≠ some (i, rid)) : entryAt db i rid w = none := by
  cases w with
  | insertTuple => rfl
  | updateTuple => rfl
  | deleteTuple => rfl
  | ixInsertTuple k r key =>
    refine if_neg ?_
    rintro ⟨rfl, rfl⟩
    exact h rfl
  | ixDeleteTuple k r key =>
    refine if_neg ?_
    rintro ⟨rfl, rfl⟩
    exact h rfl

theorem entryTrace_append : entryTrace db i rid (ws ++ vs) = entryTrace db i rid ws ++ entryTrace db i rid vs :=
  List.filterMap_append

theorem entryTrace_cons_none (h : entryAt db i rid w = none) : entryTrace db i rid (w :: ws) = entryTrace db i rid ws :=
  List.filterMap_cons_none h

/-- A record that is about no entry, behind the others. -/
theorem entryTrace_concat_none (h : entryAt db i rid w = none) : entryTrace db i rid (ws ++ [w]) = entryTrace db i rid ws := by
  have hone : entryTrace db i rid [w] = [] := entryTrace_cons_none h
  rw [entryTrace_append, hone, List.append_nil]

theorem entryTrace_eq_nil (h : ∀ w ∈ ws, w.entry? ≠ some (i, rid)) : entryTrace db i rid ws = [] :=
  List.filterMap_eq_nil_iff.mpr fun w hw => entryAt_eq_none (h w hw)

theorem entryTrace_untouched {tab : T} (hi : i ∈ db.indexes tab) (h : ∀ w ∈ ws, ¬Touches db w (tab, rid)) :
    entryTrace db i rid ws = [] :=
  entryTrace_eq_nil fun w hw heq => h w hw (Or.inr ⟨i, hi, heq⟩)

theorem owes_append_of_ne (h : entryTrace db i rid vs ≠ []) :
    Owes db (ws ++ vs) i rid ↔ (entryTrace db i rid vs).getLast?.map (·.1) = some false := by
  rw [Owes, entryTrace_append, List.getLast?_append_of_ne_nil _ h]

theorem owes_append_of_nil (h : entryTrace db i rid vs = []) : Owes db (ws ++ vs) i rid ↔ Owes db ws i rid := by
  rw [Owes, Owes, entryTrace_append, h, List.append_nil]

/-- The records of several indexes, with the one of the index in question. -/
theorem entryTrace_map {f : I → WriteRecord T I} {x : Bool × Bytes} (hf : ∀ k, entryAt db i rid (f k) = if k = i then some x else none)
    {is : List I} (hnodup : is.Nodup) : entryTrace db i rid (is.map f) = if i ∈ is then [x] else [] := by
  induction is with
  | nil => rfl
  | cons k is ih =>
    obtain ⟨hk, hnodup⟩ := List.nodup_cons.mp hnodup
    rw [List.map_cons]
    have hone := hf k
    by_cases hki : k = i
    · subst hki
      rw [if_pos rfl] at hone
      rw [entryTrace, List.filterMap_cons_some hone, if_pos List.mem_cons_self, ← entryTrace, ih hnodup, if_neg hk]
    · rw [if_neg hki] at hone
      rw [entryTrace_cons_none hone, ih hnodup]
      simp [Ne.symm hki]

theorem entryTrace_deletions (rec : Bytes) {is : List I} (hnodup : is.Nodup) :
    entryTrace db i rid (deletions db rid rec is) = if i ∈ is then [(false, db.key i rec)] else [] := by
  refine entryTrace_map (fun k => ?_) hnodup
  by_cases hki : k = i
  · subst hki
    rw [entryAt, if_pos ⟨rfl, rfl⟩, if_pos rfl]
    rfl
  · rw [entryAt, if_neg fun h => hki h.1, if_neg hki]

theorem entryTrace_insertions (rec : Bytes) {is : List I} (hnodup : is.Nodup) :
    entryTrace db i rid (insertions db rid rec is) = if i ∈ is then [(true, db.key i rec)] else [] := by
  refine entryTrace_map (fun k => ?_) hnodup
  by_cases hki : k = i
  · subst hki
    rw [entryAt, if_pos ⟨rfl, rfl⟩, if_pos rfl]
    rfl
  · rw [entryAt, if_neg fun h => hki h.1, if_neg hki]

end

/-! ### Work on a row -/

/-- The key of a row in an index. -/
def rowKey (db : Schema T I) (s : Db T I) (i : I) (tab : T) (rid : Rid) : Option Bytes := (s.row tab rid).map (db.key i)

/-- The row is not an uncommitted one of transaction 0, and the entries that are removed are its own. -/
def RemovesOwn (db : Schema T I) : RowCond T I := fun s id r => NotOfFirst s id r.row ∧
  ∀ i ∈ r.ixs, s.ihs (i, db.key i r.old) = none ∨ s.ihs (i, db.key i r.old) = some r.rid

/-- What a move of a statement does to the row that it works on: all new records are of the row, which is new or locked, and
    its entries move with its keys. -/
structure Worked [DecidableEq T] (db : Schema T I) (id : Int) (row : T × Rid) (ws : List (WriteRecord T I)) (s t : Db T I) :
    Prop extends Frame id s t where
  writes : t.writes id = s.writes id ++ ws
  touches : ∀ w ∈ ws, ∀ q, Touches db w q → q = row
  rows : ∀ q : T × Rid, q ≠ row → t.row q.1 q.2 = s.row q.1 q.2
  there : (t.row row.1 row.2).isSome
  undo : ws.foldr (rowUndo row) (t.row row.1 row.2) = s.row row.1 row.2
  held : s.row row.1 row.2 = none ∧ (∃ rec, .insertTuple row.1 row.2 rec ∈ ws) ∨
    (∃ old, Reads db s id row.1 row.2 old) ∧ NotOfFirst s id row ∧ id ∈ t.lockTable row
  entry : ∀ i ∈ db.indexes row.1, EntryMove row.2 (rowKey db s i row.1 row.2) (fun k => s.ihs (i, k)) (entryTrace db i row.2 ws)
    (rowKey db t i row.1 row.2) (fun k => t.ihs (i, k))
  elsewhere : ∀ i ∉ db.indexes row.1, ∀ k, t.ihs (i, k) = s.ihs (i, k)

section
variable {s t : Db T I} {id : Int} {tab : T} {rid : Rid} {old new : Bytes} {is : List I}

/-- The entries of some indexes are removed. -/
theorem entryMove_deletions (hnodup : is.Nodup) (hs : s.row tab rid = some old) (ht : t.row tab rid = some old)
    (hown : ∀ i ∈ is, s.ihs (i, db.key i old) = none ∨ s.ihs (i, db.key i old) = some rid)
    (hihs : ∀ p, t.ihs p = (deletions db rid old is).foldl (keyDo db p) (s.ihs p)) (i : I) :
    EntryMove rid (rowKey db s i tab rid) (fun k => s.ihs (i, k)) (entryTrace db i rid (deletions db rid old is))
      (rowKey db t i tab rid) (fun k => t.ihs (i, k)) := by
  have hsame : rowKey db t i tab rid = rowKey db s i tab rid := by rw [rowKey, rowKey, hs, ht]
  rw [hsame, entryTrace_deletions old hnodup]
  by_cases hi : i ∈ is
  · have hv : (fun k => t.ihs (i, k)) = Function.update (fun k => s.ihs (i, k)) (db.key i old) none := by
      funext k
      rw [hihs, foldl_deletions, Function.update_apply]
      simp [KeyIn, hi]
    rw [if_pos hi, hv]
    refine .removed _ ?_ (hown i hi)
    rw [rowKey, hs]
    rfl
  · have hv : (fun k => t.ihs (i, k)) = fun k => s.ihs (i, k) := by
      funext k
      rw [hihs, foldl_deletions, if_neg fun h => hi h.1]
    rw [if_neg hi, hv]
    exact .kept

/-- The entries of the indexes whose key changes are removed, and inserted under the new key. -/
theorem entryMove_changed {all : List I} (hnodup : all.Nodup) (hs : s.row tab rid = some old) (ht : t.row tab rid = some new)
    (hold : ∀ i ∈ changed db old new all, s.ihs (i, db.key i old) = none ∨ s.ihs (i, db.key i old) = some rid)
    (hnew : ∀ i ∈ changed db old new all, s.ihs (i, db.key i new) = none ∨ s.ihs (i, db.key i new) = some rid)
    (hihs : ∀ p, t.ihs p = (insertions db rid new (changed db old new all)).foldl (keyDo db p)
      ((deletions db rid old (changed db old new all)).foldl (keyDo db p) (s.ihs p))) {i : I} (hi : i ∈ all) :
    EntryMove rid (rowKey db s i tab rid) (fun k => s.ihs (i, k))
      (entryTrace db i rid (deletions db rid old (changed db old new all)) ++
        entryTrace db i rid (insertions db rid new (changed db old new all)))
      (rowKey db t i tab rid) (fun k => t.ihs (i, k)) := by
  have hkeys : rowKey db s i tab rid = some (db.key i old) ∧ rowKey db t i tab rid = some (db.key i new) := by
    rw [rowKey, rowKey, hs, ht]
    exact ⟨rfl, rfl⟩
  have hnodup' : (changed db old new all).Nodup := hnodup.filter _
  rw [entryTrace_deletions old hnodup', entryTrace_insertions new hnodup']
  by_cases hch : i ∈ changed db old new all
  · have hv : (fun k => t.ihs (i, k)) =
        Function.update (Function.update (fun k => s.ihs (i, k)) (db.key i old) none) (db.key i new) (some rid) := by
      funext k
      rw [hihs, foldl_deletions, foldl_insertions]
      have hin : ∀ rec, KeyIn db rec (changed db old new all) (i, k) ↔ k = db.key i rec := fun rec => and_iff_right hch
      simp only [hin, Function.update_apply]
      by_cases hk : k = db.key i new
      · subst hk
        rw [if_pos rfl, if_pos rfl]
        split
        · rfl
        · rcases hnew i hch with h | h <;> rw [h] <;> rfl
      · simp [hk]
    rw [if_pos hch, if_pos hch, hkeys.2, hv]
    exact .moved _ _ hkeys.1 (hold i hch) (hnew i hch)
  · have hbytes : db.keyBytes i old = db.keyBytes i new := by
      by_contra hne
      exact hch (List.mem_filter.mpr ⟨hi, by simpa using hne⟩)
    have hsame : rowKey db t i tab rid = rowKey db s i tab rid := by
      rw [hkeys.1, hkeys.2, Schema.key, Schema.key, hbytes]
    have hv : (fun k => t.ihs (i, k)) = fun k => s.ihs (i, k) := by
      funext k
      rw [hihs, foldl_deletions, foldl_insertions, if_neg fun h => hch h.1, if_neg fun h => hch h.1]
    rw [if_neg hch, if_neg hch, hsame, hv]
    exact .kept

/-- The entries of a new row are inserted. -/
theorem entryMove_insertions {all : List I} (hnodup : all.Nodup) (hs : s.row tab rid = none) (ht : t.row tab rid = some new)
    (hfree : ∀ i ∈ all, s.ihs (i, db.key i new) = none)
    (hihs : ∀ p, t.ihs p = (insertions db rid new all).foldl (keyDo db p) (s.ihs p)) {i : I} (hi : i ∈ all) :
    EntryMove rid (rowKey db s i tab rid) (fun k => s.ihs (i, k)) (entryTrace db i rid (insertions db rid new all))
      (rowKey db t i tab rid) (fun k => t.ihs (i, k)) := by
  have hv : (fun k => t.ihs (i, k)) = Function.update (fun k => s.ihs (i, k)) (db.key i new) (some rid) := by
    funext k
    rw [hihs, foldl_insertions, Function.update_apply]
    by_cases hk : k = db.key i new
    · subst hk
      rw [if_pos ⟨hi, rfl⟩, if_pos rfl, hfree i hi]
      rfl
    · rw [if_neg fun h => hk h.2, if_neg hk]
  have hkeys : rowKey db s i tab rid = none ∧ rowKey db t i tab rid = some (db.key i new) := by
    rw [rowKey, rowKey, hs, ht]
    exact ⟨rfl, rfl⟩
  rw [entryTrace_insertions new hnodup, if_pos hi, hkeys.2, hv]
  exact .added _ hkeys.1 (hfree i hi)

omit [DecidableEq I] in
theorem own_of_not_taken {i : I} (h : s.taken db i (db.keyBytes i new) rid = false) :
    s.ihs (i, db.key i new) = none ∨ s.ihs (i, db.key i new) = some rid := by
  have hih : s.isUnique db i (db.keyBytes i new) = s.ihs (i, db.key i new) := rfl
  rw [taken, hih] at h
  cases hx : s.ihs (i, db.key i new) with
  | none => exact Or.inl rfl
  | some q =>
    rw [hx] at h
    exact Or.inr (congrArg some (by simpa using h))

end

variable [DecidableEq T]

/-- Entries of a row are removed, and nothing else happens. -/
theorem Quiet.worked {s t : Db T I} {id : Int} {tab : T} {rid : Rid} {old : Bytes} {is : List I}
    (hq : Quiet db id (deletions db rid old is) s t) (hread : Reads db s id tab rid old) (hfirst : NotOfFirst s id (tab, rid))
    (hlock : id ∈ t.lockTable (tab, rid)) (his : is ⊆ db.indexes tab) (hnodup : is.Nodup)
    (hown : ∀ i ∈ is, s.ihs (i, db.key i old) = none ∨ s.ihs (i, db.key i old) = some rid) :
    Worked db id (tab, rid) (deletions db rid old is) s t where
  toFrame := hq.toFrame
  writes := hq.gained.1
  touches := touches_deletions his
  rows q _ := hq.row q.1 q.2
  there := by
    rw [hq.row, hread.2]
    rfl
  undo := by rw [hq.row, foldr_rowUndo_ix hq.onlyIx]
  held := Or.inr ⟨⟨old, hread⟩, hfirst, hlock⟩
  entry i _ := entryMove_deletions hnodup hread.2 ((hq.row tab rid).trans hread.2) hown hq.gained.2 i
  elsewhere i hi k := by
    rw [hq.gained.2, foldl_deletions, if_neg fun h => hi (his h.1)]

/-- Every move works on a row, or does nothing to rows and entries. -/
theorem Move.worked {s t : Db T I} {id : Int} {a : Act db} (h : Move (RemovesOwn db) id a s t) :
    Quiet db id [] s t ∨ ∃ row ws, Worked db id row ws s t := by
  cases h with
  | quiet hq => exact Or.inl hq
  | @insert tab values _ _ rid rec hfree hw =>
    refine Or.inr ⟨(tab, rid), .insertTuple tab rid rec :: insertions db rid rec (db.indexes tab), ?_⟩
    have hihs : ∀ p, t.ihs p = (insertions db rid rec (db.indexes tab)).foldl (keyDo db p) (s.ihs p) := hw.gained.2
    exact {
      toFrame := hw.toFrame
      writes := hw.gained.1
      touches := fun w hw' q hq => by
        rcases List.mem_cons.mp hw' with rfl | hw'
        · exact touches_tuple rfl hq
        · exact touches_insertions (List.Subset.refl _) w hw' q hq
      rows := hw.rows
      there := by
        rw [hw.effect.2.1]
        rfl
      undo := hw.foldr_rowUndo (tab, rid)
      held := Or.inl ⟨hw.effect.1, rec, List.mem_cons_self⟩
      entry := fun i hi => entryMove_insertions (db.nodup tab) hw.effect.1 hw.effect.2.1 hfree hihs hi
      elsewhere := fun i hi k => by rw [hihs, foldl_insertions, if_neg fun h => hi h.1] }
  | @update tab rids set _ _ rid old new e hread hset hC hlock hout =>
    obtain ⟨hfirst, hown⟩ := hC
    refine Or.inr ⟨(tab, rid), ?_⟩
    have hsub : changed db old new (db.indexes tab) ⊆ db.indexes tab := List.filter_subset_self _
    have hnodup : (changed db old new (db.indexes tab)).Nodup := (db.nodup tab).filter _
    cases hout with
    | uniqueCheck pre post i hsplit htaken hpre hq =>
      have hown' : ∀ k ∈ pre, s.ihs (k, db.key k old) = none ∨ s.ihs (k, db.key k old) = some rid := by
        have := hown
        rwa [removed_of_taken hsplit htaken hpre] at this
      have hpresub : List.Sublist pre (changed db old new (db.indexes tab)) := by
        rw [hsplit]
        exact List.sublist_append_left pre _
      exact ⟨_, hq.worked hread hfirst hlock (fun k hk => hsub (hpresub.subset hk)) (hnodup.sublist hpresub) hown'⟩
    | abort hfree hq =>
      have hown' := hown
      rw [removed_of_free hfree] at hown'
      exact ⟨_, hq.worked hread hfirst hlock hsub hnodup hown'⟩
    | done hfree hrow hw =>
      have hown' := hown
      rw [removed_of_free hfree] at hown'
      have hihs : ∀ p, t.ihs p = (insertions db rid new (changed db old new (db.indexes tab))).foldl (keyDo db p)
          ((deletions db rid old (changed db old new (db.indexes tab))).foldl (keyDo db p) (s.ihs p)) := by
        intro p
        rw [hw.gained.2, List.foldl_append, List.foldl_append]
        rfl
      refine ⟨deletions db rid old (changed db old new (db.indexes tab)) ++ insertions db rid new (changed db old new (db.indexes tab)) ++
        [.updateTuple tab rid old], ?_⟩
      exact {
        toFrame := hw.toFrame
        writes := hw.gained.1
        touches := fun w hw' q hq => by
          rw [List.mem_append, List.mem_append, List.mem_singleton] at hw'
          rcases hw' with (hw' | hw') | rfl
          · exact touches_deletions hsub w hw' q hq
          · exact touches_insertions hsub w hw' q hq
          · exact touches_tuple rfl hq
        rows := hw.rows
        there := hw.effect.2.1
        undo := hw.foldr_rowUndo (tab, rid)
        held := Or.inr ⟨⟨old, hread⟩, hfirst, hlock⟩
        entry := fun i hi => by
          rw [entryTrace_concat_none rfl, entryTrace_append]
          exact entryMove_changed (db.nodup tab) hread.2 hrow hown' (fun k hk => own_of_not_taken (hfree k hk)) hihs hi
        elsewhere := fun i hi k => by
          rw [hihs, foldl_deletions, foldl_insertions, if_neg fun h => hi (hsub h.1), if_neg fun h => hi (hsub h.1)] }
  | @deleteFailed tab rids _ _ rid rec hread hC hlock hq =>
    exact Or.inr ⟨(tab, rid), _, hq.worked hread hC.1 hlock (List.Subset.refl _) (db.nodup tab) hC.2⟩
  | @delete tab rids _ _ rid rec hread hC hw =>
    have hihs : ∀ p, t.ihs p = (deletions db rid rec (db.indexes tab)).foldl (keyDo db p) (s.ihs p) := by
      intro p
      rw [hw.gained.2, List.foldl_append]
      rfl
    refine Or.inr ⟨(tab, rid), deletions db rid rec (db.indexes tab) ++ [.deleteTuple tab rid rec], ?_⟩
    exact {
      toFrame := hw.toFrame
      writes := hw.gained.1
      touches := fun w hw' q hq => by
        rw [List.mem_append, List.mem_singleton] at hw'
        rcases hw' with hw' | rfl
        · exact touches_deletions (List.Subset.refl _) w hw' q hq
        · exact touches_tuple rfl hq
      rows := hw.rows
      there := by
        rw [hw.effect.2.1]
        rfl
      undo := hw.foldr_rowUndo (tab, rid)
      held := Or.inr ⟨⟨rec, hread⟩, hC.1, hw.effect.2.2.2⟩
      entry := fun i hi => by
        rw [entryTrace_concat_none rfl]
        exact entryMove_deletions (db.nodup tab) hread.2 hw.effect.2.1 hC.2 hihs i
      elsewhere := fun i hi k => by rw [hihs, foldl_deletions, if_neg fun h => hi h.1] }

end Db
end Rmdb
