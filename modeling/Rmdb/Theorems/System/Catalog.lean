import Rmdb.System.SmManager
import Mathlib.Data.List.Perm.Basic

/-! Reading back the catalog that was written.

Every part of the text is taken out of the stream by the reader of this part, so that reading never fails. The reader of a
table goes through its indexes with one variable and keeps its columns: from the second index on it gets the columns of
those before it as well. -/

namespace Rmdb.Catalog
open TextStream

/-! ### What the readers take -/

/-- The names of a column can be written. -/
structure ColMeta.Ok (col : ColMeta) : Prop where
  tabName : IsWord col.tabName
  name : IsWord col.name

/-- The names of an index can be written, and it has columns. -/
structure IndexMeta.Ok (index : IndexMeta) : Prop where
  tabName : IsWord index.tabName
  cols : ∀ col ∈ index.cols, col.Ok
  colNum : index.colNum = index.cols.length
  nonempty : index.cols ≠ []

structure TabMeta.Ok (tab : TabMeta) : Prop where
  name : IsWord tab.name
  cols : ∀ col ∈ tab.cols, col.Ok
  indexes : ∀ e ∈ tab.indexes, IsWord e.1 ∧ e.2.Ok
  nodup : (tab.indexes.map (·.1)).Nodup

structure DbMeta.Ok (db : DbMeta) : Prop where
  name : IsWord db.name
  tabs : ∀ tab ∈ db.tabs, tab.Ok
  nodup : (db.tabs.map (·.name)).Nodup

theorem takes_type (type : ColType) {c : Char} (hc : TextStream.isSpace c) : Takes readType (showNat (typeCode type) ++ [c]) type := by
  have h := takes_nat (typeCode type) hc
  rw [← List.append_nil (_ ++ [c])]
  cases type with
  | int => exact h.bind (takes_pure ColType.int)
  | float => exact h.bind (takes_pure ColType.float)
  | string => exact h.bind (takes_pure ColType.string)

theorem takes_bool (b : Bool) {c : Char} (hc : TextStream.isSpace c) : Takes readBool (showNat b.toNat ++ [c]) b := by
  have h := takes_nat b.toNat hc
  rw [← List.append_nil (_ ++ [c])]
  cases b with
  | false => exact h.bind (takes_pure false)
  | true => exact h.bind (takes_pure true)

theorem takes_col {col : ColMeta} (h : col.Ok) : Takes readCol (col.text ++ ['\n']) col := by
  have htext : col.text ++ ['\n'] = (col.tabName.toList ++ [' ']) ++ ((col.name.toList ++ [' ']) ++
      ((showNat (typeCode col.type) ++ [' ']) ++ ((showNat col.len ++ [' ']) ++ ((showNat col.offset ++ [' ']) ++
        ((showNat col.index.toNat ++ ['\n']) ++ []))))) := by simp [ColMeta.text]
  rw [htext]
  refine (takes_word h.tabName rfl).bind ?_
  refine (takes_word h.name rfl).bind ?_
  refine (takes_type col.type rfl).bind ?_
  refine (takes_nat col.len rfl).bind ?_
  refine (takes_nat col.offset rfl).bind ?_
  exact (takes_bool col.index rfl).bind (takes_pure col)

theorem foldl_push {α : Type} (xs ys : List α) : ys.foldl (fun zs y => zs ++ [y]) xs = xs ++ ys := by
  induction ys generalizing xs with
  | nil => simp
  | cons y ys ih => rw [List.foldl_cons, ih, List.append_assoc, List.singleton_append]

theorem takes_cols {cols : List ColMeta} (h : ∀ col ∈ cols, col.Ok) (old : List ColMeta) :
    Takes (times pushCol cols.length old) (cols.flatMap fun col => col.text ++ ['\n']) (old ++ cols) := by
  rw [← foldl_push]
  refine takes_times (fun cols col hcol => ?_) old
  rw [← List.append_nil (col.text ++ ['\n'])]
  exact (takes_col (h col hcol)).bind (takes_pure (cols ++ [col]))

/-- What reading an index into a variable gives: the columns that it has stay. -/
def IndexMeta.reread (old index : IndexMeta) : IndexMeta := { index with cols := old.cols ++ index.cols }

theorem takes_index {index : IndexMeta} (h : index.Ok) (old : IndexMeta) :
    Takes (readIndex old) (index.text ++ ['\n']) (old.reread index) := by
  have hcols : ∀ cols : List ColMeta, (cols.flatMap fun col => '\n' :: col.text) ++ ['\n'] =
      '\n' :: cols.flatMap fun col => col.text ++ ['\n'] := by
    intro cols
    induction cols with
    | nil => rfl
    | cons col cols ih => simp [ih]
  have htext : index.text ++ ['\n'] = (index.tabName.toList ++ [' ']) ++ ((showNat index.colTotLen ++ [' ']) ++
      ((showNat index.colNum ++ ['\n']) ++ ((index.cols.flatMap fun col => col.text ++ ['\n']) ++ []))) := by
    have hjoin : index.text ++ ['\n'] = index.tabName.toList ++ ' ' :: showNat index.colTotLen ++ ' ' :: showNat index.colNum ++
        ((index.cols.flatMap fun col => '\n' :: col.text) ++ ['\n']) := by
      rw [IndexMeta.text, List.append_assoc]
    rw [hjoin, hcols]
    simp
  rw [htext]
  refine (takes_word h.tabName rfl).bind ?_
  refine (takes_nat index.colTotLen rfl).bind ?_
  refine (takes_nat index.colNum rfl).bind ?_
  refine Takes.bind (a := old.cols ++ index.cols) ?_ (takes_pure (old.reread index))
  rw [h.colNum]
  exact takes_cols h.cols old.cols

/-- The step of the loop over the indexes, with the table and the variable. -/
def rereadNext (p : TabMeta × IndexMeta) (e : String × IndexMeta) : TabMeta × IndexMeta :=
  (p.1.emplaceIndex e.1 (p.2.reread e.2), p.2.reread e.2)

/-- What reading a table gives. -/
def TabMeta.reread (tab : TabMeta) : TabMeta := (tab.indexes.foldl rereadNext (⟨tab.name, tab.cols, []⟩, ⟨"", 0, 0, []⟩)).1

theorem takes_namedIndex {e : String × IndexMeta} (hname : IsWord e.1) (h : e.2.Ok) (p : TabMeta × IndexMeta) :
    Takes (readNamedIndex p) (e.1.toList ++ '\n' :: e.2.text ++ ['\n']) (rereadNext p e) := by
  have htext : e.1.toList ++ '\n' :: e.2.text ++ ['\n'] = (e.1.toList ++ ['\n']) ++ ((e.2.text ++ ['\n']) ++ []) := by simp
  rw [htext]
  exact (takes_word hname rfl).bind ((takes_index h p.2).bind (takes_pure (rereadNext p e)))

theorem takes_tab {tab : TabMeta} (h : tab.Ok) : Takes readTab (tab.text ++ ['\n']) tab.reread := by
  refine Takes.trail ?_ rfl
  have htext : tab.text = (tab.name.toList ++ ['\n']) ++ ((showNat tab.cols.length ++ ['\n']) ++
      ((tab.cols.flatMap fun col => col.text ++ ['\n']) ++ ((showNat tab.indexes.length ++ ['\n']) ++
        ((tab.indexes.flatMap fun e => e.1.toList ++ '\n' :: e.2.text ++ ['\n']) ++ [])))) := by simp [TabMeta.text]
  rw [htext]
  refine (takes_word h.name rfl).bind ?_
  refine (takes_nat tab.cols.length rfl).bind ?_
  refine (takes_cols h.cols []).bind ?_
  refine (takes_nat tab.indexes.length rfl).bind ?_
  refine Takes.bind (takes_times (fun p e he => ?_) ((⟨tab.name, tab.cols, []⟩ : TabMeta), (⟨"", 0, 0, []⟩ : IndexMeta)))
    (takes_pure tab.reread)
  exact takes_namedIndex (h.indexes e he).1 (h.indexes e he).2 p

/-- What reading the catalog gives. -/
def DbMeta.reread (db : DbMeta) : DbMeta := db.tabs.foldl (fun d tab => d.setTab tab.reread) ⟨db.name, []⟩

theorem takes_db {db : DbMeta} (h : db.Ok) : Takes readDb db.text db.reread := by
  have htext : db.text = (db.name.toList ++ ['\n']) ++ ((showNat db.tabs.length ++ ['\n']) ++
      (db.tabs.flatMap fun tab => tab.text ++ ['\n'])) := by simp [DbMeta.text]
  rw [htext]
  refine (takes_word h.name rfl).bind ?_
  refine (takes_nat db.tabs.length rfl).bind ?_
  refine takes_times (fun d tab htab => ?_) _
  rw [← List.append_nil (tab.text ++ ['\n'])]
  exact (takes_tab (h.tabs tab htab)).bind (takes_pure (d.setTab tab.reread))

/-! ### The indexes of a table that is read -/

theorem index?_emplaceIndex (tab : TabMeta) (name k : String) (index : IndexMeta) :
    (tab.emplaceIndex name index).index? k = (tab.index? k).or (if k = name then some index else none) := by
  rw [TabMeta.emplaceIndex]
  split
  · next hsome =>
    by_cases hk : k = name
    · subst hk
      obtain ⟨x, hx⟩ := Option.isSome_iff_exists.mp hsome
      rw [hx]
      rfl
    · rw [if_neg hk, Option.or_none]
  · rw [TabMeta.index?, List.lookup_append, TabMeta.index?]
    by_cases hk : k = name
    · subst hk
      simp
    · have hbeq : (k == name) = false := beq_eq_false_iff_ne.mpr hk
      simp [List.lookup_cons, hbeq, hk]

theorem index?_foldl {es : List (String × IndexMeta)} {p : TabMeta × IndexMeta} {k : String} {index : IndexMeta}
    (h : p.1.index? k = some index) : (es.foldl rereadNext p).1.index? k = some index := by
  induction es generalizing p with
  | nil => exact h
  | cons e es ih =>
    refine ih ?_
    rw [rereadNext, index?_emplaceIndex, h]
    rfl

theorem reread_one {tab : TabMeta} (h : tab.indexes.length ≤ 1) : tab.reread = tab := by
  obtain ⟨name, cols, indexes⟩ := tab
  cases indexes with
  | nil => rfl
  | cons e indexes =>
    cases indexes with
    | nil => rfl
    | cons d indexes => exact absurd h (by simp)

/-- The second index has the columns of the first one too. -/
theorem reread_two {tab : TabMeta} (hok : tab.Ok) (h : 1 < tab.indexes.length) : tab.reread.view ≠ tab.view := by
  have hnodup := hok.nodup
  have hindexes := hok.indexes
  obtain ⟨name, cols, indexes⟩ := tab
  cases indexes with
  | nil => cases h
  | cons d indexes =>
    cases indexes with
    | nil => exact absurd h (by simp)
    | cons e es =>
      obtain ⟨n, d⟩ := d
      obtain ⟨k, e⟩ := e
      simp only [List.map_cons, List.nodup_cons, List.mem_cons, not_or] at hnodup
      have hne : (k == n) = false := beq_eq_false_iff_ne.mpr (Ne.symm hnodup.1.1)
      have hnonempty : d.cols ≠ [] := (hindexes (n, d) List.mem_cons_self).2.nonempty
      intro heq
      have hview : (TabMeta.reread ⟨name, cols, (n, d) :: (k, e) :: es⟩).index? k =
          (⟨name, cols, (n, d) :: (k, e) :: es⟩ : TabMeta).index? k := congrFun (congrArg (·.2.2) heq) k
      have hread : (TabMeta.reread ⟨name, cols, (n, d) :: (k, e) :: es⟩).index? k = some (d.reread e) := by
        rw [TabMeta.reread]
        simp only [List.foldl_cons]
        refine index?_foldl ?_
        rw [rereadNext, index?_emplaceIndex, rereadNext, index?_emplaceIndex, if_neg (Ne.symm hnodup.1.1), if_pos rfl]
        rfl
      have hold : (⟨name, cols, (n, d) :: (k, e) :: es⟩ : TabMeta).index? k = some e := by
        simp [TabMeta.index?, List.lookup_cons, hne]
      rw [hread, hold] at hview
      have hcols : d.cols ++ e.cols = e.cols := congrArg (·.cols) (Option.some.inj hview)
      exact hnonempty (List.append_left_eq_self.mp hcols)

theorem name_reread (tab : TabMeta) : tab.reread.name = tab.name := by
  have hname : ∀ (es : List (String × IndexMeta)) (p : TabMeta × IndexMeta), (es.foldl rereadNext p).1.name = p.1.name := by
    intro es
    induction es with
    | nil => exact fun _ => rfl
    | cons e es ih =>
      intro p
      rw [List.foldl_cons, ih, rereadNext, TabMeta.emplaceIndex]
      split <;> rfl
  exact hname tab.indexes _

/-! ### The tables of a catalog that is read -/

/-- A table is found under its name. -/
theorem tab?_eq_some {db : DbMeta} (h : (db.tabs.map (·.name)).Nodup) {name : String} {tab : TabMeta} :
    db.tab? name = some tab ↔ tab ∈ db.tabs ∧ tab.name = name := by
  constructor
  · intro hfind
    exact ⟨List.mem_of_find?_eq_some hfind, by simpa using List.find?_some hfind⟩
  · rintro ⟨hmem, rfl⟩
    cases hfind : db.tab? tab.name with
    | none => exact absurd hmem fun hmem => by simpa using List.find?_eq_none.mp hfind tab hmem
    | some t =>
      have ht : t.name = tab.name := by simpa using List.find?_some hfind
      rw [List.inj_on_of_nodup_map h (List.mem_of_find?_eq_some hfind) hmem ht]

theorem tab?_eq_none {db : DbMeta} {name : String} : db.tab? name = none ↔ ∀ tab ∈ db.tabs, tab.name ≠ name := by
  simp [DbMeta.tab?, List.find?_eq_none]

theorem tabs_setTab {db : DbMeta} {tab : TabMeta} (h : db.tab? tab.name = none) : (db.setTab tab).tabs.Perm (tab :: db.tabs) := by
  rw [DbMeta.setTab, h]
  exact List.perm_orderedInsert _ tab db.tabs

theorem tabs_foldl (tabs : List TabMeta) (db : DbMeta) (h : ((tabs ++ db.tabs).map (·.name)).Nodup) :
    (tabs.foldl (fun d tab => d.setTab tab) db).tabs.Perm (tabs ++ db.tabs) ∧ (tabs.foldl (fun d tab => d.setTab tab) db).name = db.name := by
  induction tabs generalizing db with
  | nil => exact ⟨.refl _, rfl⟩
  | cons tab tabs ih =>
    have hnew : db.tab? tab.name = none := by
      refine tab?_eq_none.mpr fun t ht heq => ?_
      rw [List.cons_append, List.map_cons, List.nodup_cons] at h
      exact h.1 (List.mem_map.mpr ⟨t, List.mem_append_right _ ht, heq⟩)
    have hperm := tabs_setTab hnew
    have hmid : (tabs ++ (db.setTab tab).tabs).Perm (tab :: (tabs ++ db.tabs)) := (hperm.append_left tabs).trans List.perm_middle
    obtain ⟨hih, hname⟩ := ih _ (((hmid.map _).nodup_iff).mpr h)
    exact ⟨hih.trans hmid, hname⟩

theorem tab?_reread {db : DbMeta} (h : (db.tabs.map (·.name)).Nodup) (name : String) :
    db.reread.tab? name = (db.tab? name).map (·.reread) ∧ db.reread.name = db.name := by
  have hnames : ((db.tabs.map (·.reread)).map (·.name)) = db.tabs.map (·.name) := by
    rw [List.map_map]
    exact List.map_congr_left fun tab _ => name_reread tab
  have hfold : db.reread = (db.tabs.map (·.reread)).foldl (fun d tab => d.setTab tab) ⟨db.name, []⟩ := by
    rw [DbMeta.reread, List.foldl_map]
  obtain ⟨hperm, hname⟩ := tabs_foldl (db.tabs.map (·.reread)) ⟨db.name, []⟩ (by rw [List.append_nil, hnames]; exact h)
  rw [List.append_nil, ← hfold] at hperm
  rw [← hfold] at hname
  refine ⟨?_, hname⟩
  have hnodup : (db.reread.tabs.map (·.name)).Nodup := by
    rw [(hperm.map _).nodup_iff, hnames]
    exact h
  cases hfind : db.tab? name with
  | none =>
    refine tab?_eq_none.mpr fun t ht => ?_
    obtain ⟨tab, htab, rfl⟩ := List.mem_map.mp (hperm.mem_iff.mp ht)
    rw [name_reread]
    exact tab?_eq_none.mp hfind tab htab
  | some tab =>
    obtain ⟨hmem, hname⟩ := (tab?_eq_some h).mp hfind
    refine (tab?_eq_some hnodup).mpr ⟨hperm.mem_iff.mpr (List.mem_map_of_mem hmem), ?_⟩
    rw [name_reread]
    exact hname

/-- The catalog that is read back is the same if no table has a second index. -/
theorem same_reread_iff {db : DbMeta} (h : db.Ok) : Same db.reread db ↔ ∀ tab ∈ db.tabs, tab.indexes.length ≤ 1 := by
  constructor
  · rintro ⟨-, hsame⟩ tab htab
    by_contra hlen
    refine reread_two (h.tabs tab htab) (Nat.lt_of_not_le hlen) ?_
    have hview := hsame tab.name
    rw [(tab?_reread h.nodup tab.name).1, (tab?_eq_some h.nodup).mpr ⟨htab, rfl⟩] at hview
    exact Option.some.inj hview
  · refine fun hall => ⟨(tab?_reread h.nodup "").2, fun name => ?_⟩
    rw [(tab?_reread h.nodup name).1]
    cases hfind : db.tab? name with
    | none => rfl
    | some tab =>
      have htab := ((tab?_eq_some h.nodup).mp hfind).1
      rw [Option.map_some, reread_one (hall tab htab)]

theorem isSome_tab? {db : DbMeta} {name : String} : (db.tab? name).isSome ↔ ∃ tab ∈ db.tabs, tab.name = name := by
  simp [DbMeta.tab?]

theorem mem_setTab {db : DbMeta} {tab t : TabMeta} (h : t ∈ (db.setTab tab).tabs) : t = tab ∨ t ∈ db.tabs ∧ t.name ≠ tab.name := by
  rw [DbMeta.setTab] at h
  split at h
  · obtain ⟨u, hu, rfl⟩ := List.mem_map.mp h
    split
    · exact Or.inl rfl
    · next hne => exact Or.inr ⟨hu, hne⟩
  · next hnone =>
    rcases (List.mem_orderedInsert (fun a b : TabMeta => a.name ≤ b.name)).mp h with rfl | ht
    · exact Or.inl rfl
    · refine Or.inr ⟨ht, fun heq => hnone ?_⟩
      exact isSome_tab?.mpr ⟨t, ht, heq⟩

theorem isSome_tab?_setTab {db : DbMeta} {tab : TabMeta} {name : String} :
    ((db.setTab tab).tab? name).isSome ↔ name = tab.name ∨ (db.tab? name).isSome := by
  rw [isSome_tab?, isSome_tab?]
  constructor
  · rintro ⟨t, ht, rfl⟩
    rcases mem_setTab ht with rfl | ⟨ht, -⟩
    · exact Or.inl rfl
    · exact Or.inr ⟨t, ht, rfl⟩
  · rw [DbMeta.setTab]
    split
    · next hsome =>
      obtain ⟨u, hu, hname⟩ := isSome_tab?.mp hsome
      rintro (rfl | ⟨t, ht, rfl⟩)
      · exact ⟨tab, List.mem_map.mpr ⟨u, hu, if_pos hname⟩, rfl⟩
      · by_cases hne : t.name = tab.name
        · exact ⟨tab, List.mem_map.mpr ⟨t, ht, if_pos hne⟩, hne.symm⟩
        · exact ⟨t, List.mem_map.mpr ⟨t, ht, if_neg hne⟩, rfl⟩
    · rintro (rfl | ⟨t, ht, rfl⟩)
      · exact ⟨tab, (List.mem_orderedInsert _).mpr (Or.inl rfl), rfl⟩
      · exact ⟨t, (List.mem_orderedInsert _).mpr (Or.inr ht), rfl⟩

theorem DbMeta.Ok.setTab {db : DbMeta} {tab : TabMeta} (h : db.Ok) (htab : tab.Ok) : (db.setTab tab).Ok where
  name := h.name
  tabs t ht := by
    rcases mem_setTab ht with rfl | ⟨ht, -⟩
    · exact htab
    · exact h.tabs t ht
  nodup := by
    by_cases hsome : (db.tab? tab.name).isSome
    · have hnames : (db.tabs.map fun t => if t.name = tab.name then tab else t).map (·.name) = db.tabs.map (·.name) := by
        rw [List.map_map]
        refine List.map_congr_left fun t _ => ?_
        by_cases hne : t.name = tab.name <;> simp [hne]
      rw [DbMeta.setTab, if_pos hsome, hnames]
      exact h.nodup
    · have hnone : db.tab? tab.name = none := by simpa using hsome
      rw [((tabs_setTab hnone).map _).nodup_iff, List.map_cons, List.nodup_cons]
      refine ⟨fun hmem => ?_, h.nodup⟩
      obtain ⟨t, ht, heq⟩ := List.mem_map.mp hmem
      exact tab?_eq_none.mp hnone t ht heq

/-- Erasing a new table. -/
theorem eraseTab_setTab {db : DbMeta} {tab : TabMeta} (h : db.tab? tab.name = none) : (db.setTab tab).eraseTab tab.name = db := by
  have hkeep : ∀ tabs : List TabMeta, (∀ t ∈ tabs, t ∈ db.tabs) → tabs.filter (·.name ≠ tab.name) = tabs := by
    intro tabs hsub
    exact List.filter_eq_self.mpr fun t ht => by simpa using tab?_eq_none.mp h t (hsub t ht)
  have htabs : (db.tabs.orderedInsert (fun a b => a.name ≤ b.name) tab).filter (·.name ≠ tab.name) = db.tabs := by
    rw [List.orderedInsert_eq_take_drop, List.filter_append, List.filter_cons_of_neg (by simp),
      hkeep _ fun t ht => (List.takeWhile_sublist _).subset ht, hkeep _ fun t ht => (List.dropWhile_sublist _).subset ht,
      List.takeWhile_append_dropWhile]
  rw [DbMeta.setTab, h, DbMeta.eraseTab]
  simp only [Option.isSome_none, Bool.false_eq_true, if_false]
  rw [htabs]

theorem isSome_tab?_eraseTab {db : DbMeta} {name n : String} (hn : n ≠ name) (h : (db.tab? n).isSome) :
    ((db.eraseTab name).tab? n).isSome := by
  obtain ⟨tab, htab, rfl⟩ := isSome_tab?.mp h
  exact isSome_tab?.mpr ⟨tab, List.mem_filter.mpr ⟨htab, by simpa using hn⟩, rfl⟩

theorem DbMeta.Ok.eraseTab {db : DbMeta} (h : db.Ok) (name : String) : (db.eraseTab name).Ok where
  name := h.name
  tabs tab htab := h.tabs tab (List.mem_filter.mp htab).1
  nodup := h.nodup.sublist (List.filter_sublist.map _)

theorem TabMeta.Ok.emplaceIndex {tab : TabMeta} (h : tab.Ok) {name : String} {index : IndexMeta} (hname : IsWord name) (hindex : index.Ok) :
    (tab.emplaceIndex name index).Ok := by
  rw [TabMeta.emplaceIndex]
  split
  · exact h
  · next hnone =>
    refine ⟨h.name, h.cols, fun e he => ?_, ?_⟩
    · rcases List.mem_append.mp he with he | he
      · exact h.indexes e he
      · rw [List.mem_singleton.mp he]
        exact ⟨hname, hindex⟩
    · rw [List.map_append, List.nodup_append]
      refine ⟨h.nodup, by simp, fun a ha b hb heq => hnone ?_⟩
      obtain ⟨e, he, rfl⟩ := List.mem_map.mp ha
      have hb : b = name := by simpa using hb
      rw [TabMeta.index?, ← hb, ← heq]
      by_contra hlookup
      rw [Option.not_isSome_iff_eq_none, List.lookup_eq_none_iff] at hlookup
      simpa using hlookup e he

end Rmdb.Catalog
