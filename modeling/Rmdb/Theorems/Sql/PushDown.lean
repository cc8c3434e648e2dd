import Rmdb.Sql.Executor

/-! Which scan each condition of a WHERE clause goes to. -/

namespace Rmdb.Sql
open Outcomes

/-! ### Conditions of one table and of two -/

namespace Condition

/-- A column against a constant, or against a column of the same table. -/
def OneTable (c : Condition) : Prop := c.isRhsVal = true ∨ c.lhsCol.tabName = c.rhsTab

/-- A column against a column of the same table. -/
def SameTable (c : Condition) : Prop := c.isRhsVal = false ∧ c.lhsCol.tabName = c.rhsTab

/-- A column against a column of another table. -/
def TwoTable (c : Condition) : Prop := c.isRhsVal = false ∧ c.lhsCol.tabName ≠ c.rhsTab

instance (c : Condition) : Decidable c.OneTable := inferInstanceAs (Decidable (_ ∨ _))

instance (c : Condition) : Decidable c.TwoTable := inferInstanceAs (Decidable (_ ∧ _))

theorem twoTable_iff {c : Condition} : c.TwoTable ↔ ¬c.OneTable := by
  unfold TwoTable OneTable
  rw [not_or, Bool.not_eq_true]

theorem rhsTab_of_val {c : Condition} (h : c.isRhsVal = true) : c.rhsTab = "" := by
  unfold isRhsVal at h
  unfold rhsTab
  cases hrhs : c.rhs with
  | val v raw => rfl
  | col d => rw [hrhs] at h; cases h

end Condition

theorem isPopped_iff {tab : String} {c : Condition} :
    isPopped tab c = true ↔ (c.isRhsVal = true ∧ c.lhsCol.tabName = tab) ∨ c.lhsCol.tabName = c.rhsTab := by
  unfold isPopped
  rw [Bool.or_eq_true, Bool.and_eq_true, decide_eq_true_eq, decide_eq_true_eq, and_comm, eq_comm (a := tab)]

/-! ### What the analysis has checked -/

/-- The columns of the condition are columns of these tables. -/
structure Condition.Checked (tables : List String) (c : Condition) : Prop where
  lhs : c.lhsCol.tabName ∈ tables
  named : c.lhsCol.tabName ≠ ""
  rhs : c.isRhsVal = false → c.rhsTab ∈ tables

theorem inferTable_mem {col : String} {cols : List Catalog.ColMeta} {tab tab' : String}
    (h : inferTable col cols tab = .ok tab') : tab' = tab ∨ ∃ c ∈ cols, c.tabName = tab' ∧ c.name = col := by
  induction cols generalizing tab with
  | nil =>
    cases h
    exact Or.inl rfl
  | cons c cs ih =>
    rw [inferTable] at h
    split at h
    · next hcol =>
      split at h
      · cases h
      · rcases ih h with rfl | ⟨d, hd, hname⟩
        · exact Or.inr ⟨c, List.mem_cons_self .., rfl, hcol⟩
        · exact Or.inr ⟨d, List.mem_cons_of_mem _ hd, hname⟩
    · rcases ih h with rfl | ⟨d, hd, hname⟩
      · exact Or.inl rfl
      · exact Or.inr ⟨d, List.mem_cons_of_mem _ hd, hname⟩

theorem checkColumn_table {allCols : List Catalog.ColMeta} {target col : TabCol} (h : checkColumn allCols target = .ok col) :
    col.tabName ≠ "" ∧ ∃ c ∈ allCols, c.tabName = col.tabName ∧ c.name = col.colName := by
  unfold checkColumn at h
  split at h
  · obtain ⟨tab, htab, h⟩ := ok_of_bind h
    split at h
    · cases h
    · next hne =>
      cases h
      exact ⟨hne, (inferTable_mem htab).resolve_left hne⟩
  · next hne =>
    split at h
    · next hany =>
      cases h
      obtain ⟨c, hc, hname⟩ := List.any_eq_true.mp hany
      exact ⟨hne, c, hc, of_decide_eq_true hname⟩
    · cases h

section CheckClause
variable {cat : Catalog.DbMeta} {allCols : List Catalog.ColMeta} {target : TabCol} {op : CompOp} {c : Condition}

/-- What `check_clause` makes of a comparison with a constant. -/
theorem checkClause_val {v : Value} {raw : Bytes} (h : checkClause cat allCols ⟨target, op, .val v raw⟩ = .ok c) :
    ∃ lhs tab col raw', checkColumn allCols target = .ok lhs ∧ getTable cat lhs.tabName = .ok tab ∧
      getTabCol tab lhs.colName = .ok col ∧ v.initRaw col.len = .ok raw' ∧
      (col.type = v.type ∨ isNumericType col.type = true ∧ isNumericType v.type = true) ∧
      c = ⟨lhs, op, .val (castValue col.type v) raw'⟩ := by
  unfold checkClause at h
  obtain ⟨lhs, hlhs, h⟩ := ok_of_bind h
  dsimp only at h
  obtain ⟨rhs, hrhs, h⟩ := ok_of_bind h
  cases hrhs
  obtain ⟨tab, htab, h⟩ := ok_of_bind h
  obtain ⟨col, hcol, h⟩ := ok_of_bind h
  obtain ⟨raw', hraw, h⟩ := ok_of_bind h
  split at h
  · cases h
  · next htype =>
    cases h
    exact ⟨lhs, tab, col, raw', hlhs, htab, hcol, hraw,
      Decidable.or_iff_not_imp_left.mpr (Decidable.not_and_not_right.mp htype), rfl⟩

/-- What `check_clause` makes of a comparison of two columns. -/
theorem checkClause_col {d : TabCol} (h : checkClause cat allCols ⟨target, op, .col d⟩ = .ok c) :
    ∃ lhs rhs tab col tab' col', checkColumn allCols target = .ok lhs ∧ checkColumn allCols d = .ok rhs ∧
      getTable cat lhs.tabName = .ok tab ∧ getTabCol tab lhs.colName = .ok col ∧
      getTable cat rhs.tabName = .ok tab' ∧ getTabCol tab' rhs.colName = .ok col' ∧
      (col.type = col'.type ∨ isNumericType col.type = true ∧ isNumericType col'.type = true) ∧ c = ⟨lhs, op, .col rhs⟩ := by
  unfold checkClause at h
  obtain ⟨lhs, hlhs, h⟩ := ok_of_bind h
  dsimp only at h
  obtain ⟨rhs, hrhs, h⟩ := ok_of_bind h
  obtain ⟨rhs', hrhs', h⟩ := ok_of_bind h
  cases hrhs'
  obtain ⟨tab, htab, h⟩ := ok_of_bind h
  obtain ⟨col, hcol, h⟩ := ok_of_bind h
  obtain ⟨tab', htab', h⟩ := ok_of_bind h
  obtain ⟨col', hcol', h⟩ := ok_of_bind h
  split at h
  · cases h
  · next htype =>
    cases h
    exact ⟨lhs, rhs, tab, col, tab', col', hlhs, hrhs, htab, hcol, htab', hcol',
      Decidable.or_iff_not_imp_left.mpr (Decidable.not_and_not_right.mp htype), rfl⟩

/-- A condition that `check_clause` lets pass. -/
theorem checkClause_checked {tables : List String} {c' : Condition} (hcols : ∀ col ∈ allCols, col.tabName ∈ tables)
    (h : checkClause cat allCols c' = .ok c) : c.Checked tables := by
  have hmem : ∀ {a b : TabCol}, checkColumn allCols a = .ok b → b.tabName ∈ tables ∧ b.tabName ≠ "" := fun hcheck => by
    obtain ⟨hne, col, hcol, hname, -⟩ := checkColumn_table hcheck
    exact ⟨hname ▸ hcols col hcol, hne⟩
  obtain ⟨target, op, rhs⟩ := c'
  cases rhs with
  | val v raw =>
    obtain ⟨lhs, _, _, _, hlhs, -, -, -, -, rfl⟩ := checkClause_val h
    exact ⟨(hmem hlhs).1, (hmem hlhs).2, fun hval => (by cases hval)⟩
  | col d =>
    obtain ⟨lhs, rhs, _, _, _, _, hlhs, hrhs, -, -, -, -, -, rfl⟩ := checkClause_col h
    exact ⟨(hmem hlhs).1, (hmem hlhs).2, fun _ => (hmem hrhs).1⟩

/-- The columns that conditions may name are those of the tables in the FROM clause. -/
theorem getAllCols_tables {db : Db} {tables : List String} (h : getAllCols db.catalog tables = .ok allCols) :
    ∀ col ∈ allCols, col.tabName ∈ tables := by
  obtain ⟨tabs, htabs, h⟩ := ok_of_bind h
  cases h
  intro col hcol
  obtain ⟨tab, htab, hcol⟩ := List.mem_flatMap.mp hcol
  have hget : ∀ name ∈ tables, Meets (fun tab : Catalog.TabMeta => ∀ col ∈ tab.cols, col.tabName ∈ tables) (fun _ => True)
      (getTable db.catalog name) := by
    intro name hname
    unfold getTable
    split
    · next tab htab =>
      intro col hcol
      obtain ⟨t, ht, rfl⟩ := List.mem_map.mp (List.mem_of_find?_eq_some htab)
      have hfound : t.tab.name = name := by simpa using List.find?_some htab
      rw [t.named col hcol, hfound]
      exact hname
    · trivial
  exact (Meets.mapM hget).of_ok htabs tab htab col hcol

end CheckClause

/-! ### `pop_conds` -/

/-- Every condition that mentions one table only is in the scan of that table and in no other, the others are left, and none
    is lost or doubled. -/
structure PushedDown (tables : List String) (conds : List Condition) (scans : List (String × List Condition))
    (rest : List Condition) : Prop where
  names : scans.map (·.1) = tables
  assigned : ∀ c ∈ conds, c.OneTable → ∃ scan ∈ scans, scan.1 = c.lhsCol.tabName ∧ c ∈ scan.2
  own : ∀ scan ∈ scans, ∀ c ∈ scan.2, c.OneTable ∧ c.lhsCol.tabName = scan.1
  left : ∀ c, c ∈ rest ↔ c ∈ conds ∧ c.TwoTable
  kept : (scans.flatMap Prod.snd ++ rest).Perm conds

section PopAll
variable {tables : List String} {conds : List Condition}

theorem popAll_cons (tab : String) (tabs : List String) (conds : List Condition) :
    popAll (tab :: tabs) conds = ((tab, conds.filter (isPopped tab)) :: (popAll tabs (conds.filter fun c => !isPopped tab c)).1,
      (popAll tabs (conds.filter fun c => !isPopped tab c)).2) := rfl

theorem popAll_names : (popAll tables conds).1.map (·.1) = tables := by
  induction tables generalizing conds with
  | nil => rfl
  | cons tab tabs ih =>
    rw [popAll_cons, List.map_cons, ih]

theorem popAll_perm : ((popAll tables conds).1.flatMap Prod.snd ++ (popAll tables conds).2).Perm conds := by
  induction tables generalizing conds with
  | nil => exact List.Perm.refl _
  | cons tab tabs ih =>
    rw [popAll_cons, List.flatMap_cons, List.append_assoc]
    exact (ih.append_left _).trans (List.filter_append_perm (isPopped tab) conds)

/-- A condition that the first table takes is one of its own. -/
theorem isPopped_own {tab : String} {c : Condition} (hnamed : c.lhsCol.tabName ≠ "")
    (hfirst : c.SameTable → c.lhsCol.tabName = tab) (hpop : isPopped tab c = true) : c.OneTable ∧ c.lhsCol.tabName = tab := by
  rcases isPopped_iff.mp hpop with ⟨hval, htab⟩ | hsame
  · exact ⟨Or.inl hval, htab⟩
  · cases hval : c.isRhsVal with
    | false => exact ⟨Or.inr hsame, hfirst ⟨hval, hsame⟩⟩
    | true => exact absurd (hsame.trans (Condition.rhsTab_of_val hval)) hnamed

/-- The first scan takes every condition that compares two columns of one table. -/
theorem not_sameTable_of_left {tab : String} {c : Condition} (h : c ∈ conds.filter fun c => !isPopped tab c) : ¬c.SameTable := by
  intro hsame
  have hnot := (List.mem_filter.mp h).2
  rw [isPopped_iff.mpr (Or.inr hsame.2)] at hnot
  cases hnot

theorem popAll_own (hnamed : ∀ c ∈ conds, c.lhsCol.tabName ≠ "")
    (hfirst : ∀ c ∈ conds, c.SameTable → tables.head? = some c.lhsCol.tabName) :
    ∀ scan ∈ (popAll tables conds).1, ∀ c ∈ scan.2, c.OneTable ∧ c.lhsCol.tabName = scan.1 := by
  induction tables generalizing conds with
  | nil =>
    intro scan hscan
    cases hscan
  | cons tab tabs ih =>
    intro scan hscan c hc
    rw [popAll_cons] at hscan
    rcases List.mem_cons.mp hscan with rfl | hscan
    · obtain ⟨hmem, hpop⟩ := List.mem_filter.mp hc
      exact isPopped_own (hnamed c hmem) (fun hsame => (Option.some.inj (hfirst c hmem hsame)).symm) hpop
    · exact ih (fun d hd => hnamed d (List.mem_of_mem_filter hd)) (fun d hd hsame => absurd hsame (not_sameTable_of_left hd))
        scan hscan c hc

/-- What no table takes compares columns of two. -/
theorem popAll_rest (hlhs : ∀ c ∈ conds, c.lhsCol.tabName ∈ tables) : ∀ c ∈ (popAll tables conds).2, c.TwoTable := by
  suffices h : ∀ c ∈ (popAll tables conds).2, (∀ tab ∈ tables, isPopped tab c = false) ∧ c ∈ conds by
    intro c hc
    obtain ⟨hpop, hmem⟩ := h c hc
    refine Condition.twoTable_iff.mpr fun hone => ?_
    have := hpop _ (hlhs c hmem)
    rw [isPopped_iff.mpr (hone.imp_left fun hval => ⟨hval, rfl⟩)] at this
    cases this
  clear hlhs
  induction tables generalizing conds with
  | nil => exact fun c hc => ⟨fun tab htab => (by cases htab), hc⟩
  | cons tab tabs ih =>
    intro c hc
    obtain ⟨hpop, hmem⟩ := ih c hc
    obtain ⟨hmem, hnot⟩ := List.mem_filter.mp hmem
    refine ⟨fun t ht => ?_, hmem⟩
    rcases List.mem_cons.mp ht with rfl | ht
    · exact Bool.not_eq_true' _ ▸ hnot
    · exact hpop t ht

/-- Where each condition goes follows from what the scans and the rest consist of. -/
theorem PushedDown.of_own {scans : List (String × List Condition)} {rest : List Condition}
    (hnames : scans.map (·.1) = tables) (hkept : (scans.flatMap Prod.snd ++ rest).Perm conds)
    (hown : ∀ scan ∈ scans, ∀ c ∈ scan.2, c.OneTable ∧ c.lhsCol.tabName = scan.1) (hrest : ∀ c ∈ rest, c.TwoTable) :
    PushedDown tables conds scans rest := by
  have hmem : ∀ c, c ∈ conds ↔ (∃ scan ∈ scans, c ∈ scan.2) ∨ c ∈ rest := fun c => by
    rw [← hkept.mem_iff, List.mem_append, List.mem_flatMap]
  refine ⟨hnames, fun c hc hone => ?_, hown, fun c => ⟨fun hc => ⟨(hmem c).mpr (Or.inr hc), hrest c hc⟩, ?_⟩, hkept⟩
  · rcases (hmem c).mp hc with ⟨scan, hscan, hc⟩ | hc
    · exact ⟨scan, hscan, (hown scan hscan c hc).2.symm, hc⟩
    · exact absurd hone (Condition.twoTable_iff.mp (hrest c hc))
  · rintro ⟨hc, htwo⟩
    rcases (hmem c).mp hc with ⟨scan, hscan, hc⟩ | hc
    · exact absurd (hown scan hscan c hc).1 (Condition.twoTable_iff.mp htwo)
    · exact hc

/-- The conditions go to the scans of their tables if and only if those that compare two columns of one table are of the first
    table of the list. -/
theorem popAll_pushedDown_iff (hconds : ∀ c ∈ conds, c.Checked tables) :
    PushedDown tables conds (popAll tables conds).1 (popAll tables conds).2 ↔
      ∀ c ∈ conds, c.SameTable → tables.head? = some c.lhsCol.tabName := by
  constructor
  · intro h c hc hsame
    cases tables with
    | nil => cases (hconds c hc).lhs
    | cons tab tabs =>
      have hpop : c ∈ conds.filter (isPopped tab) := List.mem_filter.mpr ⟨hc, isPopped_iff.mpr (Or.inr hsame.2)⟩
      have := (h.own (tab, _) (List.mem_cons_self ..) c hpop).2
      rw [this]
      rfl
  · intro hfirst
    exact .of_own popAll_names popAll_perm (popAll_own (fun c hc => (hconds c hc).named) hfirst)
      (popAll_rest fun c hc => (hconds c hc).lhs)

end PopAll

/-- `tab.x < tab.y`. -/
def ascending (tab : String) : Condition := ⟨⟨tab, "x"⟩, .lt, .col ⟨tab, "y"⟩⟩

theorem ascending_checked {tab : String} {tables : List String} (htab : tab ∈ tables) (hne : tab ≠ "") :
    ∀ c ∈ [ascending tab], c.Checked tables := by
  intro c hc
  rw [List.mem_singleton.mp hc]
  exact ⟨htab, hne, fun _ => htab⟩

theorem popAll_pushedDown_iff_second :
    PushedDown ["a", "b"] [ascending "b"] (popAll ["a", "b"] [ascending "b"]).1 (popAll ["a", "b"] [ascending "b"]).2 ↔
      ∀ c ∈ [ascending "b"], c.SameTable → ["a", "b"].head? = some c.lhsCol.tabName :=
  popAll_pushedDown_iff (ascending_checked (by decide) (by decide))

/-- A condition on two columns of the second table goes to the scan of the first. -/
theorem pushedDown_second : ["a", "b"].Nodup ∧ (∀ c ∈ [ascending "b"], c.Checked ["a", "b"]) ∧
    ¬PushedDown ["a", "b"] [ascending "b"] (popAll ["a", "b"] [ascending "b"]).1 (popAll ["a", "b"] [ascending "b"]).2 := by
  refine ⟨by decide, ascending_checked (by decide) (by decide), fun h => ?_⟩
  have hscan : ("a", [ascending "b"]) ∈ (popAll ["a", "b"] [ascending "b"]).1 := by decide
  have hown := (h.own _ hscan _ (List.mem_singleton_self _)).2
  exact absurd hown (by decide)

/-! ### The scans of a plan -/

/-- The conditions of a scan or a join. -/
def Plan.conds : Plan → List Condition
  | .scan _ _ conds _ => conds
  | .join _ _ conds => conds
  | _ => []

/-- `make_one_rel` gives the scans the conditions that `pop_conds` takes for their tables. -/
theorem makeScans_popAll {cat : Catalog.DbMeta} {usage : String → List TabCol} {tables : List String} {conds : List Condition}
    {p : List (String × Plan) × List Condition} (h : makeScans cat usage tables conds = .ok p) :
    p.1.map (fun scan => (scan.1, scan.2.conds)) = (popAll tables conds).1 ∧ p.2 = (popAll tables conds).2 := by
  induction tables generalizing conds p with
  | nil =>
    cases h
    exact ⟨rfl, rfl⟩
  | cons tab tabs ih =>
    rw [makeScans] at h
    obtain ⟨tabMeta, -, h⟩ := ok_of_bind h
    obtain ⟨q, hq, h⟩ := ok_of_bind h
    cases h
    obtain ⟨hscans, hrest⟩ := ih hq
    rw [popAll_cons, List.map_cons, hscans, hrest]
    exact ⟨rfl, rfl⟩

end Rmdb.Sql
