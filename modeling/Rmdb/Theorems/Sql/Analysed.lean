import Rmdb.Theorems.Sql.Answer

/-! From the statement to the rows: what the analysis lets pass, and that the rows of a SELECT statement are those that it means. -/

namespace Rmdb.Sql
open Outcomes

/-! ### What the analysis lets pass -/

/-- The column is one of these tables. -/
def Db.Has (db : Db) (tables : List String) (d : TabCol) : Prop := d.tabName ∈ tables ∧ ∃ col, db.col? d = some col

/-- Values of the types can be compared. -/
def Comparable (a b : ColType) : Prop := a = .string ↔ b = .string

/-- The columns of the condition are there, and what it compares can be compared. -/
def Condition.Typed (db : Db) (c : Condition) : Prop :=
  ∃ col, db.col? c.lhsCol = some col ∧
    match c.rhs with
    | .val v _ => Comparable col.type v.type
    | .col d => ∃ col', db.col? d = some col' ∧ Comparable col.type col'.type

/-- What `do_analyze` makes of a statement: the tables are there, and conditions are on columns of these tables. The columns to
    select are such too, where the statement has no aggregates. -/
structure Analysed (db : Db) (x : SelectStmt) (q : Query) : Prop where
  tables : q.tables = extractTableNames x.tabs
  found : ∀ tab ∈ q.tables, ∃ t, db.table? tab = some t
  conds : ∀ c ∈ q.conds, c.Checked q.tables ∧ c.Typed db
  cols : (∀ e ∈ x.cols, e.isAgg = false) → ∀ d ∈ q.cols, db.Has q.tables d
  sort : q.hasSort = x.hasSort
  agg : needAggPlan q = (x.groupBy ≠ [] || x.cols.any (·.isAgg))

section Analysis
variable {db : Db} {x : SelectStmt} {q : Query} {tables : List String} {allCols : List Catalog.ColMeta}

theorem extractTableNames_ne (tabs : TableTree) : extractTableNames tabs ≠ [] := by
  induction tabs with
  | ref name aliasName => exact List.cons_ne_nil _ _
  | join left right conds semi ihl _ => exact fun h => ihl (List.append_eq_nil_iff.mp h).1

theorem getTable_table {name : String} {tab : Catalog.TabMeta} (h : getTable db.catalog name = .ok tab) :
    ∃ t, db.table? name = some t ∧ t.tab = tab := by
  unfold getTable at h
  split at h
  · next tab' htab =>
    cases h
    have hfind : (db.tables.map (·.tab)).find? (·.name = name) = some tab := htab
    rw [List.find?_map] at hfind
    exact Option.map_eq_some_iff.mp hfind
  · cases h

/-- The columns of some tables are columns that are there. -/
theorem getAllCols_has (h : getAllCols db.catalog tables = .ok allCols) : ∀ col ∈ allCols, db.Has tables ⟨col.tabName, col.name⟩ := by
  intro col hcol
  refine ⟨getAllCols_tables h col hcol, ?_⟩
  obtain ⟨tabs, htabs, h⟩ := ok_of_bind h
  cases h
  obtain ⟨tab, htab, hcol⟩ := List.mem_flatMap.mp hcol
  have hget : ∀ name ∈ tables, Meets (fun tab => ∃ t, db.table? name = some t ∧ t.tab = tab) (fun _ => True) (getTable db.catalog name) :=
    fun name _ => .intro (fun _ => getTable_table) fun _ _ => trivial
  have hfound : ∀ tab ∈ tabs, ∃ name t, db.table? name = some t ∧ t.tab = tab :=
    (Meets.mapM fun name hname => (hget name hname).mono (fun _ h => ⟨name, h⟩) fun _ h => h).of_ok htabs
  obtain ⟨name, t, ht, rfl⟩ := hfound tab htab
  have hname : col.tabName = name := (t.named col hcol).trans (Db.table?_mem ht).2
  obtain ⟨col', hcol'⟩ := Option.isSome_iff_exists.mp
    (List.find?_isSome.mpr ⟨col, hcol, decide_eq_true rfl⟩ : (t.tab.cols.find? (·.name = col.name)).isSome)
  exact ⟨col', Db.col?_eq_some.mpr ⟨t, hname ▸ ht, hcol'⟩⟩

/-- A column that is checked is there. -/
theorem checkColumn_has (hcols : ∀ col ∈ allCols, db.Has tables ⟨col.tabName, col.name⟩) {c d : TabCol} (h : checkColumn allCols c = .ok d) :
    db.Has tables d := by
  obtain ⟨-, col, hcol, htab, hname⟩ := checkColumn_table h
  have := hcols col hcol
  rwa [htab, hname] at this

theorem allColsOf_has {tabs : TableTree} (h : allColsOf db.catalog tabs = .ok allCols) :
    ∀ col ∈ allCols, db.Has (extractTableNames tabs) ⟨col.tabName, col.name⟩ := by
  intro col hcol
  unfold allColsOf at h
  split at h
  · obtain ⟨htab, hcol⟩ := getAllCols_has h col hcol
    exact ⟨List.mem_append_left _ htab, hcol⟩
  · cases h
  · exact getAllCols_has h col hcol

theorem comparable_of_checked {a b : ColType} (h : a = b ∨ isNumericType a = true ∧ isNumericType b = true) : Comparable a b := by
  rcases h with rfl | ⟨ha, hb⟩
  · exact Iff.rfl
  · unfold Comparable
    cases a <;> cases b <;> simp [isNumericType] at ha hb ⊢

theorem comparable_castValue {type : ColType} {v : Value} (h : Comparable type v.type) : Comparable type (castValue type v).type := by
  cases type <;> cases v <;> simp [Comparable, castValue, Value.type] at h ⊢

theorem col?_of_getTabCol {d : TabCol} {tab : Catalog.TabMeta} {col : Catalog.ColMeta} (htab : getTable db.catalog d.tabName = .ok tab)
    (hcol : getTabCol tab d.colName = .ok col) : db.col? d = some col := by
  obtain ⟨t, ht, rfl⟩ := getTable_table htab
  unfold getTabCol at hcol
  split at hcol
  · next hfind =>
    cases hcol
    exact Db.col?_eq_some.mpr ⟨t, ht, hfind⟩
  · cases hcol

/-- A condition that is checked is typed. -/
theorem checkClause_typed {c c' : Condition} (h : checkClause db.catalog allCols c' = .ok c) : c.Typed db := by
  obtain ⟨target, op, rhs⟩ := c'
  cases rhs with
  | val v raw =>
    obtain ⟨lhs, tab, col, _, -, htab, hcol, -, htype, rfl⟩ := checkClause_val h
    exact ⟨col, col?_of_getTabCol htab hcol, comparable_castValue (comparable_of_checked htype)⟩
  | col d =>
    obtain ⟨lhs, rhs, tab, col, tab', col', -, -, htab, hcol, htab', hcol', htype, rfl⟩ := checkClause_col h
    exact ⟨col, col?_of_getTabCol htab hcol, col', col?_of_getTabCol htab' hcol', comparable_of_checked htype⟩

theorem forM_ok {α : Type} {f : α → Except Fault Unit} {l : List α} {u : Unit} (h : l.forM f = .ok u) : ∀ a ∈ l, f a = .ok () := by
  induction l with
  | nil =>
    intro a ha
    cases ha
  | cons b l ih =>
    change (f b >>= fun _ => l.forM f) = .ok u at h
    obtain ⟨_, hb, hl⟩ := ok_of_bind h
    exact List.forall_mem_cons.mpr ⟨hb, ih hl⟩

theorem resolveItem_isAgg (m : List (String × String)) (e : ColItem) : (resolveItem m e).isAgg = e.isAgg := by
  obtain ⟨expr, aliasName⟩ := e
  cases expr <;> rfl

theorem doAnalyze_analysed {unset : Bool} (h : doAnalyze db.catalog unset x = .ok q) : Analysed db x q := by
  unfold doAnalyze at h
  obtain ⟨m, -, h⟩ := ok_of_bind h
  obtain ⟨_, hfound, h⟩ := ok_of_bind h
  obtain ⟨allCols, hallCols, h⟩ := ok_of_bind h
  have hhas := allColsOf_has hallCols
  extract_lets rest at h
  have hcols : ∃ cols, ((∀ e ∈ x.cols, e.isAgg = false) → ∀ d ∈ cols, db.Has (extractTableNames x.tabs) d) ∧ rest cols = .ok q := by
    split at h
    · obtain ⟨cols, hcols, h⟩ := ok_of_bind h
      cases hcols
      refine ⟨_, fun _ d hd => ?_, h⟩
      obtain ⟨col, hcol, rfl⟩ := List.mem_map.mp hd
      exact hhas col hcol
    · obtain ⟨cols, hcols, h⟩ := ok_of_bind h
      refine ⟨cols, fun hagg => ?_, h⟩
      have hnone : ((x.cols.map (resolveItem m)).any fun e => e.isAgg) = false := by
        rw [List.any_map, List.any_eq_false]
        intro e he
        rw [Function.comp_apply, resolveItem_isAgg, hagg e he]
        exact Bool.false_ne_true
      rw [hnone] at hcols
      refine (Meets.mapM (F := fun _ => True) fun c _ => .intro (fun d hd => ?_) fun _ _ => trivial).of_ok hcols
      exact checkColumn_has hhas hd
  obtain ⟨cols, hcolsHas, h⟩ := hcols
  obtain ⟨_, -, h⟩ := ok_of_bind h
  extract_lets checked at h
  have hchecked : checked () = .ok q := by
    split at h
    · exact (ok_of_bind h).choose_spec.2
    · exact h
  obtain ⟨_, -, h⟩ := ok_of_bind hchecked
  obtain ⟨clauses, -, h⟩ := ok_of_bind h
  obtain ⟨condCols, hcondCols, h⟩ := ok_of_bind h
  obtain ⟨conds, hconds, h⟩ := ok_of_bind h
  cases h
  refine ⟨rfl, fun tab htab => ?_, ?_, hcolsHas, rfl, ?_⟩
  · have hif := forM_ok hfound tab htab
    split at hif
    · next hsome =>
      obtain ⟨tab', htab'⟩ := Option.isSome_iff_exists.mp hsome
      obtain ⟨t, ht, -⟩ := @getTable_table db tab tab' (by rw [getTable, htab'])
      exact ⟨t, ht⟩
    · cases hif
  · exact (Meets.mapM (F := fun _ => True) fun c _ => .intro
      (fun _ h => ⟨checkClause_checked (getAllCols_tables hcondCols) h, checkClause_typed h⟩) fun _ _ => trivial).of_ok hconds
  · have hany : ((x.cols.map (resolveItem m)).any fun e => e.isAgg) = x.cols.any (·.isAgg) := by
      rw [List.any_map]
      exact congrArg (fun f => x.cols.any f) (funext fun e => resolveItem_isAgg m e)
    unfold needAggPlan
    dsimp only
    rw [hany]
    congr 1
    rw [decide_eq_decide, ne_eq, List.map_eq_nil_iff]

end Analysis

/-! ### The rows of a statement -/

/-- The statement neither groups nor orders nor limits its rows, and has no aggregates. -/
structure SelectStmt.Plain (x : SelectStmt) : Prop where
  groupBy : x.groupBy = []
  aggs : ∀ e ∈ x.cols, e.isAgg = false
  order : x.order = []
  limit : x.limit ≤ 0

/-- Such a statement is planned without sorting and aggregation. -/
theorem SelectStmt.Plain.plain {x : SelectStmt} (hx : x.Plain) {db : Db} {q : Query} (hq : Analysed db x q) :
    q.hasSort = false ∧ needAggPlan q = false := by
  constructor
  · have hlimit := hx.limit
    rw [hq.sort, SelectStmt.hasSort, hx.order, Bool.or_eq_false_iff, decide_eq_false_iff_not, decide_eq_false_iff_not]
    exact ⟨not_not.mpr rfl, by omega⟩
  · rw [hq.agg, hx.groupBy, Bool.or_eq_false_iff, List.any_eq_false]
    exact ⟨decide_eq_false (not_not.mpr rfl), fun e he => by rw [hx.aggs e he]; exact Bool.false_ne_true⟩

/-- What a query that passed the analysis still needs: each table is named once and has no index; conditions compare like with
    like; those that compare two columns of one table are on the first table, and each comparison of two tables has a table that is
    joined before; where one table is scanned without conditions, all its records are visible. -/
structure Query.Answerable (db : Db) (q : Query) : Prop where
  nodup : q.tables.Nodup
  unindexed : ∀ t ∈ db.tables, t.tab.name ∈ q.tables → t.tab.indexes = []
  like : ∀ c ∈ q.conds, c.LikeTypes db
  first : ∀ c ∈ q.conds, c.SameTable → q.tables.head? = some c.lhsCol.tabName
  linked : LinkedJoins q.conds
  visible : q.conds = [] → ∀ tab t, q.tables = [tab] → db.table? tab = some t → ∀ s ∈ t.slots, db.visible s = true

/-- The rows that are printed for a SELECT statement are those that it means, in some order. -/
theorem select_answer (stl : Stl) {db : Db} (hsound : db.Sound) {unset : Bool} {x : SelectStmt} {q : Query}
    (h : doAnalyze db.catalog unset x = .ok q) (hx : x.Plain) (hq : q.Answerable db) :
    ∃ rows, runQuery stl db true q = .ok rows ∧ rows.Perm (answer db q) := by
  have han := doAnalyze_analysed h
  have hplain : q.Plain db := by
    refine ⟨han.tables ▸ extractTableNames_ne x.tabs, hq.nodup, fun tab htab => ?_, han.cols hx.aggs,
      fun c hc => ⟨(han.conds c hc).1, hq.like c hc⟩, hq.first, hq.linked, hq.visible, hx.plain han⟩
    obtain ⟨t, ht⟩ := han.found tab htab
    obtain ⟨hmem, hname⟩ := Db.table?_mem ht
    exact ⟨t, ht, hq.unindexed t hmem (hname ▸ htab)⟩
  exact hplain.runQuery hsound

/-- SELECT * FROM a JOIN b ON a.x = b.x WHERE a.x = 2. -/
def joinOnTwo : SelectStmt :=
  ⟨[], .join (.ref "a" "") (.ref "b" "") [⟨⟨"a", "x"⟩, .eq, .col ⟨"b", "x"⟩⟩] false, [⟨⟨"a", "x"⟩, .eq, .val (.int 2)⟩], [], none, [], -1⟩

def joinOnTwoQuery : Query :=
  ⟨["a", "b"], [⟨"a", "x"⟩, ⟨"b", "x"⟩], [⟨⟨"a", "x"⟩, .eq, .val (.int 2) (putInt 2)⟩, onX "a" .eq "b"], [], [], none, [], -1, false⟩

theorem threeTables_sound (a b c : List Int) : (threeTables a b c).Sound := by
  have hcol : ∀ t ∈ (threeTables a b c).tables, ∀ c ∈ t.tab.cols, c.name = "x" ∧ c.type = .int ∧ c.len = 4 := by
    intro t ht c hc
    rcases List.mem_cons.mp ht with rfl | ht
    · rw [List.mem_singleton.mp hc]
      exact ⟨rfl, rfl, rfl⟩
    · rcases List.mem_cons.mp ht with rfl | ht
      · rw [List.mem_singleton.mp hc]
        exact ⟨rfl, rfl, rfl⟩
      · obtain rfl := List.mem_singleton.mp ht
        rw [List.mem_singleton.mp hc]
        exact ⟨rfl, rfl, rfl⟩
  refine ⟨fun t ht c hc => ?_, fun t ht c hc _ => (hcol t ht c hc).2.2, fun t ht s _ c hc hstring => ?_⟩
  · rw [(hcol t ht c hc).1]
    exact ⟨by decide, by decide⟩
  · cases (hcol t ht c hc).2.1.symm.trans hstring

theorem select_answer_two : ∃ rows, runQuery insertionStl (threeTables [1, 2] [2, 2, 3] []) true joinOnTwoQuery = .ok rows ∧
    rows.Perm [[2, 0, 0, 0, 2, 0, 0, 0], [2, 0, 0, 0, 2, 0, 0, 0]] := by
  have hanswer : answer (threeTables [1, 2] [2, 2, 3] []) joinOnTwoQuery = [[2, 0, 0, 0, 2, 0, 0, 0], [2, 0, 0, 0, 2, 0, 0, 0]] := by decide
  have hanalyze : doAnalyze (threeTables [1, 2] [2, 2, 3] []).catalog false joinOnTwo = .ok joinOnTwoQuery := by rfl
  rw [← hanswer]
  refine select_answer insertionStl (threeTables_sound _ _ _) hanalyze ⟨rfl, fun e he => (by cases he), rfl, by decide⟩
    ⟨by decide, ?_, fun c hc => ?_, ?_, ?_, fun hnil => (by cases hnil)⟩
  · intro t ht _
    rcases List.mem_cons.mp ht with rfl | ht
    · rfl
    · rcases List.mem_cons.mp ht with rfl | ht
      · rfl
      · rw [List.mem_singleton.mp ht]
        rfl
  · rcases List.mem_cons.mp hc with rfl | hc
    · exact ⟨_, rfl, ColType.noConfusion, rfl, rfl, (by decide : ExactInt 2)⟩
    · rw [List.mem_singleton.mp hc]
      exact ⟨_, rfl, ColType.noConfusion, _, rfl, rfl, rfl, fun h => absurd h (by decide)⟩
  · intro c hc hsame
    rcases List.mem_cons.mp hc with rfl | hc
    · cases hsame.1
    · rw [List.mem_singleton.mp hc] at hsame
      exact absurd hsame.2 (by decide)
  · intro c cs hcs
    cases hcs
    trivial

end Rmdb.Sql
