import Rmdb.Lib.SemiJoin
import Rmdb.Theorems.Sql.Joins
import Rmdb.Theorems.Sql.Propagate

/-! A query with a semi join returns a row of the left table for every row of the right table that matches it. -/

namespace Rmdb.Sql
open Outcomes
open Iter (pairs passes)
open SemiJoin (semi counted)

/-! ### The query -/

/-- A column of the table, as a statement names it. -/
def Table.HasCol (t : Table) (d : TabCol) : Prop :=
  d.colName ≠ "*" ∧ ∃ col ∈ t.tab.cols, d = ⟨t.tab.name, col.name⟩

/-- What the analysis makes of SELECT cols FROM tl SEMI JOIN tr ON conds. -/
structure SemiQuery (db : Db) (tl tr : Table) (q : Query) : Prop where
  tables : q.tables = [tl.tab.name, tr.tab.name]
  ne : tl.tab.name ≠ tr.tab.name
  left : db.table? tl.tab.name = some tl
  right : db.table? tr.tab.name = some tr
  conds : ∀ c ∈ q.conds, ∃ d, c.rhs = .col d ∧ (tl.HasCol c.lhsCol ∧ tr.HasCol d ∨ tr.HasCol c.lhsCol ∧ tl.HasCol d)
  cols : ∀ d ∈ q.cols, tl.HasCol d
  plain : q.hasSort = false ∧ needAggPlan q = false

/-- The scan of a table in such a query. -/
def scanFor (db : Db) (q : Query) (t : Table) : Executor := seqScan db t [] (colUsage q t.tab.name)

/-- The tuples of that scan. -/
def scanRows (db : Db) (q : Query) (t : Table) : List Bytes := present (t.slots.filterMap (seqTuple db t [] (colUsage q t.tab.name)))

/-- A tuple of the left table and one of the right table meet the conditions, as the join of the plan tests them. -/
def onMatch (db : Db) (q : Query) (tl tr : Table) (plan : Plan) (a b : Bytes) : Bool :=
  match plan with
  | .join left _ conds =>
    if left.tables = [tl.tab.name] then passes (doPredict (scanFor db q tl) (scanFor db q tr) conds) (a, b)
    else passes (doPredict (scanFor db q tr) (scanFor db q tl) conds) (b, a)
  | _ => false

/-- The column of a name. -/
def colOf (cols : List Catalog.ColMeta) (d : TabCol) : Option Catalog.ColMeta :=
  cols.find? fun c => c.tabName = d.tabName ∧ c.name = d.colName

/-- The cells of the selected columns in a tuple. -/
def selectRow (cols : List Catalog.ColMeta) (selCols : List TabCol) (tuple : Bytes) : Bytes :=
  (selCols.filterMap (colOf cols)).flatMap fun c => (tuple.drop c.offset).take c.len

/-! ### The columns of a scan -/

section Columns
variable {db : Db} {q : Query} {t : Table}

theorem projCols_find {cols : List Catalog.ColMeta} {seen : List String} {off : Nat} {tcs : List TabCol} {d : TabCol}
    (hd : d ∈ tcs) (hseen : d.colName ∉ seen) (hcol : ∃ c ∈ cols, c.name = d.colName) :
    ∃ p ∈ projCols cols seen off tcs, p.1.name = d.colName := by
  induction tcs generalizing seen off with
  | nil => cases hd
  | cons tc tcs ih =>
    have hrest : ∀ {seen : List String} {off : Nat}, d.colName ∉ seen → d.colName ≠ tc.colName →
        ∃ p ∈ projCols cols seen off tcs, p.1.name = d.colName := fun hseen hne =>
      ih ((List.mem_cons.mp hd).resolve_left fun heq => hne (congrArg TabCol.colName heq)) hseen
    rw [projCols]
    by_cases hname : d.colName = tc.colName
    · rw [if_neg (hname ▸ hseen)]
      cases hfind : cols.find? (·.name = tc.colName) with
      | none =>
        obtain ⟨c, hc, hcname⟩ := hcol
        exact absurd (decide_eq_true (hcname.trans hname)) (List.find?_eq_none.mp hfind c hc)
      | some c =>
        refine ⟨_, List.mem_cons_self .., ?_⟩
        have hcname : c.name = tc.colName := by simpa using List.find?_some hfind
        exact hcname.trans hname.symm
    · split
      · exact hrest hseen hname
      · have hseen' : d.colName ∉ tc.colName :: seen := by
          rw [List.mem_cons, not_or]
          exact ⟨hname, hseen⟩
        split
        · exact hrest hseen' hname
        · obtain ⟨p, hp, hpname⟩ := hrest hseen' hname
          exact ⟨p, List.mem_cons_of_mem _ hp, hpname⟩

theorem scanOut_named {proj : List TabCol} : ∀ c ∈ (scanOut t.tab.cols proj).cols, c.tabName = t.tab.name := by
  intro c hc
  unfold scanOut at hc
  simp only at hc
  split at hc
  · obtain ⟨p, hp, rfl⟩ := List.mem_map.mp hc
    obtain ⟨c, hc, -, heq⟩ := projCols_mem hp
    rw [heq]
    exact t.named c hc
  · exact t.named c hc

/-- The scan puts out every column that the query uses. -/
theorem scanOut_find {proj : List TabCol} {d : TabCol} (hd : t.HasCol d) (hmem : d ∈ proj) :
    ∃ c, colOf (scanOut t.tab.cols proj).cols d = some c := by
  obtain ⟨-, col, hcol, rfl⟩ := hd
  have hname : ∃ c ∈ (scanOut t.tab.cols proj).cols, c.name = col.name := by
    unfold scanOut
    simp only
    split
    · obtain ⟨p, hp, hpname⟩ := @projCols_find _ [] 0 _ _ hmem List.not_mem_nil ⟨col, hcol, rfl⟩
      exact ⟨p.1, List.mem_map_of_mem hp, hpname⟩
    · exact ⟨col, hcol, rfl⟩
  obtain ⟨c, hc, hcname⟩ := hname
  refine Option.isSome_iff_exists.mp (List.find?_isSome.mpr ⟨c, hc, ?_⟩)
  exact decide_eq_true ⟨scanOut_named c hc, hcname⟩

theorem colUsage_cond {c : Condition} (hc : c ∈ q.conds) {d : TabCol} (hd : c.rhs = .col d) :
    c.lhsCol ∈ colUsage q c.lhsCol.tabName ∧ d ∈ colUsage q d.tabName := by
  have hmem : ∀ x ∈ [c.lhsCol, d], x ∈ colUsage q x.tabName := by
    intro x hx
    unfold colUsage
    refine List.mem_filter.mpr ⟨List.mem_append_right _ (List.mem_flatMap.mpr ⟨c, hc, ?_⟩), decide_eq_true rfl⟩
    rw [hd]
    exact hx
  exact ⟨hmem _ (List.mem_cons_self ..), hmem _ (List.mem_cons_of_mem _ (List.mem_singleton_self _))⟩

theorem colUsage_col {d : TabCol} (hd : d ∈ q.cols) (hname : d.colName ≠ "*") : d ∈ colUsage q d.tabName := by
  unfold colUsage
  refine List.mem_filter.mpr ⟨List.mem_append_left _ (List.mem_append_left _ (List.mem_filter.mpr ⟨hd, ?_⟩)), decide_eq_true rfl⟩
  exact decide_eq_true hname

theorem Table.HasCol.tabName {d : TabCol} (h : t.HasCol d) : d.tabName = t.tab.name := by
  obtain ⟨-, col, -, rfl⟩ := h
  rfl

end Columns

/-! ### The plan -/

section Plans
variable {db : Db} {tl tr : Table} {q : Query} {stl : Stl}

theorem propagate_columns (stl : Stl) {conds : List Condition} (h : ∀ c ∈ conds, c.isRhsVal = false) :
    propagateEqualityConstants stl conds = conds := by
  rw [propagate_eq]
  have hnone : (components stl conds).flatMap (candidates conds) = [] := by
    refine List.flatMap_eq_nil_iff.mpr fun members _ => List.eq_nil_iff_forall_not_mem.mpr ?_
    rintro ⟨d, v, raw⟩ hp
    obtain ⟨-, -, a, ha, -⟩ := mem_candidates hp
    cases h _ ha
  rw [hnone]
  exact List.append_nil conds

theorem SemiQuery.joins (h : SemiQuery db tl tr q) :
    ∀ c ∈ q.conds, c.TwoTable ∧ c.lhsCol.tabName ∈ q.tables ∧ c.rhsTab ∈ q.tables := by
  intro c hc
  obtain ⟨d, hd, hcols⟩ := h.conds c hc
  have hval : c.isRhsVal = false := by rw [Condition.isRhsVal, hd]
  have hrhs : c.rhsTab = d.tabName := by rw [Condition.rhsTab, hd]
  rw [Condition.TwoTable, hrhs, h.tables]
  rcases hcols with ⟨hl, hr⟩ | ⟨hr, hl⟩
  · rw [hl.tabName, hr.tabName]
    exact ⟨⟨hval, h.ne⟩, by simp, by simp⟩
  · rw [hl.tabName, hr.tabName]
    exact ⟨⟨hval, Ne.symm h.ne⟩, by simp, by simp⟩

theorem Plan.Oriented.scans_ne {p : Plan} (h : p.Oriented) : p.scans ≠ [] := by
  induction p with
  | scan index tab conds proj => exact List.cons_ne_nil _ _
  | join left right conds ihl ihr =>
    rw [Plan.scans_join]
    exact List.append_ne_nil_of_left_ne_nil (ihl h.1) _
  | null => exact h.elim
  | sort subplan selCols isDesc limit => exact h.elim
  | group input groupBy having => exact h.elim
  | agg input selectExprs => exact h.elim
  | projection subplan selCols => exact h.elim

/-- A tree with one scan is the scan. -/
theorem Plan.Oriented.one {p : Plan} {e : String × Plan} (h : p.Oriented) (hscans : p.scans = [e]) : p = e.2 := by
  cases p with
  | scan index tab conds proj =>
    cases hscans
    rfl
  | join left right conds =>
    rw [Plan.scans_join, List.append_eq_singleton_iff] at hscans
    rcases hscans with ⟨hl, -⟩ | ⟨-, hr⟩
    · exact absurd hl h.1.scans_ne
    · exact absurd hr h.2.1.scans_ne
  | null => exact h.elim
  | sort subplan selCols isDesc limit => exact h.elim
  | group input groupBy having => exact h.elim
  | agg input selectExprs => exact h.elim
  | projection subplan selCols => exact h.elim

/-- A tree with two scans joins them, in one order or the other. -/
theorem Plan.Oriented.two {p : Plan} {e f : String × Plan} (h : p.Oriented) (hscans : p.scans.Perm [e, f]) :
    ∃ conds, p = .join e.2 f.2 conds ∨ p = .join f.2 e.2 conds := by
  have hlength := hscans.length_eq
  cases p with
  | scan index tab conds proj => cases hlength
  | join left right conds =>
    rw [Plan.scans_join] at hscans hlength
    have hl := List.length_pos_iff.mpr h.1.scans_ne
    have hr := List.length_pos_iff.mpr h.2.1.scans_ne
    rw [List.length_append, List.length_cons, List.length_singleton] at hlength
    obtain ⟨x, hx⟩ := List.length_eq_one_iff.mp (show left.scans.length = 1 by omega)
    obtain ⟨y, hy⟩ := List.length_eq_one_iff.mp (show right.scans.length = 1 by omega)
    rw [h.1.one hx, h.2.1.one hy]
    rw [hx, hy] at hscans
    have hx : x ∈ [e, f] := hscans.mem_iff.mp (List.mem_cons_self ..)
    rcases List.mem_cons.mp hx with rfl | hx
    · have hy := List.perm_singleton.mp ((List.perm_cons x).mp hscans)
      cases hy
      exact ⟨conds, Or.inl rfl⟩
    · rw [List.mem_singleton.mp hx] at hscans ⊢
      have hy := List.perm_singleton.mp ((List.perm_cons f).mp (hscans.trans (List.Perm.swap f e [])))
      cases hy
      exact ⟨conds, Or.inr rfl⟩
  | null => exact h.elim
  | sort subplan selCols isDesc limit => exact h.elim
  | group input groupBy having => exact h.elim
  | agg input selectExprs => exact h.elim
  | projection subplan selCols => exact h.elim

/-- The conditions of the join are those of the query, some of them turned. -/
theorem JoinTree.turned {scans : List (String × Plan)} {conds conds' : List Condition} {p₁ p₂ : Plan}
    (h : JoinTree scans conds (.join p₁ p₂ conds')) {d : Condition} (hd : d ∈ conds') : ∃ c ∈ conds, Turned c d := by
  obtain ⟨turned, hall, hperm⟩ := h.conds
  have hmem : d ∈ turned := hperm.mem_iff.mp (List.mem_append_left _ hd)
  obtain ⟨i, hi, rfl⟩ := List.getElem_of_mem hmem
  have hi' : i < conds.length := hall.length_eq ▸ hi
  exact ⟨conds[i], List.getElem_mem hi', List.Forall₂.get hall hi' hi⟩

/-- A column of one of the two tables is found in the scan of the table that it names. -/
theorem SemiQuery.find (h : SemiQuery db tl tr q) {t : Table} (ht : t = tl ∨ t = tr) {d : TabCol}
    (hd : tl.HasCol d ∨ tr.HasCol d) (hname : d.tabName = t.tab.name) (hused : d ∈ colUsage q d.tabName) :
    ∃ c, colOf (scanFor db q t).cols d = some c := by
  have hcol : t.HasCol d := by
    rcases ht with rfl | rfl
    · exact hd.resolve_right fun hr => h.ne (hname.symm.trans hr.tabName)
    · exact hd.resolve_left fun hl => h.ne (hl.tabName.symm.trans hname)
  exact scanOut_find hcol (hname ▸ hused)

/-- The join finds the columns of its conditions in its two scans. -/
theorem SemiQuery.placed (h : SemiQuery db tl tr q) {t₁ t₂ : Table} {conds' : List Condition}
    (htables : t₁ = tl ∧ t₂ = tr ∨ t₁ = tr ∧ t₂ = tl) {scans : List (String × Plan)}
    (htree : JoinTree scans q.conds
      (.join (scanPlan (colUsage q) t₁.tab.name).2 (scanPlan (colUsage q) t₂.tab.name).2 conds')) :
    ∀ d ∈ conds', Placed (scanFor db q t₁).cols (scanFor db q t₂).cols d := by
  intro d hd
  obtain ⟨c, hc, hturned⟩ := htree.turned hd
  obtain ⟨x, hx, hcols⟩ := h.conds c hc
  obtain ⟨hl, hr⟩ := colUsage_cond hc hx
  obtain ⟨-, hdl, hdr⟩ := htree.oriented.2.2 d hd
  have hdl : d.lhsCol.tabName = t₁.tab.name := List.mem_singleton.mp hdl
  have hdr : d.rhsTab = t₂.tab.name := List.mem_singleton.mp hdr
  have ht₁ : t₁ = tl ∨ t₁ = tr := htables.imp And.left And.left
  have ht₂ : t₂ = tl ∨ t₂ = tr := (htables.imp And.right And.right).symm
  have hlcol : tl.HasCol c.lhsCol ∨ tr.HasCol c.lhsCol := hcols.imp And.left And.left
  have hxcol : tl.HasCol x ∨ tr.HasCol x := (hcols.imp And.right And.right).symm
  have hplaced : ∀ (y z : TabCol) (op : CompOp), tl.HasCol y ∨ tr.HasCol y → tl.HasCol z ∨ tr.HasCol z →
      y.tabName = t₁.tab.name → z.tabName = t₂.tab.name → y ∈ colUsage q y.tabName → z ∈ colUsage q z.tabName →
      Placed (scanFor db q t₁).cols (scanFor db q t₂).cols ⟨y, op, .col z⟩ := by
    intro y z op hy hz hyname hzname hyused hzused
    obtain ⟨cy, hcy⟩ := h.find ht₁ hy hyname hyused
    obtain ⟨cz, hcz⟩ := h.find ht₂ hz hzname hzused
    exact ⟨by rw [miniCol, ← colOf, hcy]; rfl, z, rfl, by rw [miniCol, ← colOf, hcz]; rfl⟩
  obtain ⟨clhs, op, crhs⟩ := c
  cases hx
  rcases hturned with rfl | rfl
  · exact hplaced clhs x op hlcol hxcol hdl hdr hl hr
  · exact hplaced x clhs (swapOp op) hxcol hlcol hdl hdr hr hl

end Plans

/-! ### The rows of a projection of a join -/

section Rows
variable {stl : Stl} {db : Db} {left right : Executor} {conds : List Condition} {ls rs : List (Option Bytes)}

theorem foldReads_rows {f : List Bytes → Option Bytes → Except Fault (List Bytes)} (hf : ∀ rows rec, f rows (some rec) = .ok (rows ++ [rec]))
    (acc rows : List Bytes) : Iter.foldReads f acc (rows.map fun rec => .ok (some rec)) = .ok (acc ++ rows) := by
  induction rows generalizing acc with
  | nil =>
    rw [List.append_nil]
    rfl
  | cons rec rows ih =>
    rw [List.append_cons, ← ih (acc ++ [rec])]
    exact congrArg (· >>= fun acc => Iter.foldReads f acc (rows.map fun rec => .ok (some rec))) (hf acc rec)

/-- The rows that are printed are those that the operators hand out. -/
theorem selectFrom_runs (root : Executor) {t : root.State} {rows : List Bytes} (ht : root.start root.init = .ok t)
    (hruns : root.toIter.Runs t (rows.map fun rec => .ok (some rec))) (hbound : rows.length ≤ root.bound) :
    selectFrom root = .ok rows := by
  obtain ⟨u, hu⟩ := hruns.fold
  have hturns : (rows.map fun rec => (.ok (some rec) : Except Fault (Option Bytes))).length ≤ root.bound :=
    (List.length_map _).trans_le hbound
  unfold selectFrom
  rw [ht, ok_bind, hu _ _ _ _ hturns, foldReads_rows fun _ _ => rfl]
  rfl

theorem joinRows_bound (hl : ls.length ≤ left.bound) (hr : rs.length ≤ right.bound) :
    (joinRows left right conds (present ls) (present rs)).length ≤ Iter.nestedBound left.bound right.bound := by
  have hle : (present rs).length * (present ls).length ≤ right.bound * (left.bound + 1) :=
    Nat.mul_le_mul ((List.length_filterMap_le _ _).trans hr)
      (((List.length_filterMap_le _ _).trans hl).trans (Nat.le_succ _))
  rw [joinRows, List.length_map]
  refine (List.length_filter_le _ _).trans ?_
  rw [Iter.length_pairs, Iter.nestedBound]
  omega

theorem joinRows_le (hl : left.Repeats ls) (hr : right.Repeats rs) :
    (joinRows left right conds (present ls) (present rs)).length ≤ Iter.nestedBound left.bound right.bound :=
  joinRows_bound hl.bound hr.bound

/-- A projection hands out the selected cells of the records below it. -/
theorem projection_runs {prev : Executor} {t : prev.State} {items : List (Option Bytes)} (ht : prev.start prev.init = .ok t)
    (hruns : prev.toIter.Runs t (items.map .ok)) {selCols : List TabCol} {sel : List Catalog.ColMeta}
    (hsel : selectedCols prev.cols selCols = .ok sel) : ∃ root, projection prev selCols = .ok root ∧ root.bound = prev.bound ∧
      ∃ t', root.start root.init = .ok t' ∧
        root.toIter.Runs t' ((items.map (Option.map fun rec => sel.flatMap fun c => (rec.drop c.offset).take c.len)).map .ok) := by
  unfold projection
  rw [hsel]
  refine ⟨_, rfl, rfl, t, ht, ?_⟩
  have hcells : (Option.map fun rec => sel.flatMap fun c => (rec.drop c.offset).take c.len) =
      Option.map fun rec : Bytes => (projectionRuns sel).flatMap fun run => (rec.drop run.srcOffset).take run.len :=
    congrArg Option.map (funext fun rec => (projectionRuns_read sel rec).symm)
  rw [hcells, List.map_map]
  exact hruns.map _

/-- A projection prints the selected cells of the records below it. -/
theorem projection_rows {prev : Executor} {t : prev.State} {rows : List Bytes} (ht : prev.start prev.init = .ok t)
    (hruns : prev.toIter.Runs t (rows.map fun rec => .ok (some rec))) (hbound : rows.length ≤ prev.bound) {selCols : List TabCol}
    {sel : List Catalog.ColMeta} (hsel : selectedCols prev.cols selCols = .ok sel) : ∃ root, projection prev selCols = .ok root ∧
      selectFrom root = .ok (rows.map fun rec => sel.flatMap fun c => (rec.drop c.offset).take c.len) := by
  obtain ⟨root, hroot, hbound', t', ht', hruns'⟩ := @projection_runs prev t (rows.map some) ht (by rw [List.map_map]; exact hruns) _ _ hsel
  refine ⟨root, hroot, selectFrom_runs root ht' ?_ ((List.length_map _).trans_le (hbound' ▸ hbound))⟩
  rw [List.map_map, List.map_map] at hruns'
  rw [List.map_map]
  exact hruns'

/-- The columns that a projection selects are those of `cols`, as they stand below it. -/
theorem selectedCols_find {prev cols : List Catalog.ColMeta} {selCols : List TabCol} (f : Catalog.ColMeta → Catalog.ColMeta)
    (hnamed : ∀ c ∈ prev, c.tabName ≠ "")
    (hfind : ∀ d ∈ selCols, ∃ c, colOf cols d = some c ∧ colOf prev d = some (f c)) :
    selectedCols prev selCols = .ok ((selCols.filterMap (colOf cols)).map f) := by
  have hhead : prev.head?.any (·.tabName = "") = false := by
    cases prev with
    | nil => rfl
    | cons c cs => exact decide_eq_false (hnamed c (List.mem_cons_self ..))
  rw [selectedCols, hhead, if_neg Bool.false_ne_true]
  clear hhead
  induction selCols with
  | nil => rfl
  | cons d ds ih =>
    obtain ⟨c, hc, hprev⟩ := hfind d (List.mem_cons_self ..)
    have hget : getCol prev d = .ok (f c) := by rw [getCol, ← colOf, hprev]
    rw [List.mapM_cons, hget, ok_bind, ih fun e he => hfind e (List.mem_cons_of_mem d he), ok_bind, List.filterMap_cons_some hc]
    rfl

/-- The selected cells of a record that holds those of the tuple. -/
theorem selectRow_map {cols : List Catalog.ColMeta} {selCols : List TabCol} {f : Catalog.ColMeta → Catalog.ColMeta} {rec tuple : Bytes}
    (hcells : ∀ c ∈ cols, (rec.drop (f c).offset).take (f c).len = (tuple.drop c.offset).take c.len) :
    (((selCols.filterMap (colOf cols)).map f).flatMap fun c =>
      (rec.drop c.offset).take c.len) = selectRow cols selCols tuple := by
  rw [selectRow, List.flatMap_map]
  refine List.flatMap_congr fun c hc => hcells c ?_
  obtain ⟨d, -, hfind⟩ := List.mem_filterMap.mp hc
  exact List.mem_of_find?_eq_some hfind

end Rows

/-! ### The rows of the query -/

section SemiRows
variable {stl : Stl} {db : Db} {tl tr : Table} {q : Query} {t₁ t₂ : Table} {conds : List Condition}

theorem scanFor_repeats (db : Db) (q : Query) (t : Table) :
    (scanFor db q t).Repeats (t.slots.filterMap (seqTuple db t [] (colUsage q t.tab.name))) :=
  seqScan_repeats fun _ _ _ _ => ⟨true, rfl⟩

theorem scanRows_length {rec : Bytes} (h : rec ∈ scanRows db q t₁) : rec.length = (scanFor db q t₁).tupleLen :=
  (scanFor_repeats db q t₁).sized rec (mem_present.mp h)

/-- A column of the scan lies within its tuples. -/
theorem scanFor_within {c : Catalog.ColMeta} (hc : c ∈ (scanFor db q t₁).cols) {rec : Bytes} (hrec : rec ∈ scanRows db q t₁) :
    c.offset + c.len ≤ rec.length := by
  rw [scanRows_length hrec]
  exact scanOut_within t₁.laid _ c hc

theorem convert_scanPlan (h : db.table? t₁.tab.name = some t₁) :
    convertPlanExecutor stl db (scanPlan (colUsage q) t₁.tab.name).2 = .ok (scanFor db q t₁) := by
  have hconvert : convertPlanExecutor stl db (.scan none t₁.tab.name [] (colUsage q t₁.tab.name)) = .ok (scanFor db q t₁) := by
    simp only [convertPlanExecutor, h]
    rfl
  exact hconvert

/-- A projection of the join of two scans. -/
theorem runPlan_join (ht₁ : db.table? t₁.tab.name = some t₁) (ht₂ : db.table? t₂.tab.name = some t₂)
    (hconds : ∀ c ∈ conds, Placed (scanFor db q t₁).cols (scanFor db q t₂).cols c) {selCols : List TabCol}
    {sel : List Catalog.ColMeta}
    (hsel : selectedCols (nestedLoopJoin (scanFor db q t₁) (scanFor db q t₂) conds).cols selCols = .ok sel) :
    runPlan stl db (.projection (.join (scanPlan (colUsage q) t₁.tab.name).2 (scanPlan (colUsage q) t₂.tab.name).2 conds) selCols) =
      .ok (((pairs (scanRows db q t₁) (scanRows db q t₂)).filter (passes (doPredict (scanFor db q t₁) (scanFor db q t₂) conds))).map
        fun p => sel.flatMap fun c => ((p.1 ++ p.2).drop c.offset).take c.len) := by
  have hl := scanFor_repeats db q t₁
  have hr := scanFor_repeats db q t₂
  obtain ⟨t, ht, hruns⟩ := nestedLoopJoin_runs hl hr hconds
  obtain ⟨root, hroot, hrows⟩ := projection_rows ht hruns (joinRows_le hl hr) hsel
  rw [joinRows, List.map_map] at hrows
  unfold runPlan
  rw [convertPlanExecutor, convertPlanExecutor, convert_scanPlan ht₁, convert_scanPlan ht₂]
  simp only [hroot]
  exact hrows

/-- Where the left table is the left side of the join, its columns stand first. -/
theorem SemiQuery.selected_left (h : SemiQuery db tl tr q) : selectedCols (nestedLoopJoin (scanFor db q tl) (scanFor db q tr) conds).cols q.cols =
    .ok ((q.cols.filterMap (colOf (scanFor db q tl).cols)).map id) := by
  refine selectedCols_find id (fun c hc => ?_) fun d hd => ?_
  · rcases List.mem_append.mp hc with hc | hc
    · rw [scanOut_named c hc]
      exact tl.name_ne
    · obtain ⟨c', hc', rfl⟩ := List.mem_map.mp hc
      rw [scanOut_named c' hc']
      exact tr.name_ne
  · have hcol := h.cols d hd
    have hused := colUsage_col hd hcol.1
    obtain ⟨c, hc⟩ := scanOut_find hcol (hcol.tabName ▸ hused)
    exact ⟨c, hc, (List.find?_append ..).trans (congrArg (Option.or · _) hc)⟩

/-- Where it is the right side, they stand behind those of the right table. -/
theorem SemiQuery.selected_right (h : SemiQuery db tl tr q) : selectedCols (nestedLoopJoin (scanFor db q tr) (scanFor db q tl) conds).cols q.cols =
    .ok ((q.cols.filterMap (colOf (scanFor db q tl).cols)).map fun c => { c with offset := c.offset + (scanFor db q tr).tupleLen }) := by
  refine selectedCols_find _ (fun c hc => ?_) fun d hd => ?_
  · rcases List.mem_append.mp hc with hc | hc
    · rw [scanOut_named c hc]
      exact tr.name_ne
    · obtain ⟨c', hc', rfl⟩ := List.mem_map.mp hc
      rw [scanOut_named c' hc']
      exact tl.name_ne
  · have hcol := h.cols d hd
    have hused := colUsage_col hd hcol.1
    obtain ⟨c, hc⟩ := scanOut_find hcol (hcol.tabName ▸ hused)
    have hnone : colOf (scanFor db q tr).cols d = none := by
      refine List.find?_eq_none.mpr fun c' hc' hfound => h.ne ?_
      rw [← hcol.tabName, ← (of_decide_eq_true hfound).1, scanOut_named c' hc']
    refine ⟨c, hc, (List.find?_append ..).trans ((congrArg (Option.or · _) hnone).trans ?_)⟩
    rw [Option.none_or, List.find?_map]
    exact congrArg (Option.map _) hc

theorem SemiQuery.run_left (h : SemiQuery db tl tr q) (stl : Stl) (hconds : ∀ c ∈ conds, Placed (scanFor db q tl).cols (scanFor db q tr).cols c) :
    runPlan stl db (.projection (.join (scanPlan (colUsage q) tl.tab.name).2 (scanPlan (colUsage q) tr.tab.name).2 conds) q.cols) =
      .ok ((((pairs (scanRows db q tl) (scanRows db q tr)).filter (passes (doPredict (scanFor db q tl) (scanFor db q tr) conds))).map
        (·.1)).map (selectRow (scanFor db q tl).cols q.cols)) := by
  rw [runPlan_join h.left h.right hconds h.selected_left, List.map_map]
  refine congrArg _ (List.map_congr_left fun p hp => selectRow_map fun c hc => ?_)
  obtain ⟨b, -, hp⟩ := List.mem_flatMap.mp (List.mem_filter.mp hp).1
  obtain ⟨a, ha, rfl⟩ := List.mem_map.mp hp
  have hwithin := scanFor_within hc ha
  change ((a ++ b).drop c.offset).take c.len = (a.drop c.offset).take c.len
  rw [List.drop_append_of_le_length (by omega), List.take_append_of_le_length (by rw [List.length_drop]; omega)]

theorem SemiQuery.run_right (h : SemiQuery db tl tr q) (stl : Stl) (hconds : ∀ c ∈ conds, Placed (scanFor db q tr).cols (scanFor db q tl).cols c) :
    runPlan stl db (.projection (.join (scanPlan (colUsage q) tr.tab.name).2 (scanPlan (colUsage q) tl.tab.name).2 conds) q.cols) =
      .ok ((((pairs (scanRows db q tr) (scanRows db q tl)).filter (passes (doPredict (scanFor db q tr) (scanFor db q tl) conds))).map
        (·.2)).map (selectRow (scanFor db q tl).cols q.cols)) := by
  rw [runPlan_join h.right h.left hconds h.selected_right, List.map_map]
  refine congrArg _ (List.map_congr_left fun p hp => selectRow_map fun c hc => ?_)
  obtain ⟨b, -, hp⟩ := List.mem_flatMap.mp (List.mem_filter.mp hp).1
  obtain ⟨a, ha, rfl⟩ := List.mem_map.mp hp
  change ((a ++ b).drop (c.offset + (scanFor db q tr).tupleLen)).take c.len = (b.drop c.offset).take c.len
  rw [Nat.add_comm, ← scanRows_length ha, List.drop_length_add_append]

theorem SemiQuery.run_eq (h : SemiQuery db tl tr q) {plan : Plan} (hplan : makeOneRel db.catalog true q = .ok plan) :
    runQuery stl db true q = runPlan stl db (.projection plan q.cols) := by
  have hcolumns : ∀ c ∈ q.conds, c.isRhsVal = false := fun c hc => (h.joins c hc).1.1
  have hsort : generateSortPlan db.catalog q plan = .ok plan := by
    rw [generateSortPlan, h.plain.1]
    rfl
  have hgenerate : generateSelectPlan stl db.catalog true q = .ok (.projection plan q.cols) := by
    unfold generateSelectPlan
    simp only [propagate_columns stl hcolumns, hplan, hsort, ok_bind, h.plain.2]
    rfl
  rw [runQuery, hgenerate, ok_bind]

/-- The rows of the query are the left rows, each as often as it matches. -/
theorem SemiQuery.rows (h : SemiQuery db tl tr q) (stl : Stl) : ∃ plan out, makeOneRel db.catalog true q = .ok plan ∧
    runQuery stl db true q = .ok out ∧
    out.Perm ((counted (onMatch db q tl tr plan) (scanRows db q tl) (scanRows db q tr)).map (selectRow (scanFor db q tl).cols q.cols)) := by
  have hfound : ∀ tab ∈ q.tables, (db.table? tab).isSome := by
    rw [h.tables]
    refine List.forall_mem_cons.mpr ⟨by rw [h.left]; rfl, fun tab htab => ?_⟩
    rw [List.mem_singleton.mp htab, h.right]
    rfl
  obtain ⟨plan, hplan, htree⟩ := makeOneRel_joinTree (by rw [h.tables]; exact List.cons_ne_nil _ _) (by rw [h.tables]; simp [h.ne])
    hfound h.joins
  rw [h.tables] at htree
  obtain ⟨conds, hjoin⟩ := htree.oriented.two htree.scans
  refine ⟨plan, ?_⟩
  rw [h.run_eq hplan]
  rcases hjoin with rfl | rfl
  · refine ⟨_, hplan, h.run_left stl (h.placed (Or.inl ⟨rfl, rfl⟩) htree), List.Perm.map _ ?_⟩
    have hon : onMatch db q tl tr (.join (scanPlan (colUsage q) tl.tab.name).2 (scanPlan (colUsage q) tr.tab.name).2 conds) =
        fun a b => passes (doPredict (scanFor db q tl) (scanFor db q tr) conds) (a, b) := by
      funext a b
      exact if_pos rfl
    rw [hon]
    exact @SemiJoin.pairs_counted _ _ (fun a b => passes (doPredict (scanFor db q tl) (scanFor db q tr) conds) (a, b)) _ _
  · refine ⟨_, hplan, h.run_right stl (h.placed (Or.inr ⟨rfl, rfl⟩) htree), List.Perm.map _ (.of_eq ?_)⟩
    have hon : onMatch db q tl tr (.join (scanPlan (colUsage q) tr.tab.name).2 (scanPlan (colUsage q) tl.tab.name).2 conds) =
        fun a b => passes (doPredict (scanFor db q tr) (scanFor db q tl) conds) (b, a) := by
      funext a b
      exact if_neg fun heq => h.ne (List.cons.inj heq).1.symm
    rw [hon]
    exact @SemiJoin.pairs_counted_swap _ _ (fun a b => passes (doPredict (scanFor db q tr) (scanFor db q tl) conds) (b, a)) _ _

/-- The query returns every left row with a match once exactly if no left row has two: the join type of the plan reaches no
    operator. -/
theorem semiJoin_iff (h : SemiQuery db tl tr q) (stl : Stl) : ∃ plan out, makeOneRel db.catalog true q = .ok plan ∧
    runQuery stl db true q = .ok out ∧
    (out.Perm ((semi (onMatch db q tl tr plan) (scanRows db q tl) (scanRows db q tr)).map (selectRow (scanFor db q tl).cols q.cols)) ↔
      ∀ a ∈ scanRows db q tl, (scanRows db q tr).countP (onMatch db q tl tr plan a) ≤ 1) := by
  obtain ⟨plan, out, hplan, hout, hperm⟩ := h.rows stl
  refine ⟨plan, out, hplan, hout, ?_⟩
  rw [← SemiJoin.counted_perm_semi_iff (selectRow (scanFor db q tl).cols q.cols)]
  exact ⟨hperm.symm.trans, hperm.trans⟩

end SemiRows

/-! ### Numbers of one table that are in another -/

/-- SELECT * FROM a SEMI JOIN b ON a.x = b.x. -/
def semiStmt : SelectStmt := ⟨[], .join (.ref "a" "") (.ref "b" "") [⟨⟨"a", "x"⟩, .eq, .col ⟨"b", "x"⟩⟩] true, [], [], none, [], -1⟩

/-- The query that the analysis makes of it. -/
def semiOnX : Query := ⟨["a", "b"], [⟨"a", "x"⟩], [onX "a" .eq "b"], [], [], none, [], -1, false⟩

theorem numbers_hasCol {name : String} {hname : name ≠ ""} {rows : List Int} : (numbers name hname rows).HasCol ⟨name, "x"⟩ :=
  ⟨show "x" ≠ "*" by decide, _, List.mem_singleton_self _, rfl⟩

theorem semiOnX_query (as bs : List Int) : SemiQuery (threeTables as bs []) (numbers "a" a_ne as) (numbers "b" b_ne bs) semiOnX where
  tables := rfl
  ne := show "a" ≠ "b" by decide
  left := rfl
  right := rfl
  conds c hc := by
    rw [List.mem_singleton.mp hc]
    exact ⟨⟨"b", "x"⟩, rfl, Or.inl ⟨numbers_hasCol, numbers_hasCol⟩⟩
  cols d hd := by
    rw [List.mem_singleton.mp hd]
    exact numbers_hasCol
  plain := ⟨rfl, by decide⟩

theorem semiJoin_iff_two : ∃ plan out, makeOneRel (threeTables [1, 2] [2, 3] []).catalog true semiOnX = .ok plan ∧
    runQuery insertionStl (threeTables [1, 2] [2, 3] []) true semiOnX = .ok out ∧
    (out.Perm ((semi (onMatch (threeTables [1, 2] [2, 3] []) semiOnX (numbers "a" a_ne [1, 2]) (numbers "b" b_ne [2, 3]) plan)
        (scanRows (threeTables [1, 2] [2, 3] []) semiOnX (numbers "a" a_ne [1, 2]))
        (scanRows (threeTables [1, 2] [2, 3] []) semiOnX (numbers "b" b_ne [2, 3]))).map
          (selectRow (scanFor (threeTables [1, 2] [2, 3] []) semiOnX (numbers "a" a_ne [1, 2])).cols semiOnX.cols)) ↔
      ∀ a ∈ scanRows (threeTables [1, 2] [2, 3] []) semiOnX (numbers "a" a_ne [1, 2]),
        (scanRows (threeTables [1, 2] [2, 3] []) semiOnX (numbers "b" b_ne [2, 3])).countP
          (onMatch (threeTables [1, 2] [2, 3] []) semiOnX (numbers "a" a_ne [1, 2]) (numbers "b" b_ne [2, 3]) plan a) ≤ 1) :=
  semiJoin_iff (semiOnX_query [1, 2] [2, 3]) insertionStl

/-- One row of `a` meets two rows of `b`: the semi join has it once, the query returns it twice. -/
theorem not_semiJoin_ones : doAnalyze (threeTables [1] [1, 1] []).catalog false semiStmt = .ok semiOnX ∧
    SemiQuery (threeTables [1] [1, 1] []) (numbers "a" a_ne [1]) (numbers "b" b_ne [1, 1]) semiOnX ∧
    ∃ plan, makeOneRel (threeTables [1] [1, 1] []).catalog true semiOnX = .ok plan ∧
      (semi (onMatch (threeTables [1] [1, 1] []) semiOnX (numbers "a" a_ne [1]) (numbers "b" b_ne [1, 1]) plan)
        (scanRows (threeTables [1] [1, 1] []) semiOnX (numbers "a" a_ne [1]))
        (scanRows (threeTables [1] [1, 1] []) semiOnX (numbers "b" b_ne [1, 1]))).map
          (selectRow (scanFor (threeTables [1] [1, 1] []) semiOnX (numbers "a" a_ne [1])).cols semiOnX.cols) = [[1, 0, 0, 0]] ∧
      runQuery insertionStl (threeTables [1] [1, 1] []) true semiOnX = .ok [[1, 0, 0, 0], [1, 0, 0, 0]] :=
  ⟨by decide, semiOnX_query [1] [1, 1], _, rfl, by decide, by decide⟩

end Rmdb.Sql
