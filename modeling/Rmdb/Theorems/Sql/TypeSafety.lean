import Rmdb.Theorems.Sql.Analysed

/-! A SELECT statement that passes the analysis raises no exception when it runs, whichever indexes and whichever order of joins the
planner takes. -/

namespace Rmdb.Sql
open Outcomes
open Catalog.SmManager (getIndexName)

/-! ### Evaluators do not fail on typed conditions -/

section Evaluators
variable {db : Db} {t : Table} {tab : String} {c : Condition} {conds : List Condition}

theorem comparable_of {a b : ColType} (h : Comparable a b) : isNumericType a = true ∧ isNumericType b = true ∨ a = b := by
  unfold Comparable at h
  cases a <;> cases b <;> simp [isNumericType] at h ⊢

/-- The columns of a condition on one table are columns of the table. -/
theorem Condition.Typed.columns (hc : c.Typed db) (hone : c.OneTable) (ht : db.table? c.lhsCol.tabName = some t) :
    ∃ col, getCol t.tab.cols c.lhsCol = .ok col ∧
      match c.rhs with
      | .val v _ => Comparable col.type v.type
      | .col d => ∃ col', getCol t.tab.cols d = .ok col' ∧ Comparable col.type col'.type := by
  obtain ⟨col, hcol, hrhs⟩ := hc
  refine ⟨col, (getCol_table ht hcol).2.2, ?_⟩
  obtain ⟨lhs, op, rhs⟩ := c
  cases rhs with
  | val v raw => exact hrhs
  | col d =>
    obtain ⟨col', hcol', htype⟩ := hrhs
    have hsame : lhs.tabName = d.tabName := hone.resolve_left Bool.false_ne_true
    exact ⟨col', (getCol_table (hsame ▸ ht) hcol').2.2, htype⟩

/-- `eval_cond` and `cmp_cond` have a result on every record. -/
theorem Condition.Typed.evaluates (hc : c.Typed db) (hone : c.OneTable) (ht : db.table? c.lhsCol.tabName = some t) (rec : Bytes) :
    (∃ hit, evalCond t.tab.cols c rec = .ok hit) ∧ ∃ hit, cmpCond t.tab.cols c rec = .ok hit := by
  obtain ⟨col, hget, hrhs⟩ := hc.columns hone ht
  obtain ⟨lhs, op, rhs⟩ := c
  have hsplit : ∀ {a b : ColType} {x y : Except Fault Bool}, Comparable a b → (∃ hit, x = .ok hit) → (∃ hit, y = .ok hit) →
      ∀ e, (∃ hit, (if isNumericType a = true ∧ isNumericType b = true then x else if a ≠ b then .error e else y) = .ok hit) ∧
        ∃ hit, (if a = b then y else if isNumericType a = true ∧ isNumericType b = true then x else .error e) = .ok hit := by
    intro a b x y htype hx hy e
    rcases comparable_of htype with hnum | rfl
    · refine ⟨by rwa [if_pos hnum], ?_⟩
      by_cases hab : a = b
      · rwa [if_pos hab]
      · rwa [if_neg hab, if_pos hnum]
    · refine ⟨?_, by rwa [if_pos rfl]⟩
      by_cases hnum : isNumericType a = true ∧ isNumericType a = true
      · rwa [if_pos hnum]
      · rwa [if_neg hnum, if_neg (not_not.mpr rfl)]
  cases rhs with
  | val v raw =>
    unfold evalCond cmpCond
    simp only [hget, ok_bind]
    exact ⟨(hsplit hrhs ⟨_, rfl⟩ ⟨_, rfl⟩ _).1, (hsplit hrhs ⟨_, rfl⟩ ⟨_, rfl⟩ _).2⟩
  | col d =>
    obtain ⟨col', hget', htype⟩ := hrhs
    unfold evalCond cmpCond
    simp only [hget, hget', ok_bind]
    exact ⟨(hsplit htype ⟨_, rfl⟩ ⟨_, rfl⟩ _).1, (hsplit htype ⟨_, rfl⟩ ⟨_, rfl⟩ _).2⟩

end Evaluators

/-! ### Scans -/

/-- Each index of the catalog has its name, and is open. -/
def Db.Open (db : Db) : Prop := ∀ t ∈ db.tables, ∀ e ∈ t.tab.indexes,
  (t.tab.index? (getIndexName t.tab.name (e.2.cols.map (·.name)))).isSome = true ∧ (t.range (e.2.cols.map (·.name))).isSome = true

/-- A condition that a scan of this table can test. -/
structure Condition.Testable (db : Db) (tab : String) (c : Condition) : Prop where
  typed : c.Typed db
  one : c.OneTable
  own : c.lhsCol.tabName = tab

/-- After its start the operator hands out these tuples, of the length that it announces. -/
structure Executor.HandsOut (e : Executor) (tuples : List (Option Bytes)) : Prop where
  start : ∃ t, e.start e.init = .ok t ∧ e.toIter.Runs t (tuples.map .ok)
  bound : tuples.length ≤ e.bound
  sized : ∀ rec, some rec ∈ tuples → rec.length = e.tupleLen

theorem Executor.Repeats.handsOut {e : Executor} {tuples : List (Option Bytes)} (h : e.Repeats tuples) : e.HandsOut tuples :=
  ⟨h.restarts _ (Or.inl rfl), h.bound, h.sized⟩

section Scans
variable {stl : Stl} {db : Db} {q : Query} {tab : String} {t : Table} {conds : List Condition}

/-- The planner takes an index of the catalog. -/
theorem getIndexCols_mem {tabMeta : Catalog.TabMeta} {names : List String} (h : getIndexCols tabMeta conds = some names) :
    ∃ e ∈ tabMeta.indexes, names = e.2.cols.map (·.name) := by
  have hbest : ∀ (applicable : List Condition) (indexes : List (List Catalog.ColMeta)) (best : Nat × List String),
      (0 < best.1 → ∃ e ∈ tabMeta.indexes, best.2 = e.2.cols.map (·.name)) → (∀ index ∈ indexes, ∃ e ∈ tabMeta.indexes, index = e.2.cols) →
      let last := indexes.foldl (fun (best : Nat × List String) index =>
        let score := matchScore applicable index
        let names := index.map (·.name)
        if best.1 < score then (score, names)
        else if score = best.1 ∧ isTpccRecommendedIndex tabMeta.name names then (score + indexTpccBonus, names)
        else best) best
      0 < last.1 → ∃ e ∈ tabMeta.indexes, last.2 = e.2.cols.map (·.name) := by
    intro applicable indexes
    induction indexes with
    | nil => exact fun best hbest _ => hbest
    | cons index indexes ih =>
      intro best hbest hindexes
      obtain ⟨⟨e, he, rfl⟩, hrest⟩ := List.forall_mem_cons.mp hindexes
      rw [List.foldl_cons]
      refine ih _ ?_ hrest
      dsimp only
      split
      · exact fun _ => ⟨e, he, rfl⟩
      · split
        · exact fun _ => ⟨e, he, rfl⟩
        · exact hbest
  unfold getIndexCols at h
  dsimp only at h
  split at h
  · next names' hfilter =>
    cases h
    obtain ⟨-, hany⟩ := Option.filter_eq_some_iff.mp hfilter
    obtain ⟨index, hindex, heq⟩ := List.any_eq_true.mp hany
    obtain ⟨e, he, rfl⟩ := List.mem_map.mp hindex
    exact ⟨e, he, (of_decide_eq_true heq).symm⟩
  · split at h
    · cases h
    · split at h
      · next hpos =>
        cases h
        refine hbest _ (tabMeta.indexes.map fun e => e.2.cols) (0, []) (fun h => absurd h (Nat.lt_irrefl 0)) (fun index hindex => ?_) hpos
        obtain ⟨e, he, rfl⟩ := List.mem_map.mp hindex
        exact ⟨e, he, rfl⟩
      · cases h

/-- A scan with testable conditions hands out its tuples again at every start, and null pointers only without conditions. -/
theorem scan_safe (hnamed : db.Named) (hopen : db.Open) (ht : db.table? tab = some t) (hconds : ∀ c ∈ conds, c.Testable db tab) :
    ∃ e tuples, convertPlanExecutor stl db (.scan (indexFor db (tab, conds)) tab conds (colUsage q tab)) = .ok e ∧
      e.Offers db q [tab] ∧ Tree db false e (present tuples) ∧ e.Repeats tuples ∧
      (none ∈ tuples → conds = [] ∧ ∃ s ∈ t.slots, db.visible s = false) := by
  obtain ⟨hmem, hname⟩ := Db.table?_mem ht
  have heval : ∀ c ∈ conds, ∀ rec, (∃ hit, evalCond t.tab.cols c rec = .ok hit) ∧ ∃ hit, cmpCond t.tab.cols c rec = .ok hit := by
    intro c hc
    obtain ⟨htyped, hone, rfl⟩ := hconds c hc
    exact htyped.evaluates hone ht
  cases hindex : indexFor db (tab, conds) with
  | none =>
    have hclean : SeqClean db t conds := fun _ _ rec _ => allHold_ok fun c hc => (heval c hc rec).1
    refine ⟨_, _, by simp only [convertPlanExecutor, ht], scan_offers hnamed ht rfl rfl, .ofSeqScan hclean, seqScan_repeats hclean,
      fun hnone => ?_⟩
    obtain ⟨s, hs, htuple⟩ := List.mem_filterMap.mp hnone
    obtain ⟨hnil, hhidden⟩ := seqTuple_null htuple
    exact ⟨hnil, s, hs, hhidden⟩
  | some names =>
    have hcols : getIndexCols t.tab conds = some names := by
      rw [indexFor, ht, Option.bind_some] at hindex
      exact hindex
    obtain ⟨e, he, rfl⟩ := getIndexCols_mem hcols
    obtain ⟨hregistered, hrange⟩ := hopen t hmem e he
    obtain ⟨range, hrange⟩ := Option.isSome_iff_exists.mp hrange
    obtain ⟨index, hregistered⟩ := Option.isSome_iff_exists.mp hregistered
    have hclean : IndexClean db t (fedConds conds (e.2.cols.map (·.name))) (range conds) := fun _ _ rec _ =>
      allHold_ok fun c hc => (heval c (List.mem_of_mem_filter hc) rec).2
    have hcheck : checkIndexScan t conds (e.2.cols.map (·.name)) = .ok () := by
      unfold checkIndexScan
      rw [hregistered, Option.isNone_some, if_neg Bool.false_ne_true, if_pos]
      refine List.all_eq_true.mpr fun c hc => ?_
      rw [(hconds c hc).own, hname, decide_eq_true rfl, Bool.true_or]
    refine ⟨_, _, by simp only [convertPlanExecutor, ht, hcheck], scan_offers hnamed ht rfl rfl, .ofIndexScan hrange hclean,
      indexScan_repeats hrange hclean, fun hnone => ?_⟩
    obtain ⟨entry, -, htuple⟩ := List.mem_filterMap.mp hnone
    unfold indexTuple at htuple
    split at htuple
    · cases htuple
    · split at htuple <;> cases htuple

/-- The operators of a plan hand out their tuples without an exception. -/
theorem plan_safe (hnamed : db.Named) (hopen : db.Open) (hcols : ∀ d, d ∈ colUsage q d.tabName → ∃ col, db.col? d = some col) {plan : Plan}
    (horiented : plan.Oriented) (hnodup : plan.tables.Nodup)
    (hscans : ∀ e ∈ plan.scans, ∃ conds, e.2 = .scan (indexFor db (e.1, conds)) e.1 conds (colUsage q e.1) ∧
      (∃ t, db.table? e.1 = some t) ∧ ∀ c ∈ conds, c.Testable db e.1)
    (hjoins : ∀ c ∈ plan.joinConds, c.Used q) :
    ∃ joined e rows, convertPlanExecutor stl db plan = .ok e ∧ e.Offers db q plan.tables ∧ Tree db joined e rows ∧
      (joined = false → ∃ tab t tuples, plan.tables = [tab] ∧ db.table? tab = some t ∧ e.Repeats tuples ∧
        (none ∈ tuples → plan.conds = [] ∧ ∃ s ∈ t.slots, db.visible s = false)) := by
  induction plan with
  | scan index tab conds proj =>
    obtain ⟨conds', heq, ⟨t, ht⟩, hconds⟩ := hscans _ (List.mem_singleton_self _)
    dsimp only at heq ht hconds
    obtain ⟨rfl, -, rfl, rfl⟩ := Plan.scan.inj heq
    obtain ⟨e, tuples, hconvert, hoffers, htree, hrepeats, hnull⟩ := @scan_safe stl db q _ _ _ hnamed hopen ht hconds
    exact ⟨false, e, _, hconvert, hoffers, htree, fun _ => ⟨tab, t, tuples, rfl, ht, hrepeats, hnull⟩⟩
  | join left right conds ihl ihr =>
    obtain ⟨hleft, hright, hconds⟩ := horiented
    rw [Plan.tables_join] at hnodup
    obtain ⟨hnodupl, hnodupr, hdisj⟩ := List.nodup_append'.mp hnodup
    have hmem : ∀ {c}, c ∈ left.joinConds ∨ c ∈ right.joinConds → c ∈ conds ++ (left.joinConds ++ right.joinConds) := fun h =>
      List.mem_append_right _ (List.mem_append.mpr h)
    obtain ⟨jl, el, ls, hl, hoffersl, htreel, -⟩ := ihl hleft hnodupl (fun e he => hscans e (List.mem_append_left _ he))
      fun c hc => hjoins c (hmem (Or.inl hc))
    obtain ⟨jr, er, rs, hr, hoffersr, htreer, -⟩ := ihr hright hnodupr (fun e he => hscans e (List.mem_append_right _ he))
      fun c hc => hjoins c (hmem (Or.inr hc))
    have hplaced : ∀ c ∈ conds, Placed el.cols er.cols c := by
      intro c hc
      obtain ⟨hcol, hlhs, hrhs⟩ := hconds c hc
      exact ((hjoins c (List.mem_append_left _ hc)).between hcols hcol hlhs hrhs).placed hoffersl hoffersr
    refine ⟨true, _, _, by rw [convertPlanExecutor, hl, hr], ?_, .join htreel htreer hplaced, fun h => by cases h⟩
    rw [Plan.tables_join]
    exact hoffersl.join hoffersr fun tab h h' => hdisj h' h
  | null => exact horiented.elim
  | sort subplan selCols isDesc limit => exact horiented.elim
  | group input groupBy having => exact horiented.elim
  | agg input selectExprs => exact horiented.elim
  | projection subplan selCols => exact horiented.elim

/-- What the operators of a tree hand out at their first start. -/
theorem Tree.handsOut {joined : Bool} {e : Executor} {rows : List Bytes} (h : Tree db joined e rows) :
    ∃ tuples, e.HandsOut tuples ∧ (joined = true → none ∉ tuples) := by
  obtain ⟨hsized, ⟨spec⟩⟩ := h.spec
  obtain ⟨t, items, ht, hruns, hall, hbound⟩ := spec.start_runs e.init
  refine ⟨items, ⟨⟨t, ht, hruns⟩, hbound, fun rec hrec => hsized rec ((hall _ hrec).1 rec rfl)⟩, fun hjoined hnone => ?_⟩
  obtain ⟨rec, -, hrec⟩ := (hall _ hnone).2 hjoined
  cases hrec

end Scans

/-! ### The query -/

section Query
variable {stl : Stl} {db : Db} {q : Query}

theorem Condition.Typed.found {c : Condition} (h : c.Typed db) : (∃ col, db.col? c.lhsCol = some col) ∧
    ∀ d, c.rhs = .col d → ∃ col, db.col? d = some col := by
  obtain ⟨col, hcol, hrhs⟩ := h
  refine ⟨⟨col, hcol⟩, fun d hd => ?_⟩
  rw [hd] at hrhs
  exact hrhs.imp fun _ h => h.1

variable (stl) in
/-- Constants that equalities carry over can be compared with their new columns. -/
theorem propagate_typed (hnamed : db.Named) {conds : List Condition} {tables : List String} (htables : ∀ tab ∈ tables, ∃ t, db.table? tab = some t)
    (hconds : ∀ c ∈ conds, c.Checked tables ∧ c.Typed db) : ∃ added, propagateEqualityConstants stl conds = conds ++ added ∧
      ∀ c ∈ added, c.isRhsVal = true ∧ c.Checked tables ∧ c.Typed db := by
  obtain ⟨added, heq, hadded⟩ := propagate_checked stl hnamed (fun c hc => (hconds c hc).2.found) htables fun c hc => (hconds c hc).1
  refine ⟨added, heq, fun c hc => ?_⟩
  obtain ⟨hval, hchecked, d, a, v, raw, rfl, ha, hsame⟩ := hadded c hc
  refine ⟨hval, hchecked, ?_⟩
  have hstring : (db.col? d).map (fun c => decide (c.type = .string)) = (db.col? a).map fun c => decide (c.type = .string) := by
    refine hsame (fun d => (db.col? d).map fun c => decide (c.type = .string)) fun x y hxy => ?_
    obtain ⟨col, hcol, col', hcol', htype⟩ := (hconds _ hxy).2
    dsimp only at hcol ⊢
    rw [hcol, hcol', Option.map_some, Option.map_some, decide_eq_decide.mpr htype]
  obtain ⟨col, hcol, htype⟩ := (hconds _ ha).2
  rw [hcol, Option.map_some] at hstring
  obtain ⟨col', hcol', hsame'⟩ := Option.map_eq_some_iff.mp hstring
  exact ⟨col', hcol', (decide_eq_decide.mp hsame').trans htype⟩

theorem selectFrom_null (root : Executor) {t : root.State} {items : List (Option Bytes)} (ht : root.start root.init = .ok t)
    (hruns : root.toIter.Runs t (items.map .ok)) (hbound : items.length ≤ root.bound) (hnone : none ∈ items) :
    selectFrom root = .error .nullPointer := by
  have hfold : ∀ (f : List Bytes → Option Bytes → Except Fault (List Bytes)), (∀ rows, f rows none = .error .nullPointer) →
      (∀ rows rec, f rows (some rec) = .ok (rows ++ [rec])) → ∀ acc, Iter.foldReads f acc (items.map .ok) = .error .nullPointer := by
    intro f hnull hsome
    clear hruns hbound
    induction items with
    | nil => cases hnone
    | cons r rs ih =>
      intro acc
      cases r with
      | none => exact congrArg (· >>= fun acc => Iter.foldReads f acc (rs.map .ok)) (hnull acc)
      | some rec =>
        have hstep : Iter.foldReads f acc ((some rec :: rs).map .ok) = Iter.foldReads f (acc ++ [rec]) (rs.map .ok) :=
          congrArg (· >>= fun acc => Iter.foldReads f acc (rs.map .ok)) (hsome acc rec)
        rw [hstep]
        exact ih ((List.mem_cons.mp hnone).resolve_left fun h => by cases h) _
  obtain ⟨u, hu⟩ := hruns.fold
  unfold selectFrom
  rw [ht, ok_bind, hu _ _ _ _ ((List.length_map _).trans_le hbound), hfold _ (fun _ => rfl) fun _ _ => rfl]
  rfl

/-- The length of the cells of a column. -/
def Db.width (db : Db) (d : TabCol) : Nat := ((db.col? d).map (·.len)).getD 0

theorem selected_length {cols : List Catalog.ColMeta} {ds : List TabCol} {cellOf : Catalog.ColMeta → Bytes} {width : TabCol → Nat}
    (h : ∀ d ∈ ds, ∃ c, colOf cols d = some c ∧ (cellOf c).length = width d) :
    (((ds.filterMap (colOf cols)).map id).flatMap cellOf).length = (ds.map width).sum := by
  induction ds with
  | nil => rfl
  | cons d ds ih =>
    obtain ⟨c, hc, hlen⟩ := h d (List.mem_cons_self ..)
    rw [List.filterMap_cons_some hc, List.map_cons, List.flatMap_cons, List.length_append, ih fun e he => h e (List.mem_cons_of_mem d he)]
    exact congrArg (· + _) hlen

/-- What a projection of an operator prints. -/
theorem projection_prints {e : Executor} {tabs : List String} {tuples : List (Option Bytes)} (hout : e.HandsOut tuples)
    (hoffers : e.Offers db q tabs) (hnamed : db.Named) (htabs : ∀ tab ∈ tabs, ∃ t, db.table? tab = some t)
    (hcols : ∀ d ∈ q.cols, d.tabName ∈ tabs ∧ ∃ col, db.col? d = some col) : ∃ root, projection e q.cols = .ok root ∧
      ((∃ rows, selectFrom root = .ok rows ∧ ∀ rec ∈ rows, rec.length = (q.cols.map db.width).sum) ∨
        none ∈ tuples ∧ selectFrom root = .error .nullPointer) := by
  obtain ⟨hsel, hfound⟩ := hoffers.selected hnamed htabs hcols
  obtain ⟨⟨t, ht, hruns⟩, hbound, hsized⟩ := hout
  obtain ⟨root, hroot, hbound', t', ht', hruns'⟩ := projection_runs ht hruns hsel
  refine ⟨root, hroot, ?_⟩
  by_cases hnone : none ∈ tuples
  · refine Or.inr ⟨hnone, selectFrom_null root ht' hruns' (hbound' ▸ (List.length_map _).trans_le hbound) ?_⟩
    exact List.mem_map.mpr ⟨none, hnone, rfl⟩
  · have hthere := present_all hnone
    rw [hthere, List.map_map] at hruns
    obtain ⟨root', hroot', hrows⟩ := projection_rows ht hruns ((List.length_filterMap_le _ _).trans hbound) hsel
    cases hroot.symm.trans hroot'
    refine Or.inl ⟨_, hrows, fun rec hrec => ?_⟩
    obtain ⟨tuple, htuple, rfl⟩ := List.mem_map.mp hrec
    have hlen := hsized tuple (mem_present.mp htuple)
    refine selected_length fun d hd => ?_
    obtain ⟨c, col, hc, hget, -, hcol, hcolLen⟩ := hfound d hd
    refine ⟨c, hc, ?_⟩
    have hwithin := hoffers.within c (getCol_mem hget).1
    have hwidth : db.width d = col.len := by rw [Db.width, hcol]; rfl
    rw [List.length_take, List.length_drop, hlen, hwidth, ← hcolLen]
    omega

/-- The rows of the plan of a query with typed conditions. -/
theorem plan_prints (hnamed : db.Named) (hopen : db.Open) (hne : q.tables ≠ []) (hnodup : q.tables.Nodup)
    (hfound : ∀ tab ∈ q.tables, ∃ t, db.table? tab = some t) (hconds : ∀ c ∈ q.conds, c.Checked q.tables ∧ c.Typed db)
    (hfirst : ∀ c ∈ q.conds, c.SameTable → q.tables.head? = some c.lhsCol.tabName) (hcols : ∀ d ∈ q.cols, db.Has q.tables d)
    (hagg : needAggPlan q = false) : ∃ plan, makeOneRel db.catalog true q = .ok plan ∧
      ((∃ rows, runPlan stl db (.projection plan q.cols) = .ok rows ∧ ∀ rec ∈ rows, rec.length = (q.cols.map db.width).sum) ∨
        (runPlan stl db (.projection plan q.cols) = .error .nullPointer ∧ q.conds = [] ∧
          ∃ tab t, q.tables = [tab] ∧ db.table? tab = some t ∧ ∃ s ∈ t.slots, db.visible s = false)) := by
  obtain ⟨plan, hplan, -, horiented, hscans, turned, hturned, hjoins⟩ := makeOneRel_plan hne hnodup hfound fun c hc => (hconds c hc).1
  rw [popAll_scans hnodup (fun c hc => (hconds c hc).1.named) hfirst, List.map_map] at hscans
  rw [popAll_rest_eq fun c hc => (hconds c hc).1.lhs] at hturned
  have htabs : plan.tables.Perm q.tables := by
    refine (hscans.map (·.1)).trans (.of_eq ?_)
    rw [List.map_map]
    exact List.map_id _
  have hfound' : ∀ tab ∈ plan.tables, ∃ t, db.table? tab = some t := fun tab htab => hfound tab (htabs.mem_iff.mp htab)
  have hown : ∀ e ∈ plan.scans, e.2 = .scan (indexFor db (e.1, q.ownConds e.1)) e.1 (q.ownConds e.1) (colUsage q e.1) := by
    intro e he
    obtain ⟨tab, -, rfl⟩ := List.mem_map.mp (hscans.mem_iff.mp he)
    rfl
  have htestable : ∀ tab, ∀ c ∈ q.ownConds tab, c.Testable db tab := by
    intro tab c hc
    obtain ⟨hc, hdec⟩ := List.mem_filter.mp hc
    obtain ⟨hone, htab⟩ := of_decide_eq_true hdec
    exact ⟨(hconds c hc).2, hone, htab⟩
  have hused : ∀ c ∈ plan.joinConds, c.Used q := by
    intro c' hc'
    obtain ⟨c, hc, hturn⟩ := forall₂_right hturned (hjoins.mem_iff.mp hc')
    obtain ⟨hc, hdec⟩ := List.mem_filter.mp hc
    exact hturn.used hc (of_decide_eq_true hdec).1
  obtain ⟨joined, e, rows, he, hoffers, htree, hscan⟩ := @plan_safe stl db q hnamed hopen
    (used_columns hagg (fun d hd => (hcols d hd).2) fun c hc => (hconds c hc).2.found) plan horiented (htabs.nodup_iff.mpr hnodup)
    (fun e he => ⟨_, hown e he, hfound' _ (List.mem_map_of_mem he), htestable e.1⟩) hused
  -- a null pointer comes from a lone scan only
  have hout : ∃ tuples, e.HandsOut tuples ∧ (none ∈ tuples → q.conds = [] ∧
      ∃ tab t, q.tables = [tab] ∧ db.table? tab = some t ∧ ∃ s ∈ t.slots, db.visible s = false) := by
    cases joined with
    | true =>
      obtain ⟨tuples, hout, hnone⟩ := htree.handsOut
      exact ⟨tuples, hout, fun h => absurd h (hnone rfl)⟩
    | false =>
      obtain ⟨tab, t, tuples, htab, ht, hrepeats, hnull⟩ := hscan rfl
      refine ⟨tuples, hrepeats.handsOut, fun h => ?_⟩
      obtain ⟨hnil, hhidden⟩ := hnull h
      have hone : q.tables = [tab] := List.perm_singleton.mp (htab ▸ htabs.symm)
      refine ⟨ownConds_nil (fun c hc => (hconds c hc).1) hone ?_, tab, t, hone, ht, hhidden⟩
      obtain ⟨p, hp⟩ : ∃ p, plan.scans = [(tab, p)] := by
        obtain ⟨e, he, htab'⟩ := List.map_eq_singleton_iff.mp htab
        exact ⟨e.2, by rw [he, ← htab']⟩
      have hplanScan := horiented.one hp
      have := hown _ (hp ▸ List.mem_singleton_self _)
      dsimp only at this hplanScan
      rw [hplanScan, this] at hnil
      exact hnil
  obtain ⟨tuples, hout, hnull⟩ := hout
  obtain ⟨root, hroot, hprints⟩ := projection_prints hout hoffers hnamed hfound' fun d hd =>
    ⟨htabs.mem_iff.mpr (hcols d hd).1, (hcols d hd).2⟩
  have hrun : runPlan stl db (.projection plan q.cols) = selectFrom root := by
    rw [runPlan, convertPlanExecutor, he]
    simp only [hroot]
  refine ⟨plan, hplan, ?_⟩
  rw [hrun]
  exact hprints.imp_right fun h => ⟨h.2, hnull h.1⟩

end Query

/-- A SELECT statement without aggregates that passes the analysis is run to its end, whatever indexes there are and however its
    tables are joined: rows of the length of its columns are printed, or a null pointer is used, for a record that is not visible in
    the only table of a query without conditions. -/
theorem select_safe (stl : Stl) {db : Db} (hnamed : db.Named) (hopen : db.Open) {unset : Bool} {x : SelectStmt} {q : Query}
    (h : doAnalyze db.catalog unset x = .ok q) (hx : x.Plain) (hnodup : q.tables.Nodup)
    (hfirst : ∀ c ∈ q.conds, c.SameTable → q.tables.head? = some c.lhsCol.tabName) :
    (∃ rows, runQuery stl db true q = .ok rows ∧ ∀ rec ∈ rows, rec.length = (q.cols.map db.width).sum) ∨
      (runQuery stl db true q = .error .nullPointer ∧ q.conds = [] ∧
        ∃ tab t, q.tables = [tab] ∧ db.table? tab = some t ∧ ∃ s ∈ t.slots, db.visible s = false) := by
  have hq := doAnalyze_analysed h
  have hplain := hx.plain hq
  obtain ⟨added, heq, hadded⟩ := propagate_typed stl hnamed hq.found hq.conds
  have hconds : ∀ c ∈ propagateEqualityConstants stl q.conds, c.Checked q.tables ∧ c.Typed db := by
    rw [heq]
    exact fun c hc => (List.mem_append.mp hc).elim (hq.conds c) fun hc => (hadded c hc).2
  have hfirst' : ∀ c ∈ propagateEqualityConstants stl q.conds, c.SameTable → q.tables.head? = some c.lhsCol.tabName := by
    rw [heq]
    intro c hc hsame
    rcases List.mem_append.mp hc with hc | hc
    · exact hfirst c hc hsame
    · cases (hadded c hc).1.symm.trans hsame.1
  obtain ⟨plan, hplan, hprints⟩ := @plan_prints stl db { q with conds := propagateEqualityConstants stl q.conds } hnamed hopen
    (hq.tables ▸ extractTableNames_ne x.tabs) hnodup hq.found hconds hfirst' (hq.cols hx.aggs) hplain.2
  rw [runQuery_plain hplain hplan]
  refine hprints.imp_right fun h => ⟨h.1, ?_, h.2.2⟩
  have hnil := h.2.1
  dsimp only at hnil
  rw [heq] at hnil
  exact (List.append_eq_nil_iff.mp hnil).1

theorem select_safe_two : ∃ rows, runQuery insertionStl (threeTables [1, 2] [2, 2, 3] []) true joinOnTwoQuery = .ok rows ∧
    ∀ rec ∈ rows, rec.length = 8 := by
  have hanalyze : doAnalyze (threeTables [1, 2] [2, 2, 3] []).catalog false joinOnTwo = .ok joinOnTwoQuery := by rfl
  have hopen : (threeTables [1, 2] [2, 2, 3] []).Open := by
    intro t ht e he
    rcases List.mem_cons.mp ht with rfl | ht
    · cases he
    · rcases List.mem_cons.mp ht with rfl | ht
      · cases he
      · rw [List.mem_singleton.mp ht] at he
        cases he
  have hfirst : ∀ c ∈ joinOnTwoQuery.conds, c.SameTable → joinOnTwoQuery.tables.head? = some c.lhsCol.tabName := by
    intro c hc hsame
    rcases List.mem_cons.mp hc with rfl | hc
    · cases hsame.1
    · rw [List.mem_singleton.mp hc] at hsame
      exact absurd hsame.2 (by decide)
  have hsafe := select_safe insertionStl (threeTables_sound [1, 2] [2, 2, 3] []).names hopen hanalyze
    ⟨rfl, fun e he => (by cases he), rfl, by decide⟩ (by decide) hfirst
  exact hsafe.resolve_right fun h => (by cases h.2.1)

end Rmdb.Sql
