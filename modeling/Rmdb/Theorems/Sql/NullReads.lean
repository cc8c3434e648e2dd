import Rmdb.Theorems.Sql.Nulls

/-! Groupings and aggregations over records that may be missing. Each looks up its columns in a record before it uses it, so a
column that is not there ends the loop before it comes to a null pointer. -/

namespace Rmdb.Sql
open Outcomes

/-! ### Columns that are looked up -/

section Lookups
variable {α β : Type} {f : α → Except Fault β} {l : List α} {c : TabCol}

section Columns
variable {cols : List Catalog.ColMeta}

theorem getColIdx_of_resolves (h : Resolves cols c) : ∃ col, getColIdx cols c = .ok col := by
  obtain ⟨col, hcol⟩ := Option.isSome_iff_exists.mp h
  exact ⟨col, by rw [getColIdx, hcol]⟩

theorem getColIdx_eq_ok {col : Catalog.ColMeta} (h : getColIdx cols c = .ok col) : col ∈ cols ∧ isNamed c col = true := by
  unfold getColIdx at h
  split at h
  · next col' hfind =>
    cases h
    exact ⟨List.mem_of_find?_eq_some hfind, List.find?_some hfind⟩
  · cases h

theorem getColIdx_of_not_resolves (h : ¬Resolves cols c) :
    getColIdx cols c = .error (.runtimeError ("Column not found: " ++ c.colName)) := by
  have hnone : cols.find? (isNamed c) = none := Option.not_isSome_iff_eq_none.mp h
  rw [getColIdx, hnone]

theorem getColIdx_unknown (h : ¬Resolves cols c) {g : Catalog.ColMeta → Except Fault β} :
    Meets (fun _ => False) Fault.Clean (getColIdx cols c >>= g) := by
  rw [getColIdx_of_not_resolves h]
  exact ⟨Fault.noConfusion, Fault.noConfusion⟩

end Columns

variable (cols : List Catalog.ColMeta) (arg : α → Option TabCol)

theorem mapM_known (hnone : ∀ a, arg a = none → ∃ b, f a = .ok b)
    (hknown : ∀ a c, arg a = some c → Resolves cols c → ∃ b, f a = .ok b) (h : ∀ c ∈ l.filterMap arg, Resolves cols c) :
    ∃ bs, l.mapM f = .ok bs := by
  induction l with
  | nil => exact ⟨[], rfl⟩
  | cons a as ih =>
    have hhead : ∃ b, f a = .ok b := by
      cases harg : arg a with
      | none => exact hnone a harg
      | some c => exact hknown a c harg (h c (List.mem_filterMap.mpr ⟨a, List.mem_cons_self .., harg⟩))
    obtain ⟨b, hb⟩ := hhead
    obtain ⟨bs, hbs⟩ := ih fun c hc => by
      obtain ⟨a', ha', harg⟩ := List.mem_filterMap.mp hc
      exact h c (List.mem_filterMap.mpr ⟨a', List.mem_cons_of_mem a ha', harg⟩)
    exact ⟨b :: bs, by rw [List.mapM_cons, hb, ok_bind, hbs]; rfl⟩

/-- The loop fails at the first item whose column is unknown. -/
theorem mapM_unknown (hnone : ∀ a, arg a = none → ∃ b, f a = .ok b)
    (hknown : ∀ a c, arg a = some c → Resolves cols c → ∃ b, f a = .ok b)
    (hunknown : ∀ a c, arg a = some c → ¬Resolves cols c → Meets (fun _ => False) Fault.Clean (f a))
    (h : ¬∀ c ∈ l.filterMap arg, Resolves cols c) : Meets (fun _ => False) Fault.Clean (l.mapM f) := by
  induction l with
  | nil => exact absurd (fun c hc => by cases hc) h
  | cons a as ih =>
    rw [List.mapM_cons]
    have hrest : (¬∀ c ∈ as.filterMap arg, Resolves cols c) → (∃ b, f a = .ok b) →
        Meets (fun _ => False) Fault.Clean (f a >>= fun b => as.mapM f >>= fun bs => pure (b :: bs)) := by
      rintro has ⟨b, hb⟩
      rw [hb, ok_bind]
      exact (ih has).bind fun _ h => h.elim
    cases harg : arg a with
    | none =>
      rw [List.filterMap_cons_none harg] at h
      exact hrest h (hnone a harg)
    | some c =>
      rw [List.filterMap_cons_some harg, List.forall_mem_cons, not_and] at h
      by_cases hc : Resolves cols c
      · exact hrest (h hc) (hknown a c harg hc)
      · exact (hunknown a c harg hc).bind fun _ h => h.elim

/-- The loop fails at the first item that has a column. -/
theorem mapM_first {fine : Fault → Prop} (hnone : ∀ a, arg a = none → ∃ b, f a = .ok b)
    (hfirst : ∀ a, arg a = some c → Meets (fun _ => False) fine (f a)) (h : (l.filterMap arg).head? = some c) :
    Meets (fun _ => False) fine (l.mapM f) := by
  induction l with
  | nil => cases h
  | cons a as ih =>
    rw [List.mapM_cons]
    cases harg : arg a with
    | none =>
      rw [List.filterMap_cons_none harg] at h
      obtain ⟨b, hb⟩ := hnone a harg
      rw [hb, ok_bind]
      exact (ih h).bind fun _ h => h.elim
    | some d =>
      rw [List.filterMap_cons_some harg] at h
      cases h
      exact (hfirst a harg).bind fun _ h => h.elim

theorem eq_error_of_meets {x : Except Fault β} {e : Fault} (h : Meets (fun _ => False) (fun f => f = e) x) : x = .error e := by
  cases x with
  | ok a => exact h.elim
  | error f => exact congrArg Except.error h

end Lookups

/-! ### Groupings -/

section Grouping
variable {stl : Stl} {cols : List Catalog.ColMeta} {groupBy : List ColItem}

/-- The columns that a grouping looks up in each record. -/
def keyCols (groupBy : List ColItem) : List TabCol := groupBy.filterMap (·.col?)

theorem extractGroupKey_known (h : ∀ c ∈ keyCols groupBy, Resolves cols c) (rec : Bytes) :
    ∃ key, extractGroupKey cols groupBy (some rec) = .ok key := by
  unfold extractGroupKey
  split
  · exact ⟨_, rfl⟩
  · refine mapM_known cols some (fun c hc => by cases hc) (fun c d hd hres => ?_) ?_
    · cases hd
      obtain ⟨col, hcol⟩ := getColIdx_of_resolves hres
      exact ⟨_, by rw [hcol]; rfl⟩
    · rw [List.filterMap_some]
      exact h

theorem extractGroupKey_unknown (h : ¬∀ c ∈ keyCols groupBy, Resolves cols c) (rec : Bytes) :
    Meets (fun _ => False) Fault.Clean (extractGroupKey cols groupBy (some rec)) := by
  unfold extractGroupKey
  split
  · next hnil =>
    subst hnil
    exact absurd (fun c hc => by cases hc) h
  · refine mapM_unknown cols some (fun c hc => by cases hc) (fun c d hd hres => ?_) (fun c d hd hres => ?_) ?_
    · cases hd
      obtain ⟨col, hcol⟩ := getColIdx_of_resolves hres
      exact ⟨_, by rw [hcol]; rfl⟩
    · cases hd
      exact getColIdx_unknown hres
    · rw [List.filterMap_some]
      exact h

/-- The grouping comes to use a missing record. -/
def Feed.GroupAsks (groupBy : List ColItem) : Feed → Prop
  | .fails => True
  | .rows sorted cols recs => Comes sorted cols (keyCols groupBy) recs

/-- The key of a missing record fails at its first column; without columns there is a key. -/
theorem extractGroupKey_none {fine : Fault → Prop} (h : ∀ c ∈ (keyCols groupBy).head?, Meets (fun _ => False) fine (do
    let _ ← getColIdx cols c
    (.error .nullPointer : Except Fault Value))) :
    Meets (fun _ => (keyCols groupBy).head? = none) fine (extractGroupKey cols groupBy none) := by
  unfold extractGroupKey
  split
  · next hnil =>
    subst hnil
    exact rfl
  · cases hhead : (keyCols groupBy).head? with
    | none =>
      have hnil : groupBy.filterMap (·.col?) = [] := List.head?_eq_none_iff.mp hhead
      rw [hnil]
      exact rfl
    | some c =>
      refine (mapM_first (c := c) some (fun c hc => by cases hc) (fun d hd => ?_) ?_).mono (fun _ h => h.elim) fun _ h => h
      · cases hd
        exact h c hhead
      · rw [List.filterMap_some]
        exact hhead

theorem addRecord_looksUp (stl : Stl) (sorted : Bool) : LooksUp (addRecord stl cols groupBy) (fun _ => True) sorted cols (keyCols groupBy) where
  known hknown acc rec _ := by
    obtain ⟨key, hkey⟩ := extractGroupKey_known hknown rec
    exact ⟨_, by rw [addRecord, hkey]; rfl, trivial⟩
  unknown hunknown acc rec _ := (extractGroupKey_unknown hunknown rec).bind fun _ h => h.elim
  null hfirst acc _ := by
    cases sorted with
    | true => rfl
    | false =>
      refine eq_error_of_meets ((extractGroupKey_none fun c hc => ?_).bind fun _ _ => rfl)
      obtain ⟨col, hcol⟩ := getColIdx_of_resolves (hfirst.resolve_left Bool.false_ne_true c hc)
      rw [hcol]
      exact rfl
  nullUnknown hfirst acc _ := by
    cases sorted with
    | true => exact absurd (Or.inl rfl) hfirst
    | false =>
      have hfirst : ¬∀ c ∈ (keyCols groupBy).head?, Resolves cols c := fun h => hfirst (Or.inr h)
      refine (extractGroupKey_none fun c hc => getColIdx_unknown fun hres => hfirst fun d hd => ?_).bind fun _ hhead => ?_
      · rw [Option.mem_unique hd hc]
        exact hres
      · rw [hhead] at hfirst
        exact absurd (fun c hc => by cases hc) hfirst

theorem group_fails {fine : Fault → Prop} {child : Executor} {having : Option Having} {reads : List (Except Fault (Option Bytes))}
    (hhands : child.Hands reads)
    (h : Meets (fun _ => False) fine (Iter.foldReads (addRecord stl child.cols groupBy) [] reads))
    (s : (groupExecutor stl child groupBy having).State) :
    Meets (fun _ => False) fine ((groupExecutor stl child groupBy having).start s) := by
  obtain ⟨t, ht, hruns⟩ := hhands.start s.1
  obtain ⟨t', hfold⟩ := hruns.fold
  refine Iter.buffered_fails ?_
  rw [ht, ok_bind, hfold _ _ _ _ hhands.bound]
  exact (h.fails _).fails _

end Grouping

/-! ### Aggregations -/

section Aggregation
variable {stl : Stl} {child e : Executor} {selectExprs : List ColItem}

theorem aggregation_fails {fine : Fault → Prop} (h : aggregationExecutor child selectExprs = .ok e)
    (hfails : ∀ s, Meets (fun _ => False) fine (child.start s >>= aggregate child selectExprs)) (s : e.State) :
    Meets (fun _ => False) fine (e.start s) := by
  obtain ⟨cols, -, rfl⟩ := aggregationExecutor_eq h
  exact Iter.buffered_fails (hfails s.1)

theorem group_settled {groupBy : List ColItem} {having : Option Having} {feed : Feed} (hfeed : feed.Of child)
    (h : aggregationExecutor (groupExecutor stl child groupBy having) selectExprs = .ok e) : e.Settled (feed.GroupAsks groupBy) := by
  cases feed with
  | fails =>
    refine Or.inl ⟨trivial, Or.inl fun s => eq_error_of_meets (aggregation_fails h (fun s => Meets.fails ?_ _) s)⟩
    refine Iter.buffered_fails (Meets.fails ?_ _)
    rw [hfeed s.1]
    exact rfl
  | rows sorted cols recs =>
    obtain ⟨rfl, hfeed⟩ := hfeed
    by_cases hmem : none ∈ recs
    · obtain ⟨reads, hhands, hreads⟩ := hfeed.hands hmem
      by_cases hcomes : Comes sorted child.cols (keyCols groupBy) recs
      · have hfold := fun acc => (addRecord_looksUp stl sorted).comes hreads hcomes acc trivial
        refine Or.inl ⟨hcomes, Or.inl fun s => eq_error_of_meets (aggregation_fails h (fun s => Meets.fails ?_ _) s)⟩
        refine group_fails hhands ?_ s
        rw [hfold]
        exact rfl
      · have hfold := fun acc => (addRecord_looksUp stl sorted).not_comes hreads hmem hcomes acc trivial
        exact Or.inr ⟨hcomes, Or.inl (aggregation_fails h fun s => (group_fails hhands (hfold []) s).fails _)⟩
    · exact Or.inr ⟨fun hcomes => hmem hcomes.1, Or.inr (aggregation_group_steady (hfeed.steady hmem) h)⟩

/-- The argument of an aggregate. -/
def ColItem.arg? (e : ColItem) : Option TabCol :=
  match e.expr with
  | .agg a => a.arg
  | .col _ => none

/-- The columns that the aggregates look up in each record. -/
def argCols (selectExprs : List ColItem) : List TabCol := selectExprs.filterMap (·.arg?)

/-- The loop over the records that keeps the aggregates comes to use a missing one. -/
def StreamAsks (selectExprs : List ColItem) (sorted : Bool) (cols : List Catalog.ColMeta) (recs : List (Option Bytes)) : Prop :=
  (sorted = true ∨ argCols selectExprs ≠ []) ∧ Comes sorted cols (argCols selectExprs) recs

/-- The aggregation comes to use a missing record. Counting all of them it uses none. -/
def Feed.AggAsks (selectExprs : List ColItem) : Feed → Prop
  | .fails => True
  | .rows sorted cols recs =>
    match singleAgg selectExprs with
    | some ⟨.count, none⟩ => False
    | some ⟨.count, some c⟩ => Resolves cols c ∧ none ∈ recs
    | _ => StreamAsks selectExprs sorted cols recs

section Update
variable {cols : List Catalog.ColMeta} {rec : Option Bytes} {e : ColItem} {s : AggState} {c : TabCol}

theorem updateAggState_noArg (h : e.arg? = none) : ∃ s', updateAggState cols rec e s = .ok s' := by
  obtain ⟨expr, name⟩ := e
  unfold updateAggState
  cases expr with
  | col c => exact ⟨s, rfl⟩
  | agg a =>
    have ha : a.arg = none := h
    simp only [ha]
    split
    · exact ⟨_, rfl⟩
    · exact ⟨_, rfl⟩

/-- An aggregate looks up its argument first. -/
theorem updateAggState_arg (h : e.arg? = some c) : ∃ g : Catalog.ColMeta → Except Fault AggState,
    updateAggState cols rec e s = getColIdx cols c >>= g ∧ (rec = none → g = fun _ => .error .nullPointer) ∧
      (rec ≠ none → ∀ col, ∃ s', g col = .ok s') := by
  obtain ⟨expr, name⟩ := e
  unfold updateAggState
  cases expr with
  | col c => cases h
  | agg a =>
    have ha : a.arg = some c := h
    simp only [ha]
    cases rec with
    | none => exact ⟨_, rfl, fun _ => rfl, fun h => absurd rfl h⟩
    | some rec =>
      refine ⟨_, rfl, fun h => (by cases h), fun _ col => ?_⟩
      simp only
      split
      · exact ⟨_, rfl⟩
      · exact ⟨_, rfl⟩

theorem updateAggState_known {rec : Bytes} (h : e.arg? = some c) (hres : Resolves cols c) :
    ∃ s', updateAggState cols (some rec) e s = .ok s' := by
  obtain ⟨g, hg, -, hsome⟩ := updateAggState_arg h
  obtain ⟨col, hcol⟩ := getColIdx_of_resolves hres
  rw [hg, hcol, ok_bind]
  exact hsome (Option.some_ne_none rec) col

theorem updateAggState_unknown (h : e.arg? = some c) (hres : ¬Resolves cols c) :
    Meets (fun _ => False) Fault.Clean (updateAggState cols rec e s) := by
  obtain ⟨g, hg, -⟩ := updateAggState_arg h
  rw [hg]
  exact getColIdx_unknown hres

theorem updateAggState_null (h : e.arg? = some c) (hres : Resolves cols c) :
    updateAggState cols none e s = .error .nullPointer := by
  obtain ⟨g, hg, hnull, -⟩ := updateAggState_arg h
  obtain ⟨col, hcol⟩ := getColIdx_of_resolves hres
  rw [hg, hcol, ok_bind, hnull rfl]

end Update

theorem zip_args {states : List AggState} (h : states.length = selectExprs.length) :
    (selectExprs.zip states).filterMap (fun q => q.1.arg?) = argCols selectExprs := by
  have hfst : (selectExprs.zip states).map Prod.fst = selectExprs := List.map_fst_zip h.ge
  have hmap : ((selectExprs.zip states).map Prod.fst).filterMap (·.arg?) = (selectExprs.zip states).filterMap fun q => q.1.arg? :=
    List.filterMap_map
  rw [← hmap, hfst, argCols]

theorem updateAggStates_looksUp (cols : List Catalog.ColMeta) {sorted : Bool} (hargs : sorted = true ∨ argCols selectExprs ≠ []) :
    LooksUp (updateAggStates cols selectExprs) (fun p => p.1.length = selectExprs.length) sorted cols (argCols selectExprs) where
  known hknown acc rec hacc := by
    have hstates : ∃ states, ((selectExprs.zip acc.1).mapM fun q => updateAggState cols (some rec) q.1 q.2) = .ok states := by
      refine mapM_known cols (fun q => q.1.arg?) (fun q hq => updateAggState_noArg hq)
        (fun q c hq hres => updateAggState_known hq hres) ?_
      rw [zip_args hacc]
      exact hknown
    obtain ⟨states, hstates⟩ := hstates
    have hlen : states.length = selectExprs.length := by
      have := (mapM_length fun q _ => updateAggState_clean cols rec q.1 q.2).of_ok hstates
      rw [this, List.length_zip, hacc, Nat.min_self]
    exact ⟨(states, true), by rw [updateAggStates, hstates]; rfl, hlen⟩
  unknown hunknown acc rec hacc := by
    refine Meets.fails (mapM_unknown cols (fun q => q.1.arg?) (fun q hq => updateAggState_noArg hq)
      (fun q c hq hres => updateAggState_known hq hres) (fun q c hq hres => updateAggState_unknown hq hres) ?_) _
    rw [zip_args hacc]
    exact hunknown
  null hfirst acc hacc := by
    cases sorted with
    | true => rfl
    | false =>
      have hargs := hargs.resolve_left Bool.false_ne_true
      obtain ⟨c, hc⟩ := Option.ne_none_iff_exists'.mp fun h => hargs (List.head?_eq_none_iff.mp h)
      have hres := hfirst.resolve_left Bool.false_ne_true c hc
      refine eq_error_of_meets (Meets.fails (mapM_first (fun q => q.1.arg?) (c := c) (fun q hq => updateAggState_noArg hq)
        (fun q hq => ?_) ?_) _)
      · rw [updateAggState_null hq hres]
        exact rfl
      · rw [zip_args hacc]
        exact hc
  nullUnknown hfirst acc hacc := by
    cases sorted with
    | true => exact absurd (Or.inl rfl) hfirst
    | false =>
      have hargs := hargs.resolve_left Bool.false_ne_true
      obtain ⟨c, hc⟩ := Option.ne_none_iff_exists'.mp fun h => hargs (List.head?_eq_none_iff.mp h)
      have hres : ¬Resolves cols c := fun hres => hfirst (Or.inr fun d hd => Option.mem_unique hd hc ▸ hres)
      refine Meets.fails (mapM_first (fun q => q.1.arg?) (c := c) (fun q hq => updateAggState_noArg hq)
        (fun q hq => updateAggState_unknown hq hres) ?_) _
      rw [zip_args hacc]
      exact hc

section Streaming
variable {sorted : Bool} {recs : List (Option Bytes)} {reads : List (Except Fault (Option Bytes))}

theorem stream_fails {fine : Fault → Prop} (hhands : child.Hands reads)
    (h : ∀ acc : List AggState × Bool, acc.1.length = selectExprs.length →
      Meets (fun _ => False) fine (Iter.foldReads (updateAggStates child.cols selectExprs) acc reads)) (s : child.State) :
    Meets (fun _ => False) fine (child.start s >>= streamAggregation child selectExprs) := by
  obtain ⟨t, ht, hruns⟩ := hhands.start s
  obtain ⟨t', hfold⟩ := hruns.fold
  rw [ht, ok_bind, streamAggregation, hfold _ _ _ _ hhands.bound]
  exact ((h _ (List.length_map _)).fails _).fails _

theorem reads_ok (h : List.Forall₂ (Shown (missing false)) recs reads) : ∀ r ∈ reads, ∃ rec, r = .ok rec := by
  induction h with
  | nil => exact fun r hr => by cases hr
  | @cons r read recs reads hr _ ih =>
    refine List.forall_mem_cons.mpr ⟨?_, ih⟩
    cases r with
    | none => exact ⟨none, hr⟩
    | some _ => exact ⟨_, hr.choose_spec⟩

/-- Aggregates without arguments look into no record. -/
theorem stream_meets (hhands : child.Hands reads) (hreads : List.Forall₂ (Shown (missing false)) recs reads)
    (hargs : argCols selectExprs = []) (s : child.State) :
    Meets (fun p => RowsOf selectExprs child.bound p.1) Fault.Clean (child.start s >>= streamAggregation child selectExprs) := by
  obtain ⟨t, ht, hruns⟩ := hhands.start s
  obtain ⟨t', hfold⟩ := hruns.fold
  rw [ht, ok_bind]
  refine streamAggregation_of_fold ?_
  rw [hfold _ _ _ _ hhands.bound]
  have hupdate : ∀ r ∈ reads, ∀ acc : List AggState × Bool, acc.1.length = selectExprs.length →
      Meets (fun p => p.1.length = selectExprs.length) Fault.Clean (r >>= updateAggStates child.cols selectExprs acc) := by
    intro r hr acc hacc
    obtain ⟨rec, rfl⟩ := reads_ok hreads r hr
    refine updateAggStates_meets hacc fun e he s => ?_
    obtain ⟨s', hs'⟩ := updateAggState_noArg (List.filterMap_eq_nil_iff.mp hargs e he)
    rw [hs']
    trivial
  refine Meets.bind (foldReads_meets hupdate ?_) fun p hp => hp
  exact List.length_map _

theorem stream_settled (hfeed : child.Feeds sorted recs) (hstream : child.currentGroupRecords = none)
    (hagg : ∀ s, aggregate child selectExprs s = streamAggregation child selectExprs s)
    (h : aggregationExecutor child selectExprs = .ok e) : e.Settled (StreamAsks selectExprs sorted child.cols recs) := by
  have hagg := funext hagg
  by_cases hmem : none ∈ recs
  · obtain ⟨reads, hhands, hreads⟩ := hfeed.hands hmem
    by_cases hargs : sorted = true ∨ argCols selectExprs ≠ []
    · have hlooks := updateAggStates_looksUp child.cols hargs
      by_cases hcomes : Comes sorted child.cols (argCols selectExprs) recs
      · refine Or.inl ⟨⟨hargs, hcomes⟩, Or.inl fun s => eq_error_of_meets (aggregation_fails h (fun s => ?_) s)⟩
        rw [hagg]
        refine stream_fails hhands (fun acc hacc => ?_) s
        rw [hlooks.comes hreads hcomes acc hacc]
        exact rfl
      · refine Or.inr ⟨fun hasks => hcomes hasks.2, Or.inl (aggregation_fails h fun s => ?_)⟩
        rw [hagg]
        exact stream_fails hhands (hlooks.not_comes hreads hmem hcomes) s
    · obtain ⟨hsorted, hnil⟩ := not_or.mp hargs
      rw [Bool.not_eq_true] at hsorted
      subst hsorted
      refine Or.inr ⟨fun hasks => hargs hasks.1, Or.inr (aggregation_steady_of (fun s => ?_) h)⟩
      rw [hagg]
      exact stream_meets hhands hreads (not_not.mp hnil) s
  · exact Or.inr ⟨fun hasks => hmem hasks.2.1, Or.inr (aggregation_steady (hfeed.steady hmem) hstream h)⟩

theorem count_meets {agg : AggExpr} (hhands : child.Hands reads) (harg : agg.arg = none) (hone : selectExprs.length = 1)
    (s : child.State) :
    Meets (fun p => RowsOf selectExprs child.bound p.1) Fault.Clean (child.start s >>= singleCount child agg) := by
  obtain ⟨t, ht, hruns⟩ := hhands.start s
  obtain ⟨t', hcount⟩ := hruns.count hhands.bound
  rw [ht, ok_bind, singleCount, harg]
  refine Meets.bind (P := fun _ => True) ?_ fun p _ => RowsOf.one hone.symm
  rw [hcount]
  trivial

/-- Counting the values of a column looks it up and then uses each record. -/
theorem count_settled {agg : AggExpr} {c : TabCol} (hfeed : child.Feeds sorted recs) (hstream : child.currentGroupRecords = none)
    (hagg : ∀ s, aggregate child selectExprs s = singleCount child agg s) (harg : agg.arg = some c)
    (h : aggregationExecutor child selectExprs = .ok e) : e.Settled (Resolves child.cols c ∧ none ∈ recs) := by
  have hagg := funext hagg
  by_cases hmem : none ∈ recs
  · obtain ⟨reads, hhands, hreads⟩ := hfeed.hands hmem
    by_cases hres : Resolves child.cols c
    · refine Or.inl ⟨⟨hres, hmem⟩, Or.inl fun s => eq_error_of_meets (aggregation_fails h (fun s => ?_) s)⟩
      obtain ⟨t, ht, hruns⟩ := hhands.start s
      obtain ⟨t', hfold⟩ := hruns.fold
      obtain ⟨col, hcol⟩ := getColIdx_of_resolves hres
      rw [hagg, ht, ok_bind, singleCount, harg]
      simp only [hcol, ok_bind]
      rw [hfold _ _ _ _ hhands.bound]
      refine Meets.fails (Meets.fails ?_ _) _
      refine meets_of_error (foldReads_null (P := fun _ => True) hreads hmem (fun n _ => ?_) (fun _ n rec _ => ?_) trivial) rfl
      · cases sorted <;> rfl
      · exact ⟨_, rfl, trivial⟩
    · refine Or.inr ⟨fun hasks => hres hasks.1, Or.inl (aggregation_fails h fun s => ?_)⟩
      obtain ⟨t, ht, hruns⟩ := hhands.start s
      rw [hagg, ht, ok_bind, singleCount, harg]
      exact getColIdx_unknown hres
  · exact Or.inr ⟨fun hasks => hmem hasks.2, Or.inr (aggregation_steady (hfeed.steady hmem) hstream h)⟩

end Streaming

theorem computeStreamingAggregation_eq (hindex : child.indexColNames = none)
    (hcount : ∀ agg, singleAgg selectExprs = some agg → agg.aggType ≠ .count) (s : child.State) :
    computeStreamingAggregation child selectExprs s = streamAggregation child selectExprs s := by
  unfold computeStreamingAggregation
  split
  · rfl
  · next agg hagg =>
    have hmin : tryIndexMinMax child agg s = .ok (none, s) := by
      unfold tryIndexMinMax
      rw [hindex]
      cases agg.arg <;> rfl
    rw [if_neg (hcount agg hagg), hmin]
    split <;> rfl

theorem aggregation_settled {feed : Feed} (hfeed : feed.Of child) (hstream : child.currentGroupRecords = none)
    (hindex : child.indexColNames = none) (h : aggregationExecutor child selectExprs = .ok e) :
    e.Settled (feed.AggAsks selectExprs) := by
  cases feed with
  | fails =>
    refine Or.inl ⟨trivial, Or.inl fun s => eq_error_of_meets (aggregation_fails h (fun s => ?_) s)⟩
    rw [hfeed s]
    exact rfl
  | rows sorted cols recs =>
    obtain ⟨rfl, hfeed⟩ := hfeed
    have hagg : ∀ s, aggregate child selectExprs s = computeStreamingAggregation child selectExprs s := by
      intro s
      rw [aggregate, hstream]
    by_cases hcount : ∃ arg, singleAgg selectExprs = some ⟨.count, arg⟩
    · obtain ⟨arg, hsingle⟩ := hcount
      have hagg : ∀ s, aggregate child selectExprs s = singleCount child ⟨.count, arg⟩ s := by
        intro s
        rw [hagg, computeStreamingAggregation, hsingle]
        rfl
      simp only [Feed.AggAsks, hsingle]
      cases arg with
      | none =>
        refine Or.inr ⟨id, Or.inr ?_⟩
        by_cases hmem : none ∈ recs
        · obtain ⟨reads, hhands, -⟩ := hfeed.hands hmem
          refine aggregation_steady_of (fun s => ?_) h
          rw [funext hagg]
          exact count_meets hhands rfl (singleAgg_length hsingle) s
        · exact aggregation_steady (hfeed.steady hmem) hstream h
      | some c => exact count_settled hfeed hstream hagg rfl h
    · have hstreams : ∀ s, aggregate child selectExprs s = streamAggregation child selectExprs s := by
        intro s
        rw [hagg]
        refine computeStreamingAggregation_eq hindex (fun agg hsingle htype => hcount ⟨agg.arg, ?_⟩) s
        rw [hsingle, ← htype]
      have := stream_settled hfeed hstream hstreams h
      simp only [Feed.AggAsks]
      split
      · next hsingle => exact absurd ⟨none, hsingle⟩ hcount
      · next c hsingle => exact absurd ⟨some c, hsingle⟩ hcount
      · exact this

end Aggregation

end Rmdb.Sql
