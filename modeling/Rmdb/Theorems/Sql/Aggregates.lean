import Rmdb.Lib.Best
import Rmdb.Sql.Aggregates
import Rmdb.Theorems.Sql.Evaluators
import Rmdb.Theorems.Sql.NullReads

/-! What the aggregates of a group are: the loops over its records, and their results. -/

namespace Rmdb.Sql
open Outcomes
open Std (TransCmp OrientedCmp)

/-! ### The loops -/

section Loops
variable {cols : List Catalog.ColMeta} {agg : AggExpr} {records : List Bytes} {col : Catalog.ColMeta}

theorem type_cellValue (col : Catalog.ColMeta) (rec : Bytes) : (cellValue col rec).type = col.type := by
  unfold cellValue Value.fromRaw
  cases col.type <;> rfl

/-- A value is made of the bytes of its column. -/
theorem Value.fromRaw_take {type : ColType} {len : Nat} (htyped : type ≠ .string → len = 4) (data : Bytes) :
    fromRaw (data.take len) type len = fromRaw data type len := by
  unfold fromRaw
  cases type with
  | int =>
    rw [htyped (by decide)]
    simp only [readInt, readWord_take]
  | float =>
    rw [htyped (by decide)]
    simp only [readWord_take]
  | string => simp only [List.take_take, Nat.min_self]

theorem type_of_mem_cells {v : Value} (h : v ∈ records.map (cellValue col)) : v.type = col.type := by
  obtain ⟨rec, -, rfl⟩ := List.mem_map.mp h
  exact type_cellValue col rec

theorem sumLoop_eq (col : Catalog.ColMeta) (records : List Bytes) :
    sumLoop col.type (records.map (cellValue col)) = sumValues col.type (records.map (cellValue col)) := by
  have htypes : ∀ v ∈ records.map (cellValue col), v.type = col.type := fun v hv => type_of_mem_cells hv
  unfold sumLoop sumValues
  cases htype : col.type with
  | string => rfl
  | int =>
    refine congrArg Value.int (List.foldl_ext _ _ _ fun sum v hv => ?_)
    have hv := htypes v hv
    rw [htype] at hv
    cases v with
    | int n => rfl
    | float w => cases hv
    | str t => cases hv
  | float =>
    refine congrArg Value.float (List.foldl_ext _ _ _ fun sum v hv => ?_)
    have hv := htypes v hv
    rw [htype] at hv
    cases v with
    | int n => cases hv
    | float w => rfl
    | str t => cases hv

theorem countLoop_eq (vs : List Value) : countLoop vs = vs.length := by
  have h : ∀ n, vs.foldl (fun count v => if v.isNull then count else count + 1) n = n + vs.length := by
    induction vs with
    | nil => exact fun n => rfl
    | cons v vs ih =>
      intro n
      rw [List.foldl_cons, ih, List.length_cons]
      show n + 1 + vs.length = _
      omega
  exact (h 0).trans (Nat.zero_add _)

/-- Once there is a value, HAVING keeps the one that the scan of `extremum` does. -/
theorem havingStep_foldl {type : AggType} (htype : type = .min ∨ type = .max) (v : Value) (vs : List Value) :
    vs.foldl (havingStep type) (false, v) =
      (false, vs.foldl (fun best w => if (if type = .min then w.lt best else w.gt best) then w else best) v) := by
  induction vs generalizing v with
  | nil => rfl
  | cons w vs ih =>
    have hstep : havingStep type (false, v) w = (false, if (if type = .min then w.lt v else w.gt v) then w else v) := by
      rcases htype with rfl | rfl
      · cases h : w.lt v <;> simp [havingStep, Value.isNull, h]
      · cases h : w.gt v <;> simp [havingStep, Value.isNull, h]
    rw [List.foldl_cons, hstep, ih, List.foldl_cons]

theorem singleStep_foldl (type : AggType) (v : Value) (vs : List Value) : vs.foldl (singleStep type) (true, v) =
    (true, vs.foldl (fun best w => if (if type = .min then w.lt best else w.gt best) then w else best) v) := by
  induction vs generalizing v with
  | nil => rfl
  | cons w vs ih =>
    have hstep : singleStep type (true, v) w = (true, if (if type = .min then w.lt v else w.gt v) then w else v) := by
      cases h : (if type = .min then w.lt v else w.gt v) <;> simp [singleStep, Value.isNull, h]
    rw [List.foldl_cons, hstep, ih, List.foldl_cons]

theorem havingStep_extremum {type : AggType} (htype : type = .min ∨ type = .max) (vs : List Value) :
    (vs.foldl (havingStep type) (true, .int 0)).2 = (extremum type vs).getD (.int 0) := by
  cases vs with
  | nil => rfl
  | cons v vs => exact congrArg Prod.snd (havingStep_foldl htype v vs)

theorem singleStep_extremum (type : AggType) {vs : List Value} (hne : vs ≠ []) (d : Value) :
    (if (vs.foldl (singleStep type) (false, .int 0)).1 then (vs.foldl (singleStep type) (false, .int 0)).2 else d) =
      (extremum type vs).getD (.int 0) := by
  cases vs with
  | nil => exact absurd rfl hne
  | cons v vs =>
    have hfirst : (v :: vs).foldl (singleStep type) (false, .int 0) = vs.foldl (singleStep type) (true, v) := rfl
    rw [hfirst, singleStep_foldl]
    rfl

/-- `compute_agg_for_having` returns what its loops do. -/
theorem aggForHavingLoops_eq (representative : Option Bytes) :
    aggForHavingLoops cols agg records = computeAggForHaving cols agg ⟨records, representative⟩ := by
  obtain ⟨type, arg⟩ := agg
  unfold aggForHavingLoops computeAggForHaving
  cases arg with
  | none => cases type <;> rfl
  | some c =>
    cases type with
    | count => rfl
    | sum => exact congrArg (getColIdx cols c >>= ·) (funext fun col => congrArg Except.ok (sumLoop_eq col records))
    | avg => rfl
    | min => exact congrArg (getColIdx cols c >>= ·) (funext fun col => congrArg Except.ok (havingStep_extremum (Or.inl rfl) _))
    | max => exact congrArg (getColIdx cols c >>= ·) (funext fun col => congrArg Except.ok (havingStep_extremum (Or.inr rfl) _))

/-- `compute_single_aggregation` returns what its loops do. -/
theorem singleAggregationLoops_eq : singleAggregationLoops cols agg records = computeSingleAggregation cols agg records := by
  obtain ⟨type, arg⟩ := agg
  unfold singleAggregationLoops computeSingleAggregation
  cases arg with
  | none => cases type <;> rfl
  | some c =>
    by_cases hne : records = []
    · subst hne
      cases type <;> rfl
    · have hvs : ∀ col : Catalog.ColMeta, records.map (cellValue col) ≠ [] := fun col => by simpa using hne
      cases type with
      | count =>
        refine congrArg (getColIdx cols c >>= ·) (funext fun col => ?_)
        rw [countLoop_eq, List.length_map]
      | sum =>
        dsimp only
        rw [if_neg hne, if_neg hne]
        exact congrArg (getColIdx cols c >>= ·) (funext fun col => congrArg Except.ok (sumLoop_eq col records))
      | avg => rfl
      | min =>
        dsimp only
        rw [if_neg hne, if_neg hne]
        exact congrArg (getColIdx cols c >>= ·) (funext fun col => congrArg Except.ok (singleStep_extremum .min (hvs col) _))
      | max =>
        dsimp only
        rw [if_neg hne, if_neg hne]
        exact congrArg (getColIdx cols c >>= ·) (funext fun col => congrArg Except.ok (singleStep_extremum .max (hvs col) _))

/-- For every aggregate over a group with records, HAVING compares the value that the select list shows. -/
theorem having_matches_select (hne : records ≠ []) (hcol : ∀ c, agg.arg = some c → Resolves cols c) (representative : Option Bytes) :
    ∃ v, aggForHavingLoops cols agg records = .ok v ∧ singleAggregationLoops cols agg records = .ok v ∧
      evaluateHavingValue cols ⟨records, representative⟩ (.agg agg) = .ok v ∧ computeSingleAggregation cols agg records = .ok v := by
  have heq : computeAggForHaving cols agg ⟨records, representative⟩ = computeSingleAggregation cols agg records := by
    obtain ⟨type, arg⟩ := agg
    unfold computeAggForHaving computeSingleAggregation
    cases arg with
    | none => cases type <;> rfl
    | some c =>
      obtain ⟨col, hc⟩ := getColIdx_of_resolves (hcol c rfl)
      cases type <;> simp only [hc, ok_bind, if_neg hne]
  have hok : ∃ v, computeSingleAggregation cols agg records = .ok v := by
    obtain ⟨type, arg⟩ := agg
    unfold computeSingleAggregation
    cases arg with
    | none => cases type <;> exact ⟨_, rfl⟩
    | some c =>
      obtain ⟨col, hc⟩ := getColIdx_of_resolves (hcol c rfl)
      cases type <;> exact ⟨_, by simp only [hc, ok_bind, if_neg hne]; rfl⟩
  obtain ⟨v, hv⟩ := hok
  exact ⟨v, by rw [aggForHavingLoops_eq representative, heq, hv], by rw [singleAggregationLoops_eq, hv], heq.trans hv, hv⟩

theorem having_matches_select_two : ∃ v,
    aggForHavingLoops [xCol "a"] ⟨.max, some ⟨"a", "x"⟩⟩ [putInt 1, putInt 2] = .ok v ∧
    singleAggregationLoops [xCol "a"] ⟨.max, some ⟨"a", "x"⟩⟩ [putInt 1, putInt 2] = .ok v ∧
    evaluateHavingValue [xCol "a"] ⟨[putInt 1, putInt 2], some (putInt 1)⟩ (.agg ⟨.max, some ⟨"a", "x"⟩⟩) = .ok v ∧
    computeSingleAggregation [xCol "a"] ⟨.max, some ⟨"a", "x"⟩⟩ [putInt 1, putInt 2] = .ok v :=
  having_matches_select (List.cons_ne_nil _ _) (fun c hc => by cases hc; rfl) (some (putInt 1))

end Loops

/-! ### The order of values -/

namespace Value

theorem bytesLt_iff (a b : Bytes) : bytesLt a b = true ↔ compare a b = .lt := by rw [bytesLt_eq, beq_iff_eq]

theorem lt_irrefl (v : Value) : v.lt v = false := by
  cases v with
  | int n => exact decide_eq_false (Int.lt_irrefl n)
  | float w => simp [lt, floatLt]
  | str t =>
    refine Bool.eq_false_iff.mpr fun h => ?_
    rw [lt, bytesLt_iff, @Std.ReflCmp.compare_self _ compare] at h
    cases h

theorem lt_trans (u v w : Value) (huv : u.lt v = true) (hvw : v.lt w = true) : u.lt w = true := by
  cases u with
  | int a =>
    cases w with
    | int c =>
      cases v with
      | int b => exact decide_eq_true (Int.lt_trans (of_decide_eq_true huv) (of_decide_eq_true hvw))
      | float b => cases hvw
      | str b => cases hvw
    | float c => rfl
    | str c => rfl
  | float a =>
    cases w with
    | int c =>
      cases v with
      | int b => cases huv
      | float b => cases hvw
      | str b => cases hvw
    | float c =>
      cases v with
      | int b => cases huv
      | float b =>
        simp only [lt, floatLt, Bool.and_eq_true, decide_eq_true_eq] at huv hvw ⊢
        exact ⟨⟨huv.1.1, hvw.1.2⟩, huv.2.trans hvw.2⟩
      | str b => cases hvw
    | str c => rfl
  | str a =>
    cases v with
    | int b => cases huv
    | float b => cases huv
    | str b =>
      cases w with
      | int c => cases hvw
      | float c => cases hvw
      | str c =>
        rw [lt, bytesLt_iff] at huv hvw ⊢
        exact TransCmp.lt_trans huv hvw

/-- Two numbers or two strings are in order, or equal. -/
theorem lt_trichotomy {v w : Value} (htype : v.type = w.type) (hv : v.type ≠ .float) : v.lt w = true ∨ v = w ∨ w.lt v = true := by
  cases v with
  | float u => exact absurd rfl hv
  | int n =>
    cases w with
    | int m =>
      rcases Int.lt_trichotomy n m with h | rfl | h
      · exact Or.inl (decide_eq_true h)
      · exact Or.inr (Or.inl rfl)
      · exact Or.inr (Or.inr (decide_eq_true h))
    | float u => cases htype
    | str t => cases htype
  | str s =>
    cases w with
    | int m => cases htype
    | float u => cases htype
    | str t =>
      simp only [lt, bytesLt_iff]
      cases h : compare s t with
      | lt => exact Or.inl rfl
      | eq => exact Or.inr (Or.inl (congrArg _ (Std.compare_eq_iff_eq.mp h)))
      | gt => exact Or.inr (Or.inr (OrientedCmp.gt_iff_lt.mp h))

theorem eq_iff_of_type {v w : Value} (htype : v.type = w.type) (hv : v.type ≠ .float) : v.eq w = true ↔ v = w := by
  cases v <;> cases w <;> simp_all [eq, type]

/-- Without FLOAT values `>` is `<` the other way round. -/
theorem gt_eq {v w : Value} (htype : v.type = w.type) (hv : v.type ≠ .float) : v.gt w = w.lt v := by
  rw [gt, le]
  rcases lt_trichotomy htype hv with h | rfl | h
  · have hback : w.lt v = false := Bool.eq_false_iff.mpr fun h' => by
      have := lt_trans v w v h h'
      rw [lt_irrefl] at this
      cases this
    rw [h, hback]
    rfl
  · rw [lt_irrefl, (eq_iff_of_type rfl hv).mpr rfl]
    rfl
  · have hforth : v.lt w = false := Bool.eq_false_iff.mpr fun h' => by
      have := lt_trans w v w h h'
      rw [lt_irrefl] at this
      cases this
    have hne : v.eq w = false := Bool.eq_false_iff.mpr fun heq => by
      rw [(eq_iff_of_type htype hv).mp heq, lt_irrefl] at h
      cases h
    rw [hforth, hne, h]
    rfl

end Value

/-- The value comes before another one for the aggregate. -/
def aggBefore (type : AggType) (a b : Value) : Bool := if type = .min then a.lt b else b.lt a

theorem aggBefore_irrefl (type : AggType) (v : Value) : aggBefore type v v = false := by
  unfold aggBefore
  rw [Value.lt_irrefl, ite_self]

theorem aggBefore_trans (type : AggType) (u v w : Value) (huv : aggBefore type u v = true) (hvw : aggBefore type v w = true) :
    aggBefore type u w = true := by
  unfold aggBefore at *
  split at huv
  · next h =>
    rw [if_pos h] at hvw ⊢
    exact Value.lt_trans u v w huv hvw
  · next h =>
    rw [if_neg h] at hvw ⊢
    exact Value.lt_trans w v u hvw huv

theorem aggBefore_total (type : AggType) {v w : Value} (htype : v.type = w.type) (hv : v.type ≠ .float) :
    aggBefore type v w = true ∨ v = w ∨ aggBefore type w v = true := by
  unfold aggBefore
  split
  · exact Value.lt_trichotomy htype hv
  · rcases Value.lt_trichotomy htype hv with h | h | h
    · exact Or.inr (Or.inr h)
    · exact Or.inr (Or.inl h)
    · exact Or.inl h

/-- MIN and MAX of values of one type keep the best of them. -/
theorem extremum_eq_best {type : AggType} {vs : List Value} {colType : ColType} (hvs : ∀ v ∈ vs, v.type = colType)
    (hfloat : colType ≠ .float) : extremum type vs = Best.best (aggBefore type) vs := by
  have hdef : extremum type vs = Best.best (fun w best => if type = .min then w.lt best else w.gt best) vs := by
    cases vs <;> rfl
  rw [hdef]
  refine Best.best_congr fun v hv w hw => ?_
  unfold aggBefore
  split
  · rfl
  · exact Value.gt_eq ((hvs v hv).trans (hvs w hw).symm) (hvs v hv ▸ hfloat)

end Rmdb.Sql
