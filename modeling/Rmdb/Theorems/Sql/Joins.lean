import Rmdb.Lib.Restart
import Rmdb.Theorems.Sql.JoinTree
import Rmdb.Theorems.Sql.Nulls

/-! What joins return: over operators that can be started again, over other joins, and for a semi join. -/

namespace Rmdb.Sql
open Outcomes
open Iter (pairs passes)

/-! ### Conditions of a join -/

/-- The left column of the condition is on the left and the right one on the right. -/
structure Placed (leftCols rightCols : List Catalog.ColMeta) (c : Condition) : Prop where
  left : (miniCol leftCols c.lhsCol).isSome = true
  right : ∃ d, c.rhs = .col d ∧ (miniCol rightCols d).isSome = true

/-- `Fliter::do_predict` on the records of both sides. -/
def doPredict (left right : Executor) (conds : List Condition) (l r : Bytes) : Except Fault Bool :=
  allHold (doPredictCond left.cols right.cols l r) conds

section DoPredict
variable {left right : Executor} {conds : List Condition}

theorem allHold_ok {α : Type} {test : α → Except Fault Bool} {cs : List α} (h : ∀ c ∈ cs, ∃ hit, test c = .ok hit) :
    ∃ hit, allHold test cs = .ok hit := by
  induction cs with
  | nil => exact ⟨true, rfl⟩
  | cons c cs ih =>
    obtain ⟨hit, hhit⟩ := h c (List.mem_cons_self ..)
    obtain ⟨rest, hrest⟩ := ih fun d hd => h d (List.mem_cons_of_mem c hd)
    rw [allHold, hhit, ok_bind]
    cases hit with
    | true => exact ⟨rest, hrest⟩
    | false => exact ⟨false, rfl⟩

theorem doPredict_ok (hconds : ∀ c ∈ conds, Placed left.cols right.cols c) (l r : Bytes) :
    ∃ hit, doPredict left right conds l r = .ok hit := by
  refine allHold_ok fun c hc => ?_
  obtain ⟨hleft, d, hd, hright⟩ := hconds c hc
  obtain ⟨lc, hlc⟩ := Option.isSome_iff_exists.mp hleft
  obtain ⟨rc, hrc⟩ := Option.isSome_iff_exists.mp hright
  refine ⟨c.op.test (fliterCompare (l.drop lc.offset) (r.drop rc.offset) lc.type rc.type lc.len), ?_⟩
  simp only [doPredictCond, hlc, hd, hrc]

theorem findTest_ok (hconds : ∀ c ∈ conds, Placed left.cols right.cols c) (l r : Option Bytes) :
    ∃ hit, findTest left.cols right.cols conds l r = .ok hit := by
  cases l with
  | none => exact ⟨false, rfl⟩
  | some l =>
    cases r with
    | none => exact ⟨false, rfl⟩
    | some r => exact doPredict_ok hconds l r

end DoPredict

/-! ### Scans -/

/-- At every start the operator hands out these tuples, which have the length that it announces. -/
structure Executor.Repeats (e : Executor) (tuples : List (Option Bytes)) : Prop where
  restarts : e.toIter.Restarts tuples
  bound : tuples.length ≤ e.bound
  sized : ∀ rec, some rec ∈ tuples → rec.length = e.tupleLen

section Scans
variable (db : Db) (t : Table) (conds : List Condition) (proj : List TabCol)

/-- What a sequential scan hands out at a record, if it stops there. -/
def seqTuple (s : Slot) : Option (Option Bytes) :=
  if conds = [] then some ((db.getRecordMvcc s).map (scanOut t.tab.cols proj).project)
  else
    match db.getRecordMvcc s with
    | none => none
    | some rec => if evalConds t.tab.cols conds rec matches .ok true then some (some ((scanOut t.tab.cols proj).project rec)) else none

/-- What an index scan hands out at an entry, if it stops there. -/
def indexTuple (fed : List Condition) (entry : Option Rid) : Option (Option Bytes) :=
  match indexRecord db t entry with
  | none => none
  | some rec => if cmpConds t.tab.cols fed rec matches .ok true then some (some ((scanOut t.tab.cols proj).project rec)) else none

variable {db t conds proj}

/-- The conditions raise no exception on the visible records. -/
def SeqClean (db : Db) (t : Table) (conds : List Condition) : Prop :=
  ∀ s ∈ t.slots, ∀ rec, db.getRecordMvcc s = some rec → ∃ hit, evalConds t.tab.cols conds rec = .ok hit

def IndexClean (db : Db) (t : Table) (fed : List Condition) (entries : List (Option Rid)) : Prop :=
  ∀ entry ∈ entries, ∀ rec, indexRecord db t entry = some rec → ∃ hit, cmpConds t.tab.cols fed rec = .ok hit

theorem seqScan_runs (slots : List Slot)
    (hclean : ∀ s ∈ slots, ∀ rec, db.getRecordMvcc s = some rec → ∃ hit, evalConds t.tab.cols conds rec = .ok hit) :
    ∃ rest, seqSeek db t.tab.cols conds slots = .ok rest ∧
      (seqScan db t conds proj).toIter.Runs (some rest) ((slots.filterMap (seqTuple db t conds proj)).map .ok) := by
  induction slots with
  | nil => exact ⟨[], rfl, rfl⟩
  | cons s ss ih =>
    obtain ⟨rest, hrest, hruns⟩ := ih fun u hu => hclean u (List.mem_cons_of_mem s hu)
    have hstep : (seqScan db t conds proj).step (some (s :: ss)) = .ok (some rest) := congrArg (some <$> ·) hrest
    rw [seqSeek]
    by_cases hnil : conds = []
    · rw [if_pos hnil]
      refine ⟨s :: ss, rfl, ?_⟩
      have htuple : seqTuple db t conds proj s = some ((db.getRecordMvcc s).map (scanOut t.tab.cols proj).project) := if_pos hnil
      rw [List.filterMap_cons_some htuple]
      exact ⟨rfl, rfl, _, hstep, hruns⟩
    · rw [if_neg hnil]
      cases hrec : db.getRecordMvcc s with
      | none =>
        rw [List.filterMap_cons_none (by simp [seqTuple, hnil, hrec])]
        exact ⟨rest, hrest, hruns⟩
      | some rec =>
        obtain ⟨hit, hhit⟩ := hclean s (List.mem_cons_self ..) rec hrec
        simp only [hhit, ok_bind]
        cases hit with
        | false =>
          rw [List.filterMap_cons_none (by simp [seqTuple, hnil, hrec, hhit])]
          exact ⟨rest, hrest, hruns⟩
        | true =>
          refine ⟨s :: ss, rfl, ?_⟩
          have htuple : seqTuple db t conds proj s = some ((db.getRecordMvcc s).map (scanOut t.tab.cols proj).project) := by
            simp [seqTuple, hnil, hrec, hhit]
          rw [List.filterMap_cons_some htuple]
          exact ⟨rfl, rfl, _, hstep, hruns⟩

theorem seqScan_start (hclean : SeqClean db t conds) (s : (seqScan db t conds proj).State) :
    ∃ rest, (seqScan db t conds proj).start s = .ok (some rest) ∧
      (seqScan db t conds proj).toIter.Runs (some rest) ((t.slots.filterMap (seqTuple db t conds proj)).map .ok) := by
  obtain ⟨rest, hrest, hruns⟩ := seqScan_runs t.slots hclean
  exact ⟨rest, congrArg (some <$> ·) hrest, hruns⟩

theorem seqScan_repeats (hclean : SeqClean db t conds) :
    (seqScan db t conds proj).Repeats (t.slots.filterMap (seqTuple db t conds proj)) where
  restarts s _ := by
    obtain ⟨rest, hrest, hruns⟩ := seqScan_start hclean s
    exact ⟨some rest, hrest, hruns⟩
  bound := List.length_filterMap_le _ _
  sized rec hrec := by
    obtain ⟨s, hs, htuple⟩ := List.mem_filterMap.mp hrec
    have hproj : ∃ bytes, db.getRecordMvcc s = some bytes ∧ rec = (scanOut t.tab.cols proj).project bytes := by
      unfold seqTuple at htuple
      split at htuple
      · obtain ⟨bytes, hbytes, heq⟩ := Option.map_eq_some_iff.mp (Option.some.inj htuple)
        exact ⟨bytes, hbytes, heq.symm⟩
      · split at htuple
        · cases htuple
        · next bytes hbytes =>
          split at htuple
          · cases htuple
            exact ⟨bytes, hbytes, rfl⟩
          · cases htuple
    obtain ⟨bytes, hbytes, rfl⟩ := hproj
    rw [getRecordMvcc_opt hbytes]
    exact scanOut_length t.laid proj (t.sized s hs)

theorem indexScan_runs {indexCols : List String} (entries : List (Option Rid))
    (hclean : IndexClean db t (fedConds conds indexCols) entries) :
    ∃ q, indexSeek db t (fedConds conds indexCols) entries = .ok q ∧ (indexScan db t conds indexCols proj).toIter.Runs q
      ((entries.filterMap (indexTuple db t proj (fedConds conds indexCols))).map .ok) := by
  induction entries with
  | nil => exact ⟨([], none), rfl, rfl⟩
  | cons entry entries ih =>
    obtain ⟨q, hq, hruns⟩ := ih fun e he => hclean e (List.mem_cons_of_mem entry he)
    rw [indexSeek]
    cases hrec : indexRecord db t entry with
    | none =>
      rw [List.filterMap_cons_none (by simp [indexTuple, hrec])]
      exact ⟨q, hq, hruns⟩
    | some rec =>
      obtain ⟨hit, hhit⟩ := hclean entry (List.mem_cons_self ..) rec hrec
      simp only [hhit, ok_bind]
      cases hit with
      | false =>
        rw [List.filterMap_cons_none (by simp [indexTuple, hrec, hhit])]
        exact ⟨q, hq, hruns⟩
      | true =>
        refine ⟨(entry :: entries, some rec), rfl, ?_⟩
        have htuple : indexTuple db t proj (fedConds conds indexCols) entry = some (some ((scanOut t.tab.cols proj).project rec)) := by
          simp [indexTuple, hrec, hhit]
        rw [List.filterMap_cons_some htuple]
        exact ⟨rfl, rfl, q, hq, hruns⟩

theorem indexScan_start {indexCols : List String} {range : List Condition → List (Option Rid)}
    (hrange : t.range indexCols = some range) (hclean : IndexClean db t (fedConds conds indexCols) (range conds))
    (s : (indexScan db t conds indexCols proj).State) : ∃ q, (indexScan db t conds indexCols proj).start s = .ok q ∧
      (indexScan db t conds indexCols proj).toIter.Runs q
        (((range conds).filterMap (indexTuple db t proj (fedConds conds indexCols))).map .ok) := by
  obtain ⟨q, hq, hruns⟩ := indexScan_runs (range conds) hclean
  exact ⟨q, by simp only [indexScan, hrange, hq], hruns⟩

theorem indexScan_repeats {indexCols : List String} {range : List Condition → List (Option Rid)}
    (hrange : t.range indexCols = some range) (hclean : IndexClean db t (fedConds conds indexCols) (range conds)) :
    (indexScan db t conds indexCols proj).Repeats
      ((range conds).filterMap (indexTuple db t proj (fedConds conds indexCols))) where
  restarts s _ := indexScan_start hrange hclean s
  bound := by
    simp only [indexScan, hrange, Option.map_some, Option.getD_some]
    exact List.length_filterMap_le _ _
  sized rec hrec := by
    obtain ⟨entry, hentry, htuple⟩ := List.mem_filterMap.mp hrec
    unfold indexTuple at htuple
    split at htuple
    · cases htuple
    · next bytes hbytes =>
      split at htuple
      · cases htuple
        obtain ⟨rid, hrid, hbytes⟩ := Option.bind_eq_some_iff.mp hbytes
        obtain ⟨slot, hslot, hbytes⟩ := Option.bind_eq_some_iff.mp hbytes
        rw [getRecordMvcc_opt hbytes]
        exact scanOut_length t.laid proj (t.sized slot (List.mem_of_find?_eq_some hslot))
      · cases htuple

end Scans

/-! ### A join over operators that can be started again -/

/-- The tuples that are there. -/
def present (tuples : List (Option Bytes)) : List Bytes := tuples.filterMap id

/-- The concatenations of the pairs of tuples that meet the conditions. -/
def joinRows (left right : Executor) (conds : List Condition) (ls rs : List Bytes) : List Bytes :=
  ((pairs ls rs).filter (passes (doPredict left right conds))).map fun p => p.1 ++ p.2

section Join
variable {left right : Executor} {conds : List Condition} {ls rs : List (Option Bytes)}

/-- A missing record is in no pair that `find_record` stops at. -/
theorem passes_findTest (l r : Option Bytes) : passes (findTest left.cols right.cols conds) (l, r) = true ↔
    ∃ a b, l = some a ∧ r = some b ∧ passes (doPredict left right conds) (a, b) = true := by
  cases l <;> cases r <;> simp [passes, findTest, doPredict]

theorem joinRecords_one (hl : ∀ rec, some rec ∈ ls → rec.length = left.tupleLen) {b : Bytes} (hb : b.length = right.tupleLen) :
    ((ls.map fun a => (a, some b)).filter (passes (findTest left.cols right.cols conds))).map
      (fun p => joinRecord left.tupleLen right.tupleLen p.1 p.2) =
    (((present ls).map fun a => (a, b)).filter (passes (doPredict left right conds))).map fun p => some (p.1 ++ p.2) := by
  induction ls with
  | nil => rfl
  | cons l ls ih =>
    have ih := ih fun rec hrec => hl rec (List.mem_cons_of_mem l hrec)
    rw [List.map_cons]
    cases l with
    | none =>
      rw [List.filter_cons_of_neg fun h => (by obtain ⟨a, b, ha, -⟩ := (passes_findTest _ _).mp h; cases ha)]
      exact ih
    | some a =>
      have hrec : joinRecord left.tupleLen right.tupleLen (some a) (some b) = some (a ++ b) := by
        rw [joinRecord, ← hl a (List.mem_cons_self ..), ← hb, List.take_length, List.take_length]
      have hpresent : present (some a :: ls) = a :: present ls := rfl
      rw [hpresent, List.map_cons]
      by_cases hpass : passes (doPredict left right conds) (a, b) = true
      · rw [List.filter_cons_of_pos hpass, List.filter_cons_of_pos ((passes_findTest _ _).mpr ⟨a, b, rfl, rfl, hpass⟩),
          List.map_cons, List.map_cons, ih, hrec]
      · rw [List.filter_cons_of_neg hpass, List.filter_cons_of_neg fun h => ?_, ih]
        obtain ⟨_, _, ha, hb, h⟩ := (passes_findTest _ _).mp h
        cases ha
        cases hb
        exact hpass h

/-- The pairs that `find_record` stops at, with their records. -/
theorem joinRecords_eq (hl : ∀ rec, some rec ∈ ls → rec.length = left.tupleLen)
    (hr : ∀ rec, some rec ∈ rs → rec.length = right.tupleLen) :
    ((pairs ls rs).filter (passes (findTest left.cols right.cols conds))).map
      (fun p => joinRecord left.tupleLen right.tupleLen p.1 p.2) = (joinRows left right conds (present ls) (present rs)).map some := by
  rw [joinRows, List.map_map]
  induction rs with
  | nil => rfl
  | cons r rs ih =>
    have ih := ih fun rec hrec => hr rec (List.mem_cons_of_mem r hrec)
    have hcons : pairs ls (r :: rs) = (ls.map fun a => (a, r)) ++ pairs ls rs := rfl
    rw [hcons, List.filter_append, List.map_append, ih]
    cases r with
    | none =>
      have hnone : (ls.map fun a => (a, (none : Option Bytes))).filter (passes (findTest left.cols right.cols conds)) = [] := by
        refine List.filter_eq_nil_iff.mpr fun p hp h => ?_
        obtain ⟨a, -, rfl⟩ := List.mem_map.mp hp
        obtain ⟨_, _, -, hb, -⟩ := (passes_findTest _ _).mp h
        cases hb
      rw [hnone]
      rfl
    | some b =>
      have hcons : pairs (present ls) (present (some b :: rs)) =
          ((present ls).map fun a => (a, b)) ++ pairs (present ls) (present rs) := rfl
      rw [hcons, List.filter_append, List.map_append, joinRecords_one hl (hr b (List.mem_cons_self ..))]
      rfl

theorem remaining_le (hl : ls.length ≤ left.bound) (hr : rs.length ≤ right.bound) :
    Iter.remaining ls ls rs < Iter.nestedBound left.bound right.bound + 1 := by
  have : rs.length * (ls.length + 1) ≤ right.bound * (left.bound + 1) := Nat.mul_le_mul hr (Nat.succ_le_succ hl)
  unfold Iter.remaining Iter.nestedBound
  omega

/-- A join that is not at its end is started; its right side is started once. -/
theorem nestedLoopJoin_start_once (hl : left.Repeats ls) {s : left.State} {t t' : right.State} (ht' : right.start t = .ok t')
    (hreached : right.toIter.Reached t') (hruns : right.toIter.Runs t' (rs.map .ok)) (hbound : rs.length ≤ right.bound)
    (hsized : ∀ rec, some rec ∈ rs → rec.length = right.tupleLen) (hconds : ∀ c ∈ conds, Placed left.cols right.cols c)
    (hs : left.toIter.Startable s) : ∃ q, (nestedLoopJoin left right conds).start (s, t, false) = .ok q ∧
      (nestedLoopJoin left right conds).toIter.Runs q ((joinRows left right conds (present ls) (present rs)).map fun rec => .ok (some rec)) := by
  have h := Iter.nested_start_once .diverged (Iter.nestedBound left.bound right.bound + 1)
    (joinRecord left.tupleLen right.tupleLen) none hl.restarts ht' hreached hruns
    (fun a _ b _ => findTest_ok hconds a b) (remaining_le hl.bound hbound) hs
  obtain ⟨q, hq, hruns⟩ := h
  refine ⟨q, hq, ?_⟩
  have hrows : ((pairs ls rs).filter (passes (findTest left.cols right.cols conds))).map
      (fun p => joinRecord left.tupleLen right.tupleLen p.1 p.2) = (joinRows left right conds (present ls) (present rs)).map some :=
    joinRecords_eq hl.sized hsized
  have heq := congrArg (List.map (@Except.ok Fault (Option Bytes))) hrows
  rw [List.map_map, List.map_map] at heq
  exact heq ▸ hruns

theorem nestedLoopJoin_start (hl : left.Repeats ls) (hr : right.Repeats rs)
    (hconds : ∀ c ∈ conds, Placed left.cols right.cols c) {s : left.State} {t : right.State} (hs : left.toIter.Startable s)
    (ht : right.toIter.Startable t) : ∃ q, (nestedLoopJoin left right conds).start (s, t, false) = .ok q ∧
      (nestedLoopJoin left right conds).toIter.Runs q ((joinRows left right conds (present ls) (present rs)).map fun rec => .ok (some rec)) := by
  obtain ⟨t', ht', hruns⟩ := hr.restarts t ht
  exact nestedLoopJoin_start_once hl ht' (ht.start ht') hruns hr.bound hr.sized hconds hs

/-- The join comes to an end and hands out the pairs of tuples that meet all conditions, each once. -/
theorem nestedLoopJoin_runs (hl : left.Repeats ls) (hr : right.Repeats rs)
    (hconds : ∀ c ∈ conds, Placed left.cols right.cols c) : ∃ q,
      (nestedLoopJoin left right conds).start (nestedLoopJoin left right conds).init = .ok q ∧
      (nestedLoopJoin left right conds).toIter.Runs q ((joinRows left right conds (present ls) (present rs)).map fun rec => .ok (some rec)) :=
  nestedLoopJoin_start hl hr hconds (Or.inl rfl) (Or.inl rfl)

end Join

/-! ### Trees of joins -/

/-- An operator below a join, a scan or a join of others, with the rows that it should return; `joined` for a join. Conditions
    raise no exceptions and have their columns where they belong. -/
inductive Tree (db : Db) : Bool → Executor → List Bytes → Prop where
  | ofSeqScan {t : Table} {conds : List Condition} {proj : List TabCol} (hclean : SeqClean db t conds) :
      Tree db false (seqScan db t conds proj) (present (t.slots.filterMap (seqTuple db t conds proj)))
  | ofIndexScan {t : Table} {conds : List Condition} {indexCols : List String} {proj : List TabCol}
      {range : List Condition → List (Option Rid)} (hrange : t.range indexCols = some range)
      (hclean : IndexClean db t (fedConds conds indexCols) (range conds)) :
      Tree db false (indexScan db t conds indexCols proj)
        (present ((range conds).filterMap (indexTuple db t proj (fedConds conds indexCols))))
  | join {joinedL joinedR : Bool} {left right : Executor} {ls rs : List Bytes} {conds : List Condition}
      (hl : Tree db joinedL left ls) (hr : Tree db joinedR right rs) (hconds : ∀ c ∈ conds, Placed left.cols right.cols c) :
      Tree db true (nestedLoopJoin left right conds) (joinRows left right conds ls rs)

/-- At every start the operator hands out the same tuples, and these are the rows that it should return, each once. -/
def Executor.Restartable (e : Executor) (rows : List Bytes) : Prop :=
  ∃ tuples, e.toIter.Restarts tuples ∧ (present tuples).Perm rows

section Trees
variable {db : Db} {joined : Bool} {e left right : Executor} {rows ls rs : List Bytes} {conds : List Condition}

/-- A record that is there is one of the rows. -/
def Among (rows : List Bytes) (r : Option Bytes) : Prop := ∀ rec, r = some rec → rec ∈ rows

theorem mem_present {tuples : List (Option Bytes)} {rec : Bytes} : rec ∈ present tuples ↔ some rec ∈ tuples := by
  simp [present]

/-- A pair that meets the conditions makes a row of the join. -/
theorem joinRecord_mem (hl : ∀ rec ∈ ls, rec.length = left.tupleLen) (hr : ∀ rec ∈ rs, rec.length = right.tupleLen)
    {a b : Option Bytes} (ha : Among ls a) (hb : Among rs b) (htest : findTest left.cols right.cols conds a b = .ok true) :
    ∃ rec ∈ joinRows left right conds ls rs, joinRecord left.tupleLen right.tupleLen a b = some rec := by
  have hpass : passes (findTest left.cols right.cols conds) (a, b) = true := by rw [passes, htest]
  obtain ⟨x, y, rfl, rfl, hpass⟩ := (passes_findTest a b).mp hpass
  have hx := ha x rfl
  have hy := hb y rfl
  refine ⟨x ++ y, List.mem_map.mpr ⟨(x, y), List.mem_filter.mpr ⟨?_, hpass⟩, rfl⟩, ?_⟩
  · exact List.mem_flatMap.mpr ⟨y, hy, List.mem_map.mpr ⟨x, hx, rfl⟩⟩
  · rw [joinRecord, ← hl x hx, ← hr y hy, List.take_length, List.take_length]

/-- From every start on the operators of a tree fail nowhere and hand out rows that they should return; joins hand out no null
    pointer. -/
theorem Tree.spec (h : Tree db joined e rows) : (∀ rec ∈ rows, rec.length = e.tupleLen) ∧
    Nonempty (e.toIter.Spec (fun r => Among rows r ∧ (joined = true → ∃ rec ∈ rows, r = some rec)) (fun _ => False) e.bound) := by
  induction h with
  | @ofSeqScan t conds proj hclean =>
    have hrep : (seqScan db t conds proj).Repeats (t.slots.filterMap (seqTuple db t conds proj)) := seqScan_repeats hclean
    refine ⟨fun rec hrec => hrep.sized rec (mem_present.mp hrec), ?_⟩
    refine Iter.Spec.of_runs (I := fun s : Option (List Slot) => s.isSome = true) (fun s => ?_) (fun s u hs hu => ?_) (fun s hs hend => ?_)
      (fun r hr => ⟨fun rec heq => mem_present.mpr (heq ▸ hr), fun h => (by cases h)⟩) hrep.bound
    · obtain ⟨rest, hrest, hruns⟩ := seqScan_start hclean s
      exact ⟨some rest, hrest, rfl, hruns⟩
    · obtain ⟨rest, rfl⟩ := Option.isSome_iff_exists.mp hs
      change some <$> seqSeek db t.tab.cols conds rest.tail = .ok u at hu
      cases hseek : seqSeek db t.tab.cols conds rest.tail with
      | error e => rw [hseek] at hu; cases hu
      | ok rest' => rw [hseek] at hu; cases hu; rfl
    · obtain ⟨rest, rfl⟩ := Option.isSome_iff_exists.mp hs
      have hnil : rest = [] := List.isEmpty_iff.mp hend
      subst hnil
      exact ⟨some [], rfl, rfl⟩
  | @ofIndexScan t conds indexCols proj range hrange hclean =>
    have hrep : (indexScan db t conds indexCols proj).Repeats
        ((range conds).filterMap (indexTuple db t proj (fedConds conds indexCols))) := indexScan_repeats hrange hclean
    refine ⟨fun rec hrec => hrep.sized rec (mem_present.mp hrec), ?_⟩
    refine Iter.Spec.of_runs (I := fun _ => True) (fun s => ?_) (fun _ _ _ _ => trivial) (fun s _ hend => ?_)
      (fun r hr => ⟨fun rec heq => mem_present.mpr (heq ▸ hr), fun h => (by cases h)⟩) hrep.bound
    · obtain ⟨q, hq, hruns⟩ := indexScan_start hrange hclean s
      exact ⟨q, hq, trivial, hruns⟩
    · exact ⟨s, if_pos hend, hend⟩
  | @join joinedL joinedR left right ls rs conds hl hr hconds ihl ihr =>
    obtain ⟨hlenL, ⟨specL⟩⟩ := ihl
    obtain ⟨hlenR, ⟨specR⟩⟩ := ihr
    refine ⟨fun rec hrec => ?_, ⟨?_⟩⟩
    · obtain ⟨p, hp, rfl⟩ := List.mem_map.mp hrec
      obtain ⟨b, hb, hp⟩ := List.mem_flatMap.mp (List.mem_filter.mp hp).1
      obtain ⟨a, ha, rfl⟩ := List.mem_map.mp hp
      rw [List.length_append, hlenL a ha, hlenR b hb]
      rfl
    · refine Iter.Spec.nested specL specR (fun a b _ _ => ?_) fun a b ha hb htest => ?_
      · obtain ⟨hit, hhit⟩ := findTest_ok hconds a b
        rw [hhit]
        trivial
      · obtain ⟨rec, hrec, heq⟩ := joinRecord_mem hlenL hlenR ha.1 hb.1 htest
        rw [heq]
        exact ⟨fun rec' h' => Option.some.inj h' ▸ hrec, fun _ => ⟨rec, hrec, rfl⟩⟩

theorem Tree.scan_restartable (h : Tree db false e rows) : e.Restartable rows := by
  cases h with
  | ofSeqScan hclean => exact ⟨_, (seqScan_repeats hclean).restarts, List.Perm.refl _⟩
  | ofIndexScan hrange hclean => exact ⟨_, (indexScan_repeats hrange hclean).restarts, List.Perm.refl _⟩

/-- A join that has handed out a row hands out none after the next start: its end flag is never taken back. -/
theorem Tree.join_rows (h : Tree db true e rows) (hrestart : e.Restartable rows) : rows = [] := by
  cases h with
  | join hl hr hconds =>
    obtain ⟨tuples, hrestart, hperm⟩ := hrestart
    obtain ⟨t, ht, hruns⟩ := hrestart _ (Or.inl rfl)
    obtain ⟨u, hu, hend⟩ := hruns.reached_end (.first ht)
    obtain ⟨q, hq, hruns'⟩ := hrestart u (Or.inr hu)
    have hnone := hruns'.unique (Iter.nested_start_ended hend hq)
    rw [List.map_eq_nil_iff] at hnone
    rw [hnone] at hperm
    exact hperm.nil_eq.symm

/-- A join that has no row to hand out hands out none. -/
theorem Tree.join_restartable (h : Tree db true e rows) (hrows : rows = []) : e.Restartable rows := by
  obtain ⟨-, ⟨spec⟩⟩ := h.spec
  refine ⟨[], fun s _ => ?_, by rw [hrows]; exact List.Perm.refl _⟩
  obtain ⟨t, items, ht, hruns, hall, -⟩ := spec.start_runs s
  cases items with
  | nil => exact ⟨t, ht, hruns⟩
  | cons r items =>
    obtain ⟨rec, hrec, -⟩ := (hall r (List.mem_cons_self ..)).2 rfl
    rw [hrows] at hrec
    cases hrec

/-- An operator below a join can be started again exactly if it is a scan, or a join of no rows. -/
theorem Tree.restartable_iff (h : Tree db joined e rows) : e.Restartable rows ↔ joined = false ∨ rows = [] := by
  cases joined with
  | false => exact iff_of_true h.scan_restartable (Or.inl rfl)
  | true => exact ⟨fun hrestart => Or.inr (h.join_rows hrestart), fun hrows => h.join_restartable (hrows.resolve_left fun h => (by cases h))⟩

end Trees

/-! ### Scans of numbers -/

section Numbers
variable (db : Db) (name : String) (hname : name ≠ "") (rows : List Int)

/-- The scan of all rows. -/
def numbersScan : Executor := seqScan db (numbers name hname rows) [] []

theorem numbersScan_repeats :
    (numbersScan db name hname rows).Repeats ((numbers name hname rows).slots.filterMap (seqTuple db (numbers name hname rows) [] [])) :=
  seqScan_repeats fun _ _ _ _ => ⟨true, rfl⟩

end Numbers

theorem numbersScan_tree (db : Db) (name : String) (hname : name ≠ "") (rows : List Int) :
    Tree db false (numbersScan db name hname rows)
      (present ((numbers name hname rows).slots.filterMap (seqTuple db (numbers name hname rows) [] []))) :=
  .ofSeqScan fun _ _ _ _ => ⟨true, rfl⟩

/-- `a.x = b.x` has its columns where they belong. -/
theorem placed_onX (db : Db) (as bs : List Int) : ∀ c ∈ [onX "a" .eq "b"],
    Placed (numbersScan db "a" a_ne as).cols (numbersScan db "b" b_ne bs).cols c := by
  intro c hc
  rw [List.mem_singleton.mp hc]
  exact ⟨rfl, ⟨"b", "x"⟩, rfl, rfl⟩

theorem nestedLoopJoin_runs_twos : ∃ q,
    (nestedLoopJoin (numbersScan (threeTables [1, 2] [2, 2, 3] []) "a" a_ne [1, 2])
      (numbersScan (threeTables [1, 2] [2, 2, 3] []) "b" b_ne [2, 2, 3]) [onX "a" .eq "b"]).start
      (nestedLoopJoin (numbersScan (threeTables [1, 2] [2, 2, 3] []) "a" a_ne [1, 2])
        (numbersScan (threeTables [1, 2] [2, 2, 3] []) "b" b_ne [2, 2, 3]) [onX "a" .eq "b"]).init = .ok q ∧
    (nestedLoopJoin (numbersScan (threeTables [1, 2] [2, 2, 3] []) "a" a_ne [1, 2])
      (numbersScan (threeTables [1, 2] [2, 2, 3] []) "b" b_ne [2, 2, 3]) [onX "a" .eq "b"]).toIter.Runs q
      ((joinRows (numbersScan (threeTables [1, 2] [2, 2, 3] []) "a" a_ne [1, 2])
        (numbersScan (threeTables [1, 2] [2, 2, 3] []) "b" b_ne [2, 2, 3]) [onX "a" .eq "b"]
        [[1, 0, 0, 0], [2, 0, 0, 0]] [[2, 0, 0, 0], [2, 0, 0, 0], [3, 0, 0, 0]]).map
          fun rec => .ok (some rec)) :=
  nestedLoopJoin_runs (numbersScan_repeats _ _ _ _) (numbersScan_repeats _ _ _ _) (placed_onX _ _ _)

/-- The join of `a` and `b` on `x`. -/
def joinOnX (as bs : List Int) : Executor :=
  nestedLoopJoin (numbersScan (threeTables as bs []) "a" a_ne as) (numbersScan (threeTables as bs []) "b" b_ne bs) [onX "a" .eq "b"]

/-- Its rows. -/
def rowsOnX (as bs : List Int) : List Bytes :=
  joinRows (numbersScan (threeTables as bs []) "a" a_ne as) (numbersScan (threeTables as bs []) "b" b_ne bs) [onX "a" .eq "b"]
    (present ((numbers "a" a_ne as).slots.filterMap (seqTuple (threeTables as bs []) (numbers "a" a_ne as) [] [])))
    (present ((numbers "b" b_ne bs).slots.filterMap (seqTuple (threeTables as bs []) (numbers "b" b_ne bs) [] [])))

theorem joinOnX_tree (as bs : List Int) : Tree (threeTables as bs []) true (joinOnX as bs) (rowsOnX as bs) :=
  .join (numbersScan_tree _ _ _ _) (numbersScan_tree _ _ _ _) (placed_onX _ _ _)

theorem restartable_iff_ones : (joinOnX [1] [1]).Restartable (rowsOnX [1] [1]) ↔ true = false ∨ rowsOnX [1] [1] = [] :=
  (joinOnX_tree [1] [1]).restartable_iff

/-- The join of two rows with the same number is not started again after its end. -/
theorem not_restartable_ones : Tree (threeTables [1] [1] []) true (joinOnX [1] [1]) (rowsOnX [1] [1]) ∧
    rowsOnX [1] [1] = [[1, 0, 0, 0, 1, 0, 0, 0]] ∧ ¬(joinOnX [1] [1]).Restartable (rowsOnX [1] [1]) := by
  have hrows : rowsOnX [1] [1] = [[1, 0, 0, 0, 1, 0, 0, 0]] := by decide
  refine ⟨joinOnX_tree [1] [1], hrows, fun h => ?_⟩
  have hnil := (joinOnX_tree [1] [1]).join_rows h
  rw [hrows] at hnil
  cases hnil

end Rmdb.Sql
