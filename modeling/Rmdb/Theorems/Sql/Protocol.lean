import Rmdb.Theorems.Sql.Shape

/-! The protocol of the operators: before its end an operator returns a tuple of its length from `Next`.

A scan without conditions does not look at a record before it stops at it, so `Next` may find it invisible. A join skips such
pairs; every other operator hands the null pointer on or uses it. -/

namespace Rmdb.Sql
open Outcomes

/-- The fault neither comes from a null pointer nor from a loop without end. -/
def Fault.Clean (f : Fault) : Prop := f ≠ .nullPointer ∧ f ≠ .diverged

/-- A record of a length. -/
def Tuple (n : Nat) (r : Option Bytes) : Prop := ∃ rec, r = some rec ∧ rec.length = n

/-- A null pointer, or a record of a length. -/
def OptTuple (n : Nat) (r : Option Bytes) : Prop := ∀ rec, r = some rec → rec.length = n

theorem Tuple.opt {n : Nat} {r : Option Bytes} (h : Tuple n r) : OptTuple n r := by
  obtain ⟨rec, rfl, hlen⟩ := h
  intro rec' h
  cases h
  exact hlen

/-- From its first start on the operator reads `good` records, its loops end, and no null pointer is used. -/
structure Executor.Sound (e : Executor) (good : Nat → Option Bytes → Prop) : Prop where
  spec : Nonempty (e.toIter.Spec (good e.tupleLen) Fault.Clean e.bound)
  within : ∀ c ∈ e.cols, c.offset + c.len ≤ e.tupleLen

/-- The operator keeps the protocol. -/
abbrev Executor.Steady (e : Executor) : Prop := e.Sound Tuple

/-- The operator keeps the protocol, except that it may return a null pointer. -/
abbrev Executor.Loose (e : Executor) : Prop := e.Sound OptTuple

theorem Executor.Steady.loose {e : Executor} (h : e.Steady) : e.Loose := by
  obtain ⟨⟨spec⟩, within⟩ := h
  refine ⟨⟨{ spec with read := fun s hs hend => ?_ }⟩, within⟩
  obtain ⟨r, hr, hgood⟩ := spec.read s hs hend
  exact ⟨r, hr, hgood.opt⟩

/-! ### Conditions -/

theorem getCol_clean (cols : List Catalog.ColMeta) (c : TabCol) : Meets (fun _ => True) Fault.Clean (getCol cols c) := by
  unfold getCol
  split
  · trivial
  · exact ⟨Fault.noConfusion, Fault.noConfusion⟩

theorem getColIdx_clean (cols : List Catalog.ColMeta) (c : TabCol) : Meets (fun _ => True) Fault.Clean (getColIdx cols c) := by
  unfold getColIdx
  split
  · trivial
  · exact ⟨Fault.noConfusion, Fault.noConfusion⟩

theorem evalCond_clean (cols : List Catalog.ColMeta) (cond : Condition) (rec : Bytes) :
    Meets (fun _ => True) Fault.Clean (evalCond cols cond rec) := by
  unfold evalCond
  refine (getCol_clean cols cond.lhsCol).bind fun lhs _ => ?_
  split
  · exact Meets.ite (fun _ => trivial) fun _ => Meets.ite (fun _ => ⟨Fault.noConfusion, Fault.noConfusion⟩) fun _ => trivial
  · refine (getCol_clean cols _).bind fun rhs _ => ?_
    exact Meets.ite (fun _ => trivial) fun _ => Meets.ite (fun _ => ⟨Fault.noConfusion, Fault.noConfusion⟩) fun _ => trivial

theorem cmpCond_clean (cols : List Catalog.ColMeta) (cond : Condition) (rec : Bytes) :
    Meets (fun _ => True) Fault.Clean (cmpCond cols cond rec) := by
  unfold cmpCond
  refine (getCol_clean cols cond.lhsCol).bind fun lhs _ => ?_
  split
  · exact Meets.ite (fun _ => trivial) fun _ => Meets.ite (fun _ => trivial) fun _ => ⟨Fault.noConfusion, Fault.noConfusion⟩
  · refine (getCol_clean cols _).bind fun rhs _ => ?_
    exact Meets.ite (fun _ => trivial) fun _ => Meets.ite (fun _ => trivial) fun _ => ⟨Fault.noConfusion, Fault.noConfusion⟩

theorem allHold_clean {α : Type} {test : α → Except Fault Bool} (h : ∀ c, Meets (fun _ => True) Fault.Clean (test c))
    (cs : List α) : Meets (fun _ => True) Fault.Clean (allHold test cs) := by
  induction cs with
  | nil => trivial
  | cons c cs ih => exact (h c).bind fun b _ => Meets.ite (fun _ => ih) fun _ => trivial

theorem findTest_clean (leftCols rightCols : List Catalog.ColMeta) (conds : List Condition) (a b : Option Bytes) :
    Meets (fun _ => True) Fault.Clean (findTest leftCols rightCols conds a b) := by
  unfold findTest
  split
  · refine allHold_clean (fun c => ?_) conds
    unfold doPredictCond
    simp only
    split
    · trivial
    · exact ⟨Fault.noConfusion, Fault.noConfusion⟩
  · trivial

/-! ### Scans -/

section Scans
variable {db : Db} {t : Table} {conds : List Condition} {proj : List TabCol}

/-- A sequential scan moves to a later record; one with conditions to a visible one. -/
theorem seqSeek_meets (cols : List Catalog.ColMeta) (slots : List Slot) :
    Meets (fun rest => rest <:+ slots ∧ (conds ≠ [] → ∀ s ∈ rest.head?, db.visible s = true)) Fault.Clean
      (seqSeek db cols conds slots) := by
  induction slots with
  | nil => exact ⟨List.suffix_refl _, fun _ s hs => by cases hs⟩
  | cons s ss ih =>
    have hrest : Meets (fun rest => rest <:+ s :: ss ∧ (conds ≠ [] → ∀ s ∈ rest.head?, db.visible s = true)) Fault.Clean
        (seqSeek db cols conds ss) :=
      ih.mono (fun rest h => ⟨h.1.trans (List.suffix_cons s ss), h.2⟩) fun _ h => h
    rw [seqSeek]
    refine Meets.ite (fun hnil => ⟨List.suffix_refl _, fun h => absurd hnil h⟩) fun _ => ?_
    split
    · exact hrest
    · next rec hrec =>
      have hvisible : db.visible s = true := by
        unfold Db.getRecordMvcc at hrec
        split at hrec
        · next h => exact h
        · cases hrec
      refine (allHold_clean (fun c => evalCond_clean cols c rec) conds).bind fun b _ => Meets.ite (fun _ => ?_) fun _ => hrest
      refine ⟨List.suffix_refl _, fun _ u hu => ?_⟩
      cases hu
      exact hvisible

theorem getRecordMvcc_of_visible {s : Slot} (h : db.visible s = true) : db.getRecordMvcc s = some s.bytes := if_pos h

theorem getRecordMvcc_opt {s : Slot} {rec : Bytes} (h : db.getRecordMvcc s = some rec) : rec = s.bytes := by
  unfold Db.getRecordMvcc at h
  split at h
  · exact (Option.some.inj h).symm
  · cases h

theorem seqScan_sound {good : Nat → Option Bytes → Prop}
    (hgood : ∀ s ∈ t.slots, (conds ≠ [] → db.visible s = true) →
      good (scanOut t.tab.cols proj).len ((db.getRecordMvcc s).map (scanOut t.tab.cols proj).project)) :
    (seqScan db t conds proj).Sound good where
  spec := ⟨{
    inv := fun s => ∃ rest : List Slot, s = some rest ∧ rest <:+ t.slots ∧ (conds ≠ [] → ∀ x ∈ rest.head?, db.visible x = true)
    rank := fun (s : Option (List Slot)) => (s.map List.length).getD 0
    start := fun s => by
      refine Meets.bind (seqSeek_meets t.tab.cols t.slots) fun rest hrest => ?_
      exact ⟨⟨rest, rfl, hrest⟩, hrest.1.length_le⟩
    step := by
      rintro _ ⟨rest, rfl, hsuf, -⟩
      refine Meets.bind (seqSeek_meets t.tab.cols rest.tail) fun rest' hrest' => ?_
      have hle : rest'.length ≤ rest.length - 1 := by
        rw [← List.length_tail]
        exact hrest'.1.length_le
      refine ⟨⟨rest', rfl, hrest'.1.trans ((List.tail_suffix rest).trans hsuf), hrest'.2⟩, ?_, ?_, ?_⟩
      · exact hle.trans (Nat.sub_le _ _)
      · cases rest with
        | nil => exact fun h => by cases h
        | cons x xs => exact fun _ => Nat.lt_succ_of_le hle
      · cases rest with
        | nil =>
          intro _
          rw [List.eq_nil_of_length_eq_zero (Nat.le_zero.mp hle)]
          rfl
        | cons x xs => exact fun h => by cases h
    read := by
      rintro _ ⟨rest, rfl, hsuf, hvis⟩ hend
      cases rest with
      | nil => cases hend
      | cons x xs => exact ⟨_, rfl, hgood x (hsuf.mem (List.mem_cons_self ..)) fun h => hvis h x rfl⟩
    pos := by
      rintro _ ⟨rest, rfl, -⟩ hend
      cases rest with
      | nil => cases hend
      | cons x xs => exact Nat.succ_pos _ }⟩
  within := scanOut_within t.laid proj

theorem seqScan_loose : (seqScan db t conds proj).Loose := by
  refine seqScan_sound fun s hs _ rec hrec => ?_
  obtain ⟨bytes, hbytes, rfl⟩ := Option.map_eq_some_iff.mp hrec
  rw [getRecordMvcc_opt hbytes]
  exact scanOut_length t.laid proj (t.sized s hs)

theorem seqScan_steady (h : conds ≠ [] ∨ ∀ s ∈ t.slots, db.visible s = true) : (seqScan db t conds proj).Steady := by
  refine seqScan_sound fun s hs hconds => ?_
  have hvisible : db.visible s = true := h.elim hconds fun h => h s hs
  rw [getRecordMvcc_of_visible hvisible]
  exact ⟨_, rfl, scanOut_length t.laid proj (t.sized s hs)⟩

/-- An index scan moves to a later entry, with the record of it. -/
theorem indexSeek_meets (entries : List (Option Rid)) :
    Meets (fun p => p.1 <:+ entries ∧ (p.1 ≠ [] → ∃ s ∈ t.slots, p.2 = some s.bytes)) Fault.Clean
      (indexSeek db t conds entries) := by
  induction entries with
  | nil => exact ⟨List.suffix_refl _, fun h => absurd rfl h⟩
  | cons entry entries ih =>
    have hrest : Meets (fun p => p.1 <:+ entry :: entries ∧ (p.1 ≠ [] → ∃ s ∈ t.slots, p.2 = some s.bytes)) Fault.Clean
        (indexSeek db t conds entries) :=
      ih.mono (fun p h => ⟨h.1.trans (List.suffix_cons entry entries), h.2⟩) fun _ h => h
    rw [indexSeek]
    split
    · exact hrest
    · next rec hrec =>
      refine (allHold_clean (fun c => cmpCond_clean t.tab.cols c rec) conds).bind fun b _ =>
        Meets.ite (fun _ => ⟨List.suffix_refl _, fun _ => ?_⟩) fun _ => hrest
      unfold indexRecord at hrec
      cases entry with
      | none => cases hrec
      | some rid =>
        cases hslot : t.slots.find? (·.rid = rid) with
        | none => simp [hslot] at hrec
        | some s =>
          refine ⟨s, List.mem_of_find?_eq_some hslot, ?_⟩
          have : db.getRecordMvcc s = some rec := by simpa [hslot] using hrec
          rw [getRecordMvcc_opt this]

theorem indexScan_steady {indexCols : List String} : (indexScan db t conds indexCols proj).Steady where
  spec := ⟨{
    inv := fun s => s.1 ≠ [] → ∃ x ∈ t.slots, s.2 = some x.bytes
    rank := fun s => s.1.length
    start := fun s => by
      unfold indexScan
      simp only
      split
      · exact ⟨Fault.noConfusion, Fault.noConfusion⟩
      · next range hrange =>
        refine (indexSeek_meets (range conds)).mono (fun p hp => ⟨hp.2, ?_⟩) fun _ h => h
        rw [hrange]
        exact hp.1.length_le
    step := by
      rintro ⟨_ | ⟨x, xs⟩, rec⟩ hs
      · exact ⟨hs, Nat.le_refl _, fun h => (by cases h), fun h => h⟩
      · refine (indexSeek_meets xs).mono (fun p hp => ⟨hp.2, ?_, fun _ => ?_, fun h => by cases h⟩) fun _ h => h
        · exact hp.1.length_le.trans (Nat.le_succ _)
        · exact Nat.lt_succ_of_le hp.1.length_le
    read := by
      rintro ⟨_ | ⟨x, xs⟩, rec⟩ hs hend
      · cases hend
      · obtain ⟨slot, hslot, heq⟩ := hs (List.cons_ne_nil x xs)
        cases heq
        exact ⟨_, rfl, _, rfl, scanOut_length t.laid proj (t.sized slot hslot)⟩
    pos := by
      rintro ⟨_ | ⟨x, xs⟩, rec⟩ _ hend
      · cases hend
      · exact Nat.succ_pos _ }⟩
  within := scanOut_within t.laid proj

end Scans

/-! ### Joins and projections -/

theorem nestedLoopJoin_steady {left right : Executor} (hl : left.Loose) (hr : right.Loose) (conds : List Condition) :
    (nestedLoopJoin left right conds).Steady where
  spec := by
    obtain ⟨l⟩ := hl.spec
    obtain ⟨r⟩ := hr.spec
    refine ⟨l.nested r (fun a b _ _ => findTest_clean left.cols right.cols conds a b) fun a b ha hb hhit => ?_⟩
    cases a with
    | none => cases hhit
    | some a =>
      cases b with
      | none => cases hhit
      | some b =>
        refine ⟨_, rfl, ?_⟩
        rw [List.length_append, List.length_take, List.length_take, ha a rfl, hb b rfl, Nat.min_self, Nat.min_self]
        rfl
  within := by
    intro c hc
    rcases List.mem_append.mp hc with hc | hc
    · exact (hl.within c hc).trans (Nat.le_add_right _ _)
    · obtain ⟨d, hd, rfl⟩ := List.mem_map.mp hc
      have := hr.within d hd
      change d.offset + left.tupleLen + d.len ≤ left.tupleLen + right.tupleLen
      omega

section Projection
variable {prev e : Executor} {selCols : List TabCol}

theorem projection_eq (h : projection prev selCols = .ok e) : ∃ sel, selectedCols prev.cols selCols = .ok sel ∧
    e = { prev.toIter.map (Option.map fun rec => (projectionRuns sel).flatMap fun run =>
        (rec.drop run.srcOffset).take run.len) with
      cols := relay 0 sel, tupleLen := recordSize sel, ownBuffer := true, bound := prev.bound
      currentGroupRecords := none, indexColNames := none } := by
  unfold projection at h
  split at h
  · cases h
  · next sel hsel =>
    cases h
    exact ⟨sel, hsel, rfl⟩

theorem projected_length {sel : List Catalog.ColMeta} (hwithin : ∀ c ∈ prev.cols, c.offset + c.len ≤ prev.tupleLen)
    (hsel : selectedCols prev.cols selCols = .ok sel) {rec : Bytes} (hrec : rec.length = prev.tupleLen) :
    ((projectionRuns sel).flatMap fun run => (rec.drop run.srcOffset).take run.len).length = recordSize sel := by
  rw [projectionRuns_read]
  refine length_flatMap_cells (fun c : Catalog.ColMeta => c.offset) (fun c => c.len) fun c hc => ?_
  rw [hrec]
  exact hwithin c (selectedCols_sub hsel c hc)

theorem projection_sound {good : Nat → Option Bytes → Prop} (hp : prev.Sound good) (h : projection prev selCols = .ok e)
    (hgood : ∀ n m (f : Bytes → Bytes) r, (∀ rec : Bytes, rec.length = n → (f rec).length = m) → good n r → good m (r.map f)) :
    e.Sound good := by
  obtain ⟨sel, hsel, rfl⟩ := projection_eq h
  obtain ⟨spec⟩ := hp.spec
  refine ⟨⟨spec.map fun r hr => hgood _ _ _ r (fun rec hrec => projected_length hp.within hsel hrec) hr⟩, fun c hc => ?_⟩
  have := (relay_laid 0 sel).le c hc
  rw [recordSize_relay] at this
  simpa using this

theorem projection_steady (hp : prev.Steady) (h : projection prev selCols = .ok e) : e.Steady := by
  refine projection_sound hp h fun n m f r hf hr => ?_
  obtain ⟨rec, rfl, hlen⟩ := hr
  exact ⟨f rec, rfl, hf rec hlen⟩

end Projection

/-! ### Sorting -/

section Sorting
variable {stl : Stl} {n : Nat}

theorem collected_tuple {ownBuffer : Bool} {tuples : List (Option Bytes)} (h : ∀ r ∈ tuples, Tuple n r) :
    ∀ r ∈ collected ownBuffer tuples, Tuple n r := by
  unfold collected
  split
  · split
    · next last hlast =>
      intro r hr
      obtain ⟨r', hr', rfl⟩ := List.mem_map.mp hr
      obtain ⟨rec, rfl, -⟩ := h r' hr'
      obtain ⟨r'', hr'', heq⟩ := List.mem_filterMap.mp (List.mem_of_getLast? hlast)
      obtain ⟨rec', rfl, hlen⟩ := h r'' hr''
      cases heq
      exact ⟨_, rfl, hlen⟩
    · exact h
  · exact h

@[simp]
theorem length_collected (ownBuffer : Bool) (tuples : List (Option Bytes)) : (collected ownBuffer tuples).length = tuples.length := by
  unfold collected
  split
  · split
    · exact List.length_map _
    · rfl
  · rfl

theorem cutTuples_sublist (limit : Int) (tuples : List (Option Bytes)) : (cutTuples limit tuples).Sublist tuples := by
  unfold cutTuples
  split
  · exact List.take_sublist _ _
  · exact List.Sublist.refl _

theorem sortTuples_meets {keys : List (Catalog.ColMeta × Bool)} {tuples : List (Option Bytes)} (h : ∀ r ∈ tuples, Tuple n r) :
    Meets (fun sorted => sorted.Perm tuples) Fault.Clean (sortTuples stl keys tuples) := by
  unfold sortTuples
  refine Meets.ite (fun hnull => ?_) fun _ => pick_perm (stl.sort_perm _ _)
  obtain ⟨rec, hrec, -⟩ := h none hnull.2.2
  cases hrec

theorem sortExecutor_steady {prev e : Executor} {selCols : List TabCol} {isDesc : List Bool} {limit : Int} (hp : prev.Steady)
    (h : sortExecutor stl prev selCols isDesc limit = .ok e) : e.Steady := by
  unfold sortExecutor at h
  split at h
  · cases h
  · cases h
    obtain ⟨spec⟩ := hp.spec
    refine ⟨⟨spec.buffered (I := Tuple prev.tupleLen) (fun s hs hrank => ?_) fun r hr => ?_⟩, hp.within⟩
    · refine Meets.bind (spec.rest hs hrank) fun p hps => ?_
      refine Meets.bind (sortTuples_meets (collected_tuple hps.1)) fun sorted hsorted => ?_
      have hsub := cutTuples_sublist limit sorted
      refine ⟨fun r hr => ?_, ?_⟩
      · exact collected_tuple hps.1 r (hsorted.mem_iff.mp (hsub.subset hr))
      · have hlen := hsorted.length_eq
        rw [length_collected] at hlen
        exact hsub.length_le.trans (hlen ▸ hps.2.trans hrank)
    · obtain ⟨rec, rfl, hlen⟩ := hr
      exact ⟨some rec, rfl, rec, rfl, hlen⟩

end Sorting

/-! ### Grouping -/

section Grouping
variable {stl : Stl} {n : Nat}

theorem Groups.length_update_le (key : List Value) (f : GroupData → GroupData) (groups : Groups) :
    (groups.update stl key f).length ≤ groups.length + 1 := by
  induction groups with
  | nil => exact Nat.le_refl _
  | cons e rest ih =>
    rw [Groups.update]
    split
    · exact Nat.le_succ _
    · exact Nat.succ_le_succ ih

theorem Groups.forall_update {P : GroupData → Prop} {key : List Value} {f : GroupData → GroupData} {groups : Groups}
    (h : ∀ e ∈ groups, P e.2) (hnew : P (f ⟨[], none⟩)) (hf : ∀ g, P g → P (f g)) : ∀ e ∈ groups.update stl key f, P e.2 := by
  induction groups with
  | nil =>
    intro e he
    rw [List.mem_singleton.mp he]
    exact hnew
  | cons d rest ih =>
    have hrest := ih fun e he => h e (List.mem_cons_of_mem d he)
    rw [Groups.update]
    split
    · intro e he
      rcases List.mem_cons.mp he with rfl | he
      · exact hf _ (h d (List.mem_cons_self ..))
      · exact h e (List.mem_cons_of_mem d he)
    · intro e he
      rcases List.mem_cons.mp he with rfl | he
      · exact h d (List.mem_cons_self ..)
      · exact hrest e he

/-- Every record of the group has the length of a tuple. -/
def GroupData.Of (n : Nat) (g : GroupData) : Prop := ∀ rec ∈ g.records, rec.length = n

theorem extractGroupKey_clean (cols : List Catalog.ColMeta) (groupBy : List ColItem) (rec : Bytes) :
    Meets (fun _ => True) Fault.Clean (extractGroupKey cols groupBy (some rec)) := by
  unfold extractGroupKey
  refine Meets.ite (fun _ => trivial) fun _ => ?_
  refine (Meets.mapM (P := fun _ => True) fun c _ => ?_).mono (fun _ _ => trivial) fun _ h => h
  exact (getColIdx_clean cols c).bind fun _ _ => trivial

theorem addRecord_meets {cols : List Catalog.ColMeta} {groupBy : List ColItem} {groups : Groups} {r : Option Bytes}
    (h : ∀ e ∈ groups, e.2.Of n) (hr : Tuple n r) :
    Meets (fun groups' => ∀ e ∈ groups', e.2.Of n) Fault.Clean (addRecord stl cols groupBy groups r) := by
  obtain ⟨rec, rfl, hlen⟩ := hr
  unfold addRecord
  refine (extractGroupKey_clean cols groupBy rec).bind fun key _ => ?_
  have hempty : GroupData.Of n ⟨[], none⟩ := fun rec hrec => by cases hrec
  have hone : ∀ g : GroupData, g.Of n → GroupData.Of n { g with records := g.records ++ [rec] } := by
    intro g hg rec' hrec'
    rcases List.mem_append.mp hrec' with hrec' | hrec'
    · exact hg rec' hrec'
    · rw [List.mem_singleton.mp hrec']
      exact hlen
  refine Groups.forall_update ?_ (hone _ hempty) hone
  split
  · exact h
  · exact Groups.forall_update (Groups.forall_update h hempty fun _ _ => hempty) hempty fun g hg => hg

theorem addRecord_length {cols : List Catalog.ColMeta} {groupBy : List ColItem} {groups groups' : Groups} {r : Option Bytes}
    (h : addRecord stl cols groupBy groups r = .ok groups') : groups'.length ≤ groups.length + 3 := by
  unfold addRecord at h
  obtain ⟨key, -, h⟩ := ok_of_bind h
  cases r with
  | none => cases h
  | some rec =>
    cases h
    refine (Groups.length_update_le ..).trans (Nat.succ_le_succ ?_)
    split
    · exact Nat.le_add_right _ 2
    · exact (Groups.length_update_le ..).trans (Nat.succ_le_succ (Groups.length_update_le ..))

theorem evaluateHavingValue_clean (cols : List Catalog.ColMeta) (g : GroupData) (o : Operand) :
    Meets (fun _ => True) Fault.Clean (evaluateHavingValue cols g o) := by
  cases o with
  | agg a =>
    unfold evaluateHavingValue computeAggForHaving
    simp only
    split
    · trivial
    · trivial
    · trivial
    · exact (getColIdx_clean cols _).bind fun _ _ => trivial
  | val l => cases l <;> trivial
  | col c =>
    simp only [evaluateHavingValue]
    split
    · trivial
    · exact (getColIdx_clean cols _).bind fun _ _ => trivial

theorem evaluateHavingExpr_clean (cols : List Catalog.ColMeta) (g : GroupData) (h : Having) :
    Meets (fun _ => True) Fault.Clean (evaluateHavingExpr cols g h) := by
  induction h with
  | compare lhs op rhs =>
    refine (evaluateHavingValue_clean cols g lhs).bind fun a _ => ?_
    exact (evaluateHavingValue_clean cols g rhs).bind fun b _ => trivial
  | logical lhs op rhs ihl ihr => exact ihl.bind fun a _ => ihr.bind fun b _ => trivial

theorem filterGroups_meets (cols : List Catalog.ColMeta) (having : Option Having) (groups : Groups) :
    Meets (fun kept => kept.Sublist groups) Fault.Clean (filterGroups cols having groups) := by
  induction groups with
  | nil => exact List.Sublist.refl _
  | cons e rest ih =>
    unfold filterGroups
    have hkeep : ∀ keep : Bool, Meets (fun kept => List.Sublist kept (e :: rest)) Fault.Clean
        (filterGroups cols having rest >>= fun r => .ok (if keep then e :: r else r)) := fun keep => by
      refine ih.bind fun r hr => ?_
      cases keep with
      | true => exact hr.cons_cons e
      | false => exact hr.cons e
    cases having with
    | none => exact hkeep true
    | some h => exact (evaluateHavingExpr_clean cols e.2 h).bind fun keep _ => hkeep keep

theorem finishGroups_meets {cols : List Catalog.ColMeta} {groupBy : List ColItem} {having : Option Having} {groups : Groups}
    (h : ∀ e ∈ groups, e.2.Of n) :
    Meets (fun gs => (∀ g ∈ gs, g.Of n) ∧ gs.length ≤ groups.length + 1) Fault.Clean
      (finishGroups stl cols groupBy having groups) := by
  have hsome : ∀ gs : Groups, (∀ e ∈ gs, e.2.Of n) → gs.length ≤ groups.length + 1 →
      Meets (fun gs : List GroupData => (∀ g ∈ gs, g.Of n) ∧ gs.length ≤ groups.length + 1) Fault.Clean
        (filterGroups cols having (gs.inOrder stl) >>= fun gs => .ok (gs.map (·.2))) := by
    intro gs hgs hlen
    refine (filterGroups_meets cols having _).bind fun kept hkept => ⟨?_, ?_⟩
    · intro g hg
      obtain ⟨e, he, rfl⟩ := List.mem_map.mp hg
      have hperm : (gs.inOrder stl).Perm gs := pick_perm (by simpa using stl.order_perm (gs.map fun e => groupKeyHash stl e.1))
      exact hgs e (hperm.mem_iff.mp (hkept.subset he))
    · have hperm : (gs.inOrder stl).Perm gs := pick_perm (by simpa using stl.order_perm (gs.map fun e => groupKeyHash stl e.1))
      rw [List.length_map]
      exact (hkept.length_le.trans_eq hperm.length_eq).trans hlen
  unfold finishGroups
  simp only
  split
  · next hnone =>
    refine hsome _ (fun e he => ?_) (by simp)
    rw [List.mem_singleton.mp he]
    exact fun rec hrec => by cases hrec
  · exact hsome _ h (Nat.le_succ _)

/-- What `beginTuple` of a group operator makes of the records below it. -/
theorem groupFill_meets {child : Executor} {groupBy : List ColItem} {having : Option Having}
    (spec : child.toIter.Spec (Tuple n) Fault.Clean child.bound) {s : child.State} (hs : spec.inv s)
    (hrank : spec.rank s ≤ child.bound) :
    Meets (fun p => (∀ g ∈ p.1, g.Of n) ∧ p.1.length ≤ 3 * child.bound + 1) Fault.Clean (do
      let (groups, s) ← child.fold (addRecord stl child.cols groupBy) .diverged child.bound [] s
      let groups ← finishGroups stl child.cols groupBy having groups
      .ok (groups, s)) := by
  have hfold : Meets (fun p => (∀ e ∈ p.1, e.2.Of n) ∧ _) Fault.Clean
      (child.fold (addRecord stl child.cols groupBy) .diverged child.bound [] s) :=
    spec.fold (fun _ _ => addRecord_meets) hs (fun e he => by cases he) hrank
  refine Meets.bind (P := fun p => (∀ e ∈ p.1, e.2.Of n) ∧ p.1.length ≤ 3 * child.bound)
    (Meets.intro (fun p hp => ⟨(hfold.of_ok hp).1, ?_⟩) fun e he => hfold.of_error he) fun p hp => ?_
  · have := spec.fold_weight (w := List.length) (c := 3) (fun _ _ _ => addRecord_length) hs hp
    rw [List.length_nil, Nat.zero_add] at this
    exact this.trans (Nat.mul_le_mul_left 3 hrank)
  · refine (finishGroups_meets hp.1).bind fun gs hgs => ?_
    exact ⟨hgs.1, hgs.2.trans (Nat.succ_le_succ hp.2)⟩

end Grouping

/-! ### Aggregation -/

section Aggregation
variable {stl : Stl} {n : Nat} {child e : Executor} {selectExprs : List ColItem}

theorem computeSingleAggregation_clean (cols : List Catalog.ColMeta) (agg : AggExpr) (records : List Bytes) :
    Meets (fun _ => True) Fault.Clean (computeSingleAggregation cols agg records) := by
  unfold computeSingleAggregation
  split
  · trivial
  · exact (getColIdx_clean cols _).bind fun _ _ => trivial
  · trivial
  · trivial
  · exact Meets.ite (fun _ => trivial) fun _ => (getColIdx_clean cols _).bind fun _ _ => trivial

theorem mapM_length {α β : Type} {f : α → Except Fault β} {l : List α} (h : ∀ a ∈ l, Meets (fun _ => True) Fault.Clean (f a)) :
    Meets (fun bs => bs.length = l.length) Fault.Clean (l.mapM f) := by
  induction l with
  | nil => exact rfl
  | cons a as ih =>
    rw [List.mapM_cons]
    refine (h a (List.mem_cons_self ..)).bind fun b _ => ?_
    exact (ih fun a' ha' => h a' (List.mem_cons_of_mem a ha')).bind fun bs hbs => congrArg Nat.succ hbs

theorem computeAggregationForGroup_meets (cols : List Catalog.ColMeta) (selectExprs : List ColItem) (records : List Bytes) :
    Meets (fun row => row.length = selectExprs.length) Fault.Clean (computeAggregationForGroup cols selectExprs records) := by
  refine mapM_length fun e _ => ?_
  split
  · exact computeSingleAggregation_clean ..
  · trivial
  · exact (getColIdx_clean cols _).bind fun _ _ => trivial

theorem updateAggState_clean (cols : List Catalog.ColMeta) (rec : Bytes) (e : ColItem) (s : AggState) :
    Meets (fun _ => True) Fault.Clean (updateAggState cols (some rec) e s) := by
  unfold updateAggState
  split
  · trivial
  · split
    · trivial
    · exact (getColIdx_clean cols _).bind fun _ _ => Meets.ite (fun _ => trivial) fun _ => trivial

theorem finalValue_clean (cols : List Catalog.ColMeta) (e : ColItem) (s : AggState) :
    Meets (fun _ => True) Fault.Clean (finalValue cols e s) := by
  unfold finalValue
  split
  · trivial
  · split
    · trivial
    · exact (getColIdx_clean cols _).bind fun _ _ => trivial
    · exact (getColIdx_clean cols _).bind fun _ _ => trivial
    · trivial
    · trivial
    · trivial

/-- The rows of an aggregation have a value for each item of the select list. -/
def RowsOf (selectExprs : List ColItem) (bound : Nat) (rows : List (List Value)) : Prop :=
  (∀ row ∈ rows, row.length = selectExprs.length) ∧ rows.length ≤ bound + 1

theorem RowsOf.one {bound : Nat} {row : List Value} (h : row.length = selectExprs.length) : RowsOf selectExprs bound [row] := by
  refine ⟨fun r hr => ?_, Nat.succ_le_succ (Nat.zero_le _)⟩
  rw [List.mem_singleton.mp hr]
  exact h

theorem streamAggregation_of_fold {s : child.State}
    (h : Meets (fun p => p.1.1.length = selectExprs.length) Fault.Clean (child.fold (updateAggStates child.cols selectExprs)
      .diverged child.bound (selectExprs.map fun _ => ⟨0, 0, 0, none⟩, false) s)) :
    Meets (fun p => RowsOf selectExprs child.bound p.1) Fault.Clean (streamAggregation child selectExprs s) := by
  unfold streamAggregation
  refine h.bind fun p hp => ?_
  refine Meets.ite (fun _ => ⟨fun row hrow => (by cases hrow), Nat.zero_le _⟩) fun _ => ?_
  refine (mapM_length fun q _ => finalValue_clean child.cols q.1 q.2).bind fun row hrow => ?_
  rw [List.length_zip, hp, Nat.min_self] at hrow
  split
  · exact ⟨fun row hrow => (by cases hrow), Nat.zero_le _⟩
  · exact RowsOf.one hrow

theorem updateAggStates_meets {p : List AggState × Bool} {rec : Option Bytes} (hp : p.1.length = selectExprs.length)
    (h : ∀ e ∈ selectExprs, ∀ s, Meets (fun _ => True) Fault.Clean (updateAggState child.cols rec e s)) :
    Meets (fun q => q.1.length = selectExprs.length) Fault.Clean (updateAggStates child.cols selectExprs p rec) := by
  refine (mapM_length fun q hq => h q.1 (List.of_mem_zip hq).1 q.2).bind fun states hstates => ?_
  rw [meets_ok, hstates, List.length_zip, hp, Nat.min_self]

theorem streamAggregation_meets (spec : child.toIter.Spec (Tuple n) Fault.Clean child.bound) {s : child.State} (hs : spec.inv s)
    (hrank : spec.rank s ≤ child.bound) :
    Meets (fun p => RowsOf selectExprs child.bound p.1) Fault.Clean (streamAggregation child selectExprs s) := by
  refine streamAggregation_of_fold ((spec.fold (P := fun p : List AggState × Bool => p.1.length = selectExprs.length)
    (fun acc r hacc hr => ?_) hs (List.length_map _) hrank).mono (fun p hp => hp.1) fun _ h => h)
  obtain ⟨rec, rfl, -⟩ := hr
  exact updateAggStates_meets hacc fun e _ s => updateAggState_clean child.cols rec e s

theorem singleAgg_length {agg : AggExpr} (h : singleAgg selectExprs = some agg) : selectExprs.length = 1 := by
  unfold singleAgg at h
  split at h
  · rfl
  · cases h

theorem indexValue_clean (c : TabCol) (rec : Bytes) : Meets (fun _ => True) Fault.Clean (indexValue child c (some rec)) :=
  (getColIdx_clean child.cols c).bind fun _ _ => trivial

theorem tryIndexMinMax_meets (spec : child.toIter.Spec (Tuple n) Fault.Clean child.bound) (agg : AggExpr) {s : child.State}
    (hs : spec.inv s) (hrank : spec.rank s ≤ child.bound) :
    Meets (fun p => spec.inv p.2 ∧ spec.rank p.2 ≤ child.bound) Fault.Clean (tryIndexMinMax child agg s) := by
  unfold tryIndexMinMax
  split
  · refine Meets.ite (fun _ => Meets.ite (fun _ => ?_) fun _ => ?_) fun _ => ⟨hs, hrank⟩
    · cases hend : child.isEnd s with
      | true => exact ⟨hs, hrank⟩
      | false =>
        obtain ⟨r, hr, rec, rfl, -⟩ := spec.read s hs hend
        rw [hr]
        exact (indexValue_clean _ rec).bind fun _ _ => ⟨hs, hrank⟩
    · refine (spec.fold (P := fun _ => True) (fun _ r _ hr => ?_) hs trivial hrank).mono
        (fun p hp => ⟨hp.2.1, hp.2.2.2.trans hrank⟩) fun _ he => he
      obtain ⟨rec, rfl, -⟩ := hr
      exact (indexValue_clean _ rec).bind fun _ _ => trivial
  · exact ⟨hs, hrank⟩

theorem singleCount_meets (spec : child.toIter.Spec (Tuple n) Fault.Clean child.bound) (agg : AggExpr) {s : child.State}
    (hs : spec.inv s) (hrank : spec.rank s ≤ child.bound) (hone : selectExprs.length = 1) :
    Meets (fun p => RowsOf selectExprs child.bound p.1) Fault.Clean (singleCount child agg s) := by
  unfold singleCount
  split
  · exact Meets.bind (spec.count hs hrank) fun p _ => RowsOf.one hone.symm
  · refine (getColIdx_clean child.cols _).bind fun col _ => ?_
    refine Meets.bind (spec.fold (P := fun _ => True) (fun _ r _ hr => ?_) hs trivial hrank) fun p _ => ?_
    · obtain ⟨rec, rfl, -⟩ := hr
      trivial
    · exact RowsOf.one hone.symm

theorem computeStreamingAggregation_meets (spec : child.toIter.Spec (Tuple n) Fault.Clean child.bound) {s : child.State}
    (hs : spec.inv s) (hrank : spec.rank s ≤ child.bound) :
    Meets (fun p => RowsOf selectExprs child.bound p.1) Fault.Clean (computeStreamingAggregation child selectExprs s) := by
  unfold computeStreamingAggregation
  split
  · exact streamAggregation_meets spec hs hrank
  · next agg hagg =>
    have hone := singleAgg_length hagg
    refine Meets.ite (fun _ => singleCount_meets spec agg hs hrank hone) fun _ => Meets.ite (fun _ => ?_) fun _ =>
      streamAggregation_meets spec hs hrank
    refine Meets.bind (tryIndexMinMax_meets spec agg hs hrank) ?_
    rintro ⟨v, s'⟩ hp
    cases v with
    | some v => exact RowsOf.one hone.symm
    | none => exact streamAggregation_meets spec hp.1 hp.2

theorem aggregationExecutor_eq (h : aggregationExecutor child selectExprs = .ok e) :
    ∃ cols, buildOutputColumns child.cols 0 0 selectExprs = .ok cols ∧
      e = { child.toIter.buffered (aggregate child selectExprs)
          (fun row => .ok (some ((cols.zip row).flatMap fun p => valueBytes p.1 p.2))) none with
        cols := cols, tupleLen := recordSize cols, ownBuffer := false, bound := child.bound + 1
        currentGroupRecords := none, indexColNames := none } := by
  unfold aggregationExecutor at h
  split at h
  · cases h
  · next cols hcols =>
    cases h
    exact ⟨cols, hcols, rfl⟩

/-- The rows of an aggregation as an iterator whose start makes them. -/
theorem aggregation_steady_of
    (hrows : ∀ s, Meets (fun p => RowsOf selectExprs child.bound p.1) Fault.Clean (child.start s >>= aggregate child selectExprs))
    (h : aggregationExecutor child selectExprs = .ok e) : e.Steady := by
  obtain ⟨cols, hcols, rfl⟩ := aggregationExecutor_eq h
  obtain ⟨hlaid, hlen⟩ := buildOutputColumns_laid hcols
  refine ⟨⟨Iter.Spec.of_fill (I := fun row => row.length = cols.length) (fun s => (hrows s).mono (fun q hq => ?_) fun _ h => h)
    fun row hrow => ⟨_, rfl, _, rfl, rowBytes_length hrow⟩⟩, fun c hc => by simpa using hlaid.le c hc⟩
  refine ⟨fun row hrow => ?_, hq.2⟩
  rw [hlen]
  exact hq.1 row hrow

theorem aggregation_steady (hc : child.Steady) (hstream : child.currentGroupRecords = none)
    (h : aggregationExecutor child selectExprs = .ok e) : e.Steady := by
  obtain ⟨spec⟩ := hc.spec
  refine aggregation_steady_of (fun s => (spec.start s).bind fun s hs => ?_) h
  unfold aggregate
  rw [hstream]
  exact computeStreamingAggregation_meets spec hs.1 hs.2

/-- The groups of a grouping, each read as its records. -/
def groupRecordsSpec (stl : Stl) (spec : child.toIter.Spec (Tuple n) Fault.Clean child.bound) (groupBy : List ColItem)
    (having : Option Having) :
    (((child.toIter.buffered (fun s => do
      let (groups, s) ← child.fold (addRecord stl child.cols groupBy) .diverged child.bound [] s
      let groups ← finishGroups stl child.cols groupBy having groups
      .ok (groups, s)) (fun g => Except.ok g) ⟨[], none⟩).view fun p =>
        .ok ((p.2.head?.map (·.records)).getD [])).Spec (fun _ => True) Fault.Clean (3 * child.bound + 1)) :=
  (spec.buffered (I := GroupData.Of n) (G := fun _ => True) (fun _ hs hrank => groupFill_meets spec hs hrank)
    fun g _ => ⟨g, rfl, trivial⟩).view fun _ _ _ => ⟨_, rfl, trivial⟩

/-- Over a grouping it is enough that the operator below the grouping keeps the protocol: `Next` of the grouping is not called. -/
theorem aggregation_group_steady {groupBy : List ColItem} {having : Option Having} (hc : child.Steady)
    (h : aggregationExecutor (groupExecutor stl child groupBy having) selectExprs = .ok e) : e.Steady := by
  obtain ⟨spec⟩ := hc.spec
  have records := groupRecordsSpec stl spec groupBy having
  refine aggregation_steady_of (fun s => (records.start s).bind fun s hs => ?_) h
  have hrow : ∀ (rows : List (List Value)) (recs : List Bytes), (∀ row ∈ rows, row.length = selectExprs.length) →
      Meets (fun rows' : List (List Value) => ∀ row ∈ rows', row.length = selectExprs.length) Fault.Clean (do
        let row ← computeAggregationForGroup child.cols selectExprs recs
        .ok (rows ++ [row])) := by
    intro rows recs hrows
    refine (computeAggregationForGroup_meets ..).bind fun row hrow r hr => ?_
    rcases List.mem_append.mp hr with hr | hr
    · exact hrows r hr
    · rw [List.mem_singleton.mp hr]
      exact hrow
  have hfold : Meets (fun p => (∀ row ∈ p.1, row.length = selectExprs.length) ∧ _) Fault.Clean
      (aggregate (groupExecutor stl child groupBy having) selectExprs s) :=
    records.fold (fun rows recs hrows _ => hrow rows recs hrows) hs.1 (fun row hrow => by cases hrow) hs.2
  refine Meets.intro (fun p hp => ⟨(hfold.of_ok hp).1, ?_⟩) fun f hf => hfold.of_error hf
  have hlen : p.1.length ≤ List.length ([] : List (List Value)) + 1 * records.rank s :=
    records.fold_weight (fun rows recs rows' h => by
      obtain ⟨row, -, h⟩ := ok_of_bind h
      cases h
      exact Nat.le_of_eq (List.length_append ..)) hs.1 hp
  rw [List.length_nil, Nat.zero_add, Nat.one_mul] at hlen
  exact hlen.trans (hs.2.trans (Nat.le_succ _))

end Aggregation

/-! ### Trees -/

section Trees
variable {stl : Stl} {db : Db}

/-- The plan makes no operator return a null pointer: a sequential scan without conditions sees visible records only, unless the
    operator above it skips null pointers (`skipped`), as a join does. A grouping stands below an aggregation. -/
def NullFree (db : Db) : Bool → Plan → Prop
  | _, .null => True
  | skipped, .scan none tab conds _ =>
    skipped = true ∨ conds ≠ [] ∨ ∀ t, db.table? tab = some t → ∀ s ∈ t.slots, db.visible s = true
  | _, .scan (some _) _ _ _ => True
  | _, .join left right _ => NullFree db true left ∧ NullFree db true right
  | _, .sort subplan _ _ _ => NullFree db false subplan
  | _, .group _ _ _ => False
  | _, .agg (.group input _ _) _ => NullFree db false input
  | _, .agg input _ => NullFree db false input
  | skipped, .projection subplan _ => NullFree db skipped subplan

/-- A scan is one over a table of the database. -/
theorem convertPlanExecutor_scan {index : Option (List String)} {tab : String} {conds : List Condition} {proj : List TabCol}
    {e : Executor} (h : convertPlanExecutor stl db (.scan index tab conds proj) = .ok e) : ∃ t, db.table? tab = some t ∧
      (index = none ∧ e = seqScan db t conds proj ∨ ∃ cols, index = some cols ∧ e = indexScan db t conds cols proj) := by
  unfold convertPlanExecutor at h
  cases ht : db.table? tab with
  | none => simp [ht] at h
  | some t =>
    refine ⟨t, rfl, ?_⟩
    cases index with
    | none =>
      simp only [ht, Except.ok.injEq] at h
      exact Or.inl ⟨rfl, h.symm⟩
    | some cols =>
      simp only [ht] at h
      split at h
      · cases h
      · cases h
        exact Or.inr ⟨cols, rfl, rfl⟩

/-- Only a grouping gives access to the records of its groups. -/
theorem currentGroupRecords_none {p : Plan} {e : Executor} (h : convertPlanExecutor stl db p = .ok e)
    (hp : ∀ input groupBy having, p ≠ .group input groupBy having) : e.currentGroupRecords = none := by
  cases p with
  | null => cases h
  | scan index tab conds proj =>
    rcases convertPlanExecutor_scan h with ⟨t, -, ⟨-, rfl⟩ | ⟨cols, -, rfl⟩⟩ <;> rfl
  | join left right conds =>
    rw [convertPlanExecutor] at h
    split at h
    · cases h
    · cases h
    · cases h
      rfl
  | sort subplan selCols isDesc limit =>
    rw [convertPlanExecutor] at h
    split at h
    · cases h
    · unfold sortExecutor at h
      split at h
      · cases h
      · cases h
        rfl
  | group input groupBy having => exact absurd rfl (hp input groupBy having)
  | agg input selectExprs =>
    rw [convertPlanExecutor] at h
    split at h
    · cases h
    · obtain ⟨cols, -, rfl⟩ := aggregationExecutor_eq h
      rfl
  | projection subplan selCols =>
    rw [convertPlanExecutor] at h
    split at h
    · cases h
    · obtain ⟨sel, -, rfl⟩ := projection_eq h
      rfl

theorem nullFree_agg {skipped : Bool} {input : Plan} {selectExprs : List ColItem}
    (hno : ∀ inner groupBy having, input ≠ .group inner groupBy having) (h : NullFree db skipped (.agg input selectExprs)) :
    NullFree db false input := by
  cases input with
  | group inner groupBy having => exact absurd rfl (hno inner groupBy having)
  | scan index tab conds proj => cases index <;> exact h
  | null => exact h
  | join left right conds => exact h
  | sort subplan selCols isDesc limit => exact h
  | agg subplan exprs => exact h
  | projection subplan selCols => exact h

theorem convertPlanExecutor_sound : (p : Plan) → {skipped : Bool} → {e : Executor} → NullFree db skipped p →
    convertPlanExecutor stl db p = .ok e → e.Loose ∧ (skipped = false → e.Steady)
  | .null, _, _, _, h => by cases h
  | .scan index tab conds proj, skipped, e, hfree, h => by
    rcases convertPlanExecutor_scan h with ⟨t, ht, ⟨rfl, rfl⟩ | ⟨cols, -, rfl⟩⟩
    · refine ⟨seqScan_loose, fun hskip => seqScan_steady ?_⟩
      rcases hfree with hfree | hfree | hfree
      · exact absurd (hskip.symm.trans hfree) Bool.false_ne_true
      · exact Or.inl hfree
      · exact Or.inr (hfree t ht)
    · exact ⟨indexScan_steady.loose, fun _ => indexScan_steady⟩
  | .join left right conds, _, _, hfree, h => by
    rw [convertPlanExecutor] at h
    split at h
    · cases h
    · cases h
    · next l r hl hr =>
      cases h
      have := nestedLoopJoin_steady (convertPlanExecutor_sound left hfree.1 hl).1 (convertPlanExecutor_sound right hfree.2 hr).1 conds
      exact ⟨this.loose, fun _ => this⟩
  | .sort subplan selCols isDesc limit, _, _, hfree, h => by
    rw [convertPlanExecutor] at h
    split at h
    · cases h
    · next prev hprev =>
      have := sortExecutor_steady ((convertPlanExecutor_sound subplan hfree hprev).2 rfl) h
      exact ⟨this.loose, fun _ => this⟩
  | .group input groupBy having, _, _, hfree, _ => hfree.elim
  | .agg input selectExprs, _, e, hfree, h => by
    rw [convertPlanExecutor] at h
    split at h
    · cases h
    · next child hchild =>
      suffices e.Steady from ⟨this.loose, fun _ => this⟩
      by_cases hgroup : ∃ inner groupBy having, input = .group inner groupBy having
      · obtain ⟨inner, groupBy, having, rfl⟩ := hgroup
        rw [convertPlanExecutor] at hchild
        split at hchild
        · cases hchild
        · next prev hprev =>
          cases hchild
          exact aggregation_group_steady ((convertPlanExecutor_sound inner hfree hprev).2 rfl) h
      · have hno : ∀ inner groupBy having, input ≠ .group inner groupBy having := fun inner groupBy having heq =>
          hgroup ⟨inner, groupBy, having, heq⟩
        exact aggregation_steady ((convertPlanExecutor_sound input (nullFree_agg hno hfree) hchild).2 rfl)
          (currentGroupRecords_none hchild hno) h
  | .projection subplan selCols, skipped, _, hfree, h => by
    rw [convertPlanExecutor] at h
    split at h
    · cases h
    · next prev hprev =>
      have hp := convertPlanExecutor_sound subplan hfree hprev
      refine ⟨projection_sound hp.1 h fun n m f r hf hr rec hrec => ?_, fun hskip => projection_steady (hp.2 hskip) h⟩
      obtain ⟨rec', rfl, rfl⟩ := Option.map_eq_some_iff.mp hrec
      exact hf rec' (hr rec' rfl)

end Trees
end Rmdb.Sql
