import Rmdb.Exec.Planner
import Rmdb.Theorems.Exec.Bounds
import Rmdb.Theorems.Index.Scan
import Mathlib.Data.List.Perm.Basic

/-! The index scan against the sequential scan of the same table. -/

namespace Rmdb
open Ladder IxIndexHandle

/-! ### The conditions on index columns -/

/-- A list that is repeated for some elements of another one ends as it does itself. -/
theorem getLast?_flatMap_ite {α β : Type} {l : List α} {L : List β} {p : α → Prop} [DecidablePred p] (h : ∃ a ∈ l, p a) :
    (l.flatMap fun a => if p a then L else []).getLast? = L.getLast? := by
  induction l with
  | nil => simp at h
  | cons a l ih =>
    rw [List.flatMap_cons, List.getLast?_append]
    by_cases hl : ∃ a ∈ l, p a
    · rw [ih hl]
      split <;> cases L.getLast? <;> rfl
    · have hnil : (l.flatMap fun a => if p a then L else []) = [] := by
        rw [List.flatMap_eq_nil_iff]
        intro b hb
        rw [if_neg fun hp => hl ⟨b, hb, hp⟩]
      have hp : p a := by simpa [hl] using h
      rw [hnil, if_pos hp]
      rfl

section IndexConds
variable {tab : TabMeta} (ix : IndexMeta tab) (conds : List (Condition tab)) {c : ColMeta}

theorem mem_indexConds {d : Condition tab} : d ∈ indexConds ix conds ↔ d ∈ conds ∧ ∃ c ∈ ix.cols, d.lhsCol.name = c.name := by
  simp only [indexConds, List.mem_flatMap, List.mem_filter, decide_eq_true_eq]
  tauto

theorem lastCond_indexConds (hc : c ∈ ix.cols) (op : CompOp) : lastCond (indexConds ix conds) c op = lastCond conds c op := by
  have hfilter : condsWith (indexConds ix conds) c op = ix.cols.flatMap fun c' =>
      if c'.name = c.name then condsWith conds c op else [] := by
    rw [condsWith, indexConds, List.filter_flatMap]
    refine List.flatMap_congr fun c' _ => ?_
    rw [List.filter_filter, condsWith]
    split
    · rename_i h
      refine List.filter_congr fun d _ => ?_
      rw [h]
      simp +contextual
    · rename_i h
      rw [List.filter_eq_nil_iff]
      intro d _
      simp only [Bool.and_eq_true, decide_eq_true_eq]
      rintro ⟨⟨hd, -⟩, hd'⟩
      exact h (hd'.symm.trans hd)
  rw [lastCond, hfilter, getLast?_flatMap_ite (p := fun c' => c'.name = c.name) ⟨c, hc, rfl⟩, lastCond]

theorem bounded_indexConds (hc : c ∈ ix.cols) : bounded (indexConds ix conds) c = bounded conds c := by
  simp only [bounded, lowerCell, upperCell, lastCond_indexConds ix conds hc]

variable {cs : List ColMeta} (hcs : ∀ c ∈ cs, c ∈ ix.cols)
include hcs

theorem lowerKey_indexConds : lowerKey (indexConds ix conds) cs = lowerKey conds cs := by
  induction cs with
  | nil => rfl
  | cons c cs ih =>
    rw [List.forall_mem_cons] at hcs
    simp only [lowerKey, bounded_indexConds ix conds hcs.1, lowerCell, lastCond_indexConds ix conds hcs.1, ih hcs.2]

theorem upperKey_indexConds : upperKey (indexConds ix conds) cs = upperKey conds cs := by
  induction cs with
  | nil => rfl
  | cons c cs ih =>
    rw [List.forall_mem_cons] at hcs
    simp only [upperKey, bounded_indexConds ix conds hcs.1, upperCell, lastCond_indexConds ix conds hcs.1, ih hcs.2]

theorem coveredCols_indexConds : coveredCols (indexConds ix conds) cs = coveredCols conds cs := by
  induction cs with
  | nil => rfl
  | cons c cs ih =>
    rw [List.forall_mem_cons] at hcs
    have hany (p : Condition tab → Bool) (hp : ∀ d, p d = true → d.lhsCol.name = c.name) :
        (indexConds ix conds).any p = conds.any p := by
      rw [Bool.eq_iff_iff, List.any_eq_true, List.any_eq_true]
      constructor
      · rintro ⟨d, hd, h⟩
        exact ⟨d, ((mem_indexConds ix conds).mp hd).1, h⟩
      · rintro ⟨d, hd, h⟩
        exact ⟨d, (mem_indexConds ix conds).mpr ⟨hd, c, hcs.1, hp d h⟩, h⟩
    rw [coveredCols, coveredCols, hany _ (by simp +contextual), hany _ (by simp), ih hcs.2]

end IndexConds

/-! ### When the range is exact -/

section Exactness
variable {tab : TabMeta}

/-- The conditions for which the index scan keeps what it drops from the conditions of each row. -/
structure Scannable (ix : IndexMeta tab) (conds : List (Condition tab)) : Prop where
  /-- The constants of INT columns are whole numbers below 2^24 in magnitude. -/
  whole : ∀ d ∈ conds, d.Exact
  /-- The constants that bound a CHAR column fill it. -/
  filled : ∀ c ∈ usedCols conds ix.cols, ∀ d ∈ deciding conds c, d.Filled
  /-- The conditions that bound a column can be met together. -/
  satisfiable : ∀ c ∈ usedCols conds ix.cols, ∃ x, IsCell c x ∧ ∀ d ∈ deciding conds c, d.evalAt x = true
  /-- On a covered column, the conditions that bound it imply the others. -/
  implied : ∀ c ∈ coveredCols conds ix.cols, ∀ x, IsCell c x → (∀ d ∈ deciding conds c, d.evalAt x = true) →
    ∀ d ∈ conds, d.lhsCol = c → d.evalAt x = true
  /-- On a covered CHAR column, no strict condition bounds it. -/
  inclusive : ∀ c ∈ coveredCols conds ix.cols, c.type = .string → ∀ d ∈ deciding conds c, d.op ≠ .lt ∧ d.op ≠ .gt

variable {ix : IndexMeta tab} {conds : List (Condition tab)}

theorem coveredCols_sub (cs : List ColMeta) : ∀ c ∈ coveredCols conds cs, c ∈ cs := by
  induction cs with
  | nil => simp [coveredCols]
  | cons c cs ih =>
    rw [coveredCols]
    split
    · rw [List.forall_mem_cons]
      exact ⟨List.mem_cons_self, fun c' hc' => List.mem_cons_of_mem _ (ih c' hc')⟩
    · split <;> simp

theorem usedCols_sub (cs : List ColMeta) : ∀ c ∈ usedCols conds cs, c ∈ cs := fun _ h => (List.takeWhile_sublist _).mem h

variable (hint : ∀ c ∈ tab.cols, c.type ≠ .float) (hsc : Scannable ix conds)
include hint hsc

theorem range_of_deciding {a : ColMeta → Bytes} (ha : ∀ c ∈ ix.cols, IsCell c (a c))
    (h : ∀ c ∈ usedCols conds ix.cols, ∀ d ∈ deciding conds c, d.evalAt (a c) = true) :
    keyVals ix.ixCols (lowerKey conds ix.cols) ≤ keyVals ix.ixCols (ix.cols.flatMap a) ∧
      keyVals ix.ixCols (ix.cols.flatMap a) ≤ keyVals ix.ixCols (upperKey conds ix.cols) := by
  have hbetween := fun c hc => have hix := usedCols_sub ix.cols c hc
    between_of_deciding (ix.sub c hix) (hint c (ix.sub c hix)) hsc.whole (hsc.filled c hc) (ha c hix) (h c hc)
  have hint' : ∀ c ∈ ix.cols, c.type ≠ .float := fun c hc => hint c (ix.sub c hc)
  exact ⟨lowerKey_le ix.sub hint' (fun c hc => (ha c hc).1) fun c hc => (hbetween c hc).1,
    le_upperKey ix.sub hint' (fun c hc => (ha c hc).1) fun c hc => (hbetween c hc).2⟩

/-- A row meets the conditions exactly if its key is in the range and it meets the conditions that are left. -/
theorem evalConds_iff (r : Row tab) :
    evalConds conds r.bytes = true ↔
      (keyVals ix.ixCols (lowerKey conds ix.cols) ≤ keyVals ix.ixCols (ix.keyBytes r.bytes) ∧
        keyVals ix.ixCols (ix.keyBytes r.bytes) ≤ keyVals ix.ixCols (upperKey conds ix.cols)) ∧
      cmpConds (fedConds ix conds) r.bytes = true := by
  have hcell := fun c hc => r.cells c (ix.sub c hc)
  have heval (d : Condition tab) (hd : d ∈ conds) : d.evalCond r.bytes = d.evalAt (d.lhsCol.cell r.bytes) :=
    d.evalCond_iff r (hint _ d.mem) (hsc.whole d hd)
  have hcmp (d : Condition tab) (hd : d ∈ conds) : d.cmpCond r.bytes = d.evalCond r.bytes :=
    d.cmpCond_eq r (hint _ d.mem) (hsc.whole d hd)
  rw [evalConds, cmpConds, List.all_eq_true, List.all_eq_true]
  constructor
  · intro h
    refine ⟨range_of_deciding hint hsc hcell fun c hc d hd => ?_, fun d hd => ?_⟩
    · obtain ⟨hmem, hname⟩ := mem_deciding hd
      obtain rfl := TabMeta.col_unique d.mem (ix.sub c (usedCols_sub _ c hc)) hname
      rw [← heval d hmem]
      exact h d hmem
    · have hmem := List.mem_of_mem_filter hd
      rw [hcmp d hmem]
      exact h d hmem
  · rintro ⟨⟨hlow, hup⟩, hfed⟩ d hd
    by_cases hcov : ∃ c ∈ coveredCols conds ix.cols, c.name = d.lhsCol.name
    · obtain ⟨c, hc, hname⟩ := hcov
      have hix := coveredCols_sub ix.cols c hc
      obtain rfl := TabMeta.col_unique (ix.sub c hix) d.mem hname
      rw [heval d hd]
      refine hsc.implied _ hc _ (hcell _ hix) (fun e he => ?_) d hd rfl
      exact deciding_of_range ix.sub (fun c hc => hint c (ix.sub c hc)) hsc.whole hsc.filled hsc.inclusive hcell hlow hup _ hc e he
    · rw [← hcmp d hd]
      refine hfed d ?_
      rw [fedConds, coveredCols_indexConds ix conds fun _ h => h, List.mem_filter, decide_eq_true_eq]
      exact ⟨hd, hcov⟩

/-- The range is not upside down. -/
theorem lowerKey_le_upperKey :
    keyVals ix.ixCols (lowerKey conds ix.cols) ≤ keyVals ix.ixCols (upperKey conds ix.cols) := by
  classical
  -- a key from a cell that meets the bounds of each column
  let a : ColMeta → Bytes := fun c => if h : c ∈ usedCols conds ix.cols then (hsc.satisfiable c h).choose else c.allMin
  have ha : ∀ c ∈ ix.cols, IsCell c (a c) := by
    intro c _
    by_cases hc : c ∈ usedCols conds ix.cols
    · simp only [a, dif_pos hc]
      exact (hsc.satisfiable c hc).choose_spec.1
    · simp only [a, dif_neg hc]
      exact c.isCell_allMin
  obtain ⟨hlow, hup⟩ := range_of_deciding hint hsc ha (by
    intro c hc d hd
    simp only [a, dif_pos hc]
    exact (hsc.satisfiable c hc).choose_spec.2 d hd)
  exact hlow.trans hup

end Exactness

/-! ### The scan -/

section Scan
variable {tab : TabMeta} {t : Table tab}

theorem Table.getRecord_eq_some {rid : Rid} {r : Row tab} : t.getRecord rid = some r ↔ r ∈ t.rows ∧ r.rid = rid := by
  constructor
  · intro h
    exact ⟨List.mem_of_find?_eq_some h, by simpa using List.find?_some h⟩
  · rintro ⟨hr, rfl⟩
    cases h : t.getRecord r.rid with
    | none => simpa using List.find?_eq_none.mp h r hr
    | some r' =>
      have hr' : r'.rid = r.rid := by simpa using List.find?_some h
      rw [List.inj_on_of_nodup_map t.distinct (List.mem_of_find?_eq_some h) hr hr']

/-- The rows of a scan are those at the positions that it visits. -/
theorem scanRows_of_collect {K : Type} {conds : List (Condition tab)} {s : IxIndexHandle K} {stop : Iid} {fuel : Nat} {iid : Iid}
    {rids : List Rid} (h : IxScan.collect s stop fuel iid = .ok rids) :
    scanRows t conds s stop fuel iid =
      .ok (rids.filterMap fun rid => (t.getRecord rid).filter fun r => cmpConds conds r.bytes) := by
  induction fuel generalizing iid rids with
  | zero =>
    unfold IxScan.collect at h
    unfold scanRows
    split at h
    · rename_i hend
      cases h
      rw [if_pos hend]
      rfl
    · cases h
  | succ fuel ih =>
    unfold IxScan.collect at h
    unfold scanRows
    split at h
    · rename_i hend
      cases h
      rw [if_pos hend]
      rfl
    · rename_i hend
      rw [if_neg hend]
      obtain ⟨rid, hrid, h⟩ := Runs.ok_of_bind h
      obtain ⟨iid', hnext, h⟩ := Runs.ok_of_bind h
      obtain ⟨rest, hrest, h⟩ := Runs.ok_of_bind h
      cases h
      simp only [hrid, hnext, ih hrest, ok_bind, List.filterMap_cons]
      cases (t.getRecord rid).filter fun r => cmpConds conds r.bytes <;> rfl

/-- The index holds the keys and the positions of the rows of the table, and nothing else. -/
def Indexes (t : Table tab) (ix : IndexMeta tab) (s : IxIndexHandle (IxKey ix.ixCols)) : Prop :=
  ∀ e, InTree s e ↔ ∃ r ∈ t.rows, e.1.val = ix.keyBytes r.bytes ∧ e.2 = r.rid

variable (ix : IndexMeta tab)

theorem ixKey_ok (hint : ∀ c ∈ tab.cols, c.type ≠ .float) {a : Bytes} (ha : a.length = colTotLen ix.ixCols) :
    ∃ h, ixKey ix.ixCols a = .ok ⟨a, h⟩ := by
  have hcols : IntChar ix.ixCols := by
    intro c hc
    obtain ⟨c, hmem, rfl⟩ := List.mem_map.mp hc
    exact hint c (ix.sub c hmem)
  have h := And.intro ha (hcols.nanFree a)
  exact ⟨h, dif_pos h⟩

theorem length_keyBytes (r : Row tab) : (ix.keyBytes r.bytes).length = colTotLen ix.ixCols :=
  length_flatMap_cells fun c hc => (r.cells c (ix.sub c hc)).1

/-- The entries of an index of the table are its rows. -/
structure RowsOf (t : Table tab) (ix : IndexMeta tab) (es : List (IxKey ix.ixCols × Rid)) : Prop where
  mem_iff : ∀ e, e ∈ es ↔ ∃ r ∈ t.rows, e.1.val = ix.keyBytes r.bytes ∧ e.2 = r.rid
  nodup : es.Nodup

namespace RowsOf
variable {ix} {es : List (IxKey ix.ixCols × Rid)} (h : RowsOf t ix es)
include h

theorem nodup_rids : (es.map (·.2)).Nodup := by
  refine h.nodup.map_on fun e he e' he' hrid => ?_
  obtain ⟨r, hr, hkey, hr2⟩ := (h.mem_iff e).mp he
  obtain ⟨r', hr', hkey', hr2'⟩ := (h.mem_iff e').mp he'
  obtain rfl := List.inj_on_of_nodup_map t.distinct hr hr' (hr2.symm.trans (hrid.trans hr2'))
  exact Prod.ext (Subtype.ext (hkey.trans hkey'.symm)) hrid

theorem length_le : es.length ≤ t.rows.length := by
  have hsub : es.map (·.2) ⊆ t.rows.map (·.rid) := by
    intro rid hrid
    obtain ⟨e, he, rfl⟩ := List.mem_map.mp hrid
    obtain ⟨r, hr, -, hr2⟩ := (h.mem_iff e).mp he
    exact List.mem_map.mpr ⟨r, hr, hr2.symm⟩
  simpa using (List.subperm_of_subset h.nodup_rids hsub).length_le

/-- The rows at the positions of the entries that satisfy a test of their keys. -/
theorem perm_filter (hint : ∀ c ∈ tab.cols, c.type ≠ .float) (p : IxKey ix.ixCols × Rid → Bool) (q q' : Row tab → Bool)
    (hq : ∀ e ∈ es, ∀ r ∈ t.rows, e.1.val = ix.keyBytes r.bytes → (q' r = true ↔ p e = true ∧ q r = true)) :
    (((es.filter p).map (·.2)).filterMap fun rid => (t.getRecord rid).filter q).Perm (t.rows.filter q') := by
  have hget {rid : Rid} {r : Row tab} : r ∈ (t.getRecord rid).filter q ↔ (r ∈ t.rows ∧ r.rid = rid) ∧ q r = true := by
    rw [Option.mem_filter_iff, Option.mem_def, Table.getRecord_eq_some]
  have hnodup : (((es.filter p).map (·.2)).filterMap fun rid => (t.getRecord rid).filter q).Nodup := by
    refine List.Nodup.filterMap ?_ ((List.filter_sublist.map _).nodup h.nodup_rids)
    intro rid rid' r hr hr'
    exact (hget.mp hr).1.2.symm.trans (hget.mp hr').1.2
  rw [List.perm_ext_iff_of_nodup hnodup (t.distinct.of_map.filter _)]
  intro r
  rw [List.mem_filterMap, List.mem_filter]
  constructor
  · rintro ⟨rid, hrid, hr⟩
    obtain ⟨e, he, rfl⟩ := List.mem_map.mp hrid
    rw [List.mem_filter] at he
    obtain ⟨⟨hr, hrid⟩, hqr⟩ := hget.mp hr
    obtain ⟨r', hr', hkey, hr2⟩ := (h.mem_iff e).mp he.1
    obtain rfl := List.inj_on_of_nodup_map t.distinct hr hr' (hrid.trans hr2)
    exact ⟨hr, (hq e he.1 r hr hkey).mpr ⟨he.2, hqr⟩⟩
  · rintro ⟨hr, hqr⟩
    obtain ⟨hkey, -⟩ := ixKey_ok ix hint (length_keyBytes ix r)
    have he : (⟨_, hkey⟩, r.rid) ∈ es := (h.mem_iff _).mpr ⟨r, hr, rfl, rfl⟩
    obtain ⟨hp, hqr⟩ := (hq _ he r hr rfl).mp hqr
    exact ⟨r.rid, List.mem_map.mpr ⟨_, List.mem_filter.mpr ⟨he, hp⟩, rfl⟩, hget.mpr ⟨⟨hr, rfl⟩, hqr⟩⟩

end RowsOf

end Scan

section Tree
variable {K : Type} [Preorder K] {f : IxFormat K} {s : IxIndexHandle K} {L : IxLevel K} {Us : List (IxLevel K)} (T : Tree f s L Us)
include T

theorem leafEnd_ok : ∃ i, s.leafEnd = .ok i := by
  rcases T.lastLeaf with h | ⟨A, b, rfl, hb⟩
  · exact ⟨_, if_pos h⟩
  · obtain ⟨m, hm, -⟩ := content_eq_some.mp (T.tower.stored b (by simp))
    unfold leafEnd
    split
    · exact ⟨_, rfl⟩
    · rw [hb, fetchNode_ok hm]
      exact ⟨_, rfl⟩

theorem leafBegin_ok : ∃ i, s.leafBegin = .ok i := by
  unfold leafBegin
  split
  · exact leafEnd_ok T
  · exact ⟨_, rfl⟩

variable [DecidableEq K] (hf : f.Lawful)
include hf

/-- Entries with new keys, inserted one after the other, as `SmManager::create_index` does. -/
theorem run_insertAll (es : List (K × Rid)) (hnew : ∀ e ∈ es, ∀ x ∈ flat L, ¬Same x.1 e.1)
    (hdis : es.Pairwise fun a b => ¬Same a.1 b.1) :
    ∃ t h M Vs, s.run f (es.map fun e => .insertEntry e.1 e.2) = .ok (t, h) ∧ Tree f t M Vs ∧
      ∀ x, x ∈ flat M ↔ x ∈ es ∨ x ∈ flat L := by
  induction es generalizing s L Us with
  | nil => exact ⟨s, [], L, Us, rfl, T, by simp⟩
  | cons e es ih =>
    rw [List.forall_mem_cons] at hnew
    rw [List.pairwise_cons] at hdis
    rcases insertEntry_spec hf T e.1 e.2 with ⟨⟨x, hx, hsame⟩, -⟩ | ⟨-, s₁, q, L₁, Us₁, hrun, -, hins⟩
    · exact absurd hsame (hnew.1 x hx)
    · obtain ⟨E, F, hL, hL₁⟩ := hins.entries
      have hmem : ∀ x, x ∈ flat L₁ ↔ x = e ∨ x ∈ flat L := by simp [hL, hL₁, or_left_comm]
      obtain ⟨t, h, M, Vs, hrun', T', hmem'⟩ := ih hins.tree (fun d hd x hx => by
        rcases (hmem x).mp hx with rfl | hx
        · exact hdis.1 d hd
        · exact hnew.2 d hd x hx) hdis.2
      refine ⟨t, (.insertEntry e.1 e.2, .page q) :: h, M, Vs, ?_, T', fun x => ?_⟩
      · rw [List.map_cons, run, call, hrun, ok_bind, ok_bind]
        show (s₁.run f _ >>= _) = _
        rw [hrun', ok_bind]
      · rw [hmem', hmem, List.mem_cons, or_left_comm, or_assoc]

end Tree

theorem create_indexes {tab : TabMeta} (t : Table tab) (ix : IndexMeta tab) (hacc : IxAccepts ix.ixCols)
    (es : List (IxKey ix.ixCols × Rid)) (hes : es.map (fun e => (e.1.val, e.2)) = t.rows.map fun r => (ix.keyBytes r.bytes, r.rid))
    (hdis : es.Pairwise fun a b => (ixFormat ix.ixCols).compare a.1 b.1 ≠ 0) :
    ∃ s h, create.run (ixFormat ix.ixCols) (es.map fun e => .insertEntry e.1 e.2) = .ok (s, h) ∧ Indexes t ix s := by
  have hf := ixFormat_lawful hacc
  obtain ⟨s, h, M, Vs, hrun, T, hmem⟩ := run_insertAll (Tree.create (ixFormat ix.ixCols)) hf es (by simp)
    (hdis.imp fun h hs => h ((hf.eq_iff _ _).mpr hs))
  refine ⟨s, h, hrun, fun e => ?_⟩
  have hinj : Function.Injective fun e : IxKey ix.ixCols × Rid => (e.1.val, e.2) := fun a b hab =>
    Prod.ext (Subtype.ext (Prod.ext_iff.mp hab).1) (Prod.ext_iff.mp hab).2
  have hnew : e ∈ flat M ↔ e ∈ es := by simp [hmem]
  rw [← (T.entries hf).mem_iff, hnew, ← List.mem_map_of_injective hinj, hes, List.mem_map]
  simp [eq_comm]

/-- For every table with INT and CHAR columns, every index of it in any state that holds exactly its rows, and conditions whose
    bounds say all that the scan drops, the index scan ends and returns the rows of the sequential scan, each once. -/
theorem indexScan_perm_seqScan {tab : TabMeta} (hint : ∀ c ∈ tab.cols, c.type ≠ .float) (ix : IndexMeta tab)
    (hacc : IxAccepts ix.ixCols) (t : Table tab) (cs : List (IxCall (IxKey ix.ixCols))) (s : IxIndexHandle (IxKey ix.ixCols))
    (h : IxHistory (IxKey ix.ixCols)) (hrun : create.run (ixFormat ix.ixCols) cs = .ok (s, h)) (hix : Indexes t ix s)
    (conds : List (Condition tab)) (hsc : Scannable ix conds) :
    ∃ res, res.Perm (seqScan t conds) ∧ (res.map (·.rid)).Nodup ∧
      ∀ fuel, t.rows.length ≤ fuel → indexScan t ix s conds fuel = .ok res := by
  have hf := ixFormat_lawful hacc
  obtain ⟨s', h', L, Us, hrun', -, T, -⟩ := run_create hf cs
  rw [hrun] at hrun'
  cases hrun'
  have hrows : RowsOf t ix (flat L) := by
    refine ⟨fun e => ?_, ?_⟩
    · rw [(T.entries hf).mem_iff]
      exact hix e
    · exact T.ascending.imp fun h => fun heq => absurd h (by rw [heq]; exact lt_irrefl _)
  obtain ⟨i, hbegin⟩ := leafBegin_ok T
  obtain ⟨j, hend⟩ := leafEnd_ok T
  obtain ⟨hlow, hlower⟩ := ixKey_ok ix hint (length_lowerKey conds ix.sub)
  obtain ⟨hup, hupper⟩ := ixKey_ok ix hint (length_upperKey conds ix.sub)
  obtain ⟨lo, hi, hlo, hhi, hcol⟩ := T.scan_range hf (a := ⟨_, hlow⟩) (b := ⟨_, hup⟩) (lowerKey_le_upperKey hint hsc)
  have hperm := hrows.perm_filter hint
    (fun e => (ixFormat ix.ixCols).compare ⟨_, hlow⟩ e.1 ≤ 0 ∧ (ixFormat ix.ixCols).compare e.1 ⟨_, hup⟩ ≤ 0)
    (fun r => cmpConds (fedConds ix conds) r.bytes) (fun r => evalConds conds r.bytes) (by
      intro e _ r _ hkey
      rw [evalConds_iff hint hsc, ← hkey, decide_eq_true_eq, hf.le_iff, hf.le_iff]
      rfl)
  refine ⟨_, hperm, ?_, fun fuel hfuel => ?_⟩
  · exact (hperm.map _).nodup_iff.mpr ((List.filter_sublist.map _).nodup t.distinct)
  · simp only [indexScan, hbegin, hend, ok_bind, lowerKey_indexConds ix conds fun _ h => h, hlower,
      upperKey_indexConds ix conds fun _ h => h, hupper, hlo, hhi]
    exact scanRows_of_collect (hcol fuel (hrows.length_le.trans hfuel))

/-- A table with one INT column. -/
theorem numCol_fixed : ColType.int ≠ .string → 4 = 4 := fun _ => rfl

def numCol : ColMeta := ⟨"a", .int, 4, 0, numCol_fixed⟩

def numTab : TabMeta := ⟨"t", [numCol], by decide⟩

def numRow (n : UInt8) (slot : Int) : Row numTab := ⟨⟨1, slot⟩, [n, 0, 0, 0], by simp [numTab, numCol, IsCell, ColMeta.cell]⟩

def numTable : Table numTab := ⟨[numRow 1 0, numRow 7 1], by decide⟩

def numIx : IndexMeta numTab := ⟨numTab.cols, fun _ h => h⟩

def numCond (op : CompOp) (n : UInt8) : Condition numTab :=
  ⟨numCol, op, ⟨.int, n.toUInt32, [n, 0, 0, 0]⟩, by simp [numTab], rfl, by simp [IsCell, numCol]⟩

theorem indexScan_perm_seqScan_int : Scannable numIx [numCond .ge 1, numCond .lt 5] ∧
    ∃ s h, create.run (ixFormat numIx.ixCols) [.insertEntry (intKey 1 0 0 0) ⟨1, 0⟩, .insertEntry (intKey 7 0 0 0) ⟨1, 1⟩] = .ok (s, h) ∧
      Indexes numTable numIx s ∧ ∃ res, res.Perm (seqScan numTable [numCond .ge 1, numCond .lt 5]) ∧ (res.map (·.rid)).Nodup ∧
        ∀ fuel, 2 ≤ fuel → indexScan numTable numIx s [numCond .ge 1, numCond .lt 5] fuel = .ok res := by
  have hused : ∀ c ∈ usedCols [numCond .ge 1, numCond .lt 5] numIx.cols, IsCell c [1, 0, 0, 0] ∧
      ∀ d ∈ deciding [numCond .ge 1, numCond .lt 5] c, d.evalAt [1, 0, 0, 0] = true := by decide
  have hall : ∀ c ∈ coveredCols [numCond .ge 1, numCond .lt 5] numIx.cols, ∀ d ∈ [numCond .ge 1, numCond .lt 5],
      d ∈ deciding [numCond .ge 1, numCond .lt 5] c := by decide
  have hsc : Scannable numIx [numCond .ge 1, numCond .lt 5] :=
    { whole := by decide
      filled := by decide
      satisfiable := fun c hc => ⟨_, hused c hc⟩
      implied := fun c hc x _ h d hd _ => h d (hall c hc d hd)
      inclusive := by decide }
  obtain ⟨s, h, hrun, hix⟩ := create_indexes numTable numIx (by decide) [(intKey 1 0 0 0, ⟨1, 0⟩), (intKey 7 0 0 0, ⟨1, 1⟩)]
    (by decide) (by decide)
  exact ⟨hsc, s, h, hrun, hix, indexScan_perm_seqScan (by decide) numIx (by decide) numTable _ s h hrun hix _ hsc⟩

/-- A scan that is at its end at once is so for any number of steps. -/
theorem indexScan_of_zero {tab : TabMeta} {t : Table tab} {ix : IndexMeta tab} {s : IxIndexHandle (IxKey ix.ixCols)}
    {conds : List (Condition tab)} {res : List (Row tab)} (h : indexScan t ix s conds 0 = .ok res) (fuel : Nat) :
    indexScan t ix s conds fuel = .ok [] := by
  unfold indexScan at h ⊢
  obtain ⟨i, hbegin, h⟩ := Runs.ok_of_bind h
  obtain ⟨j, hend, h⟩ := Runs.ok_of_bind h
  obtain ⟨lower, hlower, h⟩ := Runs.ok_of_bind h
  obtain ⟨upper, hupper, h⟩ := Runs.ok_of_bind h
  obtain ⟨lo, hlo, h⟩ := Runs.ok_of_bind h
  obtain ⟨hi, hhi, h⟩ := Runs.ok_of_bind h
  simp only [hbegin, hend, hlower, hupper, hlo, hhi, ok_bind]
  rw [scanRows] at h
  split at h
  · rename_i hstop
    cases fuel <;> rw [scanRows, if_pos hstop]
  · cases h

/-- A table with one CHAR(4) column. -/
def strTab : TabMeta := ⟨"t", [⟨"c", .string, 4, 0, fun h => absurd rfl h⟩], by decide⟩

def strTable : Table strTab := ⟨[⟨⟨1, 0⟩, [0x61, 0x62, 0, 0], by decide⟩], by decide⟩

def strIx : IndexMeta strTab := ⟨strTab.cols, fun _ h => h⟩

/-- `c = 'ab'`. -/
def strCond : Condition strTab :=
  ⟨⟨"c", .string, 4, 0, fun h => absurd rfl h⟩, .eq, ⟨.string, 0, [0x61, 0x62, 0, 0]⟩, by simp [strTab], rfl, by decide⟩

def strKey : IxKey strIx.ixCols := ⟨[0x61, 0x62, 0, 0], rfl, IntChar.nanFree (by decide) _⟩

/-- The planner chooses the index for `c = 'ab'`, and the index scan misses the row that the sequential scan finds. -/
theorem indexScan_perm_seqScan_padded : getIndexCols [strIx.cols] [strCond] = some ["c"] ∧
    ∃ s h, create.run (ixFormat strIx.ixCols) [.insertEntry strKey ⟨1, 0⟩] = .ok (s, h) ∧ Indexes strTable strIx s ∧
      ∀ fuel res, indexScan strTable strIx s [strCond] fuel = .ok res → ¬res.Perm (seqScan strTable [strCond]) := by
  obtain ⟨s, h, hrun, hix⟩ := create_indexes strTable strIx (by decide) [(strKey, ⟨1, 0⟩)] (by decide) (by decide)
  refine ⟨by decide, s, h, hrun, hix, fun fuel res hres hperm => ?_⟩
  have hlen : (indexScan strTable strIx s [strCond] 0).toOption.map List.length = some 0 := by
    have heval : ((create : IxIndexHandle (IxKey strIx.ixCols)).run (ixFormat strIx.ixCols) [.insertEntry strKey ⟨1, 0⟩]).toOption.map
        (fun p => (indexScan strTable strIx p.1 [strCond] 0).toOption.map List.length) = some (some 0) := by decide
    rw [show (create : IxIndexHandle (IxKey strIx.ixCols)).run (ixFormat strIx.ixCols) [.insertEntry strKey ⟨1, 0⟩] = .ok (s, h)
      from hrun] at heval
    exact Option.some.inj heval
  cases hzero : indexScan strTable strIx s [strCond] 0 with
  | error e => simp [hzero, Except.toOption] at hlen
  | ok res' =>
    rw [indexScan_of_zero hzero] at hres
    cases hres
    exact absurd hperm.length_eq (by decide)

end Rmdb
