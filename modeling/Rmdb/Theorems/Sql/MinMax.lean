import Rmdb.Sql.IndexRange
import Rmdb.Theorems.Exec.Scan
import Rmdb.Theorems.Sql.Aggregates
import Rmdb.Theorems.Sql.Joins

/-! MIN and MAX from the ends of an index scan. -/

namespace Rmdb
open Ladder

namespace IxIndexHandle
variable {K : Type} [Preorder K] {f : IxFormat K} (hf : f.Lawful) {s : IxIndexHandle K} {L : IxLevel K} {Us : List (IxLevel K)}
  (T : Tree f s L Us)

/-! ### The entries that a scan visits -/

section Visit
include T

/-- At the position behind the last entry nothing can be read. From there `next` goes to the end of the scan, or, by the leaf
    header page, to the first entry. -/
theorem Tree.end_step {stop : Iid} (hf : f.Lawful) (hne : endIid s L ≠ stop) (hflat : flat L ≠ []) :
    IxScan.rid s (endIid s L) stop = .error .entryNotFound ∧
      (IxScan.next s (endIid s L) stop = .ok stop ∨ IxScan.next s (endIid s L) stop = .ok (iidFrom s L 0)) := by
  rcases T.lastLeaf with hno | ⟨A, b, rfl, hlast⟩
  · obtain ⟨m, hm, hleaf, hpairs⟩ := content_eq_some.mp T.leaves.header
    have hend : endIid s L = ⟨ixLeafHeaderPage, 0⟩ := if_pos hno
    have hsize : m.size = 0 := by rw [IxNode.size, hpairs]; rfl
    rw [hend] at hne ⊢
    refine ⟨?_, Or.inr ?_⟩
    · rw [IxScan.rid, if_neg hne, fetchNode_ok hm, ok_bind, hleaf]
      simp [hpairs]
    · obtain ⟨b, B, rfl⟩ := List.exists_cons_of_ne_nil T.tower.nonempty
      have hb2 := T.two_le (b := b) (List.mem_cons_self ..)
      have hnext : s.nextOf ixLeafHeaderPage = some b.id := T.leaves.ring.next_first
      have hmnext : s.nextOf ixLeafHeaderPage = some m.nextLeaf := by simp [nextOf, hm]
      rw [hmnext, Option.some.injEq] at hnext
      have hentries : b.entries ≠ [] := by
        rcases T.filled.dense hf with ⟨c, hc⟩ | h
        · cases hc
          exact fun h => hflat (by simp [h])
        · exact h b (List.mem_cons_self ..)
      have hfirst : iidFrom s (b :: B) 0 = ⟨b.id, 0⟩ := by
        have hget := @slots_get K [] B b 0 (List.length_pos_of_ne_nil hentries)
        rw [List.nil_append, flat_nil, List.length_nil, Nat.zero_add] at hget
        rw [iidFrom, hget]
        rfl
      rw [IxScan.next, if_neg hne, fetchNode_ok hm, ok_bind, hleaf]
      simp only [Bool.not_true, Bool.false_eq_true, if_false]
      rw [if_pos (by rw [hsize]), IxScan.nextLeaf, if_pos, hnext, hfirst]
      rw [hnext, ixNoPage, ixLeafHeaderPage]
      omega
  · obtain ⟨m, hm, hleaf, hpairs⟩ := content_eq_some.mp (T.tower.stored b (by simp))
    have hb2 := T.two_le (b := b) (by simp)
    have hend : endIid s (A ++ [b]) = ⟨b.id, b.entries.length⟩ := by
      rw [endIid, if_neg (by rw [hlast, ixNoPage]; omega), hlast]
      simp
    have hsize : m.size = b.entries.length := by rw [IxNode.size, hpairs]
    have hring := T.leaves.ring
    rw [ids_append, ids_cons, Ring.chain_append] at hring
    have hnext : s.nextOf b.id = some ixLeafHeaderPage := hring.2.next_first
    have hmnext : s.nextOf b.id = some m.nextLeaf := by simp [nextOf, hm]
    rw [hmnext, Option.some.injEq] at hnext
    rw [hend] at hne ⊢
    refine ⟨?_, Or.inl ?_⟩
    · rw [IxScan.rid, if_neg hne, fetchNode_ok hm, ok_bind, hleaf]
      simp [hpairs]
    · rw [IxScan.next, if_neg hne, fetchNode_ok hm, ok_bind, hleaf]
      simp only [Bool.not_true, Bool.false_eq_true, if_false]
      rw [if_pos (by rw [hsize]), IxScan.nextLeaf, if_neg]
      rw [hnext]
      exact fun h => h.2 rfl

omit [Preorder K] T in
theorem visit_stop {stop : Iid} {fuel : Nat} {entries : List (Option Rid)} (h : IxScan.visit s stop fuel stop = .ok entries) :
    entries = [] := by
  cases fuel <;> rw [IxScan.visit, if_pos rfl] at h <;> cases h <;> rfl

include hf

/-- From an entry on the scan visits the entries in their order. -/
theorem Tree.visit_from {stop : Iid} {fuel i : Nat} {entries : List (Option Rid)} (hi : i < (flat L).length)
    (h : IxScan.visit s stop fuel (iidFrom s L i) = .ok entries) :
    ∃ k, entries = (((flat L).drop i).take k).map fun e => some e.2 := by
  induction fuel generalizing i entries with
  | zero =>
    rw [IxScan.visit] at h
    split at h
    · cases h
      exact ⟨0, rfl⟩
    · cases h
  | succ fuel ih =>
    rw [IxScan.visit] at h
    split at h
    · cases h
      exact ⟨0, rfl⟩
    · next hne =>
      have he : (flat L)[i]? = some (flat L)[i] := List.getElem?_eq_getElem hi
      rw [T.rid_eq he hne, T.next_eq hf he hne] at h
      simp only [ok_bind] at h
      obtain ⟨rest, hrest, h⟩ := Runs.ok_of_bind h
      cases h
      have hdrop : (flat L).drop i = (flat L)[i] :: (flat L).drop (i + 1) := List.drop_eq_getElem_cons hi
      rw [hdrop]
      split at hrest
      · next hlt =>
        obtain ⟨k, rfl⟩ := ih hlt hrest
        exact ⟨k + 1, rfl⟩
      · have hnil := visit_stop hrest
        subst hnil
        exact ⟨1, rfl⟩

/-- Between the positions of two keys, in whatever order, a scan visits entries in the order of the leaves. -/
theorem Tree.visit_sublist {lower upper : K} {lo hi : Iid} {fuel : Nat} {entries : List (Option Rid)}
    (hlo : s.lowerBound f lower = .ok lo) (hhi : s.upperBound f upper = .ok hi) (h : IxScan.visit s hi fuel lo = .ok entries) :
    ∃ es : List (K × Rid), es.Sublist (flat L) ∧ entries.filterMap id = es.map (·.2) := by
  obtain ⟨i, hlo', hile, -⟩ := T.lowerBound_eq hf lower
  obtain ⟨j, hhi', hjle, -⟩ := T.upperBound_eq hf upper
  rw [hlo, Except.ok.injEq] at hlo'
  rw [hhi, Except.ok.injEq] at hhi'
  subst hlo' hhi'
  have hsome : ∀ es : List (K × Rid), (es.map fun e => some e.2).filterMap id = es.map (·.2) := fun es => by
    rw [List.filterMap_map, ← List.filterMap_eq_map]
    rfl
  have hrun : ∀ {fuel i : Nat} {entries : List (Option Rid)}, i < (flat L).length →
      IxScan.visit s (iidFrom s L j) fuel (iidFrom s L i) = .ok entries →
        ∃ es : List (K × Rid), es.Sublist (flat L) ∧ entries.filterMap id = es.map (·.2) := by
    intro fuel i entries hi h
    obtain ⟨k, rfl⟩ := T.visit_from hf hi h
    exact ⟨_, (List.take_sublist _ _).trans (List.drop_sublist _ _), hsome _⟩
  by_cases heq : iidFrom s L i = iidFrom s L j
  · rw [heq] at h
    rw [visit_stop h]
    exact ⟨[], List.nil_sublist _, rfl⟩
  · have hflat : flat L ≠ [] := fun hnil => heq (by
      rw [hnil, List.length_nil] at hile hjle
      rw [Nat.le_zero.mp hile, Nat.le_zero.mp hjle])
    rcases Nat.lt_or_ge i (flat L).length with hi | hi
    · exact hrun hi h
    · have hend : iidFrom s L i = endIid s L := by
        rw [iidFrom, List.getElem?_eq_none (by rw [length_slots]; exact hi), Option.getD_none]
      rw [hend] at heq h
      obtain ⟨hrid, hnext⟩ := T.end_step hf heq hflat
      cases fuel with
      | zero =>
        rw [IxScan.visit, if_neg heq] at h
        cases h
      | succ fuel =>
        rw [IxScan.visit, if_neg heq, hrid] at h
        simp only [ok_bind] at h
        obtain ⟨iid, hiid, h⟩ := Runs.ok_of_bind h
        obtain ⟨rest, hrest, h⟩ := Runs.ok_of_bind h
        cases h
        rcases hnext with hnext | hnext
        · rw [hnext] at hiid
          cases hiid
          rw [visit_stop hrest]
          exact ⟨[], List.nil_sublist _, rfl⟩
        · rw [hnext] at hiid
          cases hiid
          obtain ⟨es, hsub, hes⟩ := hrun (List.length_pos_of_ne_nil hflat) hrest
          exact ⟨es, hsub, hes⟩

omit [Preorder K] T hf in
theorem visit_at_stop (s : IxIndexHandle K) (stop : Iid) (fuel : Nat) : IxScan.visit s stop fuel stop = .ok [] := by
  cases fuel <;> rw [IxScan.visit, if_pos rfl]

theorem Tree.visit_from_ends (stop : Iid) {n i : Nat} (hn : i + n = (flat L).length) (hpos : 0 < n) :
    ∃ entries, IxScan.visit s stop n (iidFrom s L i) = .ok entries := by
  induction n generalizing i with
  | zero => omega
  | succ n ih =>
    rw [IxScan.visit]
    split
    · exact ⟨[], rfl⟩
    · next hne =>
      have he : (flat L)[i]? = some (flat L)[i] := List.getElem?_eq_getElem (by omega)
      rw [T.rid_eq he hne, T.next_eq hf he hne]
      simp only [ok_bind]
      split
      · next hlt =>
        obtain ⟨entries, hrest⟩ := ih (i := i + 1) (by omega) (by omega)
        exact ⟨_, by rw [hrest]; rfl⟩
      · exact ⟨_, by rw [visit_at_stop]; rfl⟩

/-- A scan between the positions of two keys, in whatever order, ends. -/
theorem Tree.visit_ends (lower upper : K) : ∃ lo hi fuel entries, s.lowerBound f lower = .ok lo ∧ s.upperBound f upper = .ok hi ∧
    IxScan.visit s hi fuel lo = .ok entries := by
  obtain ⟨i, hlo, hile, -⟩ := T.lowerBound_eq hf lower
  obtain ⟨j, hhi, hjle, -⟩ := T.upperBound_eq hf upper
  have hrun : ∀ i < (flat L).length, ∃ entries, IxScan.visit s (iidFrom s L j) ((flat L).length - i) (iidFrom s L i) = .ok entries :=
    fun i hi => T.visit_from_ends hf _ (by omega) (by omega)
  by_cases heq : iidFrom s L i = iidFrom s L j
  · exact ⟨_, _, 0, [], hlo, hhi, by rw [heq, visit_at_stop]⟩
  · have hflat : flat L ≠ [] := fun hnil => heq (by
      rw [hnil, List.length_nil] at hile hjle
      rw [Nat.le_zero.mp hile, Nat.le_zero.mp hjle])
    rcases Nat.lt_or_ge i (flat L).length with hi | hi
    · obtain ⟨entries, hvisit⟩ := hrun i hi
      exact ⟨_, _, _, entries, hlo, hhi, hvisit⟩
    · have hend : iidFrom s L i = endIid s L := by
        rw [iidFrom, List.getElem?_eq_none (by rw [length_slots]; exact hi), Option.getD_none]
      obtain ⟨hrid, hnext⟩ := T.end_step hf (hend ▸ heq) hflat
      obtain ⟨entries, hvisit⟩ := hrun 0 (List.length_pos_of_ne_nil hflat)
      rcases hnext with hnext | hnext
      · refine ⟨_, _, 1, [none], hlo, hhi, ?_⟩
        rw [IxScan.visit, if_neg heq, hend, hrid, hnext]
        simp only [ok_bind, visit_at_stop]
      · refine ⟨_, _, (flat L).length - 0 + 1, none :: entries, hlo, hhi, ?_⟩
        rw [IxScan.visit, if_neg heq, hend, hrid, hnext]
        simp only [ok_bind, hvisit]

end Visit

end IxIndexHandle

namespace Sql
open Outcomes
open IxIndexHandle (create InTree)
open Catalog.SmManager (ixCols keyOf)

/-! ### The records of an index scan -/

section Scan
variable {db : Db} {t : Table} {conds : List Condition} {proj : List TabCol} {entries : List (Option Rid)}

/-- The record that an index scan stops at, if it stops at the entry. -/
def indexHit (db : Db) (t : Table) (fed : List Condition) (entry : Option Rid) : Option Bytes :=
  (indexRecord db t entry).filter fun rec => (cmpConds t.tab.cols fed rec).toOption.getD false

theorem indexTuple_eq (fed : List Condition) (entry : Option Rid) :
    indexTuple db t proj fed entry = (indexHit db t fed entry).map fun rec => some ((scanOut t.tab.cols proj).project rec) := by
  unfold indexTuple indexHit
  cases indexRecord db t entry with
  | none => rfl
  | some rec =>
    dsimp only
    cases hcond : cmpConds t.tab.cols fed rec with
    | error e => simp [Option.filter, hcond, Except.toOption]
    | ok b => cases b <;> simp [Option.filter, hcond, Except.toOption]

theorem indexHit_slot {rid : Rid} {rec : Bytes} {fed : List Condition} (h : indexHit db t fed (some rid) = some rec) :
    ∃ slot ∈ t.slots, slot.rid = rid ∧ rec = slot.bytes := by
  have hrecord : indexRecord db t (some rid) = some rec := (Option.filter_eq_some_iff.mp h).1
  obtain ⟨slot, hslot, hvisible⟩ := Option.bind_eq_some_iff.mp hrecord
  refine ⟨slot, List.mem_of_find?_eq_some hslot, by simpa using List.find?_some hslot, ?_⟩
  unfold Db.getRecordMvcc at hvisible
  split at hvisible
  · cases hvisible
    rfl
  · cases hvisible

/-- The records that an index scan stops at. -/
def scannedRecs (db : Db) (t : Table) (conds : List Condition) (names : List String) (entries : List (Option Rid)) : List Bytes :=
  entries.filterMap (indexHit db t (fedConds conds names))

theorem length_of_scanned {names : List String} {rec : Bytes} (h : rec ∈ scannedRecs db t conds names entries) :
    rec.length = recordSize t.tab.cols := by
  obtain ⟨entry, -, hhit⟩ := List.mem_filterMap.mp h
  cases entry with
  | none => cases hhit
  | some rid =>
    obtain ⟨slot, hslot, -, rfl⟩ := indexHit_slot hhit
    exact t.sized slot hslot

/-- The records that a scan stops at are those of its entries, in the order of the index. -/
theorem hits_ascending {ix : List Catalog.ColMeta} (hfixed : ∀ c ∈ ix, c.type ≠ .string → c.len = 4) (fed : List Condition)
    {es : List (IxKey (ixCols ix hfixed) × Rid)} (hasc : Ascending es)
    (hkeys : ∀ e ∈ es, ∀ slot ∈ t.slots, slot.rid = e.2 → e.1.val = keyOf ix slot.bytes) (hentries : entries.filterMap id = es.map (·.2)) :
    ∃ ms : List (IxKey (ixCols ix hfixed) × Bytes), entries.filterMap (indexHit db t fed) = ms.map (·.2) ∧
      Ascending ms ∧ ∀ m ∈ ms, m.1.val = keyOf ix m.2 := by
  have hnone : ∀ entry : Option Rid, (entry.bind fun rid => indexHit db t fed (some rid)) = indexHit db t fed entry := fun entry => by
    cases entry <;> rfl
  have hmap : entries.filterMap (indexHit db t fed) = es.filterMap fun e => indexHit db t fed (some e.2) := by
    have hcomp : entries.filterMap (indexHit db t fed) = (entries.filterMap id).filterMap fun rid => indexHit db t fed (some rid) := by
      rw [List.filterMap_filterMap]
      exact List.filterMap_congr fun entry _ => (hnone entry).symm
    rw [hcomp, hentries, List.filterMap_map]
    rfl
  refine ⟨es.filterMap fun e => (indexHit db t fed (some e.2)).map fun rec => (e.1, rec), ?_, ?_, fun m hm => ?_⟩
  · rw [hmap, List.map_filterMap]
    refine List.filterMap_congr fun e _ => ?_
    rw [Option.map_map]
    exact Option.map_id'.symm
  · rw [Ascending, List.pairwise_filterMap]
    refine hasc.imp fun {a b} hlt x hx y hy => ?_
    obtain ⟨-, -, rfl⟩ := Option.map_eq_some_iff.mp hx
    obtain ⟨-, -, rfl⟩ := Option.map_eq_some_iff.mp hy
    exact hlt
  · obtain ⟨e, he, hrec⟩ := List.mem_filterMap.mp hm
    obtain ⟨rec, hhit, rfl⟩ := Option.map_eq_some_iff.mp hrec
    obtain ⟨slot, hslot, hrid, rfl⟩ := indexHit_slot hhit
    exact hkeys e he slot hslot hrid

/-- A scan shows the value of a column that it puts out. -/
theorem scanOut_cellValue {col : Catalog.ColMeta} (hcol : col ∈ (scanOut t.tab.cols proj).cols) :
    ∃ c ∈ t.tab.cols, c.name = col.name ∧ c.type = col.type ∧ ((c.type ≠ .string → c.len = 4) →
      ∀ rec, rec.length = recordSize t.tab.cols → cellValue col ((scanOut t.tab.cols proj).project rec) = cellValue c rec) := by
  unfold scanOut at hcol ⊢
  dsimp only at hcol ⊢
  split at hcol
  · next hlen =>
    obtain ⟨p, hp, rfl⟩ := List.mem_map.mp hcol
    obtain ⟨c, hc, hoff, heq⟩ := projCols_mem hp
    have hlen' := congrArg Catalog.ColMeta.len heq
    refine ⟨c, hc, (congrArg Catalog.ColMeta.name heq).symm, (congrArg Catalog.ColMeta.type heq).symm, fun htyped rec hrec => ?_⟩
    rw [if_pos hlen]
    have hcells : ∀ p ∈ projCols t.tab.cols [] 0 proj, ((rec.drop p.2).take p.1.len).length = p.1.len := by
      intro p hp
      obtain ⟨c, hc, hoff, heq⟩ := projCols_mem hp
      have hle := t.laid.le c hc
      have hlen := congrArg Catalog.ColMeta.len heq
      dsimp only at hlen
      rw [List.length_take, List.length_drop]
      omega
    obtain ⟨-, hcell⟩ := (projCols_laid t.tab.cols [] 0 proj).cell hcells hp
    have htype := congrArg Catalog.ColMeta.type heq
    dsimp only at htype hlen'
    unfold cellValue
    rw [← Value.fromRaw_take (by rw [htype, hlen']; exact htyped), ← Value.fromRaw_take htyped]
    rw [Nat.sub_zero] at hcell
    rw [hcell, hoff, htype, hlen']
  · next hlen =>
    exact ⟨col, hcol, rfl, rfl, fun _ rec _ => by rw [if_neg hlen]; rfl⟩

end Scan

/-! ### The ends of a list -/

/-- The tuple that the aggregate is taken from: the first one for MIN, the last one for MAX. -/
def endOf {α : Type} (type : AggType) (l : List α) : Option α := if type = .min then l.head? else l.getLast?

theorem endOf_map {α β : Type} (type : AggType) (l : List α) (f : α → β) : endOf type (l.map f) = (endOf type l).map f := by
  unfold endOf
  split
  · exact List.head?_map
  · exact List.getLast?_map

theorem mem_of_endOf {α : Type} {type : AggType} {l : List α} {a : α} (h : endOf type l = some a) : a ∈ l := by
  unfold endOf at h
  split at h
  · exact List.mem_of_head? h
  · exact List.mem_of_getLast? h

theorem endOf_eq_none {α : Type} {type : AggType} {l : List α} : endOf type l = none ↔ l = [] := by
  unfold endOf
  split
  · exact List.head?_eq_none_iff
  · exact List.getLast?_eq_none_iff

section Order
variable {K V : Type} [Preorder K] {ms : List (K × V)} {m : K × V} {type : AggType}

/-- The keys are in order for the aggregate. -/
def KeyLe (type : AggType) (a b : K) : Prop := if type = .min then a ≤ b else b ≤ a

/-- The end of an ascending list is the one whose key is in order with all keys. -/
theorem endOf_ascending (hasc : Ascending ms) (hm : endOf type ms = some m) :
    (∀ b ∈ ms, KeyLe type m.1 b.1) ∧ ∀ a ∈ ms, (∀ b ∈ ms, KeyLe type a.1 b.1) → a = m := by
  have hmem := mem_of_endOf hm
  unfold endOf at hm
  unfold KeyLe
  split at hm
  · next hmin =>
    simp only [if_pos hmin]
    obtain ⟨rest, rfl⟩ := List.head?_eq_some_iff.mp hm
    obtain ⟨hlt, -⟩ := Ascending.cons.mp hasc
    refine ⟨List.forall_mem_cons.mpr ⟨le_rfl, fun b hb => (hlt b hb).le⟩, fun a ha hle => ?_⟩
    rcases List.mem_cons.mp ha with rfl | ha
    · rfl
    · exact absurd (hle m hmem) (hlt a ha).not_ge
  · next hmin =>
    simp only [if_neg hmin]
    obtain ⟨init, rfl⟩ := List.getLast?_eq_some_iff.mp hm
    obtain ⟨-, -, hlt⟩ := Ascending.append.mp hasc
    have hlt' : ∀ b ∈ init, b.1 < m.1 := fun b hb => hlt b hb m (List.mem_singleton_self m)
    refine ⟨List.forall_mem_append.mpr ⟨fun b hb => (hlt' b hb).le, List.forall_mem_singleton.mpr le_rfl⟩, fun a ha hle => ?_⟩
    rcases List.mem_append.mp ha with ha | ha
    · exact absurd (hle m hmem) (hlt' a ha).not_ge
    · exact List.mem_singleton.mp ha

end Order

/-! ### The fast path -/

section FastPath
variable {child : Executor} {q : child.State} {outs : List Bytes} {c : TabCol} {col : Catalog.ColMeta} {names : List String}
  {type : AggType}

theorem foldReads_last {α : Type} {v : Bytes → α} {f : Option α → Option Bytes → Except Fault (Option α)}
    (hf : ∀ acc rec, f acc (some rec) = .ok (some (v rec))) (acc : Option α) (outs : List Bytes) :
    Iter.foldReads f acc (outs.map fun rec => .ok (some rec)) = .ok ((outs.getLast?.map v).or acc) := by
  induction outs generalizing acc with
  | nil => rfl
  | cons rec outs ih =>
    rw [List.map_cons, Iter.foldReads, ok_bind, hf, ok_bind, ih, List.getLast?_cons]
    cases outs.getLast? <;> rfl

/-- Over an index whose last column is the argument, the fast path gives the value of the first or the last tuple. -/
theorem tryIndexMinMax_eq (hruns : child.toIter.Runs q (outs.map fun rec => .ok (some rec))) (hbound : outs.length ≤ child.bound)
    (hnames : child.indexColNames = some names) (hlast : names.getLast? = some c.colName) (hcol : getColIdx child.cols c = .ok col)
    (htype : type = .min ∨ type = .max) :
    ∃ q', tryIndexMinMax child ⟨type, some c⟩ q = .ok ((endOf type outs).map (cellValue col), q') := by
  have hvalue : ∀ rec, indexValue child c (some rec) = .ok (cellValue col rec) := fun rec => by
    rw [indexValue, hcol]
    rfl
  unfold tryIndexMinMax endOf
  simp only [hnames, if_pos hlast]
  rcases htype with rfl | rfl
  · rw [if_pos rfl, if_pos rfl]
    cases outs with
    | nil =>
      have hend : child.isEnd q = true := hruns
      rw [if_pos hend]
      exact ⟨q, rfl⟩
    | cons rec outs =>
      obtain ⟨hend, hread, -⟩ := hruns
      rw [if_neg (by rw [hend]; exact Bool.false_ne_true), hread, ok_bind, hvalue]
      exact ⟨q, rfl⟩
  · obtain ⟨q', hfold⟩ := hruns.fold
    refine ⟨q', ?_⟩
    rw [if_neg (by decide), if_neg (by decide), hfold _ _ _ _ (by rw [List.length_map]; exact hbound),
      @foldReads_last _ (cellValue col) _ (fun acc rec => by rw [hvalue]; rfl), Option.or_none]
    rfl

end FastPath

/-- One of the records has both the first key for the aggregate and the best value in the last column of the index. -/
def BestAtEnd (type : AggType) (cols : List IxCol) (ix : List Catalog.ColMeta) (last : Catalog.ColMeta) (recs : List Bytes) : Prop :=
  ∃ rec ∈ recs, ∀ rec' ∈ recs,
    (if type = .min then ixCompare cols (keyOf ix rec) (keyOf ix rec') ≤ 0 else ixCompare cols (keyOf ix rec') (keyOf ix rec) ≤ 0) ∧
      aggBefore type (cellValue last rec') (cellValue last rec) = false

/-- The fast path gives no value, or that of the plain aggregation. -/
def DeclinesOrAgrees (child : Executor) (agg : AggExpr) (q : child.State) (outs : List Bytes) : Prop :=
  ∃ v q', tryIndexMinMax child agg q = .ok (v, q') ∧ ∀ w ∈ v, computeSingleAggregation child.cols agg outs = .ok w

section Main
variable {db : Db} {t : Table} {conds : List Condition} {proj : List TabCol} {ix : List Catalog.ColMeta}
  {range : List Condition → List (Option Rid)} {type : AggType} {c : TabCol} {col last : Catalog.ColMeta}

theorem indexScan_hands {names : List String} (hrange : t.range names = some range)
    (hclean : IndexClean db t (fedConds conds names) (range conds)) {q₀ q : (indexScan db t conds names proj).State}
    (hstart : (indexScan db t conds names proj).start q₀ = .ok q) :
    (indexScan db t conds names proj).toIter.Runs q
        (((scannedRecs db t conds names (range conds)).map (scanOut t.tab.cols proj).project).map fun rec => .ok (some rec)) ∧
      ((scannedRecs db t conds names (range conds)).map (scanOut t.tab.cols proj).project).length ≤
        (indexScan db t conds names proj).bound := by
  obtain ⟨q', hq', hruns⟩ := @indexScan_start db t conds proj names range hrange hclean q₀
  rw [hstart, Except.ok.injEq] at hq'
  subst hq'
  have hmap : (range conds).filterMap (indexTuple db t proj (fedConds conds names)) =
      (scannedRecs db t conds names (range conds)).map fun rec => some ((scanOut t.tab.cols proj).project rec) := by
    rw [scannedRecs, List.map_filterMap]
    exact List.filterMap_congr fun entry _ => indexTuple_eq _ entry
  rw [hmap, List.map_map] at hruns
  refine ⟨by rw [List.map_map]; exact hruns, ?_⟩
  rw [List.length_map]
  simp only [indexScan, hrange, Option.map_some, Option.getD_some]
  exact List.length_filterMap_le _ _

/-- Where the records are in the order of their keys, the value at their end is the best one just if a record has the first key and
    the best value. -/
theorem endOf_best_iff (hfixed : ∀ c ∈ ix, c.type ≠ .string → c.len = 4) (hacc : IxAccepts (ixCols ix hfixed)) (hfloat : last.type ≠ .float)
    {ms : List (IxKey (ixCols ix hfixed) × Bytes)} (hasc : Ascending ms) (hkeys : ∀ m ∈ ms, m.1.val = keyOf ix m.2)
    {m : IxKey (ixCols ix hfixed) × Bytes} (hm : endOf type ms = some m) :
    Best.best (aggBefore type) ((ms.map (·.2)).map (cellValue last)) = some (cellValue last m.2) ↔
      BestAtEnd type (ixCols ix hfixed) ix last (ms.map (·.2)) := by
  have hf := ixFormat_lawful hacc
  have hle : ∀ a ∈ ms, ∀ b ∈ ms, (if type = .min then ixCompare (ixCols ix hfixed) (keyOf ix a.2) (keyOf ix b.2) ≤ 0
      else ixCompare (ixCols ix hfixed) (keyOf ix b.2) (keyOf ix a.2) ≤ 0) ↔ KeyLe type a.1 b.1 := by
    intro a ha b hb
    rw [← hkeys a ha, ← hkeys b hb, KeyLe]
    split
    · exact hf.le_iff a.1 b.1
    · exact hf.le_iff b.1 a.1
  obtain ⟨hends, hunique⟩ := endOf_ascending hasc hm
  have hmem := mem_of_endOf hm
  have htotal : ∀ a ∈ ms.map (·.2), ∀ b ∈ ms.map (·.2), aggBefore type (cellValue last a) (cellValue last b) = true ∨
      cellValue last a = cellValue last b ∨ aggBefore type (cellValue last b) (cellValue last a) = true := fun a _ b _ =>
    aggBefore_total type (by rw [type_cellValue, type_cellValue]) (by rw [type_cellValue]; exact hfloat)
  rw [Best.best_map_eq_iff (aggBefore_irrefl type) (aggBefore_trans type) htotal (List.mem_map_of_mem hmem)]
  constructor
  · intro hbest
    refine ⟨m.2, List.mem_map_of_mem hmem, fun rec' hrec' => ⟨?_, hbest rec' hrec'⟩⟩
    obtain ⟨b, hb, rfl⟩ := List.mem_map.mp hrec'
    exact (hle m hmem b hb).mpr (hends b hb)
  · rintro ⟨rec, hrec, hall⟩ rec' hrec'
    obtain ⟨a, ha, rfl⟩ := List.mem_map.mp hrec
    have ham : a = m := hunique a ha fun b hb => (hle a ha b hb).mp (hall b.2 (List.mem_map_of_mem hb)).1
    rw [← ham]
    exact (hall rec' hrec').2

/-- The fast path agrees if the value at its end is the one that the scan of the plain aggregation keeps. -/
theorem declinesOrAgrees_iff {child : Executor} {q q' : child.State} {outs : List Bytes}
    (hfast : tryIndexMinMax child ⟨type, some c⟩ q = .ok ((endOf type outs).map (cellValue col), q')) (hcol : getColIdx child.cols c = .ok col)
    (htype : type = .min ∨ type = .max) (hfloat : col.type ≠ .float) : DeclinesOrAgrees child ⟨type, some c⟩ q outs ↔
      ∀ rec, endOf type outs = some rec → Best.best (aggBefore type) (outs.map (cellValue col)) = some (cellValue col rec) := by
  have hplain : ∀ rec, endOf type outs = some rec → ∀ w, computeSingleAggregation child.cols ⟨type, some c⟩ outs = .ok w ↔
      Best.best (aggBefore type) (outs.map (cellValue col)) = some w := by
    intro rec hrec w
    have hne : outs ≠ [] := fun hnil => by rw [endOf_eq_none.mpr hnil] at hrec; cases hrec
    have hbest : extremum type (outs.map (cellValue col)) = Best.best (aggBefore type) (outs.map (cellValue col)) :=
      extremum_eq_best (fun v hv => type_of_mem_cells hv) hfloat
    have hcompute : computeSingleAggregation child.cols ⟨type, some c⟩ outs =
        .ok ((extremum type (outs.map (cellValue col))).getD (.int 0)) := by
      unfold computeSingleAggregation
      rcases htype with rfl | rfl <;> simp only [if_neg hne, hcol, ok_bind]
    obtain ⟨b, hb⟩ := Option.ne_none_iff_exists'.mp fun hnone =>
      hne (List.map_eq_nil_iff.mp ((@Best.best_eq_none _ (aggBefore type) (outs.map (cellValue col))).mp hnone))
    rw [hcompute, hbest, hb, Option.getD_some, Except.ok.injEq, Option.some.injEq]
  constructor
  · rintro ⟨v, q₁, hv, hagree⟩ rec hrec
    rw [hfast, Except.ok.injEq, Prod.mk.injEq] at hv
    exact (hplain rec hrec _).mp (hagree _ (by rw [← hv.1, hrec]; rfl))
  · refine fun h => ⟨_, q', hfast, fun w hw => ?_⟩
    obtain ⟨rec, hrec, rfl⟩ := Option.map_eq_some_iff.mp hw
    exact (hplain rec hrec _).mpr (h rec hrec)

/-- For every index with INT and CHAR columns, every table and every conditions, whatever bounds they set and whatever they leave to
    be evaluated, the fast path declines or gives the value of the plain aggregation over the tuples of the same scan just if the
    argument is not the last column of the index, or nothing is scanned, or one scanned record has both the first key and the best
    value. -/
theorem index_min_max_iff (hfixed : ∀ c ∈ ix, c.type ≠ .string → c.len = 4) (hfloat : ∀ c ∈ ix, c.type ≠ .float)
    (hcols : ∀ c ∈ ix, c ∈ t.tab.cols) (hacc : IxAccepts (ixCols ix hfixed)) {calls : List (IxCall (IxKey (ixCols ix hfixed)))}
    {s : IxIndexHandle (IxKey (ixCols ix hfixed))} {h : IxHistory (IxKey (ixCols ix hfixed))}
    (hrun : create.run (ixFormat (ixCols ix hfixed)) calls = .ok (s, h))
    (hkeys : ∀ e, InTree s e → ∀ slot ∈ t.slots, slot.rid = e.2 → e.1.val = keyOf ix slot.bytes)
    (hrange : t.range (ix.map (·.name)) = some range) {lower upper : IxKey (ixCols ix hfixed)} {lo hi : Iid} {fuel : Nat}
    (hlo : s.lowerBound (ixFormat (ixCols ix hfixed)) lower = .ok lo) (hhi : s.upperBound (ixFormat (ixCols ix hfixed)) upper = .ok hi)
    (hvisit : IxScan.visit s hi fuel lo = .ok (range conds))
    (hclean : IndexClean db t (fedConds conds (ix.map (·.name))) (range conds))
    {q₀ q : (indexScan db t conds (ix.map (·.name)) proj).State}
    (hstart : (indexScan db t conds (ix.map (·.name)) proj).start q₀ = .ok q) (htype : type = .min ∨ type = .max)
    (hcol : getColIdx (indexScan db t conds (ix.map (·.name)) proj).cols c = .ok col) :
    DeclinesOrAgrees (indexScan db t conds (ix.map (·.name)) proj) ⟨type, some c⟩ q
        ((scannedRecs db t conds (ix.map (·.name)) (range conds)).map (scanOut t.tab.cols proj).project) ↔
      ∀ last, ix.getLast? = some last → last.name = c.colName → scannedRecs db t conds (ix.map (·.name)) (range conds) = [] ∨
        BestAtEnd type (ixCols ix hfixed) ix last (scannedRecs db t conds (ix.map (·.name)) (range conds)) := by
  have hf := ixFormat_lawful hacc
  obtain ⟨s', h', L, Us, hrun', -, T, -⟩ := IxIndexHandle.run_create hf calls
  rw [hrun] at hrun'
  cases hrun'
  obtain ⟨es, hsub, hes⟩ := T.visit_sublist hf hlo hhi hvisit
  have hesKeys : ∀ e ∈ es, ∀ slot ∈ t.slots, slot.rid = e.2 → e.1.val = keyOf ix slot.bytes := fun e he =>
    hkeys e (((T.entries hf).mem_iff e).mp (hsub.mem he))
  obtain ⟨ms, hms, hasc, hmsKeys⟩ := @hits_ascending db t (range conds) ix hfixed (fedConds conds (ix.map (·.name))) es
    (T.ascending.sublist hsub) hesKeys hes
  obtain ⟨hruns, hbound⟩ := @indexScan_hands db t conds proj range _ hrange hclean q₀ q hstart
  by_cases hname : (ix.map (·.name)).getLast? = some c.colName
  · obtain ⟨q', hfast⟩ := tryIndexMinMax_eq hruns hbound rfl hname hcol htype
    obtain ⟨last, hlast, heq⟩ : ∃ last, ix.getLast? = some last ∧ last.name = c.colName := by
      rw [List.getLast?_map] at hname
      exact Option.map_eq_some_iff.mp hname
    obtain ⟨hmem, hnamed⟩ := getColIdx_eq_ok hcol
    have hcolName : col.name = c.colName := (of_decide_eq_true hnamed).1
    obtain ⟨last', hlast', hname', htype', hcell⟩ := scanOut_cellValue hmem
    have hlastMem : last ∈ ix := List.mem_of_getLast? hlast
    have hsame : last' = last := List.inj_on_of_nodup_map t.distinct hlast' (hcols last hlastMem) (by rw [hname', hcolName, heq])
    subst hsame
    have hval := hcell (hfixed last' hlastMem)
    have hiff : DeclinesOrAgrees (indexScan db t conds (ix.map (·.name)) proj) ⟨type, some c⟩ q
        ((scannedRecs db t conds (ix.map (·.name)) (range conds)).map (scanOut t.tab.cols proj).project) ↔
          (scannedRecs db t conds (ix.map (·.name)) (range conds) = [] ∨
            BestAtEnd type (ixCols ix hfixed) ix last' (scannedRecs db t conds (ix.map (·.name)) (range conds))) := by
      have hvals : ((scannedRecs db t conds (ix.map (·.name)) (range conds)).map (scanOut t.tab.cols proj).project).map (cellValue col) =
          (scannedRecs db t conds (ix.map (·.name)) (range conds)).map (cellValue last') := by
        rw [List.map_map]
        exact List.map_congr_left fun rec hrec => hval rec (length_of_scanned hrec)
      have hends : ∀ m ∈ ms, cellValue col ((scanOut t.tab.cols proj).project m.2) = cellValue last' m.2 := fun m hm =>
        hval m.2 (@length_of_scanned db t conds (range conds) (ix.map (·.name)) m.2 (by rw [scannedRecs, hms]; exact List.mem_map_of_mem hm))
      have hfloat' : col.type ≠ .float := htype' ▸ hfloat last' hlastMem
      rw [declinesOrAgrees_iff hfast hcol htype hfloat', hvals, endOf_map, scannedRecs, hms, endOf_map]
      cases hm : endOf type ms with
      | none =>
        rw [endOf_eq_none.mp hm]
        exact iff_of_true (fun rec hrec => by cases hrec) (Or.inl rfl)
      | some m =>
        have hmem := mem_of_endOf hm
        have hne : ms.map (·.2) ≠ [] := fun hnil => List.ne_nil_of_mem hmem (List.map_eq_nil_iff.mp hnil)
        rw [or_iff_right hne, ← endOf_best_iff hfixed hacc (hfloat last' hlastMem) hasc hmsKeys hm, ← hends m hmem]
        exact ⟨fun h => h _ rfl, fun h rec hrec => by cases hrec; exact h⟩
    rw [hiff]
    refine ⟨fun h last hlast' _ => ?_, fun h => h last' hlast heq⟩
    rw [hlast, Option.some.injEq] at hlast'
    rw [← hlast']
    exact h
  · have hdecline : DeclinesOrAgrees (indexScan db t conds (ix.map (·.name)) proj) ⟨type, some c⟩ q
        ((scannedRecs db t conds (ix.map (·.name)) (range conds)).map (scanOut t.tab.cols proj).project) := by
      refine ⟨none, q, ?_, fun w hw => (by cases hw)⟩
      unfold tryIndexMinMax
      exact if_neg hname
    refine iff_of_true hdecline fun last hlast heq => absurd ?_ hname
    rw [List.getLast?_map, hlast, ← heq]
    rfl

end Main

/-! ### A table with an index on both columns -/

section Examples

/-- `a INT, b INT`. -/
def pairCols : List Catalog.ColMeta := [⟨"t", "a", .int, 4, 0, false⟩, ⟨"t", "b", .int, 4, 4, false⟩]

theorem pairCols_fixed : ∀ c ∈ pairCols, c.type ≠ .string → c.len = 4 := by decide

def pairRow (a b : UInt8) : Bytes := [a, 0, 0, 0, b, 0, 0, 0]

/-- The rows (1, 0), (2, 5) and (3, 4), with the entries of an index between the bounds of the conditions. -/
def pairTable (entries : List (Option Rid)) : Table where
  tab := ⟨"t", pairCols, []⟩
  slots := [⟨⟨1, 0⟩, pairRow 1 0, none⟩, ⟨⟨1, 1⟩, pairRow 2 5, none⟩, ⟨⟨1, 2⟩, pairRow 3 4, none⟩]
  range _ := some fun _ => entries
  name_ne := by decide
  cols_ne := by decide
  laid := by decide
  named := by decide
  distinct := by decide
  sized := by decide

def pairDb (entries : List (Option Rid)) : Db := ⟨[pairTable entries], none⟩

def pairKey (k : Bytes) (h : k.length = 8) : IxKey (ixCols pairCols pairCols_fixed) := ⟨k, h, IntChar.nanFree (by decide) k⟩

/-- The entries of the rows in the index on `a` and `b`. -/
def pairEntries : List (IxKey (ixCols pairCols pairCols_fixed) × Rid) :=
  [(pairKey (pairRow 1 0) rfl, ⟨1, 0⟩), (pairKey (pairRow 2 5) rfl, ⟨1, 1⟩), (pairKey (pairRow 3 4) rfl, ⟨1, 2⟩)]

/-- The bounds that the conditions `a >= n` set: `n` and the least INT, and twice the greatest INT. -/
def fromA (n : UInt8) : IxKey (ixCols pairCols pairCols_fixed) := pairKey [n, 0, 0, 0, 0, 0, 0, 128] rfl

def toEnd : IxKey (ixCols pairCols pairCols_fixed) := pairKey [255, 255, 255, 127, 255, 255, 255, 127] rfl

/-- The index is made of the entries of the rows, and a scan from `a >= n` on visits these entries. -/
def PairIndex (n : UInt8) (entries : List (Option Rid)) (s : IxIndexHandle (IxKey (ixCols pairCols pairCols_fixed)))
    (h : IxHistory (IxKey (ixCols pairCols pairCols_fixed))) (lo hi : Iid) : Prop :=
  create.run (ixFormat (ixCols pairCols pairCols_fixed)) (pairEntries.map fun e => .insertEntry e.1 e.2) = .ok (s, h) ∧
    s.lowerBound (ixFormat (ixCols pairCols pairCols_fixed)) (fromA n) = .ok lo ∧
    s.upperBound (ixFormat (ixCols pairCols pairCols_fixed)) toEnd = .ok hi ∧ IxScan.visit s hi 3 lo = .ok entries

/-- What a scan of that index visits. -/
def visitPairs (n : UInt8) : Except IxError (List (Option Rid)) := do
  let p ← create.run (ixFormat (ixCols pairCols pairCols_fixed)) (pairEntries.map fun e => .insertEntry e.1 e.2)
  let lo ← p.1.lowerBound (ixFormat (ixCols pairCols pairCols_fixed)) (fromA n)
  let hi ← p.1.upperBound (ixFormat (ixCols pairCols pairCols_fixed)) toEnd
  IxScan.visit p.1 hi 3 lo

theorem exists_pairIndex {n : UInt8} {entries : List (Option Rid)} (hvisit : visitPairs n = .ok entries) :
    ∃ s h lo hi, PairIndex n entries s h lo hi := by
  obtain ⟨p, hrun, hvisit⟩ := Runs.ok_of_bind hvisit
  obtain ⟨lo, hlo, hvisit⟩ := Runs.ok_of_bind hvisit
  obtain ⟨hi, hhi, hvisit⟩ := Runs.ok_of_bind hvisit
  exact ⟨p.1, p.2, lo, hi, hrun, hlo, hhi, hvisit⟩

/-- The keys of that index are those of the rows. -/
theorem PairIndex.keys {n : UInt8} {entries : List (Option Rid)} {s : IxIndexHandle (IxKey (ixCols pairCols pairCols_fixed))}
    {h : IxHistory (IxKey (ixCols pairCols pairCols_fixed))} {lo hi : Iid} (hix : PairIndex n entries s h lo hi) :
    ∀ e, InTree s e → ∀ slot ∈ (pairTable entries).slots, slot.rid = e.2 → e.1.val = keyOf pairCols slot.bytes := by
  have hf := ixFormat_lawful (show IxAccepts (ixCols pairCols pairCols_fixed) by decide)
  have hdis : pairEntries.Pairwise fun a b => (ixFormat (ixCols pairCols pairCols_fixed)).compare a.1 b.1 ≠ 0 := by decide
  obtain ⟨t, h', M, Vs, hrun, T, hmem⟩ := run_insertAll (IxIndexHandle.Tree.create _) hf pairEntries (by simp)
    (hdis.imp fun h hs => h ((hf.eq_iff _ _).mpr hs))
  rw [hix.1] at hrun
  cases hrun
  have hall : ∀ e ∈ pairEntries, ∀ slot ∈ (pairTable entries).slots, slot.rid = e.2 → e.1.val = keyOf pairCols slot.bytes := by
    show ∀ e ∈ pairEntries, ∀ slot ∈ (pairTable []).slots, slot.rid = e.2 → e.1.val = keyOf pairCols slot.bytes
    decide
  intro e he
  rcases (hmem e).mp (((T.entries hf).mem_iff e).mpr he) with he | he
  · exact hall e he
  · simp at he

/-- `a >= n`. -/
def geCond (n : UInt8) : Condition := ⟨⟨"t", "a"⟩, .ge, .val (.int n.toNat) [n, 0, 0, 0]⟩

/-- The scan for `a >= n` of the table. -/
def pairScan (n : UInt8) (entries : List (Option Rid)) : Executor :=
  indexScan (pairDb entries) (pairTable entries) [geCond n] (pairCols.map (·.name)) []

/-- `SELECT MIN(b) FROM t WHERE a >= 1`: the first row of the index has the least `b`. -/
theorem index_min_max_iff_pair : ∃ q, DeclinesOrAgrees (pairScan 1 [some ⟨1, 0⟩, some ⟨1, 1⟩, some ⟨1, 2⟩]) ⟨.min, some ⟨"t", "b"⟩⟩ q
    [pairRow 1 0, pairRow 2 5, pairRow 3 4] := by
  obtain ⟨s, h, lo, hi, hix⟩ := @exists_pairIndex 1 [some ⟨1, 0⟩, some ⟨1, 1⟩, some ⟨1, 2⟩] (by decide)
  have hrecs : scannedRecs (pairDb [some ⟨1, 0⟩, some ⟨1, 1⟩, some ⟨1, 2⟩]) (pairTable [some ⟨1, 0⟩, some ⟨1, 1⟩, some ⟨1, 2⟩])
      [geCond 1] (pairCols.map (·.name)) [some ⟨1, 0⟩, some ⟨1, 1⟩, some ⟨1, 2⟩] = [pairRow 1 0, pairRow 2 5, pairRow 3 4] := by
    decide
  have hiff := @index_min_max_iff (pairDb [some ⟨1, 0⟩, some ⟨1, 1⟩, some ⟨1, 2⟩]) (pairTable [some ⟨1, 0⟩, some ⟨1, 1⟩, some ⟨1, 2⟩])
    [geCond 1] [] pairCols (fun _ => [some ⟨1, 0⟩, some ⟨1, 1⟩, some ⟨1, 2⟩]) .min ⟨"t", "b"⟩ ⟨"t", "b", .int, 4, 4, false⟩ pairCols_fixed
    (by decide) (fun _ h => h) (by decide) _ s h hix.1 hix.keys rfl _ _ lo hi 3 hix.2.1 hix.2.2.1 hix.2.2.2
    (fun entry _ rec _ => ⟨true, rfl⟩) ([], none) ([some ⟨1, 0⟩, some ⟨1, 1⟩, some ⟨1, 2⟩], some (pairRow 1 0)) rfl (Or.inl rfl) rfl
  rw [hrecs] at hiff
  refine ⟨_, hiff.mpr fun last hlast _ => Or.inr ?_⟩
  cases hlast
  refine ⟨pairRow 1 0, List.mem_cons_self .., ?_⟩
  decide

/-- `SELECT MIN(b) FROM t WHERE a >= 2`: the first row of the index is (2, 5), the least `b` is 4. -/
theorem not_index_min_max : ∃ s h lo hi, PairIndex 2 [some ⟨1, 1⟩, some ⟨1, 2⟩] s h lo hi ∧
    ∃ q : (pairScan 2 [some ⟨1, 1⟩, some ⟨1, 2⟩]).State, (∃ q₀, (pairScan 2 [some ⟨1, 1⟩, some ⟨1, 2⟩]).start q₀ = .ok q) ∧
      (pairScan 2 [some ⟨1, 1⟩, some ⟨1, 2⟩]).toIter.Runs q [.ok (some (pairRow 2 5)), .ok (some (pairRow 3 4))] ∧
      ¬DeclinesOrAgrees (pairScan 2 [some ⟨1, 1⟩, some ⟨1, 2⟩]) ⟨.min, some ⟨"t", "b"⟩⟩ q [pairRow 2 5, pairRow 3 4] := by
  obtain ⟨s, h, lo, hi, hix⟩ := @exists_pairIndex 2 [some ⟨1, 1⟩, some ⟨1, 2⟩] (by decide)
  obtain ⟨q, hq, hruns⟩ := @indexScan_start (pairDb [some ⟨1, 1⟩, some ⟨1, 2⟩]) (pairTable [some ⟨1, 1⟩, some ⟨1, 2⟩]) [geCond 2] []
    (pairCols.map (·.name)) _ rfl (fun entry _ rec _ => ⟨true, rfl⟩) ([], none)
  cases hq
  refine ⟨s, h, lo, hi, hix, _, ⟨([], none), rfl⟩, hruns, ?_⟩
  rintro ⟨v, q', hfast, hagree⟩
  have hvalue : (tryIndexMinMax (pairScan 2 [some ⟨1, 1⟩, some ⟨1, 2⟩]) ⟨.min, some ⟨"t", "b"⟩⟩
      ([some ⟨1, 1⟩, some ⟨1, 2⟩], some (pairRow 2 5))).map Prod.fst = .ok (some (.int 5)) := by decide
  have hplain : computeSingleAggregation pairCols ⟨.min, some ⟨"t", "b"⟩⟩ [pairRow 2 5, pairRow 3 4] = .ok (.int 4) := by decide
  rw [hfast] at hvalue
  cases hvalue
  exact absurd (hplain.symm.trans (hagree _ rfl)) (by decide)

end Examples

end Sql
end Rmdb
