import Rmdb.Theorems.Index.Shape

/-! Scans: a position of `IxScan` is the number of an entry in the leaves, and `next` goes from one number to the next. -/

namespace Rmdb
open Ladder

namespace IxIndexHandle
variable {K : Type} [Preorder K]

/-! ### Positions -/

/-- The positions of all entries of a level, in order. -/
def slots (L : IxLevel K) : List Iid := L.flatMap fun b => (List.range b.entries.length).map (Iid.mk b.id)

/-- The position behind the last entry. -/
def endIid (s : IxIndexHandle K) (L : IxLevel K) : Iid :=
  if s.lastLeaf = ixNoPage then ⟨ixLeafHeaderPage, 0⟩ else ⟨s.lastLeaf, (L.getLast?.map (·.entries.length)).getD 0⟩

/-- The position of entry `i`. -/
def iidFrom (s : IxIndexHandle K) (L : IxLevel K) (i : Nat) : Iid := (slots L)[i]?.getD (endIid s L)

omit [Preorder K] in
theorem length_slots (L : IxLevel K) : (slots L).length = (flat L).length := by
  induction L with
  | nil => rfl
  | cons b L ih => simpa [slots] using ih

omit [Preorder K] in
theorem slots_append (A B : IxLevel K) : slots (A ++ B) = slots A ++ slots B := by simp [slots]

omit [Preorder K] in
theorem slots_get {A B : IxLevel K} {b : Block Int K Rid} {j : Nat} (hj : j < b.entries.length) :
    (slots (A ++ b :: B))[(flat A).length + j]? = some ⟨b.id, j⟩ := by
  rw [slots_append, List.getElem?_append_right (by rw [length_slots]; omega), length_slots, Nat.add_sub_cancel_left]
  show ((List.range b.entries.length).map (Iid.mk b.id) ++ slots B)[j]? = _
  rw [List.getElem?_append_left (by simpa using hj)]
  simp [hj]

omit [Preorder K] in
theorem mem_slots {L : IxLevel K} {i : Iid} : i ∈ slots L ↔ ∃ b ∈ L, i.pageNo = b.id ∧ i.slotNo < b.entries.length := by
  simp only [slots, List.mem_flatMap, List.mem_map, List.mem_range]
  constructor
  · rintro ⟨b, hb, j, hj, rfl⟩
    exact ⟨b, hb, rfl, hj⟩
  · rintro ⟨b, hb, hp, hj⟩
    exact ⟨b, hb, i.slotNo, hj, by rw [← hp]⟩

omit [Preorder K] in
theorem slots_nodup {L : IxLevel K} (h : (ids L).Nodup) : (slots L).Nodup := by
  rw [slots, List.nodup_flatMap]
  refine ⟨fun b _ => ?_, ?_⟩
  · exact List.nodup_range.map fun i j hij => (Iid.mk.inj hij).2
  · have hp : L.Pairwise fun a b => a.id ≠ b.id := List.pairwise_map.mp h
    refine hp.imp fun {a b} hne => ?_
    intro x hx hy
    simp only [List.mem_map] at hx hy
    obtain ⟨i, -, rfl⟩ := hx
    obtain ⟨j, -, hij⟩ := hy
    exact hne (Iid.mk.inj hij).1.symm

section Positions
variable {f : IxFormat K} {s : IxIndexHandle K} {L : IxLevel K} {Us : List (IxLevel K)} (T : Tree f s L Us)
include T

/-- The header names no leaves, or the last leaf is the last one of the level. -/
theorem Tree.lastLeaf : s.lastLeaf = ixNoPage ∨ ∃ A b, L = A ++ [b] ∧ s.lastLeaf = b.id := by
  rcases T.leaves.ends with ⟨-, h⟩ | ⟨-, h⟩
  · right
    rcases List.eq_nil_or_concat L with rfl | ⟨A, b, rfl⟩
    · exact absurd rfl T.tower.nonempty
    · refine ⟨A, b, by simp, ?_⟩
      have : ids (A.concat b) = ids A ++ [b.id] := by simp
      rw [this, List.getLast?_concat, Option.some.injEq] at h
      exact h.symm
  · exact Or.inl h

theorem Tree.two_le {b : Block Int K Rid} (hb : b ∈ L) : 2 ≤ b.id :=
  (T.tower.bound _ (List.mem_append_left _ (mem_ids_of_mem hb))).1

theorem Tree.block_eq {a b : Block Int K Rid} (ha : a ∈ L) (hb : b ∈ L) (h : a.id = b.id) : a = b :=
  List.inj_on_of_nodup_map (List.nodup_append.mp T.tower.nodup).1 ha hb h

theorem Tree.endIid_notMem : endIid s L ∉ slots L := by
  rw [mem_slots]
  rintro ⟨b, hb, hp, hj⟩
  unfold endIid at hp hj
  rcases T.lastLeaf with hno | ⟨A, c, rfl, hlast⟩
  · rw [if_pos hno] at hp
    have := T.two_le hb
    simp only [ixLeafHeaderPage] at hp
    omega
  · have hc2 := T.two_le (b := c) (by simp)
    have hne : ¬s.lastLeaf = ixNoPage := by
      rw [hlast, ixNoPage]
      omega
    rw [if_neg hne] at hp hj
    have : c = b := T.block_eq (by simp) hb (hlast.symm.trans hp)
    subst this
    simp at hj

/-- Different numbers are different positions. -/
theorem Tree.iidFrom_inj {i j : Nat} (hi : i ≤ (flat L).length) (hj : j ≤ (flat L).length)
    (h : iidFrom s L i = iidFrom s L j) : i = j := by
  have hd := slots_nodup (List.nodup_append.mp T.tower.nodup).1
  have hlen := length_slots L
  have hend := T.endIid_notMem
  have hget : ∀ k, k < (slots L).length → iidFrom s L k ∈ slots L := fun k hk => by
    rw [iidFrom, List.getElem?_eq_getElem hk, Option.getD_some]
    exact List.getElem_mem hk
  have hout : ∀ k, (slots L).length ≤ k → iidFrom s L k = endIid s L := fun k hk => by
    rw [iidFrom, List.getElem?_eq_none hk, Option.getD_none]
  by_cases hi' : i < (slots L).length <;> by_cases hj' : j < (slots L).length
  · rw [iidFrom, iidFrom, List.getElem?_eq_getElem hi', List.getElem?_eq_getElem hj', Option.getD_some, Option.getD_some] at h
    exact (List.Nodup.getElem_inj_iff hd).mp h
  · rw [hout j (by omega)] at h
    exact absurd (h ▸ hget i hi') hend
  · rw [hout i (by omega)] at h
    exact absurd (h ▸ hget j hj') hend
  · omega

/-- `lower_bound` and `upper_bound` give the position of the entry at slot `pos` of a leaf, or of the one behind its last
    entry. -/
theorem Tree.iidAt_eq (hf : f.Lawful) {A B : IxLevel K} {n : Block Int K Rid} {m : IxNode K} {pos : Nat} (hL : L = A ++ n :: B)
    (hm : s.pages n.id = some m) (hpairs : m.pairs = n.entries) (hpos : pos ≤ n.entries.length) :
    s.iidAt n.id m pos = iidFrom s L ((flat A).length + pos) := by
  subst hL
  have hsize : m.size = n.entries.length := by rw [IxNode.size, hpairs]
  have hn2 := T.two_le (b := n) (by simp)
  unfold iidAt
  rw [hsize]
  by_cases hend : pos = n.entries.length
  · rw [if_pos hend]
    have hring := T.leaves.ring
    rw [ids_append, ids_cons, Ring.chain_append] at hring
    have hnext := hring.2.next_first
    have hmnext : s.nextOf n.id = some m.nextLeaf := by simp [nextOf, hm]
    rw [hmnext, Option.some.injEq] at hnext
    cases B with
    | nil =>
      have hout : iidFrom s (A ++ [n]) ((flat A).length + pos) = endIid s (A ++ [n]) := by
        rw [iidFrom, List.getElem?_eq_none, Option.getD_none]
        rw [length_slots, hend]
        simp
      rw [hout]
      rcases T.lastLeaf with hno | ⟨A', c, hc, hlast⟩
      · rw [if_neg (by rw [hno, ixNoPage]; omega), endIid, if_pos hno, hnext]
        rfl
      · obtain ⟨rfl, rfl⟩ : A = A' ∧ n = c := by simpa using List.append_inj' hc rfl
        rw [if_pos hlast.symm, endIid, if_neg (by rw [hlast, ixNoPage]; omega), hlast]
        simp [hend]
    | cons b B =>
      have hne : n.id ≠ s.lastLeaf := by
        rcases T.lastLeaf with hno | ⟨A', c, hc, hlast⟩
        · rw [hno, ixNoPage]
          omega
        · intro heq
          have hd := (List.nodup_append.mp T.tower.nodup).1
          have hcmem : c ∈ b :: B := by
            rcases List.eq_nil_or_concat (b :: B) with h | ⟨B', z, h⟩
            · cases h
            · rw [List.concat_eq_append] at h
              rw [h, ← List.cons_append, ← List.append_assoc] at hc
              rw [h, List.singleton_inj.mp (List.append_inj' hc rfl).2]
              simp
          rw [ids_append, ids_cons] at hd
          have := (List.nodup_append.mp hd).2.1
          rw [List.nodup_cons] at this
          exact this.1 (heq ▸ hlast ▸ mem_ids_of_mem hcmem)
      rw [if_neg hne, hnext]
      have hb : b.entries ≠ [] := by
        rcases T.filled.dense hf with ⟨c, hc⟩ | h
        · obtain ⟨-, hnil, -⟩ := alone hc
          cases hnil
        · exact h b (by simp)
      have hget := slots_get (A := A ++ [n]) (b := b) (B := B) (j := 0) (List.length_pos_of_ne_nil hb)
      have hidx : (flat (A ++ [n])).length + 0 = (flat A).length + pos := by simp [hend]
      rw [hidx] at hget
      rw [iidFrom, show A ++ n :: b :: B = (A ++ [n]) ++ b :: B by simp, hget]
      rfl
  · rw [if_neg hend, iidFrom, slots_get (by omega)]
    rfl

end Positions

/-! ### The walk -/

section Walk
variable {f : IxFormat K} (hf : f.Lawful) {s : IxIndexHandle K} {L : IxLevel K} {Us : List (IxLevel K)} (T : Tree f s L Us)
include T

/-- The leaf and the slot of an entry. -/
theorem Tree.locate {i : Nat} {e : K × Rid} (he : (flat L)[i]? = some e) :
    ∃ A b B E F m, L = A ++ b :: B ∧ b.entries = E ++ e :: F ∧ i = (flat A).length + E.length ∧
      iidFrom s L i = ⟨b.id, E.length⟩ ∧ s.pages b.id = some m ∧ m.isLeaf = true ∧ m.pairs = E ++ e :: F := by
  have hi : i < (flat L).length := (List.getElem?_eq_some_iff.mp he).1
  obtain ⟨A, b, B, E, F, hL, hb, htake, -⟩ := flat_split (eq_take_cons_drop he)
  obtain ⟨m, hm, hleaf, hpairs⟩ := content_eq_some.mp (T.tower.stored b (by simp [hL]))
  have hidx : i = (flat A).length + E.length := by
    have := congrArg List.length htake
    simp only [List.length_take, List.length_append] at this
    omega
  refine ⟨A, b, B, E, F, m, hL, hb, hidx, ?_, hm, hleaf, hpairs.trans hb⟩
  rw [iidFrom, hL, hidx, slots_get (by simp [hb])]
  rfl

theorem Tree.rid_eq {i : Nat} {e : K × Rid} (he : (flat L)[i]? = some e) {stop : Iid} (hne : iidFrom s L i ≠ stop) :
    IxScan.rid s (iidFrom s L i) stop = .ok e.2 := by
  obtain ⟨A, b, B, E, F, m, -, -, -, hiid, hm, hleaf, hpairs⟩ := T.locate he
  rw [IxScan.rid, if_neg hne, hiid, fetchNode_ok hm, ok_bind, hleaf]
  simp [hpairs]

include hf

/-- `IxScan::next` from entry `i`. -/
theorem Tree.next_eq {i : Nat} {e : K × Rid} (he : (flat L)[i]? = some e) {stop : Iid} (hne : iidFrom s L i ≠ stop) :
    IxScan.next s (iidFrom s L i) stop = .ok (if i + 1 < (flat L).length then iidFrom s L (i + 1) else stop) := by
  obtain ⟨A, b, B, E, F, m, hL, hb, hi, hiid, hm, hleaf, hpairs⟩ := T.locate he
  have hsize : m.size = E.length + 1 + F.length := by
    simp only [IxNode.size, hpairs, List.length_append, List.length_cons]
    omega
  have hlen : (flat L).length = (flat A).length + (E.length + 1 + F.length) + (flat B).length := by
    simp only [hL, flat_append, flat_cons, hb, List.length_append, List.length_cons]
    omega
  rw [IxScan.next, if_neg hne, hiid, fetchNode_ok hm, ok_bind, hleaf]
  simp only [Bool.not_true, Bool.false_eq_true, if_false]
  rw [if_neg (by omega)]
  by_cases hF : F = []
  · subst hF
    rw [if_pos (by rw [hsize]; simp), IxScan.nextLeaf]
    have hring := T.leaves.ring
    rw [hL, ids_append, ids_cons, Ring.chain_append] at hring
    have hnext := hring.2.next_first
    have hmnext : s.nextOf b.id = some m.nextLeaf := by simp [nextOf, hm]
    rw [hmnext, Option.some.injEq] at hnext
    cases B with
    | nil =>
      rw [if_neg, if_neg]
      · rw [hlen, hi, flat_nil, List.length_nil]
        omega
      · rw [hnext]
        exact fun h => h.2 rfl
    | cons c B =>
      have hc2 := T.two_le (b := c) (by simp [hL])
      have hcne : c.entries ≠ [] := by
        rcases T.filled.dense hf with ⟨d, hd⟩ | h
        · rw [hL] at hd
          obtain ⟨-, hnil, -⟩ := alone hd
          cases hnil
        · exact h c (by simp [hL])
      have hpos := List.length_pos_of_ne_nil hcne
      have hget := slots_get (A := A ++ [b]) (b := c) (B := B) (j := 0) hpos
      have hidx : (flat (A ++ [b])).length + 0 = i + 1 := by simp [hb, hi]; omega
      rw [hidx] at hget
      have hnext' : m.nextLeaf = c.id := hnext
      rw [if_pos, if_pos, iidFrom, hL, show A ++ b :: c :: B = (A ++ [b]) ++ c :: B by simp, hget, hnext']
      · rfl
      · rw [hlen, hi]
        simp only [List.length_nil, flat_cons, List.length_append]
        omega
      · rw [hnext', ixNoPage, ixLeafHeaderPage]
        omega
  · have hpos := List.length_pos_of_ne_nil hF
    have hget := slots_get (A := A) (b := b) (B := B) (j := E.length + 1) (by
      simp only [hb, List.length_append, List.length_cons]
      omega)
    rw [if_neg (by rw [hsize]; omega), if_pos (by rw [hlen, hi]; omega), iidFrom, hL, hi, Nat.add_assoc, hget]
    rfl

/-- A scan from entry `i` to entry `j` returns the values of the entries in between. -/
theorem Tree.collect_eq {i j fuel : Nat} (hij : i ≤ j) (hj : j ≤ (flat L).length) (hfuel : j - i ≤ fuel) :
    IxScan.collect s (iidFrom s L j) fuel (iidFrom s L i) = .ok ((((flat L).take j).drop i).map (·.2)) := by
  induction fuel generalizing i with
  | zero =>
    obtain rfl : i = j := by omega
    simp [IxScan.collect]
  | succ fuel ih =>
    by_cases hEq : i = j
    · subst hEq
      simp [IxScan.collect]
    · have hne : iidFrom s L i ≠ iidFrom s L j := fun h => hEq (T.iidFrom_inj (by omega) hj h)
      have hi : i < (flat L).length := by omega
      have he : (flat L)[i]? = some (flat L)[i] := List.getElem?_eq_getElem hi
      have hnext : (if i + 1 < (flat L).length then iidFrom s L (i + 1) else iidFrom s L j) = iidFrom s L (i + 1) := by
        split
        · rfl
        · rw [show j = i + 1 by omega]
      rw [IxScan.collect, if_neg hne, T.rid_eq he hne, ok_bind, T.next_eq hf he hne, ok_bind, hnext,
        ih (by omega) (by omega), ok_bind]
      have hdrop : ((flat L).take j).drop i = (flat L)[i] :: ((flat L).take j).drop (i + 1) := by
        rw [List.drop_eq_getElem_cons (by rw [List.length_take]; omega), List.getElem_take]
      rw [hdrop, List.map_cons]

/-- `lower_bound` is the position of the first entry that is not below the key. -/
theorem Tree.lowerBound_eq (key : K) : ∃ i, s.lowerBound f key = .ok (iidFrom s L i) ∧ i ≤ (flat L).length ∧
    (∀ x ∈ (flat L).take i, x.1 < key) ∧ ∀ x ∈ (flat L).drop i, key ≤ x.1 := by
  obtain ⟨A, n, B, m, E, F, hL, hfind, hm, hleaf, hpairs, hE, hF, hcut⟩ := T.cut hf key
  have hE' : ∀ x ∈ E, x.1 < key := fun x hx => hE x (List.mem_append_right _ hx)
  have hF' : ∀ x ∈ F, key < x.1 := fun x hx => hF x (List.mem_append_left _ hx)
  obtain ⟨G, hn, hpos, hG⟩ : ∃ G, n.entries = E ++ G ∧ m.lowerBound f key = E.length ∧ ∀ x ∈ G ++ flat B, key ≤ x.1 := by
    rcases hcut with hcut | ⟨e, he, hcut⟩
    · exact ⟨F, hcut, IxNode.lowerBound_absent hf hE' hF' (hpairs.trans hcut), fun x hx => (hF x hx).le⟩
    · refine ⟨e :: F, hcut, IxNode.lowerBound_present hf hE' hF' he (hpairs.trans hcut), fun x hx => ?_⟩
      rcases List.mem_cons.mp hx with rfl | hx
      · exact he.2
      · exact (hF x hx).le
  have hflat : flat L = (flat A ++ E) ++ (G ++ flat B) := by simp [hL, hn]
  have hidx : (flat A ++ E).length = (flat A).length + E.length := List.length_append
  refine ⟨(flat A).length + E.length, ?_, ?_, ?_, ?_⟩
  · rw [IxIndexHandle.lowerBound, hfind, ok_bind, fetchNode_ok hm, ok_bind, hpos,
      T.iidAt_eq hf hL hm hpairs (by simp [hn])]
  · rw [hflat, List.length_append]
    omega
  · rw [hflat, ← hidx, List.take_left]
    exact hE
  · rw [hflat, ← hidx, List.drop_left]
    exact hG

/-- `upper_bound` is the position of the first entry above the key. -/
theorem Tree.upperBound_eq (key : K) : ∃ i, s.upperBound f key = .ok (iidFrom s L i) ∧ i ≤ (flat L).length ∧
    (∀ x ∈ (flat L).take i, x.1 ≤ key) ∧ ∀ x ∈ (flat L).drop i, key < x.1 := by
  obtain ⟨A, n, B, m, E, F, hL, hfind, hm, hleaf, hpairs, hE, hF, hcut⟩ := T.cut hf key
  obtain ⟨G, hn, hG⟩ : ∃ G, n.entries = G ++ F ∧ ∀ x ∈ flat A ++ G, x.1 ≤ key := by
    rcases hcut with hcut | ⟨e, he, hcut⟩
    · exact ⟨E, hcut, fun x hx => (hE x hx).le⟩
    · refine ⟨E ++ [e], by simp [hcut], fun x hx => ?_⟩
      rw [← List.append_assoc] at hx
      rcases List.mem_append.mp hx with hx | hx
      · exact (hE x hx).le
      · rw [List.mem_singleton] at hx
        exact hx ▸ he.1
  have hpos : m.upperBound f key = G.length := IxNode.upperBound_eq hf (hpairs.trans hn)
    (fun x hx => hG x (List.mem_append_right _ hx)) fun x hx => hF x (List.mem_append_left _ hx)
  have hflat : flat L = (flat A ++ G) ++ (F ++ flat B) := by simp [hL, hn]
  have hidx : (flat A ++ G).length = (flat A).length + G.length := List.length_append
  refine ⟨(flat A).length + G.length, ?_, ?_, ?_, ?_⟩
  · rw [IxIndexHandle.upperBound, hfind, ok_bind, fetchNode_ok hm, ok_bind, hpos,
      T.iidAt_eq hf hL hm hpairs (by simp [hn])]
  · rw [hflat, List.length_append]
    omega
  · rw [hflat, ← hidx, List.take_left]
    exact hG
  · rw [hflat, ← hidx, List.drop_left]
    exact hF

omit T in
/-- The entries from one bound to another are those between their positions. -/
theorem filter_range {es : List (K × Rid)} {lo hi : K} {i j : Nat} (hij : i ≤ j) (hlo : ∀ x ∈ es.take i, x.1 < lo)
    (hlo' : ∀ x ∈ es.drop i, lo ≤ x.1) (hhi : ∀ x ∈ es.take j, x.1 ≤ hi) (hhi' : ∀ x ∈ es.drop j, hi < x.1) :
    es.filter (fun e => f.compare lo e.1 ≤ 0 ∧ f.compare e.1 hi ≤ 0) = (es.take j).drop i := by
  have hsplit : es = es.take i ++ ((es.take j).drop i ++ es.drop j) := by
    have htake : (es.take j).take i = es.take i := by rw [List.take_take, Nat.min_eq_left hij]
    rw [← List.append_assoc, ← htake, List.take_append_drop, List.take_append_drop]
  have hleft : (es.take i).filter (fun e => f.compare lo e.1 ≤ 0 ∧ f.compare e.1 hi ≤ 0) = [] := by
    rw [List.filter_eq_nil_iff]
    intro x hx
    simp only [hf.le_iff, decide_eq_true_eq, not_and]
    exact fun h => absurd (hlo x hx) h.not_gt
  have hmid : ((es.take j).drop i).filter (fun e => f.compare lo e.1 ≤ 0 ∧ f.compare e.1 hi ≤ 0) = (es.take j).drop i := by
    rw [List.filter_eq_self]
    intro x hx
    simp only [hf.le_iff, decide_eq_true_eq]
    refine ⟨hlo' x ?_, hhi x (List.mem_of_mem_drop hx)⟩
    rw [List.drop_take] at hx
    exact List.mem_of_mem_take hx
  have hright : (es.drop j).filter (fun e => f.compare lo e.1 ≤ 0 ∧ f.compare e.1 hi ≤ 0) = [] := by
    rw [List.filter_eq_nil_iff]
    intro x hx
    simp only [hf.le_iff, decide_eq_true_eq, not_and]
    exact fun _ h => absurd (hhi' x hx) h.not_gt
  conv_lhs => rw [hsplit]
  rw [List.filter_append, List.filter_append, hleft, hmid, hright, List.append_nil, List.nil_append]

/-- A scan from `lower_bound(a)` to `upper_bound(b)` returns the values of the entries from `a` to `b`. -/
theorem Tree.scan_range {a b : K} (hab : a ≤ b) :
    ∃ lo hi, s.lowerBound f a = .ok lo ∧ s.upperBound f b = .ok hi ∧ ∀ fuel, (flat L).length ≤ fuel →
      IxScan.collect s hi fuel lo =
        .ok (((flat L).filter fun e => f.compare a e.1 ≤ 0 ∧ f.compare e.1 b ≤ 0).map (·.2)) := by
  obtain ⟨i, hi, hile, hlo, hlo'⟩ := T.lowerBound_eq hf a
  obtain ⟨j, hj, hjle, hhi, hhi'⟩ := T.upperBound_eq hf b
  -- an entry between the two positions the wrong way round would be above `b` and below `a`
  have hij : i ≤ j := by
    by_contra hji
    have hmem : (flat L)[j] ∈ (flat L).drop j := by
      rw [List.drop_eq_getElem_cons (by omega)]
      exact List.mem_cons_self
    have hmem' : (flat L)[j] ∈ (flat L).take i := List.mem_take_iff_getElem.mpr ⟨j, by omega, rfl⟩
    exact absurd (((hhi' _ hmem).trans (hlo _ hmem')).trans_le hab) (lt_irrefl b)
  refine ⟨_, _, hi, hj, fun fuel hfuel => ?_⟩
  rw [T.collect_eq hf hij hjle (by omega), filter_range hf hij hlo hlo' hhi hhi']

omit hf in
theorem Tree.lastLeaf_of_first (hne : s.firstLeaf ≠ ixNoPage) : s.lastLeaf ≠ ixNoPage ∧ ∃ A b, L = A ++ [b] ∧ s.lastLeaf = b.id := by
  have hlast := (T.leaves.ends.resolve_right fun h => hne h.1).2
  have h2 := (T.tower.bound s.lastLeaf (List.mem_append_left _ (List.mem_of_getLast? hlast))).1
  have hne' : s.lastLeaf ≠ ixNoPage := by
    rw [ixNoPage]
    omega
  exact ⟨hne', T.lastLeaf.resolve_left hne'⟩

omit hf in
theorem Tree.leafEnd_eq (hne : s.firstLeaf ≠ ixNoPage) : s.leafEnd = .ok (iidFrom s L (flat L).length) := by
  have hout : iidFrom s L (flat L).length = endIid s L := by
    rw [iidFrom, List.getElem?_eq_none (by rw [length_slots]), Option.getD_none]
  obtain ⟨hlast, A, b, rfl, hb⟩ := T.lastLeaf_of_first hne
  obtain ⟨m, hm, -, hpairs⟩ := content_eq_some.mp (T.tower.stored b (by simp))
  rw [hout, endIid, if_neg hlast, leafEnd, if_neg hlast, hb, fetchNode_ok hm, ok_bind, IxNode.size, hpairs]
  simp

/-- `leaf_begin` is the position of the first entry, when the header names leaves. -/
theorem Tree.leafBegin_eq (hne : s.firstLeaf ≠ ixNoPage) : s.leafBegin = .ok (iidFrom s L 0) := by
  have hfirst : s.firstLeaf = ixInitRootPage := (T.leaves.ends.resolve_right fun h => hne h.1).1
  obtain ⟨b, B, rfl⟩ := List.exists_cons_of_ne_nil T.tower.nonempty
  have hb : b.id = ixInitRootPage := by simpa using T.leaves.leftmost
  rw [leafBegin, if_neg hne, hfirst, ← hb]
  by_cases hnil : b.entries = []
  · -- an empty first leaf is the only one, so its slot 0 is the end too
    have hB : B = [] := by
      by_contra hB
      exact (T.filled.dense hf).all_of_ne (A := []) (Or.inr hB) b (by simp) hnil
    subst hB
    obtain ⟨hlast, A, c, hc, hcid⟩ := T.lastLeaf_of_first hne
    obtain ⟨rfl, -, rfl⟩ := alone (A := A) (u := c) (B := []) hc.symm
    rw [hcid] at hlast
    simp [iidFrom, slots, endIid, hlast, hcid, hnil]
  · have hget := slots_get (A := []) (b := b) (B := B) (j := 0) (List.length_pos_of_ne_nil hnil)
    simp only [List.nil_append, flat_nil, List.length_nil, Nat.zero_add] at hget
    rw [iidFrom, hget]
    rfl

/-- The scan over all leaves is right unless the header names no leaves and there are entries. -/
theorem Tree.scansAll_iff : ScansAll f s ↔ (s.firstLeaf = ixNoPage → flat L = []) := by
  constructor
  · rintro ⟨lo, hi, es, hlo, hhi, hes, fuel, hcol⟩ hno
    have hlast : s.lastLeaf = ixNoPage := by
      rcases T.leaves.ends with ⟨h, -⟩ | ⟨-, h⟩
      · rw [hno] at h
        cases h
      · exact h
    -- both ends of the scan are the same position
    have hsame : lo = hi := by
      rw [leafBegin, if_pos hno, hhi, Except.ok.injEq] at hlo
      exact hlo.symm
    have hnil : es = [] := by
      subst hsame
      cases fuel <;> simpa [IxScan.collect] using hcol
    rw [List.eq_nil_iff_forall_not_mem]
    intro e he
    have := (hes.mem_iff e).mpr ((T.entries hf).mem_iff e |>.mp he)
    rw [hnil] at this
    cases this
  · intro h
    by_cases hno : s.firstLeaf = ixNoPage
    · have hlast : s.lastLeaf = ixNoPage := by
        rcases T.leaves.ends with ⟨h, -⟩ | ⟨-, h⟩
        · rw [hno] at h
          cases h
        · exact h
      refine ⟨⟨ixNoPage, 0⟩, ⟨ixNoPage, 0⟩, flat L, by simp [leafBegin, leafEnd, hno, hlast], by simp [leafEnd, hlast],
        T.entries hf, 0, by simp [IxScan.collect, h hno]⟩
    · refine ⟨_, _, flat L, T.leafBegin_eq hf hno, T.leafEnd_eq hno, T.entries hf, (flat L).length, ?_⟩
      rw [T.collect_eq hf (Nat.zero_le _) le_rfl (by omega), List.take_length, List.drop_zero]

end Walk

/-! ### Scans over the whole index in runs -/

section Runs
variable [DecidableEq K] {f : IxFormat K} (hf : f.Lawful)
include hf

/-- What a call does to the leaves in the header and to the entries: `insert_entry` leaves the header alone, and no other
    call brings entries into an index without leaves in its header. -/
theorem step_first {s : IxIndexHandle K} {L : IxLevel K} {Us : List (IxLevel K)} (T : Tree f s L Us) (c : IxCall K) :
    ∃ t M Vs, s.step f c = .ok t ∧ Tree f t M Vs ∧
      (∀ key value, c = .insertEntry key value → t.firstLeaf = s.firstLeaf ∧ flat M ≠ []) ∧
      ((∀ key value, c ≠ .insertEntry key value) → (s.firstLeaf = ixNoPage → flat L = []) → t.firstLeaf = ixNoPage → flat M = []) := by
  -- a call other than `insert_entry` that leaves the index as it is
  have same : ∀ c : IxCall K, s.step f c = .ok s → (∀ key value, c ≠ .insertEntry key value) → ∃ t M Vs, s.step f c = .ok t ∧
      Tree f t M Vs ∧ (∀ key value, c = .insertEntry key value → t.firstLeaf = s.firstLeaf ∧ flat M ≠ []) ∧
      ((∀ key value, c ≠ .insertEntry key value) → (s.firstLeaf = ixNoPage → flat L = []) → t.firstLeaf = ixNoPage → flat M = []) :=
    fun c hrun hc => ⟨s, L, Us, hrun, T, fun key value h => absurd h (hc key value), fun _ => id⟩
  cases c with
  | insertEntry key value =>
    rcases insertEntry_spec hf T key value with ⟨⟨e, he, -⟩, hrun⟩ | ⟨-, t, q, M, Vs, hrun, hq, hins⟩
    · exact ⟨s, L, Us, by simp only [step, call, hrun, ok_bind], T, fun _ _ _ => ⟨rfl, List.ne_nil_of_mem he⟩,
        fun h => absurd rfl (h key value)⟩
    · obtain ⟨E, F, -, hM⟩ := hins.entries
      exact ⟨t, M, Vs, by simp only [step, call, hrun, ok_bind], hins.tree, fun _ _ _ => ⟨hins.first, by simp [hM]⟩,
        fun h => absurd rfl (h key value)⟩
  | deleteEntry key =>
    rcases deleteEntry_spec hf T key with ⟨-, hrun⟩ | ⟨⟨e, he, -⟩, t, M, Vs, hrun, hdel⟩
    · exact same _ (by simp only [step, call, hrun, ok_bind]) (by simp)
    · refine ⟨t, M, Vs, by simp only [step, call, hrun, ok_bind], hdel.tree, by simp, fun _ hnil hno => ?_⟩
      rcases hdel.first with h | ⟨-, h⟩
      · exact absurd (hnil (h ▸ hno)) (List.ne_nil_of_mem he)
      · exact h
  | getValue key =>
    exact same _ (by simp only [step, call, getValue_eq hf T, ok_bind]) (by simp)
  | isUnique key =>
    exact same _ (by simp only [step, call, isUnique_eq hf T, ok_bind]) (by simp)

/-- The scan stays right as long as entries go into an index whose header names leaves, and only then. -/
theorem scansAll_run {s : IxIndexHandle K} {L : IxLevel K} {Us : List (IxLevel K)} (T : Tree f s L Us) (hs : ScansAll f s)
    (cs : List (IxCall K)) :
    Runs.Always (step f) (ScansAll f) s cs ↔
      Runs.Throughout (step f) (fun s c => ∀ key value, c = .insertEntry key value → s.firstLeaf ≠ ixNoPage) s cs := by
  constructor
  · refine Runs.throughout_of_always (I := fun s => ∃ L Us, Tree f s L Us) ?_ ?_ ⟨L, Us, T⟩
    · rintro s c ⟨L, Us, T⟩ - hP t ht hscan
      obtain ⟨t', M, Vs, ht', T', hins, -⟩ := step_first hf T c
      rw [ht] at ht'
      cases ht'
      push Not at hP
      obtain ⟨key, value, rfl, hno⟩ := hP
      obtain ⟨hfirst, hne⟩ := hins key value rfl
      exact hne ((T'.scansAll_iff hf).mp hscan (hfirst.trans hno))
    · rintro s c t ⟨L, Us, T⟩ ht
      obtain ⟨t', M, Vs, ht', T', -⟩ := step_first hf T c
      rw [ht] at ht'
      cases ht'
      exact ⟨M, Vs, T'⟩
  · refine Runs.always_of_invariant (I := fun s => ∃ L Us, Tree f s L Us ∧ (s.firstLeaf = ixNoPage → flat L = [])) ?_ ?_
      ⟨L, Us, T, (T.scansAll_iff hf).mp hs⟩
    · rintro s c ⟨L, Us, T, hnil⟩ hP
      obtain ⟨t, M, Vs, ht, T', hins, hkeep⟩ := step_first hf T c
      refine ⟨t, ht, M, Vs, T', fun hno => ?_⟩
      by_cases hc : ∃ key value, c = .insertEntry key value
      · obtain ⟨key, value, rfl⟩ := hc
        exact absurd ((hins key value rfl).1 ▸ hno) (hP key value rfl)
      · push Not at hc
        exact hkeep hc hnil hno
    · rintro s ⟨L, Us, T, hnil⟩
      exact (T.scansAll_iff hf).mpr hnil

end Runs

end IxIndexHandle

open IxIndexHandle

/-- In every run of calls on a new index, a scan from `lower_bound(a)` to `upper_bound(b)` ends and returns the values of
    the entries from `a` to `b`, in key order. -/
theorem ixScan_range (cols : List IxCol) (hacc : IxAccepts cols) (cs : List (IxCall (IxKey cols))) (a b : IxKey cols)
    (hab : (ixFormat cols).compare a b ≤ 0) :
    ∃ s h es lo hi, (create : IxIndexHandle (IxKey cols)).run (ixFormat cols) cs = .ok (s, h) ∧ Entries (ixFormat cols) s es ∧
      s.lowerBound (ixFormat cols) a = .ok lo ∧ s.upperBound (ixFormat cols) b = .ok hi ∧
      ∀ fuel, es.length ≤ fuel → IxScan.collect s hi fuel lo =
        .ok ((es.filter fun e => (ixFormat cols).compare a e.1 ≤ 0 ∧ (ixFormat cols).compare e.1 b ≤ 0).map (·.2)) := by
  have hf := ixFormat_lawful hacc
  obtain ⟨s, h, L, Us, hrun, -, T, -⟩ := run_create hf cs
  obtain ⟨lo, hi, hlo, hhi, hcol⟩ := T.scan_range hf ((hf.le_iff a b).mp hab)
  exact ⟨s, h, flat L, lo, hi, hrun, T.entries hf, hlo, hhi, hcol⟩

theorem ixScan_range_int : (ixFormat [IxCol.int]).compare (intKey 0 0 0 0) (intKey 9 0 0 0) ≤ 0 ∧
    ∃ s h es lo hi, (create : IxIndexHandle (IxKey [IxCol.int])).run (ixFormat [IxCol.int])
        [.insertEntry (intKey 1 0 0 0) ⟨1, 0⟩] = .ok (s, h) ∧ Entries (ixFormat [IxCol.int]) s es ∧
      s.lowerBound (ixFormat [IxCol.int]) (intKey 0 0 0 0) = .ok lo ∧
      s.upperBound (ixFormat [IxCol.int]) (intKey 9 0 0 0) = .ok hi ∧
      ∀ fuel, es.length ≤ fuel → IxScan.collect s hi fuel lo =
        .ok ((es.filter fun e => (ixFormat [IxCol.int]).compare (intKey 0 0 0 0) e.1 ≤ 0 ∧
          (ixFormat [IxCol.int]).compare e.1 (intKey 9 0 0 0) ≤ 0).map (·.2)) :=
  ⟨by decide, ixScan_range [IxCol.int] (by decide) _ _ _ (by decide)⟩

/-- The scan over the whole index is right in every state of a run on a new index if and only if every `insert_entry` is
    made in a state whose header names a first leaf, that is, none is made after the index was emptied. -/
theorem ixScan_all_iff (cols : List IxCol) (hacc : IxAccepts cols) (cs : List (IxCall (IxKey cols))) :
    Runs.Always (step (ixFormat cols)) (ScansAll (ixFormat cols)) create cs ↔
      Runs.Throughout (step (ixFormat cols)) (fun s c => ∀ key value, c = .insertEntry key value → s.firstLeaf ≠ ixNoPage)
        create cs := by
  have hf := ixFormat_lawful hacc
  have T := Tree.create (ixFormat cols)
  exact scansAll_run hf T ((T.scansAll_iff hf).mpr fun _ => rfl) cs

theorem ixScan_all_iff_int :
    Runs.Always (step (ixFormat [IxCol.int])) (ScansAll (ixFormat [IxCol.int])) create [.insertEntry (intKey 1 0 0 0) ⟨1, 0⟩] :=
  (ixScan_all_iff [IxCol.int] (by decide) _).mpr ⟨fun _ _ _ => by decide, fun _ _ => trivial⟩

/-- An index that was emptied and filled again scans as empty. -/
theorem ixScan_all_refilled : ¬Runs.Always (step (ixFormat [IxCol.int])) (ScansAll (ixFormat [IxCol.int])) create
    [.insertEntry (intKey 1 0 0 0) ⟨1, 0⟩, .deleteEntry (intKey 1 0 0 0), .insertEntry (intKey 2 0 0 0) ⟨1, 1⟩] := by
  intro h
  have hf : (ixFormat [IxCol.int]).Lawful := ixFormat_lawful (by decide)
  have T := Tree.create (ixFormat [IxCol.int])
  have hP := (scansAll_run hf T ((T.scansAll_iff hf).mpr fun _ => rfl) _).mp h
  obtain ⟨s, hs, hfirst⟩ := Runs.exec_eval (step (ixFormat [IxCol.int])) create
    [.insertEntry (intKey 1 0 0 0) ⟨1, 0⟩, .deleteEntry (intKey 1 0 0 0)] (·.firstLeaf) (b := ixNoPage) (by decide)
  exact (show Runs.Throughout _ _ _ ([_, _] ++ _ :: []) from hP).at_exec hs _ _ rfl hfirst

end Rmdb
