import Rmdb.Index.Node
import Rmdb.Lib.Ladder

/-! What the operations on one node do when its keys ascend. -/

namespace Rmdb
open Ladder

/-- The comparison of the format is a total order of the keys, and a node has room to split. Keys of different
    bytes may compare equal, as the two zeros of a FLOAT column do. -/
structure IxFormat.Lawful {K : Type} [Preorder K] (f : IxFormat K) : Prop where
  le_iff : ∀ a b, f.compare a b ≤ 0 ↔ a ≤ b
  ge_iff : ∀ a b, 0 ≤ f.compare a b ↔ b ≤ a
  total : Std.Total fun a b : K => a ≤ b
  order : 2 < f.btreeOrder

namespace IxFormat.Lawful
variable {K : Type} [Preorder K] {f : IxFormat K}

theorem lt_iff (hf : f.Lawful) (a b : K) : f.compare a b < 0 ↔ a < b := by
  have hle := hf.le_iff a b
  have hge := hf.ge_iff a b
  rw [lt_iff_le_not_ge (a := a), ← hle, ← hge]
  omega

theorem eq_iff (hf : f.Lawful) (a b : K) : f.compare a b = 0 ↔ Same a b := by
  have hle := hf.le_iff a b
  have hge := hf.ge_iff a b
  rw [Same, ← hle, ← hge]
  omega

theorem not_le (hf : f.Lawful) {a b : K} : ¬a ≤ b ↔ b < a := by
  have := hf.total
  exact ⟨fun h => lt_of_le_not_ge ((Std.Total.total a b).resolve_left h) h, fun h => h.not_ge⟩

theorem two_le_minSize (hf : f.Lawful) : 2 ≤ f.minSize := by
  have := hf.order
  simp only [minSize, maxSize]
  omega

theorem minSize_two_le (hf : f.Lawful) : f.minSize * 2 ≤ f.btreeOrder + 1 := by
  have := hf.order
  simp only [minSize, maxSize]
  omega

end IxFormat.Lawful

namespace IxNode
variable {K : Type}

theorem setKey_pairs {n : IxNode K} {E F : List (K × Rid)} {e : K × Rid} (h : n.pairs = E ++ e :: F) (k : K) :
    n.setKey E.length k = { n with pairs := E ++ (k, e.2) :: F } := by
  have hmod : ∀ X : List (K × Rid), (X ++ e :: F).modify X.length (fun e => (k, e.2)) = X ++ (k, e.2) :: F := by
    intro X
    induction X with
    | nil => rfl
    | cons x X ih => simp [ih]
  simp [setKey, h, hmod]

/-! ### The binary search -/

/-- The search finds the cut between the slots that go right and those that go left. -/
theorem searchLoop_eq {goLeft : Nat → Bool} {c m : Nat} (hlo : ∀ i, i < c → goLeft i = false)
    (hhi : ∀ i, c ≤ i → i < m → goLeft i = true) :
    ∀ fuel l r, l ≤ c → c ≤ r → r ≤ m → r - l ≤ fuel → searchLoop goLeft fuel l r = c
  | 0, l, r, hl, hr, _, hfuel => by
    unfold searchLoop
    omega
  | fuel + 1, l, r, hl, hr, hm, hfuel => by
    unfold searchLoop
    by_cases hlr : l < r
    · simp only [hlr, if_true]
      by_cases hmid : (l + r) / 2 < c
      · rw [hlo _ hmid]
        exact searchLoop_eq hlo hhi fuel _ r (by omega) hr hm (by omega)
      · rw [hhi _ (by omega) (by omega)]
        exact searchLoop_eq hlo hhi fuel l _ hl (by omega) (by omega) (by omega)
    · simp only [hlr, if_false]
      omega

theorem search_pairs {n : IxNode K} {E F : List (K × Rid)} {test : K × Rid → Bool} (h : n.pairs = E ++ F)
    (hE : ∀ x ∈ E, test x = false) (hF : ∀ x ∈ F, test x = true) :
    searchLoop (fun mid => n.pairs[mid]?.any test) n.size 0 n.size = E.length := by
  have hlen : n.size = E.length + F.length := by rw [size, h, List.length_append]
  refine searchLoop_eq (m := n.size) (fun i hi => ?_) (fun i hi hm => ?_) _ _ _ (Nat.zero_le _) (by omega) (Nat.le_refl _) (by omega)
  · rw [h, List.getElem?_append_left hi, List.getElem?_eq_getElem hi]
    exact hE _ (List.getElem_mem hi)
  · rw [h, List.getElem?_append_right hi, List.getElem?_eq_getElem (by omega)]
    exact hF _ (List.getElem_mem _)

variable [Preorder K] {f : IxFormat K} (hf : f.Lawful)
include hf

theorem lowerBound_eq {n : IxNode K} {E F : List (K × Rid)} {k : K} (h : n.pairs = E ++ F) (hE : ∀ x ∈ E, x.1 < k)
    (hF : ∀ x ∈ F, k ≤ x.1) : n.lowerBound f k = E.length :=
  search_pairs h (fun x hx => by simpa [hf.le_iff] using (hE x hx).not_ge) fun x hx => by simpa [hf.le_iff] using hF x hx

theorem upperBound_eq {n : IxNode K} {E F : List (K × Rid)} {k : K} (h : n.pairs = E ++ F) (hE : ∀ x ∈ E, x.1 ≤ k)
    (hF : ∀ x ∈ F, k < x.1) : n.upperBound f k = E.length :=
  search_pairs h (fun x hx => by simpa [hf.ge_iff] using hE x hx) fun x hx => by simpa [hf.lt_iff] using hF x hx

/-! ### Lookups -/

section Cut
variable {n : IxNode K} {E F : List (K × Rid)} {k : K} (hE : ∀ x ∈ E, x.1 < k) (hF : ∀ x ∈ F, k < x.1)
include hE hF

section Absent
variable (h : n.pairs = E ++ F)
include h

theorem lowerBound_absent : n.lowerBound f k = E.length :=
  lowerBound_eq hf h hE fun x hx => (hF x hx).le

/-- The slot at the lower bound of an absent key, if any, holds another key. -/
theorem slot_absent {e : K × Rid} (he : n.pairs[n.lowerBound f k]? = some e) : f.compare k e.1 ≠ 0 := by
  rw [lowerBound_absent hf hE hF h, h, List.getElem?_append_right (Nat.le_refl _), Nat.sub_self] at he
  rw [Ne, hf.eq_iff]
  exact fun hs => hs.not_lt (hF e (List.mem_of_getElem? he))

theorem leafLookup_absent : n.leafLookup f k = none := by
  unfold leafLookup
  split
  · rename_i e he
    rw [if_pos (slot_absent hf hE hF h he)]
  · rfl

theorem not_hasKey : ¬ (n.pairs[n.lowerBound f k]?.any fun e => f.compare k e.1 = 0) = true := by
  rw [Bool.not_eq_true, Option.any_eq_false]
  intro e he
  simpa using slot_absent hf hE hF h he

theorem insert_absent (v : Rid) :
    n.insert f k v = .ok ({ n with pairs := E ++ (k, v) :: F }, (E.length : Int)) := by
  have hpos : ¬ E.length > n.size := by simp [size, h]
  have hpairs : n.insertPairs E.length [(k, v)] = .ok { n with pairs := E ++ (k, v) :: F } := by
    simp [insertPairs, hpos, h]
  unfold IxNode.insert
  rw [if_neg (not_hasKey hf hE hF h), lowerBound_absent hf hE hF h, hpairs]
  rfl

theorem remove_absent : n.remove f k = .ok (n, E.length) := by
  unfold IxNode.remove
  rw [if_neg (not_hasKey hf hE hF h), lowerBound_absent hf hE hF h]

end Absent

section Present
variable {e : K × Rid} (he : Same e.1 k) (h : n.pairs = E ++ e :: F)
include he h

theorem lowerBound_present : n.lowerBound f k = E.length :=
  lowerBound_eq hf h hE fun x hx => by
    rcases List.mem_cons.mp hx with rfl | hx
    · exact he.2
    · exact (hF x hx).le

theorem slot_present : n.pairs[n.lowerBound f k]? = some e := by
  rw [lowerBound_present hf hE hF he h, h]
  simp

theorem leafLookup_present : n.leafLookup f k = some e.2 := by
  unfold leafLookup
  rw [slot_present hf hE hF he h]
  simp [(hf.eq_iff k e.1).mpr he.symm]

theorem hasKey : (n.pairs[n.lowerBound f k]?.any fun e => f.compare k e.1 = 0) = true := by
  simp [slot_present hf hE hF he h, (hf.eq_iff k e.1).mpr he.symm]

theorem insert_present (w : Rid) : n.insert f k w = .ok (n, -1) := by
  unfold IxNode.insert
  rw [if_pos (hasKey hf hE hF he h)]

theorem remove_present : n.remove f k = .ok ({ n with pairs := E ++ F }, E.length) := by
  have hpos : ¬ E.length ≥ n.size := by simp [size, h]
  have herase : n.erasePair E.length = .ok { n with pairs := E ++ F } := by
    simp [erasePair, hpos, h, List.eraseIdx_append_of_length_le]
  unfold IxNode.remove
  rw [if_pos (hasKey hf hE hF he h), lowerBound_present hf hE hF he h, herase]
  rfl

end Present
end Cut

/-- The child to descend to is the last one that starts at or below the key, or the first one. -/
theorem internalLookup_spec {n : IxNode K} (hasc : Ascending n.pairs) (hne : n.pairs ≠ []) (k : K) :
    ∃ E e F, n.pairs = E ++ e :: F ∧ n.internalLookup f k = .ok e.2.pageNo ∧ (∀ y ∈ F, k < y.1) ∧
      (E = [] ∨ e.1 ≤ k) := by
  -- the entries up to `k`, and those above it
  obtain ⟨X, F, hX, hF, hsplit⟩ : ∃ X F, (∀ x ∈ X, x.1 ≤ k) ∧ (∀ x ∈ F, k < x.1) ∧ n.pairs = X ++ F := by
    have := hf.total
    rcases hasc.cut k with ⟨E, F, hE, hF, h | ⟨e, he, h⟩⟩
    · exact ⟨E, F, fun x hx => (hE x hx).le, hF, h⟩
    · refine ⟨E ++ [e], F, fun x hx => ?_, hF, by simp [h]⟩
      rcases List.mem_append.mp hx with hx | hx
      · exact (hE x hx).le
      · rw [List.mem_singleton.mp hx]
        exact he.1
  unfold internalLookup
  simp only [upperBound_eq hf hsplit hX hF]
  rcases List.eq_nil_or_concat X with rfl | ⟨E, e, rfl⟩
  · obtain ⟨e, F', rfl⟩ := List.exists_cons_of_ne_nil (l := F) (by simpa [hsplit] using hne)
    exact ⟨[], e, F', by simpa using hsplit, by simp [valueAt, pageAt, hsplit], fun y hy => hF y (List.mem_cons_of_mem _ hy),
      Or.inl rfl⟩
  · refine ⟨E, e, F, by simpa using hsplit, ?_, hF, Or.inr (hX e (by simp))⟩
    simp [valueAt, pageAt, hsplit]

end IxNode
end Rmdb
