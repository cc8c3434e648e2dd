import Rmdb.Theorems.Exec.Cond
import Rmdb.Theorems.System.CreateIndex

/-! `ix_compare` on the bytes of keys with INT and CHAR columns, and what the searches in a node find by it. -/

namespace Rmdb

theorem take_of_colVals {a b : Bytes} {c : IxCol} (hc : c.type ≠ .float) (ha : c.len ≤ a.length) (hb : c.len ≤ b.length)
    (h : colVals a c = colVals b c) : a.take c.len = b.take c.len := by
  obtain ⟨type, len, fixed⟩ := c
  cases type with
  | int =>
    obtain rfl : len = 4 := fixed (by decide)
    have hint : readInt a = readInt b := (List.cons.inj h).1
    refine readInt_inj ?_ ?_ ?_
    · rw [List.length_take, Nat.min_eq_left ha]
    · rw [List.length_take, Nat.min_eq_left hb]
    · rw [readInt, readInt, readWord_take, readWord_take]
      exact hint
  | float => exact absurd rfl hc
  | string => exact List.map_injective_iff.mpr (fun x y h => UInt8.toNat_inj.mp (Int.ofNat_inj.mp h)) h

/-- Keys with the same values are the same bytes. -/
theorem keyVals_inj {cols : List IxCol} (hcols : IntChar cols) {a b : Bytes} (ha : a.length = colTotLen cols)
    (hb : b.length = colTotLen cols) (h : keyVals cols a = keyVals cols b) : a = b := by
  induction cols generalizing a b with
  | nil => rw [List.eq_nil_of_length_eq_zero ha, List.eq_nil_of_length_eq_zero hb]
  | cons c cs ih =>
    obtain ⟨hc, hcs⟩ := List.forall_mem_cons.mp hcols
    rw [colTotLen] at ha hb
    have hlen : (colVals a c).length = (colVals b c).length := by
      rw [Catalog.SmManager.length_colVals (by omega), Catalog.SmManager.length_colVals (by omega)]
    obtain ⟨hfirst, hrest⟩ := List.append_inj h hlen
    have htake := take_of_colVals hc (by omega) (by omega) hfirst
    have hdrop := ih hcs (by rw [List.length_drop]; omega) (by rw [List.length_drop]; omega) hrest
    rw [← List.take_append_drop c.len a, ← List.take_append_drop c.len b, htake, hdrop]

namespace IxNode
variable {K : Type} {n : IxNode K}

/-- The binary search finds the first pair that passes a test, if all pairs behind such a one pass it. -/
theorem search_findIdx {test : K × Rid → Bool} (h : n.pairs.Pairwise fun x y => test x = true → test y = true) :
    searchLoop (fun mid => n.pairs[mid]?.any test) n.size 0 n.size = n.pairs.findIdx test := by
  have hle : n.pairs.findIdx test ≤ n.size := List.findIdx_le_length
  refine searchLoop_eq (m := n.size) (fun i hi => ?_) (fun i hi hm => ?_) _ _ _ (Nat.zero_le _) hle (Nat.le_refl _) (by omega)
  · have hlt : i < n.pairs.length := Nat.lt_of_lt_of_le hi hle
    rw [List.getElem?_eq_getElem hlt]
    exact List.not_of_lt_findIdx hi
  · have hfound : n.pairs.findIdx test < n.pairs.length := Nat.lt_of_le_of_lt hi hm
    have htest : test n.pairs[n.pairs.findIdx test] = true := List.findIdx_getElem
    rw [List.getElem?_eq_getElem hm]
    rcases Nat.eq_or_lt_of_le hi with heq | hlt
    · subst heq
      exact htest
    · exact List.pairwise_iff_getElem.mp h _ _ hfound hm hlt htest

/-- The key in slot `p` is the last one that does not pass, or `p` is the first slot and there is none. -/
theorem findIdx_last (test : K × Rid → Bool) (h : n.pairs.Pairwise fun x y => test x = true → test y = true) {p : Nat}
    (hp : p = n.pairs.findIdx test - 1) : (p = 0 ∨ ∃ e, n.pairs[p]? = some e ∧ test e = false) ∧
      ∀ j e, p < j → n.pairs[j]? = some e → test e = true := by
  have hle : n.pairs.findIdx test ≤ n.pairs.length := List.findIdx_le_length
  refine ⟨?_, fun j e hj he => ?_⟩
  · by_cases hzero : p = 0
    · exact Or.inl hzero
    · have hlt : p < n.pairs.length := by omega
      have hless : p < n.pairs.findIdx test := by omega
      exact Or.inr ⟨_, List.getElem?_eq_getElem hlt, List.not_of_lt_findIdx hless⟩
  · obtain ⟨hlt, rfl⟩ := List.getElem?_eq_some_iff.mp he
    have hfound : n.pairs.findIdx test < n.pairs.length := by omega
    have htest : test n.pairs[n.pairs.findIdx test] = true := List.findIdx_getElem
    rcases Nat.eq_or_lt_of_le (show n.pairs.findIdx test ≤ j by omega) with heq | hless
    · subst heq
      exact htest
    · exact List.pairwise_iff_getElem.mp h _ _ hfound hlt hless htest

end IxNode

/-- On keys with INT and CHAR columns `ix_compare` is a total order of their bytes. In a node with ascending keys the bounds are the
    first slots with a key not below, or above, the target, and the child is that of the last key not above it, or the first one. -/
theorem ixCompare_searches {cols : List IxCol} (hcols : IntChar cols) :
    (∀ a b c : IxKey cols, (ixCompare cols a.val b.val ≤ 0 ∨ ixCompare cols b.val a.val ≤ 0) ∧
      (ixCompare cols a.val b.val ≤ 0 → ixCompare cols b.val c.val ≤ 0 → ixCompare cols a.val c.val ≤ 0) ∧
      (ixCompare cols a.val b.val < 0 ↔ 0 < ixCompare cols b.val a.val) ∧ (ixCompare cols a.val b.val = 0 ↔ a.val = b.val)) ∧
    ∀ n : IxNode (IxKey cols), n.pairs.Pairwise (fun x y => ixCompare cols x.1.val y.1.val < 0) → ∀ k : IxKey cols,
      n.lowerBound (ixFormat cols) k = n.pairs.findIdx (fun e => 0 ≤ ixCompare cols e.1.val k.val) ∧
      n.upperBound (ixFormat cols) k = n.pairs.findIdx (fun e => 0 < ixCompare cols e.1.val k.val) ∧
      ∃ p, n.internalLookup (ixFormat cols) k = n.valueAt p ∧
        (p = 0 ∨ ∃ e, n.pairs[p]? = some e ∧ ixCompare cols e.1.val k.val ≤ 0) ∧
        ∀ j e, p < j → n.pairs[j]? = some e → 0 < ixCompare cols e.1.val k.val := by
  have hsign (a b : IxKey cols) := ixCompare_sign a.2.1.ge b.2.1.ge a.2.2 b.2.2
  have hle (a b : IxKey cols) : ixCompare cols a.val b.val ≤ 0 ↔ keyVals cols a.val ≤ keyVals cols b.val := by
    rw [Int.le_iff_lt_or_eq, (hsign a b).1, (hsign a b).2, ← le_iff_lt_or_eq]
  have hge (a b : IxKey cols) : 0 ≤ ixCompare cols a.val b.val ↔ keyVals cols b.val ≤ keyVals cols a.val := by
    rw [← Int.not_lt, (hsign a b).1, not_lt]
  have hgt (a b : IxKey cols) : 0 < ixCompare cols a.val b.val ↔ keyVals cols b.val < keyVals cols a.val := by
    rw [← Int.not_le, hle, not_le]
  refine ⟨fun a b c => ⟨?_, ?_, ?_, ?_⟩, fun n hasc k => ?_⟩
  · rw [hle, hle]
    exact le_total _ _
  · rw [hle, hle, hle]
    exact le_trans
  · rw [(hsign a b).1, hgt]
  · rw [(hsign a b).2]
    exact ⟨keyVals_inj hcols a.2.1 b.2.1, congrArg _⟩
  · have hkeys : n.pairs.Pairwise fun x y => keyVals cols x.1.val < keyVals cols y.1.val := hasc.imp (hsign _ _).1.mp
    have hupper : n.upperBound (ixFormat cols) k = n.pairs.findIdx (fun e => 0 < ixCompare cols e.1.val k.val) := by
      have htest : (fun e : IxKey cols × Rid => decide (0 < ixCompare cols e.1.val k.val)) =
          fun e => decide ((ixFormat cols).compare k e.1 < 0) :=
        funext fun e => decide_eq_decide.mpr ((hgt _ _).trans (hsign _ _).1.symm)
      rw [htest]
      refine IxNode.search_findIdx (hkeys.imp fun hlt hx => ?_)
      rw [decide_eq_true_eq] at hx ⊢
      exact (hsign _ _).1.mpr (((hsign _ _).1.mp hx).trans hlt)
    have hafter : n.pairs.Pairwise fun x y : IxKey cols × Rid => decide (0 < ixCompare cols x.1.val k.val) = true →
        decide (0 < ixCompare cols y.1.val k.val) = true := hkeys.imp fun hlt hx => by
      rw [decide_eq_true_eq, hgt] at hx ⊢
      exact hx.trans hlt
    obtain ⟨hlast, hrest⟩ := IxNode.findIdx_last (fun e : IxKey cols × Rid => decide (0 < ixCompare cols e.1.val k.val)) hafter rfl
    refine ⟨?_, hupper, _, ?_, ?_, fun j e hj he => of_decide_eq_true (hrest j e hj he)⟩
    · have htest : (fun e : IxKey cols × Rid => decide (0 ≤ ixCompare cols e.1.val k.val)) =
          fun e => decide ((ixFormat cols).compare k e.1 ≤ 0) :=
        funext fun e => decide_eq_decide.mpr ((hge _ _).trans (hle _ _).symm)
      rw [htest]
      refine IxNode.search_findIdx (hkeys.imp fun hlt hx => ?_)
      rw [decide_eq_true_eq] at hx ⊢
      exact (hle _ _).mpr (((hle _ _).mp hx).trans hlt.le)
    · rw [IxNode.internalLookup, hupper]
      split
      · next hzero => rw [hzero]
      · rfl
    · refine hlast.imp_right fun ⟨e, he, htest⟩ => ⟨e, he, ?_⟩
      exact Int.not_lt.mp (of_decide_eq_false htest)

def twoKeys : IxNode (IxKey [.int]) := ⟨ixNoPage, false, ixNoPage, ixNoPage, [(intKey 1 0 0 0, ⟨3, 0⟩), (intKey 7 0 0 0, ⟨4, 0⟩)]⟩

theorem ixCompare_searches_two : twoKeys.lowerBound (ixFormat [.int]) (intKey 5 0 0 0) = 1 ∧
    twoKeys.upperBound (ixFormat [.int]) (intKey 7 0 0 0) = 2 :=
  ⟨((ixCompare_searches (by decide)).2 twoKeys (by decide) (intKey 5 0 0 0)).1,
    ((ixCompare_searches (by decide)).2 twoKeys (by decide) (intKey 7 0 0 0)).2.1⟩

end Rmdb
