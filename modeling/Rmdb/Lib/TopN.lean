import Mathlib.Data.List.Sort
import Mathlib.Data.List.Perm.Subperm

/-! The first elements of a sorted arrangement of a list. -/

namespace TopN
variable {α : Type} {le : α → α → Prop}

theorem exists_sorted (htotal : ∀ a b, le a b ∨ le b a) (htrans : ∀ a b c, le a b → le b c → le a c) (l : List α) :
    ∃ perm : List α, perm.Perm l ∧ perm.Pairwise le := by
  classical
  have : Std.Total le := ⟨htotal⟩
  have : IsTrans α le := ⟨htrans⟩
  exact ⟨_, List.perm_insertionSort le l, List.pairwise_insertionSort le l⟩

/-- What comes first is not more than what is in the list. -/
theorem first_le {x : α} {l perm : List α} (htotal : ∀ a b, le a b ∨ le b a) (hperm : perm.Perm l)
    (hsorted : perm.Pairwise le) {k : Nat} (hk : 0 < k) (htake : perm.take k = List.replicate k x) : ∀ y ∈ l, le x y := by
  intro y hy
  obtain ⟨j, rfl⟩ := Nat.exists_eq_succ_of_ne_zero (Nat.ne_of_gt hk)
  cases perm with
  | nil => exact absurd (hperm.symm.subset hy) List.not_mem_nil
  | cons z zs =>
    rw [List.take_succ_cons, List.replicate_succ] at htake
    rw [(List.cons.inj htake).1] at hperm hsorted
    rcases List.mem_cons.mp (hperm.symm.subset hy) with rfl | hy
    · exact (htotal y y).elim id id
    · exact List.rel_of_pairwise_cons hsorted hy

/-- A sorted arrangement can begin with copies of one element exactly if there are so many and none is less. -/
theorem exists_first_iff [BEq α] [LawfulBEq α] (htotal : ∀ a b, le a b ∨ le b a) (htrans : ∀ a b c, le a b → le b c → le a c)
    {l : List α} {x : α} {k : Nat} (hk : 0 < k) :
    (∃ perm : List α, perm.Perm l ∧ perm.Pairwise le ∧ perm.take k = List.replicate k x) ↔ k ≤ l.count x ∧ ∀ y ∈ l, le x y := by
  constructor
  · rintro ⟨perm, hperm, hsorted, htake⟩
    refine ⟨?_, first_le htotal hperm hsorted hk htake⟩
    have hcount := (List.take_sublist k perm).count_le x
    rw [htake, List.count_replicate_self] at hcount
    exact hcount.trans (Nat.le_of_eq (hperm.count_eq x))
  · rintro ⟨hcount, hle⟩
    have hrest : (List.replicate k x ++ l.diff (List.replicate k x)).Perm l := by
      refine List.subperm_append_diff_self_of_count_le fun y hy => ?_
      rw [(List.mem_replicate.mp hy).2, List.count_replicate_self]
      exact hcount
    obtain ⟨perm, hperm, hsorted⟩ := exists_sorted htotal htrans (l.diff (List.replicate k x))
    refine ⟨List.replicate k x ++ perm, (hperm.append_left _).trans hrest, ?_, ?_⟩
    · refine List.pairwise_append.mpr ⟨?_, hsorted, fun a ha b hb => ?_⟩
      · exact List.pairwise_replicate.mpr (Or.inr ((htotal x x).elim id id))
      · rw [(List.mem_replicate.mp ha).2]
        exact hle b (hrest.subset (List.mem_append_right _ (hperm.subset hb)))
    · rw [List.take_append_of_le_length (Nat.le_of_eq List.length_replicate.symm), List.take_of_length_le (Nat.le_of_eq List.length_replicate)]

end TopN
