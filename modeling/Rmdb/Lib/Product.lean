import Mathlib.Data.List.Forall2
import Mathlib.Data.List.Perm.Basic
import Mathlib.Logic.Function.Basic

/-! All ways to pick one element for each of some names. A pick is a function on names. -/

namespace Product
variable {ι β : Type} [DecidableEq ι] {rows : ι → List β} {base g : ι → β} {i j : ι} {is js : List ι}

/-- The picks for the names. The other names keep what `base` has for them. -/
def all (rows : ι → List β) (base : ι → β) : List ι → List (ι → β)
  | [] => [base]
  | i :: is => (all rows base is).flatMap fun g => (rows i).map (Function.update g i)

theorem mem_all_cons : g ∈ all rows base (i :: is) ↔ ∃ h ∈ all rows base is, ∃ r ∈ rows i, Function.update h i r = g := by
  simp only [all, List.mem_flatMap, List.mem_map]

theorem all_outside (hg : g ∈ all rows base is) (hi : i ∉ is) : g i = base i := by
  induction is generalizing g with
  | nil => rw [List.mem_singleton.mp hg]
  | cons j js ih =>
    obtain ⟨h, hh, r, -, rfl⟩ := mem_all_cons.mp hg
    rw [List.mem_cons, not_or] at hi
    rw [Function.update_of_ne hi.1, ih hh hi.2]

theorem all_mem (hg : g ∈ all rows base is) (hi : i ∈ is) : g i ∈ rows i := by
  induction is generalizing g with
  | nil => cases hi
  | cons j js ih =>
    obtain ⟨h, hh, r, hr, rfl⟩ := mem_all_cons.mp hg
    by_cases hij : i = j
    · subst hij
      rw [Function.update_self]
      exact hr
    · rw [Function.update_of_ne hij]
      exact ih hh ((List.mem_cons.mp hi).resolve_left hij)

/-! ### The order of the names -/

/-- Two loops, one in the other, may change places. -/
theorem flatMap_map_swap {α γ δ : Type} (f : α → γ → δ) (as : List α) (cs : List γ) :
    (as.flatMap fun a => cs.map (f a)).Perm (cs.flatMap fun c => as.map fun a => f a c) := by
  induction as with
  | nil => exact .of_eq (List.flatMap_eq_nil_iff.mpr fun _ _ => rfl).symm
  | cons a as ih =>
    have hhead : cs.map (f a) = cs.flatMap fun c => [f a c] := List.map_eq_flatMap
    rw [List.flatMap_cons, hhead]
    exact (ih.append_left _).trans (List.flatMap_append_perm cs _ _)

/-- The picks do not depend on the order of the names. -/
theorem all_perm (hperm : is.Perm js) (hnodup : is.Nodup) : (all rows base is).Perm (all rows base js) := by
  induction hperm with
  | nil => exact List.Perm.refl _
  | cons i _ ih => exact (ih (List.nodup_cons.mp hnodup).2).flatMap_right _
  | swap i j is =>
    have hne : i ≠ j := fun h => (List.nodup_cons.mp hnodup).1 (h ▸ List.mem_cons_self ..)
    rw [all, all, all, all, List.flatMap_assoc, List.flatMap_assoc]
    refine List.Perm.flatMap_left _ fun g _ => ?_
    rw [List.flatMap_map, List.flatMap_map]
    refine (flatMap_map_swap _ _ _).trans (.of_eq ?_)
    refine List.flatMap_congr fun r _ => List.map_congr_left fun s _ => ?_
    exact Function.update_comm hne s r g
  | trans h _ ih ih' => exact (ih hnodup).trans (ih' (h.nodup_iff.mp hnodup))

/-! ### Tests -/

/-- A test that does not look at a name may come before it is picked. -/
theorem filter_outside {p : (ι → β) → Bool} (hp : ∀ g r, p (Function.update g i r) = p g) (l : List (ι → β)) (rs : List β) :
    (l.flatMap fun g => rs.map (Function.update g i)).filter p = (l.filter p).flatMap fun g => rs.map (Function.update g i) := by
  induction l with
  | nil => rfl
  | cons g l ih =>
    rw [List.flatMap_cons, List.filter_append, ih]
    by_cases hg : p g = true
    · rw [List.filter_cons_of_pos hg, List.flatMap_cons]
      congr 1
      refine List.filter_eq_self.mpr fun h hh => ?_
      obtain ⟨r, -, rfl⟩ := List.mem_map.mp hh
      rw [hp, hg]
    · rw [List.filter_cons_of_neg hg]
      have hnone : (rs.map (Function.update g i)).filter p = [] := by
        refine List.filter_eq_nil_iff.mpr fun h hh => ?_
        obtain ⟨r, -, rfl⟩ := List.mem_map.mp hh
        rwa [hp]
      rw [hnone, List.nil_append]

/-- A test of each element may be made before or after the pick. -/
theorem all_filter {q : ι → β → Bool} (hnodup : is.Nodup) : all (fun i => (rows i).filter (q i)) base is =
    (all rows base is).filter fun g => is.all fun i => q i (g i) := by
  induction is with
  | nil => rfl
  | cons i is ih =>
    obtain ⟨hnew, hnodup⟩ := List.nodup_cons.mp hnodup
    have hold : ∀ (g : ι → β) (r : β), (is.all fun j => q j (Function.update g i r j)) = is.all fun j => q j (g j) := fun g r => by
      rw [Bool.eq_iff_iff, List.all_eq_true, List.all_eq_true]
      refine forall₂_congr fun j hj => ?_
      have hne : j ≠ i := fun h => hnew (h ▸ hj)
      rw [Function.update_of_ne hne]
    have htests : (fun g : ι → β => (i :: is).all fun j => q j (g j)) = fun g => q i (g i) && is.all fun j => q j (g j) := rfl
    rw [all, all, ih hnodup, htests, ← List.filter_filter, filter_outside hold, List.filter_flatMap]
    refine List.flatMap_congr fun g _ => ?_
    rw [List.filter_map]
    refine congrArg _ (List.filter_congr fun r _ => ?_)
    rw [Function.comp_apply, Function.update_self]

end Product
