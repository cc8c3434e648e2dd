import Rmdb.Lib.Restart
import Mathlib.Data.List.Perm.Basic

/-! The left sides of the pairs of two lists that match, beside the semi join of the lists. -/

namespace SemiJoin
open Iter (pairs)
variable {A B C : Type} (hit : A → B → Bool)

/-- The left items that match some right item. -/
def semi (ls : List A) (rs : List B) : List A := ls.filter fun a => rs.any (hit a)

/-- Every left item as often as it matches a right one. -/
def counted (ls : List A) (rs : List B) : List A := ls.flatMap fun a => List.replicate (rs.countP (hit a)) a

variable {hit} {ls : List A} {rs : List B}

theorem flatMap_hits (a : A) (rs : List B) :
    (rs.flatMap fun b => if hit a b then [a] else []) = List.replicate (rs.countP (hit a)) a := by
  induction rs with
  | nil => rfl
  | cons b rs ih =>
    rw [List.flatMap_cons, ih]
    by_cases hb : hit a b = true
    · rw [if_pos hb, List.countP_cons_of_pos hb, List.replicate_succ]
      rfl
    · rw [if_neg hb, List.countP_cons_of_neg hb]
      rfl

/-- The left sides of the pairs that match. -/
theorem pairs_counted (ls : List A) (rs : List B) :
    (((pairs ls rs).filter fun p => hit p.1 p.2).map (·.1)).Perm (counted hit ls rs) := by
  have hcolumns : ((pairs ls rs).filter fun p => hit p.1 p.2).map (·.1) = rs.flatMap fun b => ls.filter fun a => hit a b := by
    rw [pairs, List.filter_flatMap, List.map_flatMap]
    congr 1
    funext b
    rw [List.filter_map, List.map_map]
    exact List.map_id _
  rw [hcolumns]
  clear hcolumns
  induction ls with
  | nil => exact .of_eq (List.flatMap_eq_nil_iff.mpr fun _ _ => rfl)
  | cons a ls ih =>
    have hcons : (fun b => (a :: ls).filter fun a => hit a b) =
        fun b => (if hit a b then [a] else []) ++ ls.filter fun a => hit a b := by
      funext b
      by_cases hb : hit a b = true <;> simp [hb]
    rw [hcons]
    refine (List.flatMap_append_perm _ _ _).symm.trans ?_
    rw [flatMap_hits]
    exact ih.append_left _

/-- The right sides, where the items to be counted are on the right. -/
theorem pairs_counted_swap (ls : List A) (rs : List B) :
    ((pairs rs ls).filter fun p => hit p.2 p.1).map (·.2) = counted hit ls rs := by
  rw [pairs, List.filter_flatMap, List.map_flatMap, counted]
  congr 1
  funext a
  rw [List.filter_map, List.map_map, ← flatMap_hits]
  induction rs with
  | nil => rfl
  | cons b rs ih =>
    rw [List.flatMap_cons, ← ih]
    by_cases hb : hit a b = true <;> simp [hb]

theorem semi_cons (a : A) (ls : List A) :
    semi hit (a :: ls) rs = if rs.any (hit a) then a :: semi hit ls rs else semi hit ls rs := List.filter_cons

theorem any_iff_countP {a : A} : rs.any (hit a) = true ↔ 0 < rs.countP (hit a) := by
  rw [List.any_eq_true, List.countP_pos_iff]

/-- There are at least as many counted items as in the semi join, and not more only where no item matches twice. -/
theorem length_semi_le (ls : List A) : (semi hit ls rs).length ≤ (counted hit ls rs).length ∧
    ((counted hit ls rs).length ≤ (semi hit ls rs).length → ∀ a ∈ ls, rs.countP (hit a) ≤ 1) := by
  induction ls with
  | nil => exact ⟨Nat.le_refl _, fun _ a ha => (by cases ha)⟩
  | cons a ls ih =>
    obtain ⟨hle, hone⟩ := ih
    have hcounted : (counted hit (a :: ls) rs).length = rs.countP (hit a) + (counted hit ls rs).length := by
      rw [counted, List.flatMap_cons, List.length_append, List.length_replicate]
      rfl
    have hsemi : (semi hit (a :: ls) rs).length = (if 0 < rs.countP (hit a) then 1 else 0) + (semi hit ls rs).length := by
      by_cases hany : rs.any (hit a) = true
      · rw [semi_cons, if_pos hany, if_pos (any_iff_countP.mp hany), List.length_cons, Nat.add_comm]
      · rw [semi_cons, if_neg hany, if_neg fun h => hany (any_iff_countP.mpr h), Nat.zero_add]
    rw [hcounted, hsemi]
    split
    · refine ⟨by omega, fun h => List.forall_mem_cons.mpr ⟨by omega, hone (by omega)⟩⟩
    · refine ⟨by omega, fun h => List.forall_mem_cons.mpr ⟨by omega, hone (by omega)⟩⟩

theorem counted_eq_semi (h : ∀ a ∈ ls, rs.countP (hit a) ≤ 1) : counted hit ls rs = semi hit ls rs := by
  induction ls with
  | nil => rfl
  | cons a ls ih =>
    have ih := ih fun x hx => h x (List.mem_cons_of_mem a hx)
    have hone := h a (List.mem_cons_self ..)
    have hcons : counted hit (a :: ls) rs = List.replicate (rs.countP (hit a)) a ++ counted hit ls rs := List.flatMap_cons
    rw [hcons, ih]
    by_cases hany : rs.any (hit a) = true
    · have hcount : rs.countP (hit a) = 1 := Nat.le_antisymm hone (any_iff_countP.mp hany)
      rw [semi_cons, if_pos hany, hcount]
      rfl
    · have hcount : rs.countP (hit a) = 0 := Nat.le_zero.mp (Nat.not_lt.mp fun h => hany (any_iff_countP.mpr h))
      rw [semi_cons, if_neg hany, hcount]
      rfl

/-- The counted items are those of the semi join exactly if no item matches twice. -/
theorem counted_perm_semi_iff (f : A → C) :
    ((counted hit ls rs).map f).Perm ((semi hit ls rs).map f) ↔ ∀ a ∈ ls, rs.countP (hit a) ≤ 1 := by
  constructor
  · intro h
    have hlength := h.length_eq
    rw [List.length_map, List.length_map] at hlength
    exact (length_semi_le ls).2 (Nat.le_of_eq hlength)
  · intro h
    rw [counted_eq_semi h]

end SemiJoin
