import Mathlib.Data.List.Induction

/-! The best element of a list: a scan keeps an element until one comes that is before it. -/

namespace Best
variable {α : Type} (before : α → α → Bool)

/-- The element that is kept of two. -/
def keep (best a : α) : α := if before a best then a else best

/-- The element that a scan of the list ends with. -/
def best : List α → Option α
  | [] => none
  | a :: as => some (as.foldl (keep before) a)

/-- An element of the list that no other one is before. -/
def IsBest (l : List α) (a : α) : Prop := a ∈ l ∧ ∀ b ∈ l, before b a = false

/-- A step of a scan that starts without an element. -/
def keepFirst (best : Option α) (a : α) : Option α := some (best.elim a fun b => keep before b a)

variable {before} {l : List α} {a b : α}

theorem best_eq_none : best before l = none ↔ l = [] := by
  cases l with
  | nil => exact iff_of_true rfl rfl
  | cons a as => exact iff_of_false (Option.some_ne_none _) (List.cons_ne_nil _ _)

theorem foldl_keepFirst (a : α) (as : List α) : as.foldl (keepFirst before) (some a) = some (as.foldl (keep before) a) := by
  induction as generalizing a with
  | nil => rfl
  | cons b as ih => exact ih (keep before a b)

theorem foldl_keepFirst_none (l : List α) : l.foldl (keepFirst before) none = best before l := by
  cases l with
  | nil => rfl
  | cons a as => exact foldl_keepFirst a as

/-- A scan of one more element. -/
theorem best_concat (l : List α) (a : α) : best before (l ++ [a]) = keepFirst before (best before l) a := by
  rw [← foldl_keepFirst_none, List.foldl_append, foldl_keepFirst_none]
  rfl

theorem IsBest.keep (hirrefl : ∀ a, before a a = false) (htrans : ∀ a b c, before a b → before b c → before a c) (h : IsBest before l b)
    (a : α) : IsBest before (l ++ [a]) (keep before b a) := by
  obtain ⟨hmem, hleast⟩ := h
  unfold Best.keep
  split
  · next hab =>
    refine ⟨List.mem_append_right l (List.mem_singleton_self a), fun c hc => ?_⟩
    rcases List.mem_append.mp hc with hc | hc
    · refine Bool.eq_false_iff.mpr fun hca => ?_
      have hcb := htrans c a b hca hab
      rw [hleast c hc] at hcb
      cases hcb
    · rw [List.mem_singleton.mp hc]
      exact hirrefl a
  · next hab =>
    refine ⟨List.mem_append_left _ hmem, fun c hc => ?_⟩
    rcases List.mem_append.mp hc with hc | hc
    · exact hleast c hc
    · rw [List.mem_singleton.mp hc]
      exact Bool.eq_false_iff.mpr hab

/-- The scan ends with a best element. -/
theorem isBest_best (hirrefl : ∀ a, before a a = false) (htrans : ∀ a b c, before a b → before b c → before a c)
    (h : best before l = some a) : IsBest before l a := by
  induction l using List.reverseRecOn generalizing a with
  | nil => cases h
  | append_singleton l b ih =>
    rw [best_concat] at h
    cases hl : best before l with
    | none =>
      rw [hl] at h
      cases h
      rw [best_eq_none.mp hl]
      exact ⟨List.mem_singleton_self b, fun c hc => by rw [List.mem_singleton.mp hc]; exact hirrefl b⟩
    | some d =>
      rw [hl] at h
      cases h
      exact (ih hl).keep hirrefl htrans b

theorem IsBest.unique (htotal : before a b = true ∨ a = b ∨ before b a = true) (ha : IsBest before l a) (hb : IsBest before l b) : a = b := by
  rcases htotal with h | h | h
  · rw [hb.2 a ha.1] at h
    cases h
  · exact h
  · rw [ha.2 b hb.1] at h
    cases h

/-- Elements that come before none of the others can be left out. -/
theorem IsBest.of_filter {p : α → Bool} (h : IsBest before (l.filter p) a) (hout : ∀ b ∈ l, p b = false → before b a = false) :
    IsBest before l a := by
  refine ⟨(List.mem_filter.mp h.1).1, fun b hb => ?_⟩
  cases hp : p b with
  | true => exact h.2 b (List.mem_filter.mpr ⟨hb, hp⟩)
  | false => exact hout b hb hp

theorem best_mem (h : best before l = some a) : a ∈ l := by
  induction l using List.reverseRecOn generalizing a with
  | nil => cases h
  | append_singleton l b ih =>
    rw [best_concat] at h
    cases hl : best before l with
    | none =>
      rw [hl] at h
      cases h
      exact List.mem_append_right l (List.mem_singleton_self b)
    | some d =>
      rw [hl] at h
      cases h
      show Best.keep before d b ∈ _
      unfold Best.keep
      split
      · exact List.mem_append_right l (List.mem_singleton_self b)
      · exact List.mem_append_left _ (ih hl)

/-- The scan looks only at pairs of elements of the list. -/
theorem best_congr {before' : α → α → Bool} (h : ∀ a ∈ l, ∀ b ∈ l, before a b = before' a b) : best before l = best before' l := by
  induction l using List.reverseRecOn with
  | nil => rfl
  | append_singleton l a ih =>
    have hl : best before l = best before' l :=
      ih fun x hx y hy => h x (List.mem_append_left _ hx) y (List.mem_append_left _ hy)
    rw [best_concat, best_concat, ← hl]
    cases hb : best before l with
    | none => rfl
    | some b =>
      have hab := h a (List.mem_append_right l (List.mem_singleton_self a)) b (List.mem_append_left _ (best_mem hb))
      show some (Best.keep before b a) = some (Best.keep before' b a)
      rw [Best.keep, Best.keep, hab]

/-- What the scan ends with is what nothing is before, where two elements that are not equal are in order. -/
theorem best_map_eq_iff {β : Type} {v : β → α} {l : List β} {x : β} (hirrefl : ∀ a, before a a = false)
    (htrans : ∀ a b c, before a b → before b c → before a c)
    (htotal : ∀ a ∈ l, ∀ b ∈ l, before (v a) (v b) = true ∨ v a = v b ∨ before (v b) (v a) = true) (hx : x ∈ l) :
    best before (l.map v) = some (v x) ↔ ∀ b ∈ l, before (v b) (v x) = false := by
  constructor
  · exact fun h b hb => (isBest_best hirrefl htrans h).2 _ (List.mem_map_of_mem hb)
  · intro h
    have hne : best before (l.map v) ≠ none := fun hnone => List.ne_nil_of_mem hx (List.map_eq_nil_iff.mp (best_eq_none.mp hnone))
    obtain ⟨a, ha⟩ := Option.ne_none_iff_exists'.mp hne
    have hbest := isBest_best hirrefl htrans ha
    obtain ⟨y, hy, rfl⟩ := List.mem_map.mp hbest.1
    have hx' : IsBest before (l.map v) (v x) := ⟨List.mem_map_of_mem hx, fun b hb => by
      obtain ⟨z, hz, rfl⟩ := List.mem_map.mp hb
      exact h z hz⟩
    rw [ha, hbest.unique (htotal y hy x hx) hx']

end Best
