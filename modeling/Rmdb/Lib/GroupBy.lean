import Mathlib.Data.List.Nodup
import Mathlib.Data.List.Perm.Subperm

/-! The elements of a list, grouped by a key: each element is put under its key, one after the other. -/

namespace GroupBy
variable {α K : Type} [DecidableEq K]

/-- The element comes behind those of its key, and a key that is not there behind the others. -/
def put (k : K) (a : α) : List (K × List α) → List (K × List α)
  | [] => [(k, [a])]
  | e :: rest => if e.1 = k then (e.1, e.2 ++ [a]) :: rest else e :: put k a rest

/-- There is one group for each key of the list, with the elements of that key in their order. -/
structure Grouped (key : α → K) (l : List α) (groups : List (K × List α)) : Prop where
  nodup : (groups.map (·.1)).Nodup
  mem_iff : ∀ k, k ∈ groups.map (·.1) ↔ ∃ a ∈ l, key a = k
  elements : ∀ e ∈ groups, e.2 = l.filter fun a => key a = e.1

variable {key : α → K} {l : List α} {groups groups' : List (K × List α)} {k : K} {a : α}

theorem keys_put_mem (h : k ∈ groups.map (·.1)) : (put k a groups).map (·.1) = groups.map (·.1) := by
  induction groups with
  | nil => cases h
  | cons e rest ih =>
    rw [put]
    split
    · rfl
    · next hne =>
      rw [List.map_cons, List.map_cons, ih ((List.mem_cons.mp h).resolve_left fun heq => hne heq.symm)]

theorem put_new (h : k ∉ groups.map (·.1)) : put k a groups = groups ++ [(k, [a])] := by
  induction groups with
  | nil => rfl
  | cons e rest ih =>
    obtain ⟨hne, hrest⟩ := not_or.mp (fun h' => h (List.mem_cons.mpr h'))
    rw [put, if_neg fun heq => hne heq.symm, ih hrest]
    rfl

/-- Only the group of the key changes. -/
theorem mem_put (hnodup : (groups.map (·.1)).Nodup) (h : k ∈ groups.map (·.1)) {e : K × List α} (he : e ∈ put k a groups) :
    (e ∈ groups ∧ e.1 ≠ k) ∨ ∃ as, (k, as) ∈ groups ∧ e = (k, as ++ [a]) := by
  induction groups with
  | nil => cases h
  | cons d rest ih =>
    obtain ⟨hd, hrest⟩ := List.nodup_cons.mp hnodup
    rw [put] at he
    split at he
    · next heq =>
      rcases List.mem_cons.mp he with rfl | he
      · exact Or.inr ⟨d.2, heq ▸ List.mem_cons_self .., by rw [heq]⟩
      · exact Or.inl ⟨List.mem_cons_of_mem d he, fun hek => hd (List.mem_map.mpr ⟨e, he, hek.trans heq.symm⟩)⟩
    · next hne =>
      rcases List.mem_cons.mp he with rfl | he
      · exact Or.inl ⟨List.mem_cons_self .., hne⟩
      · rcases ih hrest ((List.mem_cons.mp h).resolve_left fun heq => hne heq.symm) he with ⟨hmem, hek⟩ | ⟨as, has, heq⟩
        · exact Or.inl ⟨List.mem_cons_of_mem d hmem, hek⟩
        · exact Or.inr ⟨as, List.mem_cons_of_mem d has, heq⟩

namespace Grouped

theorem nil : Grouped key [] [] := ⟨List.nodup_nil, fun k => by simp, fun e he => by cases he⟩

/-- One more element. -/
theorem put (h : Grouped key l groups) (a : α) : Grouped key (l ++ [a]) (put (key a) a groups) := by
  have hfilter : ∀ k, (l ++ [a]).filter (fun b => key b = k) = l.filter (fun b => key b = k) ++ if key a = k then [a] else [] := by
    intro k
    rw [List.filter_append, List.filter_singleton]
    by_cases hk : key a = k <;> simp [hk]
  by_cases hk : key a ∈ groups.map (·.1)
  · have hkeys := keys_put_mem (a := a) hk
    refine ⟨hkeys ▸ h.nodup, fun k => ?_, fun e he => ?_⟩
    · rw [hkeys, h.mem_iff]
      refine ⟨fun ⟨b, hb, hbk⟩ => ⟨b, List.mem_append_left _ hb, hbk⟩, fun ⟨b, hb, hbk⟩ => ?_⟩
      rcases List.mem_append.mp hb with hb | hb
      · exact ⟨b, hb, hbk⟩
      · rw [List.mem_singleton.mp hb] at hbk
        exact hbk ▸ (h.mem_iff (key a)).mp hk
    · rw [hfilter]
      rcases mem_put h.nodup hk he with ⟨hmem, hne⟩ | ⟨as, has, rfl⟩
      · rw [if_neg fun heq => hne heq.symm, List.append_nil, h.elements e hmem]
      · rw [if_pos rfl]
        exact congrArg (· ++ [a]) (h.elements _ has)
  · rw [put_new hk]
    refine ⟨?_, fun k => ?_, fun e he => ?_⟩
    · rw [List.map_append]
      exact List.nodup_append'.mpr ⟨h.nodup, List.nodup_singleton _, List.disjoint_singleton.mpr hk⟩
    · rw [List.map_append, List.mem_append, h.mem_iff]
      constructor
      · rintro (⟨b, hb, hbk⟩ | hk')
        · exact ⟨b, List.mem_append_left _ hb, hbk⟩
        · exact ⟨a, List.mem_append_right l (List.mem_singleton_self a), (List.mem_singleton.mp hk').symm⟩
      · rintro ⟨b, hb, hbk⟩
        rcases List.mem_append.mp hb with hb | hb
        · exact Or.inl ⟨b, hb, hbk⟩
        · rw [List.mem_singleton.mp hb] at hbk
          exact Or.inr (List.mem_singleton.mpr hbk.symm)
    · rw [hfilter]
      rcases List.mem_append.mp he with he | he
      · have hne : key a ≠ e.1 := fun heq => hk (heq ▸ List.mem_map_of_mem he)
        rw [if_neg hne, List.append_nil, h.elements e he]
      · rw [List.mem_singleton.mp he, if_pos rfl]
        have hnone : l.filter (fun b => key b = key a) = [] :=
          List.filter_eq_nil_iff.mpr fun b hb hba => hk ((h.mem_iff _).mpr ⟨b, hb, of_decide_eq_true hba⟩)
        rw [hnone]
        rfl

theorem perm (h : Grouped key l groups) (hp : groups'.Perm groups) : Grouped key l groups' where
  nodup := (hp.map _).nodup_iff.mpr h.nodup
  mem_iff k := ((hp.map _).mem_iff).trans (h.mem_iff k)
  elements e he := h.elements e (hp.mem_iff.mp he)

theorem length_le (h : Grouped key l groups) : groups.length ≤ l.length := by
  have hsub : groups.map (·.1) ⊆ l.map key := fun k hk => List.mem_map.mpr ((h.mem_iff k).mp hk)
  have := (List.subperm_of_subset h.nodup hsub).length_le
  rwa [List.length_map, List.length_map] at this

end Grouped

end GroupBy
