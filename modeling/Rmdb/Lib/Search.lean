import Mathlib.Data.List.Nodup
import Mathlib.Data.List.Perm.Subperm
import Mathlib.Logic.Relation

/-! Search in a graph with a queue. `next` gives the neighbours of a vertex. -/

namespace Search
open Relation (ReflTransGen)

theorem nodup_snoc {V : Type} {visited : List V} {start : V} (hnew : start ∉ visited) (hnodup : visited.Nodup) : (visited ++ [start]).Nodup :=
  List.nodup_append.mpr ⟨hnodup, List.nodup_singleton start, fun _ hx _ hy heq => hnew (List.mem_singleton.mp hy ▸ heq ▸ hx)⟩

variable {V : Type} [DecidableEq V] (next : V → List V)

/-! ### The search -/

/-- The vertices that were not visited go to the end of the queue, and are visited. -/
def enqueue (p : List V × List V) (vs : List V) : List V × List V :=
  vs.foldl (fun p v => if v ∈ p.2 then p else (p.1 ++ [v], p.2 ++ [v])) p

/-- The vertices taken from the queue, and those visited then. Every turn takes one from the queue. -/
def run : Nat → List V → List V → List V × List V
  | 0, _, visited => ([], visited)
  | _ + 1, [], visited => ([], visited)
  | turns + 1, v :: queue, visited =>
    let p := enqueue (queue, visited) (next v)
    let q := run turns p.1 p.2
    (v :: q.1, q.2)

/-- The search comes to an end with an empty queue. -/
inductive Ends : List V → List V → List V → List V → Prop where
  | empty {visited : List V} : Ends [] visited [] visited
  | turn {v : V} {queue visited members visited' : List V}
      (h : Ends (enqueue (queue, visited) (next v)).1 (enqueue (queue, visited) (next v)).2 members visited') :
      Ends (v :: queue) visited (v :: members) visited'

/-- The search from each start that no search has visited so far. -/
def sweep (turns : Nat) : List V → List V → List (List V)
  | [], _ => []
  | start :: starts, visited =>
    if start ∈ visited then sweep turns starts visited
    else
      let p := run next turns [start] (visited ++ [start])
      p.1 :: sweep turns starts p.2

/-! ### What a search finds -/

variable {next} {queue visited members visited' all vs : List V}

theorem enqueue_spec : ∃ new, enqueue (queue, visited) vs = (queue ++ new, visited ++ new) ∧ new ⊆ vs ∧
    vs ⊆ visited ++ new ∧ (visited.Nodup → (visited ++ new).Nodup) := by
  induction vs generalizing queue visited with
  | nil => exact ⟨[], by simp [enqueue], List.nil_subset _, List.nil_subset _, by simp⟩
  | cons v vs ih =>
    rw [enqueue, List.foldl_cons, ← enqueue]
    by_cases hv : v ∈ visited
    · rw [if_pos hv]
      obtain ⟨new, heq, hsub, hcov, hnodup⟩ := @ih queue visited
      exact ⟨new, heq, fun x hx => List.mem_cons_of_mem v (hsub hx),
        List.cons_subset.mpr ⟨List.mem_append_left _ hv, hcov⟩, hnodup⟩
    · rw [if_neg hv]
      obtain ⟨new, heq, hsub, hcov, hnodup⟩ := @ih (queue ++ [v]) (visited ++ [v])
      rw [List.append_assoc] at hcov hnodup
      refine ⟨v :: new, by simpa using heq, List.cons_subset_cons v hsub, List.cons_subset.mpr ⟨?_, hcov⟩, fun h => hnodup ?_⟩
      · exact List.mem_append_right _ (List.mem_cons_self ..)
      · exact nodup_snoc hv h

/-- What is taken from the queue is what was there and what is visited anew. -/
theorem Ends.added (h : Ends next queue visited members visited') :
    ∃ new, members = queue ++ new ∧ visited' = visited ++ new ∧ (visited.Nodup → visited'.Nodup) := by
  induction h with
  | empty => exact ⟨[], rfl, (List.append_nil _).symm, id⟩
  | @turn v queue visited members visited' _ ih =>
    obtain ⟨new, heq, -, -, hnodup⟩ := @enqueue_spec _ _ queue visited (next v)
    rw [heq] at ih
    obtain ⟨new', rfl, rfl, hnodup'⟩ := ih
    exact ⟨new ++ new', by simp, by simp, fun h => hnodup' (hnodup h)⟩

/-- All neighbours of what is taken from the queue are visited. -/
theorem Ends.covers (h : Ends next queue visited members visited') : ∀ m ∈ members, next m ⊆ visited' := by
  induction h with
  | empty =>
    intro m hm
    cases hm
  | @turn v queue visited members visited' hrest ih =>
    intro m hm
    rcases List.mem_cons.mp hm with rfl | hm
    · obtain ⟨new, heq, -, hcov, -⟩ := @enqueue_spec _ _ queue visited (next m)
      obtain ⟨new', -, rfl, -⟩ := hrest.added
      rw [heq]
      exact fun x hx => List.mem_append_left _ (hcov hx)
    · exact ih m hm

/-- What is taken from the queue is reached from what was there. -/
theorem Ends.reached (h : Ends next queue visited members visited') :
    ∀ m ∈ members, ∃ v ∈ queue, ReflTransGen (fun a b => b ∈ next a) v m := by
  induction h with
  | empty =>
    intro m hm
    cases hm
  | @turn v queue visited members visited' _ ih =>
    obtain ⟨new, heq, hsub, -, -⟩ := @enqueue_spec _ _ queue visited (next v)
    rw [heq] at ih
    intro m hm
    rcases List.mem_cons.mp hm with rfl | hm
    · exact ⟨m, List.mem_cons_self .., .refl⟩
    · obtain ⟨u, hu, hreach⟩ := ih m hm
      rcases List.mem_append.mp hu with hu | hu
      · exact ⟨u, List.mem_cons_of_mem v hu, hreach⟩
      · exact ⟨v, List.mem_cons_self .., .head (hsub hu) hreach⟩

theorem Ends.within (hall : ∀ v ∈ all, next v ⊆ all) (hqueue : queue ⊆ all)
    (h : Ends next queue visited members visited') : members ⊆ all := by
  induction h with
  | empty => exact List.nil_subset _
  | @turn v queue visited members visited' _ ih =>
    obtain ⟨new, heq, hsub, -, -⟩ := @enqueue_spec _ _ queue visited (next v)
    obtain ⟨hv, hqueue⟩ := List.cons_subset.mp hqueue
    rw [heq] at ih
    exact List.cons_subset.mpr ⟨hv, ih (List.append_subset.mpr ⟨hqueue, fun x hx => hall v hv (hsub hx)⟩)⟩

/-- A search within finitely many vertices ends, with a turn for each vertex in the queue or not visited. -/
theorem run_ends (hall : ∀ v ∈ all, next v ⊆ all) {turns : Nat} (hqueue : queue ⊆ all) (hvisited : visited ⊆ all)
    (hnodup : visited.Nodup) (hturns : queue.length + (all.length - visited.length) ≤ turns) :
    Ends next queue visited (run next turns queue visited).1 (run next turns queue visited).2 := by
  induction turns generalizing queue visited with
  | zero =>
    cases queue with
    | nil => exact .empty
    | cons v queue => exact absurd hturns (by simp)
  | succ turns ih =>
    cases queue with
    | nil => exact .empty
    | cons v queue =>
      obtain ⟨new, heq, hsub, -, hnodup'⟩ := @enqueue_spec _ _ queue visited (next v)
      have hnew : new ⊆ all := fun x hx => hall v (hqueue (List.mem_cons_self ..)) (hsub hx)
      have hvisited' : visited ++ new ⊆ all := List.append_subset.mpr ⟨hvisited, hnew⟩
      have hle : (visited ++ new).length ≤ all.length := (List.subperm_of_subset (hnodup' hnodup) hvisited').length_le
      rw [run]
      refine .turn ?_
      simp only [heq]
      refine ih (List.append_subset.mpr ⟨fun x hx => hqueue (List.mem_cons_of_mem v hx), hnew⟩) hvisited' (hnodup' hnodup) ?_
      simp only [List.length_append, List.length_cons] at *
      omega

/-- The search from a vertex that was not visited ends with a turn for each vertex. -/
theorem start_ends (hall : ∀ v ∈ all, next v ⊆ all) {turns : Nat} (hturns : all.length ≤ turns) {start : V} (hstart : start ∈ all)
    (hnew : start ∉ visited) (hvisited : visited ⊆ all) (hnodup : visited.Nodup) :
    Ends next [start] (visited ++ [start]) (run next turns [start] (visited ++ [start])).1
      (run next turns [start] (visited ++ [start])).2 := by
  have hstart' : [start] ⊆ all := List.cons_subset.mpr ⟨hstart, List.nil_subset _⟩
  have hnodup' := nodup_snoc hnew hnodup
  have hle := (List.subperm_of_subset hnodup' (List.append_subset.mpr ⟨hvisited, hstart'⟩)).length_le
  refine run_ends hall hstart' (List.append_subset.mpr ⟨hvisited, hstart'⟩) hnodup' ?_
  simp only [List.length_append, List.length_cons, List.length_nil] at *
  omega

/-! ### Components -/

/-- The vertices are joined, and all their neighbours are among them. -/
structure Component (next : V → List V) (members : List V) : Prop where
  closed : ∀ m ∈ members, next m ⊆ members
  reached : ∃ start ∈ members, ∀ m ∈ members, ReflTransGen (fun a b => b ∈ next a) start m

/-- In a graph whose edges go both ways, the search from a vertex outside of what is closed finds the component of the vertex. -/
theorem Ends.component (hsymm : ∀ a b, b ∈ next a → a ∈ next b) {start : V} (hstart : start ∉ visited)
    (hclosed : ∀ v ∈ visited, next v ⊆ visited) (hnodup : visited.Nodup)
    (h : Ends next [start] (visited ++ [start]) members visited') :
    Component next members ∧ start ∈ members ∧ visited' = visited ++ members ∧ visited'.Nodup := by
  obtain ⟨new, rfl, rfl, hnodup'⟩ := h.added
  have hnodup' := hnodup' (nodup_snoc hstart hnodup)
  have heq : (visited ++ [start]) ++ new = visited ++ ([start] ++ new) := List.append_assoc ..
  rw [heq] at hnodup' ⊢
  have hdisj : ∀ v ∈ visited, v ∉ [start] ++ new := fun v hv hm => (List.nodup_append.mp hnodup').2.2 v hv v hm rfl
  have hstart' : start ∈ [start] ++ new := List.mem_append_left _ (List.mem_singleton_self _)
  refine ⟨⟨fun m hm n hn => ?_, start, hstart', fun m hm => ?_⟩, hstart', rfl, hnodup'⟩
  · have hcov := h.covers m hm hn
    rw [heq] at hcov
    rcases List.mem_append.mp hcov with hold | hnew
    · exact absurd hm (hdisj m (hclosed n hold (hsymm m n hn)))
    · exact hnew
  · obtain ⟨v, hv, hreach⟩ := h.reached m hm
    rw [List.mem_singleton.mp hv] at hreach
    exact hreach

/-- The searches from all starts find components, and among them those of the starts. -/
theorem sweep_spec (hsymm : ∀ a b, b ∈ next a → a ∈ next b) (hall : ∀ v ∈ all, next v ⊆ all) {turns : Nat}
    (hturns : all.length ≤ turns) {starts : List V} (hstarts : starts ⊆ all) (hvisited : visited ⊆ all) (hnodup : visited.Nodup)
    (hclosed : ∀ v ∈ visited, next v ⊆ visited) :
    (∀ members ∈ sweep next turns starts visited, Component next members ∧ members ⊆ all) ∧
      ∀ start ∈ starts, start ∈ visited ∨ ∃ members ∈ sweep next turns starts visited, start ∈ members := by
  induction starts generalizing visited with
  | nil => exact ⟨fun m hm => (by cases hm), fun s hs => (by cases hs)⟩
  | cons start starts ih =>
    obtain ⟨hstart, hstarts⟩ := List.cons_subset.mp hstarts
    rw [sweep]
    by_cases hmem : start ∈ visited
    · rw [if_pos hmem]
      obtain ⟨hcomp, hcov⟩ := ih hstarts hvisited hnodup hclosed
      exact ⟨hcomp, List.forall_mem_cons.mpr ⟨Or.inl hmem, hcov⟩⟩
    · rw [if_neg hmem]
      have hends := start_ends hall hturns hstart hmem hvisited hnodup
      have hwithin := hends.within hall (List.cons_subset.mpr ⟨hstart, List.nil_subset _⟩)
      obtain ⟨hcomp, hin, heq, hnodup'⟩ := hends.component hsymm hmem hclosed hnodup
      rw [heq] at hnodup'
      have hrest := @ih (visited ++ (run next turns [start] (visited ++ [start])).1) hstarts
        (List.append_subset.mpr ⟨hvisited, hwithin⟩) hnodup' fun v hv => by
          rcases List.mem_append.mp hv with hv | hv
          · exact fun x hx => List.mem_append_left _ (hclosed v hv hx)
          · exact fun x hx => List.mem_append_right _ (hcomp.closed v hv hx)
      simp only [heq]
      refine ⟨List.forall_mem_cons.mpr ⟨⟨hcomp, hwithin⟩, hrest.1⟩, List.forall_mem_cons.mpr
        ⟨Or.inr ⟨_, List.mem_cons_self .., hin⟩, fun s hs => ?_⟩⟩
      rcases hrest.2 s hs with hvis | ⟨members, hm, hs⟩
      · rcases List.mem_append.mp hvis with hvis | hvis
        · exact Or.inl hvis
        · exact Or.inr ⟨_, List.mem_cons_self .., hvis⟩
      · exact Or.inr ⟨members, List.mem_cons_of_mem _ hm, hs⟩

end Search
