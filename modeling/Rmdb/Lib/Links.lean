import Mathlib.Data.List.Basic

/-! Singly linked lists: the cells from a head along `next`, up to a cell that is no cell. -/

namespace Links
variable {α : Type}

/-- `l` lists the cells from `a` along `next` up to `stop`. -/
def Linked (next : α → α) (stop : α) : α → List α → Prop
  | a, [] => a = stop
  | a, x :: l => a = x ∧ a ≠ stop ∧ Linked next stop (next x) l

variable {next next' : α → α} {stop a x : α} {l l' : List α}

theorem Linked.congr (h : Linked next stop a l) (heq : ∀ x ∈ l, next' x = next x) : Linked next' stop a l := by
  induction l generalizing a with
  | nil => exact h
  | cons x l ih =>
    obtain ⟨hx, hstop, hrest⟩ := h
    refine ⟨hx, hstop, ?_⟩
    rw [heq x List.mem_cons_self]
    exact ih hrest fun y hy => heq y (List.mem_cons_of_mem x hy)

/-- A head has at most one list of cells. -/
theorem Linked.unique (h : Linked next stop a l) (h' : Linked next stop a l') : l = l' := by
  induction l generalizing a l' with
  | nil =>
    cases l' with
    | nil => rfl
    | cons y l' => exact absurd h h'.2.1
  | cons x l ih =>
    cases l' with
    | nil => exact absurd h' h.2.1
    | cons y l' =>
      obtain ⟨rfl, -, hrest⟩ := h
      obtain ⟨rfl, -, hrest'⟩ := h'
      rw [ih hrest hrest']

theorem Linked.pop (h : Linked next stop a l) (ha : a ≠ stop) : ∃ l', l = a :: l' ∧ Linked next stop (next a) l' := by
  cases l with
  | nil => exact absurd h ha
  | cons x l =>
    obtain ⟨rfl, -, hrest⟩ := h
    exact ⟨l, rfl, hrest⟩

theorem Linked.push (h : Linked next stop a l) (hx : x ≠ stop) (hnext : next' x = a)
    (heq : ∀ y ∈ l, next' y = next y) : Linked next' stop x (x :: l) := by
  refine ⟨rfl, hx, ?_⟩
  rw [hnext]
  exact h.congr heq

end Links
