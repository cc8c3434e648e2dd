import Rmdb.Lib.Iterator

/-! Iterators that give the same items at every start, and what the loop over the pairs of two of them gives. -/

namespace Iter
open Outcomes
variable {E R A B C : Type}

/-! ### Starting again -/

section Restarts
variable {it : Iter E R} {s t : it.State}

/-- The states at which an iterator is started: before its first start, and whenever it has come anywhere. -/
def Startable (it : Iter E R) (s : it.State) : Prop := s = it.init ∨ it.Reached s

theorem Startable.start (hs : it.Startable s) (h : it.start s = .ok t) : it.Reached t := by
  rcases hs with rfl | hs
  · exact .first h
  · exact .again hs h

/-- Every start leads to these items. -/
def Restarts (it : Iter E R) (items : List R) : Prop :=
  ∀ s, it.Startable s → ∃ t, it.start s = .ok t ∧ it.Runs t (items.map .ok)

theorem Runs.unique {rs rs' : List (Except E R)} (h : it.Runs s rs) (h' : it.Runs s rs') : rs = rs' := by
  induction rs generalizing s rs' with
  | nil =>
    cases rs' with
    | nil => rfl
    | cons r' rs' => exact absurd (h.symm.trans h'.1) Bool.false_ne_true.symm
  | cons r rs ih =>
    obtain ⟨hend, rfl, u, hu, hrest⟩ := h
    cases rs' with
    | nil => exact absurd (h'.symm.trans hend) Bool.false_ne_true.symm
    | cons r' rs' =>
      obtain ⟨-, rfl, u', hu', hrest'⟩ := h'
      cases Except.ok.inj (hu.symm.trans hu')
      rw [ih hrest hrest']

/-- At the end of a run the iterator is at its end. -/
theorem Runs.reached_end {rs : List (Except E R)} (h : it.Runs s rs) (hs : it.Reached s) : ∃ u, it.Reached u ∧ it.isEnd u = true := by
  induction rs generalizing s with
  | nil => exact ⟨s, hs, h⟩
  | cons r rs ih =>
    obtain ⟨-, -, u, hu, hrest⟩ := h
    exact ih hrest (hs.step hu)

theorem Runs.map {items : List R} (h : it.Runs s (items.map .ok)) (f : R → A) :
    (it.map f).Runs s (items.map fun r => .ok (f r)) := by
  induction items generalizing s with
  | nil => exact h
  | cons r items ih =>
    obtain ⟨hend, hread, u, hu, hrest⟩ := h
    refine ⟨hend, ?_, u, hu, ih hrest⟩
    show f <$> it.read s = .ok (f r)
    rw [hread]
    rfl

theorem map_ok_inj {items items' : List R} (h : items.map (Except.ok (ε := E)) = items'.map .ok) : items = items' :=
  List.map_injective_iff.mpr (fun _ _ heq => Except.ok.inj heq) h

end Restarts

namespace Spec
variable {it : Iter E R} {good : R → Prop} {bound : Nat}

/-- Where nothing fails, every state is the beginning of a run over good items. -/
theorem runs (h : it.Spec good (fun _ => False) bound) {s : it.State} (hs : h.inv s) :
    ∃ items : List R, it.Runs s (items.map .ok) ∧ (∀ r ∈ items, good r) ∧ items.length ≤ h.rank s := by
  suffices hn : ∀ n s, h.inv s → h.rank s ≤ n →
      ∃ items : List R, it.Runs s (items.map .ok) ∧ (∀ r ∈ items, good r) ∧ items.length ≤ h.rank s from hn _ s hs (Nat.le_refl _)
  intro n
  induction n with
  | zero =>
    intro s hs hn
    cases hend : it.isEnd s with
    | true => exact ⟨[], hend, fun r hr => (by cases hr), Nat.zero_le _⟩
    | false => exact absurd (h.pos s hs hend) (by omega)
  | succ n ih =>
    intro s hs hn
    cases hend : it.isEnd s with
    | true => exact ⟨[], hend, fun r hr => (by cases hr), Nat.zero_le _⟩
    | false =>
      obtain ⟨r, hr, hgood⟩ := h.read s hs hend
      have hstep := h.step s hs
      cases ht : it.step s with
      | error e => exact (hstep.of_error ht).elim
      | ok t =>
        obtain ⟨hinv, -, hlt, -⟩ := hstep.of_ok ht
        have hlt := hlt hend
        obtain ⟨items, hruns, hall, hlen⟩ := ih t hinv (by omega)
        refine ⟨r :: items, ⟨hend, hr, t, ht, hruns⟩, List.forall_mem_cons.mpr ⟨hgood, hall⟩, ?_⟩
        rw [List.length_cons]
        omega

theorem start_runs (h : it.Spec good (fun _ => False) bound) (s : it.State) :
    ∃ (t : it.State) (items : List R), it.start s = .ok t ∧ it.Runs t (items.map .ok) ∧ (∀ r ∈ items, good r) ∧ items.length ≤ bound := by
  have hstart := h.start s
  cases ht : it.start s with
  | error e => exact (hstart.of_error ht).elim
  | ok t =>
    obtain ⟨items, hruns, hall, hlen⟩ := h.runs (hstart.of_ok ht).1
    exact ⟨t, items, rfl, hruns, hall, Nat.le_trans hlen (hstart.of_ok ht).2⟩

open Classical in
/-- Runs from every start that stay at their ends. -/
theorem of_runs {items : List R} {I : it.State → Prop}
    (hstart : ∀ s, ∃ t, it.start s = .ok t ∧ I t ∧ it.Runs t (items.map .ok)) (hstep : ∀ s t, I s → it.step s = .ok t → I t)
    (hend : ∀ s, I s → it.isEnd s = true → ∃ t, it.step s = .ok t ∧ it.isEnd t = true) (hgood : ∀ r ∈ items, good r)
    (hbound : items.length ≤ bound) : Nonempty (it.Spec good (fun _ => False) bound) := by
  let Rest (s : it.State) (rs : List R) : Prop := it.Runs s (rs.map .ok) ∧ ∀ r ∈ rs, good r
  let rank (s : it.State) : Nat := if h : ∃ rs, Rest s rs then h.choose.length else 0
  have hrank : ∀ s rs, Rest s rs → rank s = rs.length := by
    intro s rs h
    have hex : ∃ rs, Rest s rs := ⟨rs, h⟩
    have hsame := map_ok_inj (hex.choose_spec.1.unique h.1)
    show (if h : ∃ rs, Rest s rs then h.choose.length else 0) = rs.length
    rw [dif_pos hex, hsame]
  refine ⟨{ inv := fun s => I s ∧ ∃ rs, Rest s rs, rank := rank, start := fun s => ?_, step := ?_, read := ?_, pos := ?_ }⟩
  · obtain ⟨t, ht, hI, hruns⟩ := hstart s
    rw [ht]
    exact ⟨⟨hI, items, hruns, hgood⟩, Nat.le_trans (Nat.le_of_eq (hrank t items ⟨hruns, hgood⟩)) hbound⟩
  · rintro s ⟨hI, rs, hruns, hall⟩
    cases rs with
    | nil =>
      obtain ⟨t, ht, htend⟩ := hend s hI hruns
      have hnil : Rest t [] := ⟨htend, hall⟩
      rw [ht]
      refine ⟨⟨hstep s t hI ht, [], hnil⟩, ?_, fun h => ?_, fun _ => htend⟩
      · rw [hrank t [] hnil]
        exact Nat.zero_le _
      · exact absurd (hruns.symm.trans h) Bool.false_ne_true.symm
    | cons r rs =>
      obtain ⟨hnot, hread, t, ht, hrest⟩ := hruns
      have hrest' : Rest t rs := ⟨hrest, fun x hx => hall x (List.mem_cons_of_mem r hx)⟩
      have hcons := hrank s (r :: rs) ⟨⟨hnot, hread, t, ht, hrest⟩, hall⟩
      have htail := hrank t rs hrest'
      rw [ht]
      refine ⟨⟨hstep s t hI ht, rs, hrest'⟩, ?_, fun _ => ?_, fun h => absurd (hnot.symm.trans h) Bool.false_ne_true⟩
      · rw [hcons, htail]
        exact Nat.le_succ _
      · rw [hcons, htail]
        exact Nat.lt_succ_self _
  · rintro s ⟨-, rs, hruns, hall⟩ hnot
    cases rs with
    | nil => exact absurd (hnot.symm.trans hruns) Bool.false_ne_true
    | cons r rs => exact ⟨r, hruns.2.1, hall r (List.mem_cons_self ..)⟩
  · rintro s ⟨-, rs, hruns, hall⟩ hnot
    cases rs with
    | nil => exact absurd (hnot.symm.trans hruns) Bool.false_ne_true
    | cons r rs =>
      rw [hrank s (r :: rs) ⟨hruns, hall⟩]
      exact Nat.succ_pos _

end Spec

/-! ### The loop over pairs -/

section Nested
variable {l : Iter E A} {r : Iter E B} {test : A → B → Except E Bool}

/-- The pair passes the test. -/
def passes (test : A → B → Except E Bool) (p : A × B) : Bool :=
  match test p.1 p.2 with
  | .ok hit => hit
  | .error _ => false

/-- All pairs, of which the left items change faster. -/
def pairs (ls : List A) (rs : List B) : List (A × B) := rs.flatMap fun b => ls.map fun a => (a, b)

/-- The pairs that are left where `la` is left of the left items and `rb` of the right ones. -/
def pairsFrom (ls la : List A) : List B → List (A × B)
  | [] => []
  | b :: rb => la.map (fun a => (a, b)) ++ pairs ls rb

theorem pairsFrom_all (ls : List A) (rs : List B) : pairsFrom ls ls rs = pairs ls rs := by
  cases rs with
  | nil => rfl
  | cons b rs => rfl

theorem pairsFrom_nil (ls : List A) (b : B) (rb : List B) : pairsFrom ls [] (b :: rb) = pairsFrom ls ls rb :=
  (pairsFrom_all ls rb).symm

theorem pairsFrom_cons (ls la : List A) (a : A) (b : B) (rb : List B) :
    pairsFrom ls (a :: la) (b :: rb) = (a, b) :: pairsFrom ls la (b :: rb) := rfl

theorem length_pairs (ls : List A) (rs : List B) : (pairs ls rs).length = rs.length * ls.length := by
  induction rs with
  | nil => exact (Nat.zero_mul _).symm
  | cons b rs ih =>
    have hcons : pairs ls (b :: rs) = (ls.map fun a => (a, b)) ++ pairs ls rs := rfl
    rw [hcons, List.length_append, List.length_map, ih, List.length_cons, Nat.add_one_mul, Nat.add_comm]

/-- The number of pairs of positions that are left. -/
def remaining (ls la : List A) (rb : List B) : Nat := rb.length * (ls.length + 1) + la.length

/-- A pair of positions, with the items from there on. -/
structure At (l : Iter E A) (r : Iter E B) (ls la : List A) (rs rb : List B) (s : l.State) (t : r.State) : Prop where
  reachedL : l.Reached s
  reachedR : r.Reached t
  runsL : l.Runs s (la.map .ok)
  runsR : r.Runs t (rb.map .ok)
  subL : la ⊆ ls
  subR : rb ⊆ rs

variable {ls la : List A} {rs rb : List B} {s : l.State} {t : r.State}

theorem At.advance (hl : l.Restarts ls) {a : A} {b : B} (h : At l r ls (a :: la) rs (b :: rb) s t) :
    ∃ s' t' la' rb', advance l r s t = .ok (s', t') ∧ At l r ls la' rs rb' s' t' ∧ la' ≠ [] ∧
      pairsFrom ls la' rb' = pairsFrom ls la (b :: rb) ∧ remaining ls la' rb' < remaining ls (a :: la) (b :: rb) := by
  obtain ⟨-, -, s₁, hs₁, hrunsL⟩ := h.runsL
  obtain ⟨-, -, t₁, ht₁, hrunsR⟩ := h.runsR
  have hreachedL := h.reachedL.step hs₁
  unfold Iter.advance
  cases la with
  | nil =>
    have hend : l.isEnd s₁ = true := hrunsL
    obtain ⟨s₂, hs₂, hrunsL₂⟩ := hl s₁ (Or.inr hreachedL)
    refine ⟨s₂, t₁, ls, rb, by simp [hs₁, hend, ht₁, hs₂], ⟨hreachedL.again hs₂, h.reachedR.step ht₁, hrunsL₂, hrunsR,
      List.Subset.refl _, fun x hx => h.subR (List.mem_cons_of_mem b hx)⟩, ?_, (pairsFrom_nil ls b rb).symm, ?_⟩
    · exact List.ne_nil_of_mem (h.subL (List.mem_cons_self ..))
    · simp only [remaining, List.length_cons, List.length_nil, Nat.add_mul]
      omega
  | cons a' la =>
    have hend : l.isEnd s₁ = false := hrunsL.1
    refine ⟨s₁, t, a' :: la, b :: rb, by simp [hs₁, hend], ⟨hreachedL, h.reachedR, hrunsL, h.runsR,
      fun x hx => h.subL (List.mem_cons_of_mem a hx), h.subR⟩, List.cons_ne_nil _ _, rfl, ?_⟩
    simp only [remaining, List.length_cons]
    omega

/-- The search stops at the first pair that passes, or finds that none does. -/
theorem At.seek (hl : l.Restarts ls) (htest : ∀ a ∈ ls, ∀ b ∈ rs, ∃ hit, test a b = .ok hit) (late : E) (turns : Nat)
    (h : At l r ls la rs rb s t) (hne : la ≠ []) (hturns : remaining ls la rb < turns) :
    (∃ s' t' a la' b rb', seek l r test late turns s t = .ok (s', t', true) ∧ At l r ls (a :: la') rs (b :: rb') s' t' ∧
      passes test (a, b) = true ∧
      (pairsFrom ls la rb).filter (passes test) = (a, b) :: (pairsFrom ls la' (b :: rb')).filter (passes test) ∧
      remaining ls (a :: la') (b :: rb') ≤ remaining ls la rb) ∨
    (∃ s' t', seek l r test late turns s t = .ok (s', t', false) ∧ (pairsFrom ls la rb).filter (passes test) = []) := by
  induction turns generalizing la rb s t with
  | zero => exact absurd hturns (Nat.not_lt_zero _)
  | succ turns ih =>
    rw [Iter.seek]
    cases rb with
    | nil =>
      have hend : r.isEnd t = true := h.runsR
      exact Or.inr ⟨s, t, by simp [hend], rfl⟩
    | cons b rb =>
      cases la with
      | nil => exact absurd rfl hne
      | cons a la =>
        have hendR : r.isEnd t = false := h.runsR.1
        have hendL : l.isEnd s = false := h.runsL.1
        have hreadR : r.read t = .ok b := h.runsR.2.1
        have hreadL : l.read s = .ok a := h.runsL.2.1
        obtain ⟨hit, hhit⟩ := htest a (h.subL (List.mem_cons_self ..)) b (h.subR (List.mem_cons_self ..))
        have hpass : passes test (a, b) = hit := by rw [passes, hhit]
        simp only [hendR, hendL, hreadL, hreadR, hhit, Bool.false_eq_true, if_false, ok_bind]
        cases hit with
        | true =>
          refine Or.inl ⟨s, t, a, la, b, rb, rfl, h, hpass, ?_, Nat.le_refl _⟩
          rw [pairsFrom_cons, List.filter_cons_of_pos hpass]
        | false =>
          obtain ⟨s', t', la', rb', hadv, hat, hne', hpairs, hlt⟩ := h.advance hl
          have hsame : (pairsFrom ls (a :: la) (b :: rb)).filter (passes test) = (pairsFrom ls la' rb').filter (passes test) := by
            rw [pairsFrom_cons, List.filter_cons_of_neg (by rw [hpass]; exact Bool.false_ne_true), hpairs]
          rw [hsame, if_neg Bool.false_ne_true, hadv]
          rcases ih hat hne' (by omega) with ⟨s'', t'', a'', la'', b'', rb'', hseek, hat'', hpass'', hfilter, hle⟩ | hnone
          · exact Or.inl ⟨s'', t'', a'', la'', b'', rb'', hseek, hat'', hpass'', hfilter, by omega⟩
          · exact Or.inr hnone

variable (late : E) (turns : Nat) (merge : A → B → C) (missing : C)

/-- From a pair that passes on, the loop reads it and all later ones. -/
theorem At.runs (hl : l.Restarts ls) (htest : ∀ a ∈ ls, ∀ b ∈ rs, ∃ hit, test a b = .ok hit) {n : Nat} {a : A} {b : B}
    (h : At l r ls (a :: la) rs (b :: rb) s t) (hpass : passes test (a, b) = true) (hn : remaining ls (a :: la) (b :: rb) ≤ n)
    (hturns : n < turns) : (nested l r test late turns merge missing).Runs (s, t, false)
      (((pairsFrom ls (a :: la) (b :: rb)).filter (passes test)).map fun p => .ok (merge p.1 p.2)) := by
  induction n generalizing la rb a b s t with
  | zero =>
    simp only [remaining, List.length_cons] at hn
    omega
  | succ n ih =>
    obtain ⟨s', t', la', rb', hadv, hat, hne, hpairs, hlt⟩ := h.advance hl
    have hreadR : r.read t = .ok b := h.runsR.2.1
    have hreadL : l.read s = .ok a := h.runsL.2.1
    rw [pairsFrom_cons, List.filter_cons_of_pos hpass, List.map_cons, ← hpairs]
    refine ⟨rfl, by simp [nested, hreadL, hreadR], ?_⟩
    rcases hat.seek hl htest late turns hne (by omega) with
      ⟨s'', t'', a'', la'', b'', rb'', hseek, hat'', hpass'', hfilter, hle⟩ | ⟨s'', t'', hseek, hfilter⟩
    · refine ⟨(s'', t'', false), by simp [nested, hadv, hseek], ?_⟩
      have := ih hat'' hpass'' (by omega) (by omega)
      rwa [pairsFrom_cons, List.filter_cons_of_pos hpass'', ← hfilter] at this
    · refine ⟨(s'', t'', true), by simp [nested, hadv, hseek], ?_⟩
      rw [hfilter]
      rfl

/-- A start that does not find the loop at its end leads to all pairs that pass, each once. The right iterator is not started
    again. -/
theorem nested_start_once (hl : l.Restarts ls) {t' : r.State} (ht' : r.start t = .ok t') (hreached : r.Reached t')
    (hrunsR : r.Runs t' (rs.map .ok)) (htest : ∀ a ∈ ls, ∀ b ∈ rs, ∃ hit, test a b = .ok hit)
    (hturns : remaining ls ls rs < turns) (hs : l.Startable s) :
    ∃ q, (nested l r test late turns merge missing).start (s, t, false) = .ok q ∧
      (nested l r test late turns merge missing).Runs q (((pairs ls rs).filter (passes test)).map fun p => .ok (merge p.1 p.2)) := by
  obtain ⟨s', hs', hrunsL⟩ := hl s hs
  have hat : At l r ls ls rs rs s' t' :=
    ⟨hs.start hs', hreached, hrunsL, hrunsR, List.Subset.refl _, List.Subset.refl _⟩
  cases ls with
  | nil =>
    have hend : l.isEnd s' = true := hrunsL
    have hnone : pairs ([] : List A) rs = [] := List.flatMap_eq_nil_iff.mpr fun _ _ => rfl
    rw [hnone]
    exact ⟨(s', t', true), by simp [nested, hs', ht', hend], rfl⟩
  | cons a la =>
    cases rs with
    | nil =>
      have hend : r.isEnd t' = true := hrunsR
      exact ⟨(s', t', true), by simp [nested, hs', ht', hend], rfl⟩
    | cons b rb =>
      have hendL : l.isEnd s' = false := hrunsL.1
      have hendR : r.isEnd t' = false := hrunsR.1
      rw [← pairsFrom_all]
      rcases hat.seek hl htest late turns (List.cons_ne_nil _ _) hturns with
        ⟨s'', t'', a'', la'', b'', rb'', hseek, hat'', hpass, hfilter, hle⟩ | ⟨s'', t'', hseek, hfilter⟩
      · refine ⟨(s'', t'', false), by simp [nested, hs', ht', hendL, hendR, hseek], ?_⟩
        have := hat''.runs late turns merge missing hl htest hpass hle hturns
        rwa [pairsFrom_cons, List.filter_cons_of_pos hpass, ← hfilter] at this
      · refine ⟨(s'', t'', true), by simp [nested, hs', ht', hendL, hendR, hseek], ?_⟩
        rw [hfilter]
        rfl

theorem nested_start (hl : l.Restarts ls) (hr : r.Restarts rs) (htest : ∀ a ∈ ls, ∀ b ∈ rs, ∃ hit, test a b = .ok hit)
    (hturns : remaining ls ls rs < turns) (hs : l.Startable s) (ht : r.Startable t) :
    ∃ q, (nested l r test late turns merge missing).start (s, t, false) = .ok q ∧
      (nested l r test late turns merge missing).Runs q (((pairs ls rs).filter (passes test)).map fun p => .ok (merge p.1 p.2)) := by
  obtain ⟨t', ht', hrunsR⟩ := hr t ht
  exact nested_start_once late turns merge missing hl ht' (ht.start ht') hrunsR htest hturns hs

/-- A start that finds the loop at its end leaves it there. -/
theorem nested_start_ended {late : E} {turns : Nat} {merge : A → B → C} {missing : C} {p q : (nested l r test late turns merge missing).State} (hp : p.2.2 = true)
    (hq : (nested l r test late turns merge missing).start p = .ok q) : (nested l r test late turns merge missing).Runs q [] := by
  obtain ⟨s, hs, hq⟩ := ok_of_bind hq
  obtain ⟨t, ht, hq⟩ := ok_of_bind hq
  show q.2.2 = true
  split at hq
  · cases hq
    rfl
  · obtain ⟨u, hu, hq⟩ := ok_of_bind hq
    cases hq
    rw [hp, Bool.true_or]

end Nested

end Iter
