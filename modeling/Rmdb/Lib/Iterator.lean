import Rmdb.Lib.Outcome

/-! Iterators with a position: they are started, moved forward and read until they are at their end, and can be started again.

An iterator is built from others: by reading through one (`map`), by going through one for each position of another
(`nested`) and by going through one when started (`buffered`). -/

/-- An iterator over items of type `R` whose operations may fail. -/
structure Iter (E R : Type) where
  State : Type
  init : State
  start : State → Except E State
  step : State → Except E State
  isEnd : State → Bool
  read : State → Except E R

namespace Iter
open Outcomes
variable {E R A B C S T : Type}

/-! ### Loops -/

section Loops
variable (it : Iter E R)

/-- Every item from the position to the end is read and folded in. `late` is the failure of a loop that takes more turns. -/
def fold (f : S → R → Except E S) (late : E) : Nat → S → it.State → Except E (S × it.State)
  | 0, acc, s => if it.isEnd s then .ok (acc, s) else .error late
  | turns + 1, acc, s =>
    if it.isEnd s then .ok (acc, s)
    else do
      let r ← it.read s
      let acc ← f acc r
      let s ← it.step s
      fold f late turns acc s

/-- The items from the position to the end. -/
def rest (late : E) (turns : Nat) (s : it.State) : Except E (List R × it.State) :=
  it.fold (fun acc r => .ok (acc ++ [r])) late turns [] s

/-- The number of positions to the end, none of which is read. -/
def count (late : E) : Nat → it.State → Except E (Nat × it.State)
  | 0, s => if it.isEnd s then .ok (0, s) else .error late
  | turns + 1, s =>
    if it.isEnd s then .ok (0, s)
    else do
      let s ← it.step s
      let (n, s) ← count late turns s
      .ok (n + 1, s)

end Loops

/-! ### Runs -/

section Runs
variable (it : Iter E R)

/-- The states that starts and steps lead to. -/
inductive Reached : it.State → Prop where
  | first {t : it.State} (h : it.start it.init = .ok t) : Reached t
  | again {s t : it.State} (hs : Reached s) (h : it.start s = .ok t) : Reached t
  | step {s t : it.State} (hs : Reached s) (h : it.step s = .ok t) : Reached t

/-- From the position on, every step succeeds and these are the results of the reads, up to the end. -/
def Runs : it.State → List (Except E R) → Prop
  | s, [] => it.isEnd s = true
  | s, r :: rs => it.isEnd s = false ∧ it.read s = r ∧ ∃ t, it.step s = .ok t ∧ Runs t rs

/-- Items that come from reads, folded. -/
def foldReads (f : S → R → Except E S) : S → List (Except E R) → Except E S
  | acc, [] => .ok acc
  | acc, r :: rs => do
    let r ← r
    let acc ← f acc r
    foldReads f acc rs

end Runs

section RunsRules
variable {it : Iter E R} {s : it.State} {rs : List (Except E R)}

/-- A loop over a run is the fold of what it reads. -/
theorem Runs.fold (h : it.Runs s rs) : ∃ t, ∀ {S : Type} (f : S → R → Except E S) (late : E) (turns : Nat) (acc : S),
    rs.length ≤ turns → it.fold f late turns acc s = foldReads f acc rs >>= fun acc => .ok (acc, t) := by
  induction rs generalizing s with
  | nil =>
    refine ⟨s, fun f late turns acc _ => ?_⟩
    have hend : it.isEnd s = true := h
    cases turns <;> simp [Iter.fold, hend, foldReads]
  | cons r rs ih =>
    obtain ⟨hend, rfl, t, ht, hrest⟩ := h
    obtain ⟨t', ht'⟩ := ih hrest
    refine ⟨t', fun f late turns acc hturns => ?_⟩
    cases turns with
    | zero => exact absurd hturns (Nat.not_succ_le_zero _)
    | succ turns =>
      rw [Iter.fold, foldReads, hend]
      cases it.read s with
      | error e => rfl
      | ok r =>
        cases hf : f acc r with
        | error e => simp [hf]; rfl
        | ok acc' => simpa [hf, ht] using ht' f late turns acc' (Nat.le_of_succ_le_succ hturns)

theorem Runs.count (h : it.Runs s rs) {late : E} {turns : Nat} (hturns : rs.length ≤ turns) :
    ∃ t, it.count late turns s = .ok (rs.length, t) := by
  induction rs generalizing s turns with
  | nil =>
    have hend : it.isEnd s = true := h
    exact ⟨s, by cases turns <;> simp [Iter.count, hend]⟩
  | cons r rs ih =>
    obtain ⟨hend, -, t, ht, hrest⟩ := h
    cases turns with
    | zero => exact absurd hturns (Nat.not_succ_le_zero _)
    | succ turns =>
      obtain ⟨t', ht'⟩ := ih hrest (Nat.le_of_succ_le_succ hturns)
      exact ⟨t', by simp [Iter.count, hend, ht, ht']⟩

/-- Every read of a run takes place at a state that is reached. -/
theorem Runs.reads (h : it.Runs s rs) (hs : it.Reached s) {r : Except E R} (hr : r ∈ rs) :
    ∃ t, it.Reached t ∧ it.isEnd t = false ∧ it.read t = r := by
  induction rs generalizing s with
  | nil => cases hr
  | cons r' rs ih =>
    obtain ⟨hend, hread, t, ht, hrest⟩ := h
    rcases List.mem_cons.mp hr with rfl | hr
    · exact ⟨s, hs, hend, hread⟩
    · exact ih hrest (hs.step ht) hr

end RunsRules

/-! ### Iterators from iterators -/

/-- The positions of `it`, with other items read at them. -/
def view (it : Iter E R) (read : it.State → Except E S) : Iter E S where
  State := it.State
  init := it.init
  start := it.start
  step := it.step
  isEnd := it.isEnd
  read := read

/-- The items of `it`, each changed by `f`. -/
def map (it : Iter E R) (f : R → S) : Iter E S := it.view fun s => f <$> it.read s

section Nested
variable (l : Iter E A) (r : Iter E B) (test : A → B → Except E Bool) (late : E)

/-- The next pair of positions, of which the left one moves faster. -/
def advance (s : l.State) (t : r.State) : Except E (l.State × r.State) := do
  let s ← l.step s
  if l.isEnd s then do
    let t ← r.step t
    let s ← l.start s
    .ok (s, t)
  else .ok (s, t)

/-- The first pair from the positions on whose items pass the test, and whether there is one. -/
def seek : Nat → l.State → r.State → Except E (l.State × r.State × Bool)
  | 0, _, _ => .error late
  | turns + 1, s, t =>
    if r.isEnd t then .ok (s, t, false)
    else do
      let hit ← if l.isEnd s then .ok false
        else do
          let a ← l.read s
          let b ← r.read t
          test a b
      if hit then .ok (s, t, true)
      else do
        let (s, t) ← advance l r s t
        seek turns s t

/-- The pairs of items that pass the test. The end, once reached, is kept over a new start. -/
def nested (turns : Nat) (merge : A → B → C) (missing : C) : Iter E C where
  State := l.State × r.State × Bool
  init := (l.init, r.init, false)
  start p := do
    let s ← l.start p.1
    let t ← r.start p.2.1
    if l.isEnd s || r.isEnd t then .ok (s, t, true)
    else do
      let (s, t, hit) ← seek l r test late turns s t
      .ok (s, t, p.2.2 || !hit)
  step p :=
    if p.2.2 then .ok p
    else do
      let (s, t) ← advance l r p.1 p.2.1
      let (s, t, hit) ← seek l r test late turns s t
      .ok (s, t, !hit)
  isEnd p := p.2.2
  read p :=
    if p.2.2 then .ok missing
    else do
      let a ← l.read p.1
      let b ← r.read p.2.1
      .ok (merge a b)

end Nested

/-- The items that `fill` makes of the whole of `it` when started. -/
def buffered (it : Iter E R) (fill : it.State → Except E (List S × it.State)) (read : S → Except E T) (missing : T) :
    Iter E T where
  State := it.State × List S
  init := (it.init, [])
  start p := do
    let s ← it.start p.1
    let (items, s) ← fill s
    .ok (s, items)
  step p := .ok (p.1, p.2.tail)
  isEnd p := p.2.isEmpty
  read p :=
    match p.2 with
    | [] => .ok missing
    | item :: _ => read item

theorem Reached.map {it : Iter E R} {s : it.State} (h : it.Reached s) {f : R → S} : (it.map f).Reached s := by
  induction h with
  | first ht => exact .first ht
  | again _ ht ih => exact .again ih ht
  | step _ ht ih => exact .step ih ht

/-- The items that are there after a start are read one after the other. -/
theorem runs_buffered {it : Iter E R} {fill : it.State → Except E (List S × it.State)} {read : S → Except E T} {missing : T}
    (s : it.State) (items : List S) : (it.buffered fill read missing).Runs (s, items) (items.map read) := by
  induction items with
  | nil => rfl
  | cons item items ih => exact ⟨rfl, rfl, _, rfl, ih⟩

/-- What holds of an iterator from its first start on: it can be read before its end, where its items are `good`; it fails in
    `fine` ways only; and a start leaves at most `bound` positions. -/
structure Spec (it : Iter E R) (good : R → Prop) (fine : E → Prop) (bound : Nat) where
  inv : it.State → Prop
  rank : it.State → Nat
  start : ∀ s, Meets (fun t => inv t ∧ rank t ≤ bound) fine (it.start s)
  step : ∀ s, inv s → Meets (fun t => inv t ∧ rank t ≤ rank s ∧ (it.isEnd s = false → rank t < rank s) ∧
    (it.isEnd s = true → it.isEnd t = true)) fine (it.step s)
  read : ∀ s, inv s → it.isEnd s = false → ∃ r, it.read s = .ok r ∧ good r
  pos : ∀ s, inv s → it.isEnd s = false → 0 < rank s

namespace Spec
variable {it : Iter E R} {good : R → Prop} {fine : E → Prop} {bound : Nat}

/-- The invariant holds at every state that is reached. -/
theorem reached (h : it.Spec good fine bound) {s : it.State} (hs : it.Reached s) : h.inv s := by
  induction hs with
  | first ht => exact ((h.start _).of_ok ht).1
  | again _ ht => exact ((h.start _).of_ok ht).1
  | step _ ht ih => exact ((h.step _ ih).of_ok ht).1

/-- The loop rule: what every item keeps holds at the end, with enough turns. -/
theorem fold (h : it.Spec good fine bound) {P : S → Prop} {f : S → R → Except E S} {late : E}
    (hf : ∀ acc r, P acc → good r → Meets P fine (f acc r)) {turns : Nat} {acc : S} {s : it.State} (hs : h.inv s)
    (hacc : P acc) (hturns : h.rank s ≤ turns) :
    Meets (fun p => P p.1 ∧ h.inv p.2 ∧ it.isEnd p.2 = true ∧ h.rank p.2 ≤ h.rank s) fine (it.fold f late turns acc s) := by
  induction turns generalizing acc s with
  | zero =>
    rw [Iter.fold]
    cases hend : it.isEnd s with
    | true => exact ⟨hacc, hs, hend, Nat.le_refl _⟩
    | false =>
      have := h.pos s hs hend
      omega
  | succ turns ih =>
    rw [Iter.fold]
    cases hend : it.isEnd s with
    | true => exact ⟨hacc, hs, hend, Nat.le_refl _⟩
    | false =>
      obtain ⟨r, hr, hgood⟩ := h.read s hs hend
      simp only [hr, Bool.false_eq_true, if_false, ok_bind]
      refine Meets.bind (hf acc r hacc hgood) fun acc' hacc' => ?_
      refine Meets.bind (h.step s hs) fun t ht => ?_
      have hlt := ht.2.2.1 hend
      refine (ih ht.1 hacc' (by omega)).mono (fun p hp => ⟨hp.1, hp.2.1, hp.2.2.1, ?_⟩) fun _ he => he
      exact Nat.le_trans hp.2.2.2 ht.2.1

/-- A loop adds at most `c` to the weight of what it folds for each position. -/
theorem fold_weight (h : it.Spec good fine bound) {f : S → R → Except E S} {late : E} {w : S → Nat} {c : Nat}
    (hf : ∀ acc r acc', f acc r = .ok acc' → w acc' ≤ w acc + c) {turns : Nat} {acc : S} {s : it.State} (hs : h.inv s)
    {p : S × it.State} (hp : it.fold f late turns acc s = .ok p) : w p.1 ≤ w acc + c * h.rank s := by
  induction turns generalizing acc s with
  | zero =>
    rw [Iter.fold] at hp
    split at hp
    · cases hp
      exact Nat.le_add_right _ _
    · cases hp
  | succ turns ih =>
    rw [Iter.fold] at hp
    cases hend : it.isEnd s with
    | true =>
      rw [if_pos hend] at hp
      cases hp
      exact Nat.le_add_right _ _
    | false =>
      obtain ⟨r, hr, -⟩ := h.read s hs hend
      simp only [hr, hend, Bool.false_eq_true, if_false, ok_bind] at hp
      obtain ⟨acc', hacc', hp⟩ := ok_of_bind hp
      obtain ⟨t, ht, hp⟩ := ok_of_bind hp
      obtain ⟨hinv, -, hlt, -⟩ := (h.step s hs).of_ok ht
      have h1 := hf acc r acc' hacc'
      have h2 := ih hinv hp
      have h3 : c * (h.rank t + 1) ≤ c * h.rank s := Nat.mul_le_mul_left c (hlt hend)
      rw [Nat.mul_add_one] at h3
      omega

theorem count (h : it.Spec good fine bound) {late : E} {turns : Nat} {s : it.State} (hs : h.inv s)
    (hturns : h.rank s ≤ turns) : Meets (fun p => h.inv p.2 ∧ it.isEnd p.2 = true) fine (it.count late turns s) := by
  induction turns generalizing s with
  | zero =>
    rw [Iter.count]
    cases hend : it.isEnd s with
    | true => exact ⟨hs, hend⟩
    | false =>
      have := h.pos s hs hend
      omega
  | succ turns ih =>
    rw [Iter.count]
    cases hend : it.isEnd s with
    | true => exact ⟨hs, hend⟩
    | false =>
      simp only [Bool.false_eq_true, if_false]
      refine Meets.bind (h.step s hs) fun t ht => ?_
      have := ht.2.2.1 hend
      refine Meets.bind (ih ht.1 (by omega)) fun p hp => ?_
      exact hp

theorem rest (h : it.Spec good fine bound) {late : E} {turns : Nat} {s : it.State} (hs : h.inv s)
    (hturns : h.rank s ≤ turns) :
    Meets (fun p => (∀ r ∈ p.1, good r) ∧ p.1.length ≤ h.rank s) fine (it.rest late turns s) := by
  refine Meets.intro (fun p hp => ⟨?_, ?_⟩) fun e he => ?_
  · refine ((h.fold (P := fun rs => ∀ r ∈ rs, good r) (fun acc r hacc hr => ?_) hs (fun r hr => (by cases hr)) hturns).of_ok
      hp).1
    intro x hx
    rcases List.mem_append.mp hx with hx | hx
    · exact hacc x hx
    · rw [List.mem_singleton.mp hx]
      exact hr
  · have := h.fold_weight (w := List.length) (c := 1) (fun acc r acc' hacc => ?_) hs hp
    · simpa using this
    · cases hacc
      simp
  · exact (h.fold (P := fun _ => True) (fun _ _ _ _ => meets_ok.mpr trivial) hs trivial hturns).of_error he

/-- Other items at the positions. -/
def view (h : it.Spec good fine bound) {good' : S → Prop} {read : it.State → Except E S}
    (hread : ∀ s, h.inv s → it.isEnd s = false → ∃ r, read s = .ok r ∧ good' r) : (it.view read).Spec good' fine bound where
  inv := h.inv
  rank := h.rank
  start := h.start
  step := h.step
  read := hread
  pos := h.pos

def map (h : it.Spec good fine bound) {good' : S → Prop} {f : R → S} (hf : ∀ r, good r → good' (f r)) :
    (it.map f).Spec good' fine bound :=
  h.view fun s hs hend => by
    obtain ⟨r, hr, hgood⟩ := h.read s hs hend
    exact ⟨f r, by rw [hr]; rfl, hf r hgood⟩

end Spec

/-- The number of pairs of positions that `nested` goes through. -/
def nestedBound (l r : Nat) : Nat := r * (l + 1) + l

section NestedSpec
variable {l : Iter E A} {r : Iter E B} {goodL : A → Prop} {goodR : B → Prop} {fine : E → Prop} {bl br : Nat}
  {test : A → B → Except E Bool} {late : E}

/-- Where a pair of positions stands, by the positions that are left. -/
def nestedRank (hl : l.Spec goodL fine bl) (hr : r.Spec goodR fine br) (s : l.State) (t : r.State) : Nat :=
  hr.rank t * (bl + 1) + hl.rank s

theorem advance_meets (hl : l.Spec goodL fine bl) (hr : r.Spec goodR fine br) {s : l.State} {t : r.State} (hs : hl.inv s)
    (ht : hr.inv t) (hrank : hl.rank s ≤ bl) (hend : r.isEnd t = false) :
    Meets (fun p => hl.inv p.1 ∧ hr.inv p.2 ∧ hl.rank p.1 ≤ bl ∧ nestedRank hl hr p.1 p.2 < nestedRank hl hr s t) fine
      (advance l r s t) := by
  unfold advance
  refine Meets.bind (hl.step s hs) fun s' hs' => Meets.ite (fun hend' => ?_) fun hend' => ?_
  · refine Meets.bind (hr.step t ht) fun t' ht' => Meets.bind (hl.start s') fun s'' hs'' => ?_
    have hlt := ht'.2.2.1 hend
    refine ⟨hs''.1, ht'.1, hs''.2, ?_⟩
    have h1 : (hr.rank t' + 1) * (bl + 1) ≤ hr.rank t * (bl + 1) := Nat.mul_le_mul_right _ hlt
    have h2 := hs''.2
    rw [Nat.add_mul] at h1
    change hr.rank t' * (bl + 1) + hl.rank s'' < hr.rank t * (bl + 1) + hl.rank s
    omega
  · have hnot : l.isEnd s = false := by
      cases h : l.isEnd s with
      | false => rfl
      | true => exact absurd (hs'.2.2.2 h) hend'
    have hlt := hs'.2.2.1 hnot
    exact ⟨hs'.1, ht, Nat.le_trans (Nat.le_of_lt hlt) hrank, Nat.add_lt_add_left hlt _⟩

/-- A pair of positions before both ends, whose items are good and pass the test. -/
def Paired (hl : l.Spec goodL fine bl) (hr : r.Spec goodR fine br) (test : A → B → Except E Bool) (s : l.State) (t : r.State) :
    Prop :=
  hl.inv s ∧ hr.inv t ∧ hl.rank s ≤ bl ∧ l.isEnd s = false ∧ r.isEnd t = false ∧
    ∃ a b, l.read s = .ok a ∧ r.read t = .ok b ∧ goodL a ∧ goodR b ∧ test a b = .ok true

theorem seek_meets (hl : l.Spec goodL fine bl) (hr : r.Spec goodR fine br)
    (htest : ∀ a b, goodL a → goodR b → Meets (fun _ => True) fine (test a b)) {turns : Nat} {s : l.State} {t : r.State}
    (hs : hl.inv s) (ht : hr.inv t) (hrank : hl.rank s ≤ bl) (hturns : nestedRank hl hr s t < turns) :
    Meets (fun p => p.2.2 = true → Paired hl hr test p.1 p.2.1 ∧ nestedRank hl hr p.1 p.2.1 ≤ nestedRank hl hr s t) fine
      (seek l r test late turns s t) := by
  induction turns generalizing s t with
  | zero => omega
  | succ turns ih =>
    rw [seek]
    cases hend : r.isEnd t with
    | true => exact fun h => absurd h Bool.false_ne_true
    | false =>
      have hmove : Meets (fun p => p.2.2 = true → Paired hl hr test p.1 p.2.1 ∧ nestedRank hl hr p.1 p.2.1 ≤
          nestedRank hl hr s t) fine (advance l r s t >>= fun p => seek l r test late turns p.1 p.2) := by
        refine Meets.bind (advance_meets hl hr hs ht hrank hend) fun p hp => ?_
        obtain ⟨hs', ht', hrank', hlt⟩ := hp
        refine (ih hs' ht' hrank' (by omega)).mono (fun q hq hhit => ?_) fun e he => he
        exact ⟨(hq hhit).1, Nat.le_trans (hq hhit).2 (Nat.le_of_lt hlt)⟩
      cases hend' : l.isEnd s with
      | true =>
        simp only [Bool.false_eq_true, if_false, if_true]
        exact hmove
      | false =>
        obtain ⟨a, ha, hgood⟩ := hl.read s hs hend'
        obtain ⟨b, hb, hgood'⟩ := hr.read t ht hend
        simp only [ha, hb, Bool.false_eq_true, if_false, ok_bind]
        refine Meets.bind (P := fun hit => test a b = .ok hit) (Meets.intro (fun hit hhit => hhit) fun e he =>
          (htest a b hgood hgood').of_error he) fun hit hhit => Meets.ite (fun h => ?_) fun _ => hmove
        subst h
        exact fun _ => ⟨⟨hs, ht, hrank, hend', hend, a, b, ha, hb, hgood, hgood', hhit⟩, Nat.le_refl _⟩

/-- The loop over pairs: its items are those of good items that pass the test. -/
def Spec.nested (hl : l.Spec goodL fine bl) (hr : r.Spec goodR fine br) {merge : A → B → C} {missing : C} {good : C → Prop}
    (htest : ∀ a b, goodL a → goodR b → Meets (fun _ => True) fine (test a b))
    (hmerge : ∀ a b, goodL a → goodR b → test a b = .ok true → good (merge a b)) :
    (nested l r test late (nestedBound bl br + 1) merge missing).Spec good fine (nestedBound bl br) where
  inv p := p.2.2 = true ∨ Paired hl hr test p.1 p.2.1 ∧ nestedRank hl hr p.1 p.2.1 ≤ nestedBound bl br
  rank p := if p.2.2 then 0 else nestedRank hl hr p.1 p.2.1
  start p := by
    refine Meets.bind (hl.start p.1) fun s hs => Meets.bind (hr.start p.2.1) fun t ht => ?_
    have hle : nestedRank hl hr s t ≤ nestedBound bl br :=
      Nat.add_le_add (Nat.mul_le_mul_right _ ht.2) hs.2
    refine Meets.ite (fun _ => ⟨Or.inl rfl, Nat.zero_le _⟩) fun _ => ?_
    refine Meets.bind (seek_meets hl hr htest hs.1 ht.1 hs.2 (Nat.lt_succ_of_le hle)) ?_
    rintro ⟨s', t', hit⟩ hq
    refine Meets.intro (fun u hu => ?_) fun e he => by cases he
    cases hu
    by_cases hstuck : (p.2.2 || !hit) = true
    · exact ⟨Or.inl hstuck, by simp only [hstuck, if_true, Nat.zero_le]⟩
    · have hhit : hit = true := by
        cases hit with
        | false => exact absurd (Bool.or_true _) hstuck
        | true => rfl
      obtain ⟨hpair, hrank⟩ := hq hhit
      exact ⟨Or.inr ⟨hpair, Nat.le_trans hrank hle⟩, by simpa only [if_neg hstuck] using Nat.le_trans hrank hle⟩
  step p hp := by
    rcases he : p.2.2 with _ | _
    · obtain ⟨hpair, hle⟩ := hp.resolve_left (by rw [he]; exact Bool.false_ne_true)
      obtain ⟨hs, ht, hrank, hendl, hendr, -⟩ := hpair
      have hpos : 0 < nestedRank hl hr p.1 p.2.1 := Nat.add_pos_right _ (hl.pos _ hs hendl)
      simp only [Iter.nested, he, Bool.false_eq_true, if_false]
      refine Meets.bind (advance_meets hl hr hs ht hrank hendr) fun q hq => ?_
      obtain ⟨hs', ht', hrank', hlt⟩ := hq
      refine Meets.bind (seek_meets hl hr htest hs' ht' hrank' (by omega)) fun u hu => ?_
      rcases hhit : u.2.2 with _ | _
      · exact ⟨Or.inl rfl, Nat.zero_le _, fun _ => hpos, fun h => h.elim⟩
      · obtain ⟨hpair, hrank⟩ := hu hhit
        refine ⟨Or.inr ⟨hpair, Nat.le_trans (Nat.le_of_lt (Nat.lt_of_le_of_lt hrank hlt)) hle⟩, ?_, fun _ => ?_,
          fun h => h.elim⟩
        · exact Nat.le_of_lt (Nat.lt_of_le_of_lt hrank hlt)
        · exact Nat.lt_of_le_of_lt hrank hlt
    · simp only [Iter.nested, he, if_true]
      exact ⟨Or.inl he, by simp [he], fun h => absurd h.symm Bool.false_ne_true, fun _ => he⟩
  read p hp hend := by
    change p.2.2 = false at hend
    obtain ⟨⟨-, -, -, -, -, a, b, ha, hb, hgood, hgood', hhit⟩, -⟩ := hp.resolve_left (by rw [hend]; exact Bool.false_ne_true)
    refine ⟨merge a b, ?_, hmerge a b hgood hgood' hhit⟩
    simp only [Iter.nested, hend, Bool.false_eq_true, if_false, ha, hb, ok_bind]
  pos p hp hend := by
    change p.2.2 = false at hend
    obtain ⟨⟨hs, -, -, hendl, -⟩, -⟩ := hp.resolve_left (by rw [hend]; exact Bool.false_ne_true)
    have := hl.pos _ hs hendl
    simp only [hend, Bool.false_eq_true, if_false, nestedRank]
    omega

end NestedSpec

theorem buffered_start {it : Iter E R} {fill : it.State → Except E (List S × it.State)} {read : S → Except E T} {missing : T}
    (p : it.State × List S) :
    (it.buffered fill read missing).start p = (it.start p.1 >>= fill) >>= fun q => .ok (q.2, q.1) := by
  change (it.start p.1 >>= fun s => fill s >>= fun q => .ok (q.2, q.1)) = _
  cases it.start p.1 <;> rfl

theorem buffered_fails {it : Iter E R} {fine : E → Prop} {fill : it.State → Except E (List S × it.State)} {read : S → Except E T}
    {missing : T} {p : it.State × List S} (h : Meets (fun _ => False) fine (it.start p.1 >>= fill)) :
    Meets (fun _ => False) fine ((it.buffered fill read missing).start p) := by
  have hstart := h.fails fun q => Except.ok (q.2, q.1)
  exact Meets.intro (fun q hq => hstart.of_ok ((buffered_start p).symm.trans hq)) fun e he =>
    hstart.of_error ((buffered_start p).symm.trans he)

/-- The items made when started are those that `fill` makes. -/
def Spec.of_fill {it : Iter E R} {fine : E → Prop} {fill : it.State → Except E (List S × it.State)} {read : S → Except E T}
    {missing : T} {I : S → Prop} {G : T → Prop} {n : Nat}
    (hfill : ∀ s, Meets (fun p => (∀ x ∈ p.1, I x) ∧ p.1.length ≤ n) fine (it.start s >>= fill))
    (hread : ∀ x, I x → ∃ r, read x = .ok r ∧ G r) : (it.buffered fill read missing).Spec G fine n where
  inv p := ∀ x ∈ p.2, I x
  rank p := p.2.length
  start p := by
    have h : Meets (fun t : it.State × List S => (∀ x ∈ t.2, I x) ∧ t.2.length ≤ n) fine
        ((it.start p.1 >>= fill) >>= fun q => .ok (q.2, q.1)) := (hfill p.1).bind fun q hq => hq
    exact Meets.intro (fun q hq => h.of_ok ((buffered_start p).symm.trans hq)) fun e he =>
      h.of_error ((buffered_start p).symm.trans he)
  step p hp := by
    refine ⟨fun x hx => hp x (List.mem_of_mem_tail hx), ?_⟩
    rcases p with ⟨s, _ | ⟨x, xs⟩⟩ <;> simp [Iter.buffered]
  read p hp hend := by
    rcases p with ⟨s, _ | ⟨x, xs⟩⟩
    · cases hend
    · exact hread x (hp x (List.mem_cons_self ..))
  pos p _ hend := by
    rcases p with ⟨s, _ | ⟨x, xs⟩⟩
    · cases hend
    · exact Nat.succ_pos _

def Spec.buffered {it : Iter E R} {good : R → Prop} {fine : E → Prop} {bound : Nat} (h : it.Spec good fine bound)
    {fill : it.State → Except E (List S × it.State)} {read : S → Except E T} {missing : T} {I : S → Prop} {G : T → Prop}
    {n : Nat} (hfill : ∀ s, h.inv s → h.rank s ≤ bound → Meets (fun p => (∀ x ∈ p.1, I x) ∧ p.1.length ≤ n) fine (fill s))
    (hread : ∀ x, I x → ∃ r, read x = .ok r ∧ G r) : (it.buffered fill read missing).Spec G fine n :=
  .of_fill (fun s => (h.start s).bind fun t ht => hfill t ht.1 ht.2) hread

end Iter
