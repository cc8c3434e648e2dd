import Mathlib.Logic.Basic

/-! Runs of a machine whose steps may fail.

`step s a` is the state after action `a` in state `s`, or an error. A property of a run is one of all its states
(`Always`), of all its steps (`EachStep`) or of the states in which its actions are taken (`Throughout`). -/

namespace Runs
variable {S A E : Type} (step : S → A → Except E S)

/-- The state after some actions. -/
def exec (s : S) : List A → Except E S
  | [] => .ok s
  | a :: as => do
    let t ← step s a
    exec t as

/-- No step of the run fails, and `Q` holds in every state of it. -/
def Always (Q : S → Prop) (s : S) : List A → Prop
  | [] => Q s
  | a :: as => Q s ∧ ∃ t, step s a = .ok t ∧ Always Q t as

/-- No step of the run fails, and `R` holds of every step of it. -/
def EachStep (R : S → A → S → Prop) (s : S) : List A → Prop
  | [] => True
  | a :: as => ∃ t, step s a = .ok t ∧ R s a t ∧ EachStep R t as

/-- `P` holds of every action of the run and the state it is taken in. -/
def Throughout (P : S → A → Prop) (s : S) : List A → Prop
  | [] => True
  | a :: as => P s a ∧ ∀ t, step s a = .ok t → Throughout P t as

/-- The machine with a note on the run so far, which every step updates. -/
def noting {G : Type} (note : S → A → S → G → G) (p : S × G) (a : A) : Except E (S × G) := do
  let t ← step p.1 a
  .ok (t, note p.1 a t p.2)

/-- A test of every action of the run in the state it is taken in. -/
def check (test : S → A → Bool) (s : S) : List A → Bool
  | [] => true
  | a :: as => test s a && (step s a).toOption.all fun t => check test t as

variable {step} {I Q : S → Prop} {P : S → A → Prop} {R : S → A → S → Prop}

/-- A computation with a result has one at each step. -/
theorem ok_of_bind {α β : Type} {x : Except E α} {g : α → Except E β} {b : β} (h : (x >>= g) = .ok b) :
    ∃ a, x = .ok a ∧ g a = .ok b := by
  cases x with
  | error e => cases h
  | ok a => exact ⟨a, rfl, h⟩

theorem Always.head {s : S} {as : List A} (h : Always step Q s as) : Q s := by
  cases as with
  | nil => exact h
  | cons a as => exact h.1

theorem always_mono {Q' : S → Prop} (himp : ∀ s, Q s → Q' s) {s : S} {as : List A} (h : Always step Q s as) :
    Always step Q' s as := by
  induction as generalizing s with
  | nil => exact himp s h
  | cons a as ih =>
    obtain ⟨hq, t, ht, hrest⟩ := h
    exact ⟨himp s hq, t, ht, ih hrest⟩

/-- What the run computes. -/
theorem exec_eval {β : Type} (step : S → A → Except E S) (s : S) (as : List A) (g : S → β) {b : β} (h : (exec step s as).toOption.map g = some b) :
    ∃ t, exec step s as = .ok t ∧ g t = b := by
  cases hs : exec step s as with
  | error e => simp [hs, Except.toOption] at h
  | ok t => exact ⟨t, rfl, by simpa [hs, Except.toOption] using h⟩

theorem throughout_of_check {test : S → A → Bool} (htest : ∀ s a, test s a = true → P s a) {s : S} {as : List A}
    (h : check step test s as = true) : Throughout step P s as := by
  induction as generalizing s with
  | nil => trivial
  | cons a as ih =>
    rw [check, Bool.and_eq_true] at h
    refine ⟨htest s a h.1, fun t ht => ih ?_⟩
    simpa [ht, Except.toOption] using h.2

theorem Throughout.at_exec {s t : S} {as bs : List A} {a : A} (h : Throughout step P s (as ++ a :: bs))
    (hs : exec step s as = .ok t) : P t a := by
  induction as generalizing s with
  | nil =>
    cases hs
    exact h.1
  | cons b as ih =>
    cases hb : step s b with
    | error e => simp [exec, hb, bind, Except.bind] at hs
    | ok u =>
      refine ih (h.2 u hb) ?_
      simpa [exec, hb, bind, Except.bind] using hs

theorem EachStep.at_exec {s t : S} {as bs : List A} {a : A} (h : EachStep step R s (as ++ a :: bs))
    (hs : exec step s as = .ok t) : ∃ u, step t a = .ok u ∧ R t a u := by
  induction as generalizing s with
  | nil =>
    cases hs
    obtain ⟨u, hu, hR, -⟩ := h
    exact ⟨u, hu, hR⟩
  | cons b as ih =>
    obtain ⟨u, hu, -, hrest⟩ := h
    refine ih hrest ?_
    simpa [exec, hu, bind, Except.bind] using hs

theorem Always.at_end {s t : S} {as : List A} (h : Always step Q s as) (hs : exec step s as = .ok t) : Q t := by
  induction as generalizing s with
  | nil =>
    cases hs
    exact h
  | cons b as ih =>
    obtain ⟨-, u, hu, hrest⟩ := h
    refine ih hrest ?_
    simpa [exec, hu, bind, Except.bind] using hs

theorem exec_append {s t : S} {as bs : List A} (hs : exec step s as = .ok t) : exec step s (as ++ bs) = exec step t bs := by
  induction as generalizing s with
  | nil =>
    cases hs
    rfl
  | cons b as ih =>
    cases hb : step s b with
    | error e => simp [exec, hb, bind, Except.bind] at hs
    | ok u =>
      simp only [exec, List.cons_append, hb, bind, Except.bind] at hs ⊢
      exact ih hs

/-- The invariant rule: what every allowed step keeps holds in every state of a run of allowed steps. -/
theorem always_of_invariant (hstep : ∀ s a, I s → P s a → ∃ t, step s a = .ok t ∧ I t) (hQ : ∀ s, I s → Q s)
    {s : S} {as : List A} (hs : I s) (h : Throughout step P s as) : Always step Q s as := by
  induction as generalizing s with
  | nil => exact hQ s hs
  | cons a as ih =>
    obtain ⟨t, ht, hinv⟩ := hstep s a hs h.1
    exact ⟨hQ s hs, t, ht, ih hinv (h.2 t ht)⟩

/-- The invariant rule for a property of steps. -/
theorem eachStep_of_invariant (hstep : ∀ s a, I s → P s a → ∃ t, step s a = .ok t ∧ I t ∧ R s a t)
    {s : S} {as : List A} (hs : I s) (h : Throughout step P s as) : EachStep step R s as := by
  induction as generalizing s with
  | nil => trivial
  | cons a as ih =>
    obtain ⟨t, ht, hinv, hR⟩ := hstep s a hs h.1
    exact ⟨t, ht, hR, ih hinv (h.2 t ht)⟩

/-- Where the steps with `P` keep the invariant and those without it break `Q`, `Q` holds in all states of exactly the runs
    with `P`. -/
theorem always_iff_throughout {D : S → A → Prop}
    (hstep : ∀ s a, I s → D s a → ∃ t, step s a = .ok t ∧ (P s a → I t) ∧ (¬P s a → ¬Q t)) (hQ : ∀ s, I s → Q s)
    {s : S} {as : List A} (hs : I s) (hD : Throughout step D s as) : Always step Q s as ↔ Throughout step P s as := by
  induction as generalizing s with
  | nil => exact ⟨fun _ => trivial, fun _ => hQ s hs⟩
  | cons a as ih =>
    obtain ⟨t, ht, hkeep, hbreak⟩ := hstep s a hs hD.1
    constructor
    · rintro ⟨-, t', ht', hrest⟩
      rw [ht] at ht'
      cases ht'
      have hP : P s a := Classical.not_not.mp fun hP => hbreak hP hrest.head
      refine ⟨hP, fun t' ht' => ?_⟩
      rw [ht] at ht'
      cases ht'
      exact (ih (hkeep hP) (hD.2 t ht)).mp hrest
    · rintro ⟨hP, hrest⟩
      exact ⟨hQ s hs, t, ht, (ih (hkeep hP) (hD.2 t ht)).mpr (hrest t ht)⟩

/-- Where every step keeps the invariant and has `R` just if it has `P`, the runs with `R` are those with `P`. -/
theorem eachStep_iff_throughout {D : S → A → Prop}
    (hstep : ∀ s a, I s → D s a → ∃ t, step s a = .ok t ∧ I t ∧ (R s a t ↔ P s a))
    {s : S} {as : List A} (hs : I s) (hD : Throughout step D s as) : EachStep step R s as ↔ Throughout step P s as := by
  induction as generalizing s with
  | nil => exact Iff.rfl
  | cons a as ih =>
    obtain ⟨t, ht, hinv, hiff⟩ := hstep s a hs hD.1
    constructor
    · rintro ⟨t', ht', hR, hrest⟩
      rw [ht] at ht'
      cases ht'
      refine ⟨hiff.mp hR, fun t' ht' => ?_⟩
      rw [ht] at ht'
      cases ht'
      exact (ih hinv (hD.2 t ht)).mp hrest
    · rintro ⟨hP, hrest⟩
      exact ⟨t, ht, hiff.mpr hP, (ih hinv (hD.2 t ht)).mpr (hrest t ht)⟩

/-- Two properties of an action that agree under an invariant, which the first one keeps. -/
theorem throughout_iff {P' : S → A → Prop} (hiff : ∀ s a, I s → (P s a ↔ P' s a)) (hkeep : ∀ s a t, I s → P s a → step s a = .ok t → I t)
    {s : S} {as : List A} (hs : I s) : Throughout step P s as ↔ Throughout step P' s as := by
  induction as generalizing s with
  | nil => exact Iff.rfl
  | cons a as ih =>
    constructor
    · rintro ⟨hP, hrest⟩
      exact ⟨(hiff s a hs).mp hP, fun t ht => (ih (hkeep s a t hs hP ht)).mp (hrest t ht)⟩
    · rintro ⟨hP', hrest⟩
      have hP : P s a := (hiff s a hs).mpr hP'
      exact ⟨hP, fun t ht => (ih (hkeep s a t hs hP ht)).mpr (hrest t ht)⟩

/-- Every action of a run that completes has a result. -/
theorem throughout_of_exec {s t : S} {as : List A} (h : exec step s as = .ok t) :
    Throughout step (fun s a => ∃ t, step s a = .ok t) s as := by
  induction as generalizing s with
  | nil => trivial
  | cons a as ih =>
    obtain ⟨u, hu, hrest⟩ := ok_of_bind h
    refine ⟨⟨u, hu⟩, fun u' hu' => ?_⟩
    rw [hu] at hu'
    cases hu'
    exact ih hrest

/-- What every allowed step keeps, if it has a result, holds at the end of a run of allowed steps. -/
theorem exec_of_invariant (hstep : ∀ s a t, I s → P s a → step s a = .ok t → I t) {s t : S} {as : List A} (hs : I s)
    (h : Throughout step P s as) (hrun : exec step s as = .ok t) : I t := by
  induction as generalizing s with
  | nil =>
    cases hrun
    exact hs
  | cons a as ih =>
    obtain ⟨u, hu, hrest⟩ := ok_of_bind hrun
    exact ih (hstep s a u hs h.1 hu) (h.2 u hu) hrest

theorem throughout_of_forall {D : A → Prop} {s : S} {as : List A} (h : ∀ a ∈ as, D a) :
    Throughout step (fun _ a => D a) s as := by
  induction as generalizing s with
  | nil => trivial
  | cons a as ih => exact ⟨h a List.mem_cons_self, fun t _ => ih fun b hb => h b (List.mem_cons_of_mem a hb)⟩

/-- What every step of an allowed action keeps, if it has a result, holds at the end of a run. -/
theorem exec_keeps {D : A → Prop} (hstep : ∀ s a t, I s → D a → step s a = .ok t → I t) {s t : S} {as : List A} (hs : I s)
    (hall : ∀ a ∈ as, D a) (h : exec step s as = .ok t) : I t :=
  exec_of_invariant hstep hs (throughout_of_forall hall) h

theorem Throughout.and {P' : S → A → Prop} {s : S} {as : List A} (h : Throughout step P s as) (h' : Throughout step P' s as) :
    Throughout step (fun s a => P s a ∧ P' s a) s as := by
  induction as generalizing s with
  | nil => trivial
  | cons a as ih => exact ⟨⟨h.1, h'.1⟩, fun t ht => ih (h.2 t ht) (h'.2 t ht)⟩

theorem noting_ok {G : Type} {note : S → A → S → G → G} {s t : S} {a : A} (h : step s a = .ok t) (g : G) :
    noting step note (s, g) a = .ok (t, note s a t g) := by simp only [noting, h, bind, Except.bind]

theorem throughout_noting {G : Type} (note : S → A → S → G → G) {s : S} {as : List A} (g : G) :
    Throughout (noting step note) (fun p a => P p.1 a) (s, g) as ↔ Throughout step P s as := by
  induction as generalizing s g with
  | nil => exact Iff.rfl
  | cons a as ih =>
    constructor
    · exact fun h => ⟨h.1, fun t ht => (ih _).mp (h.2 _ (noting_ok ht g))⟩
    · refine fun h => ⟨h.1, fun p hp => ?_⟩
      obtain ⟨t, ht, heq⟩ := ok_of_bind hp
      cases heq
      exact (ih _).mpr (h.2 t ht)

theorem Throughout.append {s : S} {as bs : List A} (h : Throughout step P s as)
    (hbs : ∀ t, exec step s as = .ok t → Throughout step P t bs) : Throughout step P s (as ++ bs) := by
  induction as generalizing s with
  | nil => exact hbs s rfl
  | cons a as ih =>
    refine ⟨h.1, fun t ht => ih (h.2 t ht) fun u hu => hbs u ?_⟩
    simpa [exec, ht, bind, Except.bind] using hu

theorem Throughout.imp {P' : S → A → Prop} (himp : ∀ s a, P s a → P' s a) {s : S} {as : List A} (h : Throughout step P s as) :
    Throughout step P' s as := by
  induction as generalizing s with
  | nil => trivial
  | cons a as ih => exact ⟨himp s a h.1, fun t ht => ih (h.2 t ht)⟩

/-- A property of all states that one step out of every state without `P` breaks holds only where `P` does. -/
theorem throughout_of_always (hstep : ∀ s a, I s → Q s → ¬P s a → ∀ t, step s a = .ok t → ¬Q t)
    (hkeep : ∀ s a t, I s → step s a = .ok t → I t) {s : S} {as : List A} (hs : I s) (h : Always step Q s as) :
    Throughout step P s as := by
  induction as generalizing s with
  | nil => trivial
  | cons a as ih =>
    obtain ⟨hq, t, ht, hrest⟩ := h
    refine ⟨?_, fun t' ht' => ?_⟩
    · refine Classical.not_not.mp fun hP => ?_
      exact hstep s a hs hq hP t ht hrest.head
    · rw [ht] at ht'
      cases ht'
      exact ih (hkeep s a t hs ht) hrest

end Runs
