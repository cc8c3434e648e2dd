import Mathlib.Logic.Basic

/-! Pre- and postconditions of programs that change a state and may raise: `ExceptT ε (StateM σ)`, where an exception keeps
the state. A triple has a postcondition for a return and one for each exception. -/

namespace Hoare
variable {ε σ α β : Type}

/-- The state and the result after a program. -/
def after (m : ExceptT ε (StateM σ) α) (s : σ) : Except ε α × σ := (m.run.run s).run

/-- From a state with `P` the program returns `a` in a state with `Q a`, or raises `e` in a state with `E e`. -/
def Triple (P : σ → Prop) (m : ExceptT ε (StateM σ) α) (Q : α → σ → Prop) (E : ε → σ → Prop) : Prop :=
  ∀ s, P s → (∀ a, (after m s).1 = .ok a → Q a (after m s).2) ∧ (∀ e, (after m s).1 = .error e → E e (after m s).2)

theorem after_bind_ok {m : ExceptT ε (StateM σ) α} {g : α → ExceptT ε (StateM σ) β} {s : σ} {a : α}
    (h : (after m s).1 = .ok a) : after (m >>= g) s = after (g a) (after m s).2 := by
  unfold after at *
  simp only [ExceptT.run_bind, StateT.run_bind, Id.run_bind]
  rw [h]

theorem after_bind_error {m : ExceptT ε (StateM σ) α} {g : α → ExceptT ε (StateM σ) β} {s : σ} {e : ε}
    (h : (after m s).1 = .error e) : after (m >>= g) s = (.error e, (after m s).2) := by
  unfold after at *
  simp only [ExceptT.run_bind, StateT.run_bind, Id.run_bind]
  rw [h]
  rfl

theorem after_get (g : σ → ExceptT ε (StateM σ) α) (s : σ) : after (MonadState.get >>= g) s = after (g s) s := rfl

variable {P : σ → Prop} {Q : α → σ → Prop} {E : ε → σ → Prop}

theorem Triple.bind {m : ExceptT ε (StateM σ) α} {g : α → ExceptT ε (StateM σ) β} {R : β → σ → Prop} (hm : Triple P m Q E)
    (hg : ∀ a, Triple (Q a) (g a) R E) : Triple P (m >>= g) R E := by
  intro s hs
  obtain ⟨hok, herr⟩ := hm s hs
  cases hres : (after m s).1 with
  | ok a =>
    rw [after_bind_ok hres]
    exact hg a _ (hok a hres)
  | error e =>
    rw [after_bind_error hres]
    refine ⟨fun b hb => (by cases hb), fun e' he => ?_⟩
    cases he
    exact herr e hres

theorem Triple.pure {a : α} (h : ∀ s, P s → Q a s) : Triple P (pure a : ExceptT ε (StateM σ) α) Q E := by
  intro s hs
  refine ⟨fun b hb => ?_, fun e he => by cases he⟩
  cases hb
  exact h s hs

theorem Triple.throw {e : ε} (h : ∀ s, P s → E e s) : Triple P (throw e : ExceptT ε (StateM σ) α) Q E := by
  intro s hs
  refine ⟨fun b hb => (by cases hb), fun e' he => ?_⟩
  cases he
  exact h s hs

/-- A program begins by looking at the state. -/
theorem Triple.get {g : σ → ExceptT ε (StateM σ) α} (h : ∀ s, P s → Triple (fun t => t = s) (g s) Q E) :
    Triple P (MonadState.get >>= g) Q E := by
  intro s hs
  exact h s hs s rfl

theorem Triple.modify {g : σ → σ} {Q : PUnit → σ → Prop} (h : ∀ s, P s → Q ⟨⟩ (g s)) :
    Triple P (modify g : ExceptT ε (StateM σ) PUnit) Q E := by
  intro s hs
  refine ⟨fun b hb => ?_, fun e he => by cases he⟩
  cases hb
  exact h s hs

theorem Triple.ite {c : Prop} [Decidable c] {m n : ExceptT ε (StateM σ) α} (hm : c → Triple P m Q E) (hn : ¬c → Triple P n Q E) :
    Triple P (if c then m else n) Q E := by
  split
  · next hc => exact hm hc
  · next hc => exact hn hc

/-- A triple in one state that meets the precondition. -/
theorem Triple.at_state {m : ExceptT ε (StateM σ) α} {s : σ} (h : Triple P m Q E) (hs : P s) : Triple (fun t => t = s) m Q E := by
  rintro t rfl
  exact h t hs

theorem Triple.of_imp {R : σ → Prop} {m : ExceptT ε (StateM σ) α} (h : Triple P m Q E) (hP : ∀ s, R s → P s) : Triple R m Q E :=
  fun s hs => h s (hP s hs)

theorem Triple.imp_post {R : α → σ → Prop} {m : ExceptT ε (StateM σ) α} (h : Triple P m Q E) (hQ : ∀ a s, Q a s → R a s) : Triple P m R E :=
  fun s hs => ⟨fun a ha => hQ a _ ((h s hs).1 a ha), (h s hs).2⟩

theorem after_tryCatch_ok {m : ExceptT ε (StateM σ) α} {handle : ε → ExceptT ε (StateM σ) α} {s : σ} {a : α}
    (h : (after m s).1 = .ok a) : after (tryCatch m handle) s = (.ok a, (after m s).2) := by
  unfold after at *
  simp only [tryCatch, tryCatchThe, MonadExceptOf.tryCatch, ExceptT.tryCatch, ExceptT.run, ExceptT.mk, StateT.run_bind, Id.run_bind] at *
  rw [h]
  rfl

theorem after_tryCatch_error {m : ExceptT ε (StateM σ) α} {handle : ε → ExceptT ε (StateM σ) α} {s : σ} {e : ε}
    (h : (after m s).1 = .error e) : after (tryCatch m handle) s = after (handle e) (after m s).2 := by
  unfold after at *
  simp only [tryCatch, tryCatchThe, MonadExceptOf.tryCatch, ExceptT.tryCatch, ExceptT.run, ExceptT.mk, StateT.run_bind, Id.run_bind] at *
  rw [h]

theorem Triple.tryCatch {E' : ε → σ → Prop} {m : ExceptT ε (StateM σ) α} {handle : ε → ExceptT ε (StateM σ) α} (hm : Triple P m Q E')
    (hh : ∀ e, Triple (E' e) (handle e) Q E) : Triple P (tryCatch m handle) Q E := by
  intro s hs
  obtain ⟨hok, herr⟩ := hm s hs
  cases hres : (after m s).1 with
  | ok a =>
    rw [after_tryCatch_ok hres]
    refine ⟨fun b hb => ?_, fun e he => (by cases he)⟩
    cases hb
    exact hok a hres
  | error e =>
    rw [after_tryCatch_error hres]
    exact hh e _ (herr e hres)

/-- A handler for exceptions that does nothing. -/
theorem after_swallow (m : ExceptT ε (StateM σ) PUnit) (s : σ) :
    after (tryCatch m fun _ => Pure.pure ⟨⟩) s = (.ok ⟨⟩, (after m s).2) := by
  unfold after
  simp only [tryCatch, tryCatchThe, MonadExceptOf.tryCatch, ExceptT.tryCatch, ExceptT.run, ExceptT.mk, StateT.run_bind, Id.run_bind]
  split <;> rfl

end Hoare
