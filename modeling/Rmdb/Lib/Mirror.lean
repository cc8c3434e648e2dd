import Rmdb.Lib.Hoare

/-! Programs that keep a part of their state for bookkeeping: without it they do what a program on the rest of the state does. -/

namespace Hoare
variable {ε σ τ α β : Type}

/-- From a state with `P` the program `n` does on the part `view` of its state what `m` does, with the same result; the state
    has `Q` when it returns and `E` when it raises. -/
def Mirrors (view : τ → σ) (P : τ → Prop) (n : ExceptT ε (StateM τ) α) (m : ExceptT ε (StateM σ) α) (Q E : τ → Prop) : Prop :=
  ∀ t, P t → (after n t).1 = (after m (view t)).1 ∧ view (after n t).2 = (after m (view t)).2 ∧
    (∀ a, (after n t).1 = .ok a → Q (after n t).2) ∧ (∀ e, (after n t).1 = .error e → E (after n t).2)

section
variable {view : τ → σ} {P Q E R : τ → Prop}

theorem Mirrors.bind {n : ExceptT ε (StateM τ) α} {m : ExceptT ε (StateM σ) α} {n' : α → ExceptT ε (StateM τ) β}
    {m' : α → ExceptT ε (StateM σ) β} (h : Mirrors view P n m Q E) (h' : ∀ a, Mirrors view Q (n' a) (m' a) R E) :
    Mirrors view P (n >>= n') (m >>= m') R E := by
  intro t ht
  obtain ⟨hres, hview, hok, herr⟩ := h t ht
  cases hm : (after m (view t)).1 with
  | ok a =>
    rw [after_bind_ok (hres.trans hm), after_bind_ok hm, ← hview]
    exact h' a _ (hok a (hres.trans hm))
  | error e =>
    rw [after_bind_error (hres.trans hm), after_bind_error hm]
    refine ⟨rfl, hview, fun b hb => (by cases hb), fun e' he => ?_⟩
    exact herr e (hres.trans hm)

theorem Mirrors.pure {a : α} (h : ∀ t, P t → Q t) :
    Mirrors view P (Pure.pure a : ExceptT ε (StateM τ) α) (Pure.pure a) Q E :=
  fun t ht => ⟨rfl, rfl, fun _ _ => h t ht, fun e he => (by cases he)⟩

theorem Mirrors.throw {e : ε} (h : ∀ t, P t → E t) :
    Mirrors view P (MonadExcept.throw e : ExceptT ε (StateM τ) α) (MonadExcept.throw e) Q E :=
  fun t ht => ⟨rfl, rfl, fun a ha => (by cases ha), fun _ _ => h t ht⟩

theorem Mirrors.ite {c : Prop} [Decidable c] {n n' : ExceptT ε (StateM τ) α} {m m' : ExceptT ε (StateM σ) α}
    (h : c → Mirrors view P n m Q E) (h' : ¬c → Mirrors view P n' m' Q E) :
    Mirrors view P (if c then n else n') (if c then m else m') Q E := by
  split
  · next hc => exact h hc
  · next hc => exact h' hc

/-- Bookkeeping between two steps. -/
theorem Mirrors.note {n : ExceptT ε (StateM τ) PUnit} {k : PUnit → ExceptT ε (StateM τ) α} {m : ExceptT ε (StateM σ) α}
    (hn : Mirrors view P n (Pure.pure ⟨⟩) Q E) (hk : Mirrors view Q (k ⟨⟩) m R E) : Mirrors view P (n >>= k) m R E :=
  show Mirrors view P (n >>= k) (Pure.pure ⟨⟩ >>= fun _ => m) R E from Mirrors.bind hn fun _ => hk

/-- Bookkeeping behind the last step. -/
theorem Mirrors.last {n : ExceptT ε (StateM τ) α} {m : ExceptT ε (StateM σ) α} {k : α → ExceptT ε (StateM τ) α}
    (h : Mirrors view P n m Q E) (hk : ∀ a, Mirrors view Q (k a) (Pure.pure a) R E) : Mirrors view P (n >>= k) m R E := by
  have hbind := h.bind hk
  rwa [bind_pure] at hbind

/-- Both programs begin by looking at the state. -/
theorem Mirrors.get {n : τ → ExceptT ε (StateM τ) α} {m : σ → ExceptT ε (StateM σ) α}
    (h : ∀ t, P t → Mirrors view (fun u => u = t) (n t) (m (view t)) Q E) :
    Mirrors view P (MonadState.get >>= n) (MonadState.get >>= m) Q E := by
  intro t ht
  rw [after_get, after_get]
  exact h t ht t rfl

theorem Mirrors.of_imp {n : ExceptT ε (StateM τ) α} {m : ExceptT ε (StateM σ) α} (h : Mirrors view P n m Q E) (hR : ∀ t, R t → P t) :
    Mirrors view R n m Q E := fun t ht => h t (hR t ht)

theorem Mirrors.tryCatch {E' : τ → Prop} {n : ExceptT ε (StateM τ) α} {m : ExceptT ε (StateM σ) α} {k : ε → ExceptT ε (StateM τ) α}
    {l : ε → ExceptT ε (StateM σ) α} (h : Mirrors view P n m Q E') (hk : ∀ e, Mirrors view E' (k e) (l e) Q E) :
    Mirrors view P (MonadExcept.tryCatch n k) (MonadExcept.tryCatch m l) Q E := by
  intro t ht
  obtain ⟨hres, hview, hok, herr⟩ := h t ht
  cases hm : (after m (view t)).1 with
  | ok a =>
    rw [after_tryCatch_ok (hres.trans hm), after_tryCatch_ok hm]
    exact ⟨rfl, hview, fun _ _ => hok a (hres.trans hm), fun e he => (by cases he)⟩
  | error e =>
    rw [after_tryCatch_error (hres.trans hm), after_tryCatch_error hm, ← hview]
    exact hk e _ (herr e (hres.trans hm))

/-- A handler that raises the exception again. -/
theorem Mirrors.catching {E' : τ → Prop} {n : ExceptT ε (StateM τ) α} {m : ExceptT ε (StateM σ) α} {k : ε → ExceptT ε (StateM τ) α}
    (h : Mirrors view P n m Q E') (hk : ∀ e, Mirrors view E' (k e) (MonadExcept.throw e) Q E) : Mirrors view P (MonadExcept.tryCatch n k) m Q E := by
  intro t ht
  obtain ⟨hres, hview, hok, herr⟩ := h t ht
  cases hm : (after m (view t)).1 with
  | ok a =>
    rw [after_tryCatch_ok (hres.trans hm)]
    exact ⟨rfl, hview, fun _ _ => hok a (hres.trans hm), fun e he => (by cases he)⟩
  | error e =>
    rw [after_tryCatch_error (hres.trans hm)]
    obtain ⟨hres', hview', hok', herr'⟩ := hk e _ (herr e (hres.trans hm))
    exact ⟨hres', hview'.trans hview, hok', herr'⟩

end
end Hoare
