import Mathlib.Data.List.Basic

/-! Results of computations that may fail. -/

namespace Outcomes
variable {E A B C : Type}

/-- The result has the property `post`, or the failure is one of `fine`. -/
def Meets (post : A → Prop) (fine : E → Prop) : Except E A → Prop
  | .ok a => post a
  | .error e => fine e

@[simp]
theorem ok_bind {a : A} {g : A → Except E B} : ((Except.ok a : Except E A) >>= g) = g a := rfl

theorem mapM_ok {l : List C} {f : C → Except E B} {g : C → B} (h : ∀ x ∈ l, f x = .ok (g x)) : l.mapM f = .ok (l.map g) := by
  induction l with
  | nil => rfl
  | cons x l ih =>
    obtain ⟨hx, hl⟩ := List.forall_mem_cons.mp h
    rw [List.mapM_cons, hx, ih hl]
    rfl

/-- A computation with a result has one at each step. -/
theorem ok_of_bind {x : Except E A} {g : A → Except E B} {b : B} (h : (x >>= g) = .ok b) : ∃ a, x = .ok a ∧ g a = .ok b := by
  cases x with
  | ok a => exact ⟨a, rfl, h⟩
  | error e => cases h

section Meets
variable {P : A → Prop} {F : E → Prop}

@[simp]
theorem meets_ok {a : A} : Meets P F (.ok a) ↔ P a := Iff.rfl

@[simp]
theorem meets_error {e : E} : Meets P F (.error e) ↔ F e := Iff.rfl

theorem Meets.mono {P' : A → Prop} {F' : E → Prop} {x : Except E A} (h : Meets P F x) (hpost : ∀ a, P a → P' a)
    (hfine : ∀ e, F e → F' e) : Meets P' F' x := by
  cases x with
  | ok a => exact hpost a h
  | error e => exact hfine e h

theorem Meets.of_ok {x : Except E A} (h : Meets P F x) {a : A} (hx : x = .ok a) : P a := by
  subst hx
  exact h

theorem Meets.of_error {x : Except E A} (h : Meets P F x) {e : E} (hx : x = .error e) : F e := by
  subst hx
  exact h

theorem meets_of_error {x : Except E A} {e : E} (hx : x = .error e) (h : F e) : Meets P F x := by
  subst hx
  exact h

theorem Meets.intro {x : Except E A} (hok : ∀ a, x = .ok a → P a) (herr : ∀ e, x = .error e → F e) : Meets P F x := by
  cases x with
  | ok a => exact hok a rfl
  | error e => exact herr e rfl

/-- The computations go on from a result with its property. -/
theorem Meets.bind {P' : B → Prop} {x : Except E A} {g : A → Except E B} (hx : Meets P F x)
    (hg : ∀ a, P a → Meets P' F (g a)) : Meets P' F (x >>= g) := by
  cases x with
  | ok a => exact hg a hx
  | error e => exact hx

/-- A computation that fails does not go on. -/
theorem Meets.fails {x : Except E A} (h : Meets (fun _ => False) F x) (g : A → Except E B) : Meets (fun _ => False) F (x >>= g) :=
  h.bind fun _ h => h.elim

theorem Meets.ite {c : Prop} [Decidable c] {x y : Except E A} (hx : c → Meets P F x) (hy : ¬c → Meets P F y) :
    Meets P F (if c then x else y) := by
  split
  · next hc => exact hx hc
  · next hc => exact hy hc

theorem Meets.mapM {f : C → Except E A} {l : List C} (h : ∀ c ∈ l, Meets P F (f c)) :
    Meets (fun as => ∀ a ∈ as, P a) F (l.mapM f) := by
  induction l with
  | nil =>
    rw [List.mapM_nil]
    intro a ha
    cases ha
  | cons c cs ih =>
    rw [List.mapM_cons]
    refine (h c (List.mem_cons_self ..)).bind fun a ha => ?_
    refine (ih fun d hd => h d (List.mem_cons_of_mem c hd)).bind fun as has => ?_
    intro b hb
    rcases List.mem_cons.mp hb with rfl | hb
    · exact ha
    · exact has b hb

end Meets

end Outcomes
