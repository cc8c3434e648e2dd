import Rmdb.Index.Key

/-! Conditions of a WHERE clause and the two routines that evaluate them: `AbstractExecutor::eval_cond`
(`execution/executor_abstract.h`) for the sequential scan and `IndexScanExecutor::cmp_cond`
(`execution/executor_index_scan.h`) for the index scan.

Only conditions that compare a column with a constant are modelled. -/

namespace Rmdb

inductive CompOp where
  | eq
  | ne
  | lt
  | gt
  | le
  | ge
deriving DecidableEq, Repr

/-- `switch (cond.op)` on the sign of a comparison. -/
def CompOp.test : CompOp → Int → Bool
  | .eq, cmp => cmp = 0
  | .ne, cmp => cmp ≠ 0
  | .lt, cmp => cmp < 0
  | .gt, cmp => 0 < cmp
  | .le, cmp => cmp ≤ 0
  | .ge, cmp => 0 ≤ cmp

/-- A column of a table. -/
structure ColMeta where
  name : String
  type : ColType
  len : Nat
  offset : Nat
  fixed : type ≠ .string → len = 4

namespace ColMeta

theorem eq_iff (c d : ColMeta) :
    (c.name = d.name ∧ c.type = d.type ∧ c.len = d.len ∧ c.offset = d.offset) ↔ c = d := by
  cases c
  cases d
  simp only [mk.injEq]

instance : DecidableEq ColMeta := fun c d => decidable_of_iff _ (eq_iff c d)

/-- What an index keeps of the column. -/
def ixCol (c : ColMeta) : IxCol := ⟨c.type, c.len, c.fixed⟩

/-- The bytes of the column in a record. -/
def cell (c : ColMeta) (rec : Bytes) : Bytes := (rec.drop c.offset).take c.len

end ColMeta

/-- The columns of a table; `create_table` and `get_col` tell them apart by name. -/
structure TabMeta where
  name : String
  cols : List ColMeta
  distinct : (cols.map (·.name)).Nodup

/-- A string and NUL bytes behind it, as `init_raw` writes a CHAR value. -/
def NulPadded (a : Bytes) : Prop := ∀ x ∈ a.dropWhile (· ≠ 0), x = 0

instance (a : Bytes) : Decidable (NulPadded a) := List.decidableBAll _ _

/-- The bytes can stand in the column. -/
def IsCell (c : ColMeta) (a : Bytes) : Prop := a.length = c.len ∧ (c.type = .string → NulPadded a)

instance (c : ColMeta) (a : Bytes) : Decidable (IsCell c a) := inferInstanceAs (Decidable (_ ∧ _))

/-- A row of the table: its position and its bytes, with a cell in every column. -/
structure Row (tab : TabMeta) where
  rid : Rid
  bytes : Bytes
  cells : ∀ c ∈ tab.cols, IsCell c (c.cell bytes)
deriving DecidableEq

/-- A constant. `word` is the union of `int_val` and `float_val`; `raw` are the bytes that `init_raw` wrote. The two
    need not agree: `check_clause` turns a fractional constant of an INT column into an `int_val` after `init_raw`. -/
structure Value where
  type : ColType
  word : UInt32
  raw : Bytes
deriving DecidableEq

namespace Value

def intVal (v : Value) : Int := toSigned v.word.toNat

end Value

/-- A condition that `check_clause` accepts: the constant has the type of the column and as many raw bytes. -/
structure Condition (tab : TabMeta) where
  lhsCol : ColMeta
  op : CompOp
  rhsVal : Value
  mem : lhsCol ∈ tab.cols
  typed : rhsVal.type = lhsCol.type
  raw : IsCell lhsCol rhsVal.raw
deriving DecidableEq

/-- `strncmp(a, b, len)`: as `memcmp`, but it stops behind the first NUL byte. -/
def strncmp : Bytes → Bytes → Nat → Int
  | _, _, 0 => 0
  | x :: xs, y :: ys, n + 1 => if x ≠ y then (x.toNat : Int) - y.toNat else if x = 0 then 0 else strncmp xs ys n
  | _, _, _ => 0

/-- `m` rounded to a multiple of `ulp`, a tie to an even one. -/
def roundEven (m ulp : Nat) : Nat :=
  if ulp < 2 * (m % ulp) ∨ 2 * (m % ulp) = ulp ∧ (m / ulp) % 2 = 1 then (m / ulp + 1) * ulp else m / ulp * ulp

/-- `static_cast<float>` of a number: a float keeps 24 bits. -/
def floatOfNat (m : Nat) : Nat := if m < 0x1000000 then m else roundEven m (1 <<< (m.log2 - 23))

/-- `static_cast<float>` of an `int`, which is again a whole number. -/
def floatOfInt (n : Int) : Int := if n < 0 then -(floatOfNat n.natAbs : Int) else floatOfNat n.natAbs

/-- `a == b` on the bits of two floats. -/
def floatEq (a b : Nat) : Bool := !isNan a && !isNan b && floatValue a = floatValue b

/-- `a < b` on the bits of two floats. -/
def floatLt (a b : Nat) : Bool := !isNan a && !isNan b && floatValue a < floatValue b

/-- The comparison of two floats that `eval_cond` makes. -/
def CompOp.floatTest : CompOp → Nat → Nat → Bool
  | .eq, a, b => floatEq a b
  | .ne, a, b => !floatEq a b
  | .lt, a, b => floatLt a b
  | .gt, a, b => floatLt b a
  | .le, a, b => floatLt a b || floatEq a b
  | .ge, a, b => floatLt b a || floatEq a b

/-- The sign of the comparison of two numbers. -/
def compareInt (a b : Int) : Int := if a < b then -1 else if a > b then 1 else 0

section Evaluation
variable {tab : TabMeta}

namespace Condition

/-- `eval_cond` on the bytes of a record from the column on. Numbers are compared as floats. -/
def evalAt (cond : Condition tab) (lhs : Bytes) : Bool :=
  match cond.lhsCol.type with
  | .int => cond.op.test (compareInt (floatOfInt (readInt lhs)) (floatOfInt cond.rhsVal.intVal))
  | .float => cond.op.floatTest (readWord lhs) cond.rhsVal.word.toNat
  | .string => cond.op.test (strncmp lhs cond.rhsVal.raw (max cond.lhsCol.len cond.rhsVal.raw.length))

/-- `AbstractExecutor::eval_cond`. -/
def evalCond (cond : Condition tab) (rec : Bytes) : Bool := cond.evalAt (rec.drop cond.lhsCol.offset)

/-- `IndexScanExecutor::compare`. -/
def compare (a b : Bytes) (len : Nat) : ColType → Int
  | .int => if readInt a = readInt b then 0 else if readInt a < readInt b then -1 else 1
  | .float => if floatEq (readWord a) (readWord b) then 0 else if floatLt (readWord a) (readWord b) then -1 else 1
  | .string => memcmp a b len

/-- `IndexScanExecutor::cmp_cond`. -/
def cmpCond (cond : Condition tab) (rec : Bytes) : Bool :=
  cond.op.test (compare (rec.drop cond.lhsCol.offset) cond.rhsVal.raw cond.lhsCol.len cond.rhsVal.type)

end Condition

/-- `eval_conds`. -/
def evalConds (conds : List (Condition tab)) (rec : Bytes) : Bool := conds.all (·.evalCond rec)

/-- `cmp_conds`. -/
def cmpConds (conds : List (Condition tab)) (rec : Bytes) : Bool := conds.all (·.cmpCond rec)

end Evaluation
end Rmdb
