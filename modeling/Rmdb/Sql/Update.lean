import Rmdb.Sql.Grouping
import Rmdb.Exec.Load

/-! The values that `UPDATE` sets: `ExpressionEvaluator` (`execution/expression_evaluator.h`) and the loop of
`UpdateExecutor::Next` (`execution/executor_update.h`) over the SET clauses, on the record of one row. -/

namespace Rmdb.Sql

inductive ArithOp where
  | add
  | sub
  | mul
  | div
deriving DecidableEq, Repr

/-- `Expr` on the right side of a SET clause. -/
inductive Expr where
  | val (val : Lit)
  | col (col : TabCol)
  | arith (lhs : Expr) (op : ArithOp) (rhs : Expr)
  /-- An aggregate. -/
  | other
deriving DecidableEq, Repr

/-- `SetClause`. `raw` are the bytes of the constant, if they are there. -/
structure SetClause where
  lhs : TabCol
  rhs : Value
  raw : Option Bytes
  expr : Option Expr
deriving DecidableEq, Repr

/-- What ends an update: a fault, or an exception of `std::stoi` or `std::stof`. -/
inductive UpdateFault where
  | fault (fault : Fault)
  | noNumber
deriving DecidableEq, Repr

/-- `std::stof` and `std::to_string` of a float. -/
structure FloatText where
  stof : Bytes → Option Nat
  toString : Nat → Bytes

/-- A stage of an update that raises a fault of a query. -/
def liftFault {α : Type} : Except Fault α → Except UpdateFault α
  | .ok a => .ok a
  | .error e => .error (.fault e)

def runtimeError {α : Type} (msg : String) : Except UpdateFault α := .error (.fault (.runtimeError msg))

/-! ### Expressions -/

/-- `-` of two floats. -/
def subFloat (a b : Nat) : Nat := (Float32.ofBits a.toUInt32 - Float32.ofBits b.toUInt32).toBits.toNat

/-- `*` of two floats. -/
def mulFloat (a b : Nat) : Nat := (Float32.ofBits a.toUInt32 * Float32.ofBits b.toUInt32).toBits.toNat

namespace ExpressionEvaluator

/-- `evaluate_value`. -/
def evaluateValue : Lit → Value
  | .int n => .int n
  | .float w => .float w
  | .str s => .str s
  | .bool b => .int (if b then 1 else 0)

/-- `evaluate_column`. -/
def evaluateColumn (cols : List Catalog.ColMeta) (record : Bytes) (c : TabCol) : Except UpdateFault Value :=
  match cols.find? (·.name = c.colName) with
  | none => runtimeError ("Column not found: " ++ c.colName)
  | some col => .ok (cellValue col record)

/-- `convert_for_arithmetic`. -/
def convertForArithmetic : Value → Value → Except UpdateFault (Value × Value)
  | .int a, .float b => .ok (.float (floatBits a), .float b)
  | .float a, .int b => .ok (.float a, .float (floatBits b))
  | a, b => if a.type = b.type then .ok (a, b) else .error (.fault (.incompatibleType (coltype2str a.type) (coltype2str b.type)))

/-- `add_values`. -/
def addValues : Value → Value → Except UpdateFault Value
  | .int a, .int b => .ok (.int (wrapInt (a + b)))
  | .float a, .float b => .ok (.float (addFloat a b))
  | .str a, .str b => .ok (.str (a ++ b))
  | _, _ => runtimeError "Invalid types for addition"

/-- `subtract_values`. -/
def subtractValues : Value → Value → Except UpdateFault Value
  | .int a, .int b => .ok (.int (wrapInt (a - b)))
  | .float a, .float b => .ok (.float (subFloat a b))
  | _, _ => runtimeError "Invalid types for subtraction"

/-- `multiply_values`. -/
def multiplyValues : Value → Value → Except UpdateFault Value
  | .int a, .int b => .ok (.int (wrapInt (a * b)))
  | .float a, .float b => .ok (.float (mulFloat a b))
  | _, _ => runtimeError "Invalid types for multiplication"

/-- `divide_values`: the quotient of two `int`s is a float. -/
def divideValues : Value → Value → Except UpdateFault Value
  | .int a, .int b => if b = 0 then runtimeError "Division by zero" else .ok (.float (divFloat (floatBits a) (floatBits b)))
  | .float a, .float b => if floatEq b 0 then runtimeError "Division by zero" else .ok (.float (divFloat a b))
  | _, _ => runtimeError "Invalid types for division"

/-- `evaluate`, with `evaluate_arithmetic`. -/
def evaluate (cols : List Catalog.ColMeta) (record : Bytes) : Expr → Except UpdateFault Value
  | .val v => .ok (evaluateValue v)
  | .col c => evaluateColumn cols record c
  | .arith lhs op rhs => do
    let left ← evaluate cols record lhs
    let right ← evaluate cols record rhs
    let (left, right) ← convertForArithmetic left right
    match op with
    | .add => addValues left right
    | .sub => subtractValues left right
    | .mul => multiplyValues left right
    | .div => divideValues left right
  | .other => runtimeError "Unsupported expression type"

end ExpressionEvaluator

/-! ### Clauses -/

namespace UpdateExecutor
open ExpressionEvaluator

/-- The value of an expression becomes one of the type of its column. -/
def convertTo (text : FloatText) : ColType → Value → Except UpdateFault Value
  | .string, .int n => .ok (.str ((TextStream.showInt n).map fun c => c.toNat.toUInt8))
  | .string, .float w => .ok (.str (text.toString w))
  | .int, .float w => .ok (.int (intOfFloat w))
  | .int, .str s =>
    match TextStream.stoi (s.map fun b => Char.ofNat b.toNat) with
    | some n => .ok (.int n)
    | none => .error .noNumber
  | .float, .int n => .ok (.float (floatBits n))
  | .float, .str s =>
    match text.stof s with
    | some w => .ok (.float w)
    | none => .error .noNumber
  | _, v => .ok v

/-- `evaluate_set_clause`: the raw bytes of the value. -/
def evaluateSetClause (text : FloatText) (cols : List Catalog.ColMeta) (clause : SetClause) (record : Bytes) (col : Catalog.ColMeta) :
    Except UpdateFault Bytes :=
  match clause.expr with
  | some expr => do
    let v ← evaluate cols record expr
    let v ← convertTo text col.type v
    liftFault (v.initRaw col.len)
  | none =>
    match clause.raw with
    | some raw => .ok raw
    | none => liftFault (clause.rhs.initRaw col.len)

/-- `get_col` of the left side. -/
def lhsCol (cols : List Catalog.ColMeta) (clause : SetClause) : Except UpdateFault Catalog.ColMeta :=
  match cols.find? (·.name = clause.lhs.colName) with
  | some col => .ok col
  | none => .error (.fault (.columnNotFound clause.lhs.colName))

/-- The column that a clause sets, and the bytes that go there. -/
def newValue (text : FloatText) (cols : List Catalog.ColMeta) (record : Bytes) (clause : SetClause) :
    Except UpdateFault (Catalog.ColMeta × Bytes) := do
  let col ← lhsCol cols clause
  let raw ← evaluateSetClause text cols clause record col
  .ok (col, raw.take col.len)

/-- The loop of `Next` over the clauses: each value goes into the record that the next one is computed from. -/
def setClauses (text : FloatText) (cols : List Catalog.ColMeta) : List SetClause → Bytes → Except UpdateFault Bytes
  | [], record => .ok record
  | clause :: clauses, record => do
    let (col, raw) ← newValue text cols record clause
    setClauses text cols clauses (writeAt record col.offset raw)

end UpdateExecutor
end Rmdb.Sql
