import Rmdb.Exec.Scan
import Rmdb.System.Catalog

/-! What the parser hands over (`parser/ast.h`, `parser/yacc.y`) and the values and conditions that the stages of a query
share (`common/common.h`). -/

namespace Rmdb.Sql

/-! ### Faults -/

/-- What ends a stage early: an exception, or a use of memory that the language leaves undefined. -/
inductive Fault where
  | tableNotFound (tab : String)
  | columnNotFound (col : String)
  | ambiguousColumn (col : String)
  | incompatibleType (lhs rhs : String)
  | stringOverflow
  | indexNotFound (tab : String) (cols : List String)
  /-- `InternalError`, and `RMDBError` itself. -/
  | internalError (msg : String)
  /-- `std::runtime_error`. -/
  | runtimeError (msg : String)
  /-- A null pointer is used. -/
  | nullPointer
  | assertFailed
  /-- A variable is read that was not set. -/
  | uninitialized
  /-- A loop does not end. -/
  | diverged
deriving DecidableEq, Repr

/-- The faults that are exceptions. -/
def Fault.isException : Fault → Bool
  | .nullPointer | .assertFailed | .uninitialized | .diverged => false
  | _ => true

/-! ### Values -/

/-- `TabCol`: a column, with an empty table name where the statement gives none. Also `ast::Col`. -/
structure TabCol where
  tabName : String
  colName : String
deriving DecidableEq, Repr

/-- `Value`. A FLOAT is given by its bits. -/
inductive Value where
  | int (val : Int)
  | float (bits : Nat)
  | str (val : Bytes)
deriving DecidableEq, Repr

/-- `coltype2str`. -/
def coltype2str : ColType → String
  | .int => "INT"
  | .float => "FLOAT"
  | .string => "STRING"

/-- The bits of `static_cast<float>` of a number. -/
def floatBitsOfNat (n : Nat) : Nat :=
  if n = 0 then 0
  else
    let m := floatOfNat n
    let e := m.log2
    (e + 127) * 0x800000 + (if e ≤ 23 then m <<< (23 - e) else m >>> (e - 23)) - 0x800000

/-- The bits of `static_cast<float>` of an `int`. -/
def floatBits (n : Int) : Nat := if n < 0 then 0x80000000 + floatBitsOfNat n.natAbs else floatBitsOfNat n.natAbs

/-- An `int` after an addition: the low 32 bits of the number. -/
def wrapInt (n : Int) : Int := toSigned (n % 0x100000000).toNat

/-- `static_cast<int>` of a float: towards zero. A float that no `int` is near gives `INT_MIN`, as the processor does. -/
def intOfFloat (bits : Nat) : Int :=
  let m := floatMagnitude bits
  let e := m / 0x800000
  let frac := m % 0x800000 + 0x800000
  if 158 ≤ e then intMin
  else
    let n : Nat := if e < 127 then 0 else if e ≤ 150 then frac >>> (150 - e) else frac <<< (e - 150)
    if bits < 0x80000000 then n else -(n : Int)

/-- `std::string::operator<`: by the first bytes that differ, else the shorter one is less. -/
def bytesLt : Bytes → Bytes → Bool
  | [], [] => false
  | [], _ :: _ => true
  | _ :: _, [] => false
  | x :: xs, y :: ys => if x = y then bytesLt xs ys else x < y

namespace Value

def type : Value → ColType
  | .int _ => .int
  | .float _ => .float
  | .str _ => .string

/-- `from_raw`. A string ends at its first NUL byte. -/
def fromRaw (data : Bytes) (type : ColType) (len : Nat) : Value :=
  match type with
  | .int => .int (readInt data)
  | .float => .float (readWord data)
  | .string => .str ((data.take len).takeWhile (· ≠ 0))

/-- `operator==`. -/
def eq : Value → Value → Bool
  | .int a, .int b => a = b
  | .float a, .float b => floatEq a b
  | .str a, .str b => a = b
  | _, _ => false

/-- `operator<`: values of different types by the numbers of their types. -/
def lt : Value → Value → Bool
  | .int a, .int b => a < b
  | .float a, .float b => floatLt a b
  | .str a, .str b => bytesLt a b
  | a, b => Catalog.typeCode a.type < Catalog.typeCode b.type

/-- `operator<=`. -/
def le (a b : Value) : Bool := a.lt b || a.eq b

/-- `operator>`. -/
def gt (a b : Value) : Bool := !a.le b

/-- `operator>=`. -/
def ge (a b : Value) : Bool := !a.lt b

/-- `init_raw`, with the bytes that it writes. -/
def initRaw (v : Value) (len : Nat) : Except Fault Bytes :=
  match v with
  | .int n => if len = 4 then .ok (putInt n) else .error .assertFailed
  | .float w => if len = 4 then .ok (putWord w) else .error .assertFailed
  | .str s => if len < s.length then .error .stringOverflow else .ok (s ++ List.replicate (len - s.length) 0)

end Value

/-! ### Statements -/

/-- `ast::Value`: `IntLit`, `FloatLit`, `StringLit` and `BoolLit`. -/
inductive Lit where
  | int (val : Int)
  | float (bits : Nat)
  | str (val : Bytes)
  | bool (val : Bool)
deriving DecidableEq, Repr

inductive AggType where
  | count
  | sum
  | avg
  | min
  | max
deriving DecidableEq, Repr

/-- `AggExpr`; `COUNT(*)` has no argument. -/
structure AggExpr where
  aggType : AggType
  arg : Option TabCol
deriving DecidableEq, Repr

/-- A column or an aggregate. -/
inductive Item where
  | col (col : TabCol)
  | agg (agg : AggExpr)
deriving DecidableEq, Repr

/-- `colItem`: an item, and the name of the `AliasExpr` around it. -/
structure ColItem where
  expr : Item
  aliasName : Option String
deriving DecidableEq, Repr

/-- The column that the expression is, where it is an `ast::Col`: an alias is none. -/
def ColItem.col? (e : ColItem) : Option TabCol :=
  match e.aliasName, e.expr with
  | none, .col c => some c
  | _, _ => none

/-- The right side of a condition in a WHERE or ON clause. -/
inductive RhsExpr where
  | val (val : Lit)
  | col (col : TabCol)
  /-- An aggregate or arithmetic expression. -/
  | other
deriving DecidableEq, Repr

/-- `BinaryExpr`. -/
structure BinaryExpr where
  lhs : TabCol
  op : CompOp
  rhs : RhsExpr
deriving DecidableEq, Repr

/-- A side of a comparison in a HAVING clause. -/
inductive Operand where
  | agg (agg : AggExpr)
  | val (val : Lit)
  | col (col : TabCol)
deriving DecidableEq, Repr

inductive LogicalOp where
  | and
  | or
deriving DecidableEq, Repr

/-- `CompareExpr` and `LogicalExpr`. -/
inductive Having where
  | compare (lhs : Operand) (op : CompOp) (rhs : Operand)
  | logical (lhs : Having) (op : LogicalOp) (rhs : Having)
deriving DecidableEq, Repr

/-- `OrderBy`; `isDesc` for DESC. -/
structure OrderBy where
  col : TabCol
  isDesc : Bool
deriving DecidableEq, Repr

/-- `TableRef`, with an empty alias where there is none, and `JoinExpr`. -/
inductive TableTree where
  | ref (name aliasName : String)
  | join (left right : TableTree) (conds : List BinaryExpr) (semi : Bool)
deriving DecidableEq, Repr

/-- `SelectStmt`. No columns stand for `*`; the limit is -1 where there is none. -/
structure SelectStmt where
  cols : List ColItem
  tabs : TableTree
  conds : List BinaryExpr
  groupBy : List ColItem
  having : Option Having
  order : List OrderBy
  limit : Int
deriving DecidableEq, Repr

/-- `has_sort`. -/
def SelectStmt.hasSort (x : SelectStmt) : Bool := x.order ≠ [] || 0 < x.limit

/-! ### Conditions -/

/-- The right side of a `Condition`. The raw bytes of a constant are those of `init_raw`. -/
inductive Rhs where
  | val (val : Value) (raw : Bytes)
  | col (col : TabCol)
deriving DecidableEq, Repr

/-- `Condition`. -/
structure Condition where
  lhsCol : TabCol
  op : CompOp
  rhs : Rhs
deriving DecidableEq, Repr

namespace Condition

def isRhsVal (c : Condition) : Bool :=
  match c.rhs with
  | .val _ _ => true
  | .col _ => false

/-- `rhs_col.tab_name`, which is empty beside a constant. -/
def rhsTab (c : Condition) : String :=
  match c.rhs with
  | .val _ _ => ""
  | .col c => c.tabName

end Condition

/-- `swap_op`. -/
def swapOp : CompOp → CompOp
  | .eq => .eq
  | .ne => .ne
  | .lt => .gt
  | .gt => .lt
  | .le => .ge
  | .ge => .le

end Rmdb.Sql
