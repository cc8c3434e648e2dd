import Rmdb.Exec.Load
import Rmdb.Sql.Analyze
import Mathlib.Algebra.GroupWithZero.Nat

/-! Literals of the SQL text (`parser/lex.l`, `value` of `parser/yacc.y`), the record that INSERT makes of a row of them
(`execution/executor_insert.h`), and the line of a CSV file with the same row. -/

namespace Rmdb

/-! ### Numbers -/

/-- `n / d` as the nearest whole number, a tie to an even one. -/
def nearest (n d : Nat) : Nat := if d < 2 * (n % d) ∨ 2 * (n % d) = d ∧ (n / d) % 2 = 1 then n / d + 1 else n / d

/-- A binary floating-point format: the bits of the fraction, the exponent of the smallest number, which is `2 ^ -lowest`, and
    the bits of infinity. -/
structure FloatFormat where
  fraction : Nat
  lowest : Nat
  infinity : Nat

namespace FloatFormat

/-- `float`. -/
def single : FloatFormat := ⟨23, 149, 0x7f800000⟩

/-- `double`. -/
def double : FloatFormat := ⟨52, 1074, 0x7ff0000000000000⟩

/-- The bits of the number nearest to `n / d`. -/
def round (f : FloatFormat) (n d : Nat) : Nat :=
  let shift := (n * 2 ^ f.lowest / d).log2 - f.fraction
  min (shift * 2 ^ f.fraction + nearest (n * 2 ^ f.lowest) (d * 2 ^ shift)) f.infinity

/-- How often `2 ^ -lowest` the number with some bits is. -/
def units (f : FloatFormat) (bits : Nat) : Nat :=
  let shift := bits / 2 ^ f.fraction - 1
  (bits - shift * 2 ^ f.fraction) * 2 ^ shift

end FloatFormat

/-- `atof` of digits with a point between them, as a `float`: the `double` is rounded once more. -/
def atof (whole fraction : Bytes) : Nat :=
  FloatFormat.single.round (FloatFormat.double.units (FloatFormat.double.round (decimal 0 (whole ++ fraction)) (10 ^ fraction.length)))
    (2 ^ FloatFormat.double.lowest)

/-! ### Literals -/

/-- `{digit}`. -/
def isDigit (b : UInt8) : Bool := 0x30 ≤ b && b ≤ 0x39

/-- `{digit}+`. -/
structure Digits where
  val : Bytes
  digits : ∀ b ∈ val, isDigit b
  nonempty : val ≠ []

/-- What stands before a number. -/
inductive Sign where
  | none
  | plus
  | minus
deriving DecidableEq, Repr

def Sign.text : Sign → Bytes
  | .none => []
  | .plus => [0x2b]
  | .minus => [0x2d]

/-- A literal of the SQL text. A string of a CSV file does not go over the end of a line. -/
inductive Literal where
  | int (sign : Sign) (digits : Digits)
  | float (sign : Sign) (whole : Digits) (fraction : Bytes) (h : ∀ b ∈ fraction, isDigit b)
  | str (text : Bytes) (h : ∀ b ∈ text, b ≠ 0x27 ∧ b ≠ 0 ∧ b ≠ 0x0a)
  | bool (val : Bool)

namespace Literal

/-- The field of a CSV file. -/
def text : Literal → Bytes
  | .int sign digits => sign.text ++ digits.val
  | .float sign whole fraction _ => sign.text ++ whole.val ++ 0x2e :: fraction
  | .str text _ => text
  | .bool true => [0x54, 0x52, 0x55, 0x45]
  | .bool false => [0x46, 0x41, 0x4c, 0x53, 0x45]

/-- The `int` of `'-' VALUE_INT` and its siblings. -/
def svInt (sign : Sign) (digits : Bytes) : Int := if sign = .minus then Sql.wrapInt (-(atoi digits)) else atoi digits

/-- The `float` of `'-' VALUE_FLOAT` and its siblings. -/
def svFloat (sign : Sign) (whole fraction : Bytes) : Nat :=
  if sign = .minus then 0x80000000 + atof whole fraction else atof whole fraction

/-- `value`. -/
def value : Literal → Sql.Lit
  | .int sign digits => .int (svInt sign digits.val)
  | .float sign whole fraction _ => .float (svFloat sign whole.val fraction)
  | .str text _ => .str text
  | .bool val => .bool val

end Literal

/-! ### INSERT -/

inductive InsertFault where
  /-- `InvalidValueCountError`. -/
  | invalidValueCount
  | fault (e : Sql.Fault)
deriving DecidableEq, Repr

namespace InsertExecutor

/-- A value becomes one of the type of its column, if both are numbers. -/
def convert (type : ColType) : Sql.Value → Sql.Value
  | .int n => if type = .float then .float (floatBits n) else .int n
  | .float w => if type = .int then .int (Sql.intOfFloat w) else .float w
  | .str s => .str s

/-- The bytes that `init_raw` makes of a value for a column. -/
def raw (c : ColMeta) (v : Sql.Value) : Except Sql.Fault Bytes := (convert c.type v).initRaw c.len

/-- The loop of `Next` that builds the record. -/
def fill : List (ColMeta × Sql.Value) → Bytes → Except Sql.Fault Bytes
  | [], rec => .ok rec
  | (c, v) :: vs, rec => do
    let bytes ← raw c v
    fill vs (writeAt rec c.offset bytes)

/-- The values of the statement, from `do_analyze`. -/
def values : List Literal → Except Sql.Fault (List Sql.Value)
  | [] => .ok []
  | l :: row => do
    let v ← Sql.convertSvValue l.value
    let vs ← values row
    .ok (v :: vs)

/-- The record of an INSERT of a row of literals. -/
def record (tab : TabMeta) (recordSize : Nat) (row : List Literal) : Except InsertFault Bytes :=
  match values row with
  | .error e => .error (.fault e)
  | .ok vs =>
    if vs.length ≠ tab.cols.length then .error .invalidValueCount
    else
      match fill (tab.cols.zip vs) (List.replicate recordSize 0) with
      | .ok rec => .ok rec
      | .error e => .error (.fault e)

end InsertExecutor

/-! ### The line of a CSV file -/

/-- The literals with commas between them. -/
def csvLine : List Literal → Bytes
  | [] => []
  | [l] => l.text
  | l :: m :: row => l.text ++ 0x2c :: csvLine (m :: row)

end Rmdb
