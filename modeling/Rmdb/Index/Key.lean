import Rmdb.Defs

/-! Index keys and their comparison (`ix_compare` in `index/ix_index_handle.h`).

A key is the concatenation of the bytes of the indexed columns. `ix_compare` compares column by
column: an INT as a signed number, a FLOAT as an IEEE number, a CHAR(n) by `memcmp`. -/

namespace Rmdb

/-- What an index keeps of a column: its type and its length in bytes. INT and FLOAT columns have four
    bytes (`type` in `parser/yacc.y`). -/
structure IxCol where
  type : ColType
  len : Nat
  fixed : type ≠ .string → len = 4
deriving DecidableEq

namespace IxCol

def int : IxCol := ⟨.int, 4, fun _ => rfl⟩

def char (n : Nat) : IxCol := ⟨.string, n, fun h => absurd rfl h⟩

end IxCol

/-- `col_tot_len`. -/
def colTotLen : List IxCol → Nat
  | [] => 0
  | c :: cs => c.len + colTotLen cs

/-- The bits of a float without its sign. -/
def floatMagnitude (w : Nat) : Nat := w % 0x80000000

/-- A float that is no number: all exponent bits are set and a fraction bit is. -/
def isNan (w : Nat) : Bool := 0x7f800000 < floatMagnitude w

/-- A number with the order of the floats that are no NaN: sign and magnitude, with both zeros equal. -/
def floatValue (w : Nat) : Int := if w < 0x80000000 then floatMagnitude w else -(floatMagnitude w : Int)

/-- `(fa < fb) ? -1 : (fa > fb) ? 1 : 0` on the bits of two floats: no NaN is less or greater than anything. -/
def floatCompare (a b : Nat) : Int :=
  if isNan a || isNan b then 0
  else if floatValue a < floatValue b then -1 else if floatValue b < floatValue a then 1 else 0

/-- `ix_compare` of one column. -/
def ixCompareCol (a b : Bytes) (c : IxCol) : Int :=
  match c.type with
  | .int => if readInt a < readInt b then -1 else if readInt a > readInt b then 1 else 0
  | .float => floatCompare (readWord a) (readWord b)
  | .string => memcmp a b c.len

/-- `ix_compare` of all columns: the first column that differs decides. -/
def ixCompare : List IxCol → Bytes → Bytes → Int
  | [], _, _ => 0
  | c :: cs, a, b =>
    let res := ixCompareCol a b c
    if res ≠ 0 then res else ixCompare cs (a.drop c.len) (b.drop c.len)

/-- No FLOAT column of the key holds a NaN. -/
def NanFree : List IxCol → Bytes → Prop
  | [], _ => True
  | c :: cs, a => (c.type = .float → isNan (readWord a) = false) ∧ NanFree cs (a.drop c.len)

instance NanFree.decidable : (cols : List IxCol) → (a : Bytes) → Decidable (NanFree cols a)
  | [], _ => isTrue trivial
  | c :: cs, a =>
    have := NanFree.decidable cs (a.drop c.len)
    inferInstanceAs (Decidable (_ ∧ _))

/-- A key of an index on `cols`: as many bytes as the columns have, and numbers in its FLOAT columns. -/
abbrev IxKey (cols : List IxCol) := { bs : Bytes // bs.length = colTotLen cols ∧ NanFree cols bs }

/-- What the nodes of an index read of its file header: `Compare` and `btree_order_`. -/
structure IxFormat (K : Type) where
  compare : K → K → Int
  btreeOrder : Nat

namespace IxFormat
variable {K : Type} (f : IxFormat K)

/-- `get_max_size`. -/
def maxSize : Nat := f.btreeOrder + 1

/-- `get_min_size`. -/
def minSize : Nat := f.maxSize / 2

end IxFormat

/-- `IX_MAX_COL_LEN`. -/
def ixMaxColLen : Nat := 512

/-- `sizeof(IxPageHdr)`: four 32-bit fields, a `bool` padded to four bytes and one more field. -/
def sizeofIxPageHdr : Nat := 24

/-- `sizeof(Rid)`. -/
def sizeofRid : Nat := 8

/-- `btree_order` as `IxManager::create_index` computes it. -/
def btreeOrder (cols : List IxCol) : Nat :=
  (pageSize - sizeofIxPageHdr) / (colTotLen cols + sizeofRid) - 1

/-- The format of an index on `cols`. -/
def ixFormat (cols : List IxCol) : IxFormat (IxKey cols) where
  compare a b := ixCompare cols a.val b.val
  btreeOrder := btreeOrder cols

/-- `create_index` accepts the columns: it throws `InvalidColLengthError` on longer keys and asserts
    `btree_order > 2`. -/
def IxAccepts (cols : List IxCol) : Prop := colTotLen cols ≤ ixMaxColLen ∧ 2 < btreeOrder cols

instance (cols : List IxCol) : Decidable (IxAccepts cols) := inferInstanceAs (Decidable (_ ∧ _))

/-- All columns are INT or CHAR. -/
def IntChar (cols : List IxCol) : Prop := ∀ c ∈ cols, c.type ≠ .float

instance (cols : List IxCol) : Decidable (IntChar cols) := List.decidableBAll _ _

/-- Without FLOAT columns the keys of an index are all strings of its length. -/
theorem IntChar.nanFree {cols : List IxCol} (h : IntChar cols) (a : Bytes) : NanFree cols a := by
  induction cols generalizing a with
  | nil => trivial
  | cons c cs ih =>
    obtain ⟨hc, hcs⟩ := List.forall_mem_cons.mp h
    exact ⟨fun hf => absurd hf hc, ih hcs _⟩

end Rmdb
