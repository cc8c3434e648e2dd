import Rmdb.Exec.Cond
import Rmdb.Index.Scan

/-! The two scans of a table: `SeqScanExecutor` and `IndexScanExecutor`
(`execution/executor_seq_scan.h`, `execution/executor_index_scan.h`).

A table is given by its rows: the records that `RmScan` visits and `get_record_mvcc` returns. -/

namespace Rmdb

/-- The rows of a table, in the order of `RmScan`. -/
structure Table (tab : TabMeta) where
  rows : List (Row tab)
  distinct : (rows.map (·.rid)).Nodup

/-- An index of a table. -/
structure IndexMeta (tab : TabMeta) where
  cols : List ColMeta
  sub : ∀ c ∈ cols, c ∈ tab.cols

namespace IndexMeta
variable {tab : TabMeta} (ix : IndexMeta tab)

def ixCols : List IxCol := ix.cols.map (·.ixCol)

/-- The bytes of the key of a record. -/
def keyBytes (rec : Bytes) : Bytes := ix.cols.flatMap (·.cell rec)

end IndexMeta

/-- The bytes as a key of an index. -/
def ixKey (cols : List IxCol) (a : Bytes) : Except IxError (IxKey cols) :=
  if h : a.length = colTotLen cols ∧ NanFree cols a then .ok ⟨a, h⟩ else .error .assertFailed

/-- `memcpy(key, &val, sizeof(int))`: the low 32 bits of a number, least significant byte first. -/
def writeInt (n : Int) : Bytes :=
  let w := (n % 0x100000000).toNat
  [UInt8.ofNat w, UInt8.ofNat (w / 0x100), UInt8.ofNat (w / 0x10000), UInt8.ofNat (w / 0x1000000)]

/-- `int_min_`. -/
def intMin : Int := -0x80000000

/-- `int_max_`. -/
def intMax : Int := 0x7fffffff

/-- `copy_string_key`: the string up to its NUL byte, with spaces behind it. -/
def copyStringKey (src : Bytes) (len : Nat) : Bytes :=
  let str := (src.take len).takeWhile (· ≠ 0)
  str ++ List.replicate (len - str.length) 0x20

namespace ColMeta

/-- The bytes that `set_remaining_all_min` writes for the column; those of `-FLT_MAX` for a FLOAT. -/
def allMin (c : ColMeta) : Bytes :=
  match c.type with
  | .int => writeInt intMin
  | .float => [0xff, 0xff, 0x7f, 0xff]
  | .string => List.replicate c.len 0

/-- The bytes that `set_remaining_all_max` writes for the column. -/
def allMax (c : ColMeta) : Bytes :=
  match c.type with
  | .int => writeInt intMax
  | .float => [0xff, 0xff, 0x7f, 0x7f]
  | .string => List.replicate c.len 0xff

end ColMeta

section Bounds
variable {tab : TabMeta}

/-- The conditions on a column with an operator. -/
def condsWith (conds : List (Condition tab)) (c : ColMeta) (op : CompOp) : List (Condition tab) :=
  conds.filter fun d => d.lhsCol.name = c.name ∧ d.op = op

/-- `eq_cond`, `ge_cond` and so on in `beginTuple`: the last condition on the column with the operator. -/
def lastCond (conds : List (Condition tab)) (c : ColMeta) (op : CompOp) : Option (Condition tab) :=
  (condsWith conds c op).getLast?

/-- The bytes of a constant in a bound. -/
def boundBytes (c : ColMeta) (d : Condition tab) : Bytes :=
  if c.type = .string then copyStringKey d.rhsVal.raw c.len else d.rhsVal.raw.take c.len

/-- The bound of `> val`: the next number for an INT. -/
def aboveBytes (c : ColMeta) (d : Condition tab) : Bytes :=
  if c.type = .int then
    let val := readInt d.rhsVal.raw
    writeInt (if val < intMax then val + 1 else val)
  else boundBytes c d

/-- The bound of `< val`: the number before for an INT. -/
def belowBytes (c : ColMeta) (d : Condition tab) : Bytes :=
  if c.type = .int then
    let val := readInt d.rhsVal.raw
    writeInt (if intMin < val then val - 1 else val)
  else boundBytes c d

/-- What the conditions on a column put into `lower_key`, if anything. -/
def lowerCell (conds : List (Condition tab)) (c : ColMeta) : Option Bytes :=
  match lastCond conds c .eq, lastCond conds c .ge, lastCond conds c .gt with
  | some d, _, _ => some (boundBytes c d)
  | none, some d, _ => some (boundBytes c d)
  | none, none, some d => some (aboveBytes c d)
  | none, none, none => none

/-- What the conditions on a column put into `upper_key`, if anything. -/
def upperCell (conds : List (Condition tab)) (c : ColMeta) : Option Bytes :=
  match lastCond conds c .eq, lastCond conds c .le, lastCond conds c .lt with
  | some d, _, _ => some (boundBytes c d)
  | none, some d, _ => some (boundBytes c d)
  | none, none, some d => some (belowBytes c d)
  | none, none, none => none

/-- The column has a condition other than `<>`. -/
def bounded (conds : List (Condition tab)) (c : ColMeta) : Bool := (lowerCell conds c).isSome || (upperCell conds c).isSome

/-- `lower_key` after the loop of `beginTuple` over the index columns, which stops at a column without bounds. -/
def lowerKey (conds : List (Condition tab)) : List ColMeta → Bytes
  | [] => []
  | c :: cs =>
    if bounded conds c then (lowerCell conds c).getD c.allMin ++ lowerKey conds cs else (c :: cs).flatMap (·.allMin)

/-- `upper_key` after the loop. -/
def upperKey (conds : List (Condition tab)) : List ColMeta → Bytes
  | [] => []
  | c :: cs =>
    if bounded conds c then (upperCell conds c).getD c.allMax ++ upperKey conds cs else (c :: cs).flatMap (·.allMax)

/-- `covered_cols`: the leading columns with an `=`, and the next one if it has any condition. -/
def coveredCols (conds : List (Condition tab)) : List ColMeta → List ColMeta
  | [] => []
  | c :: cs =>
    if conds.any fun d => d.lhsCol.name = c.name ∧ d.op = .eq then c :: coveredCols conds cs
    else if conds.any fun d => d.lhsCol.name = c.name then [c] else []

end Bounds

section Scans
variable {tab : TabMeta} (t : Table tab)

/-- `SeqScanExecutor`: the rows from `beginTuple` to `is_end`. -/
def seqScan (conds : List (Condition tab)) : List (Row tab) := t.rows.filter fun r => evalConds conds r.bytes

/-- `get_record_mvcc`. -/
def Table.getRecord (rid : Rid) : Option (Row tab) := t.rows.find? (·.rid = rid)

variable (ix : IndexMeta tab)

/-- The conditions on index columns, in the order of the columns: `conds_` of the constructor. -/
def indexConds (conds : List (Condition tab)) : List (Condition tab) :=
  ix.cols.flatMap fun c => conds.filter fun d => d.lhsCol.name = c.name

/-- `fed_conds_`: the conditions that are evaluated for each row. -/
def fedConds (conds : List (Condition tab)) : List (Condition tab) :=
  conds.filter fun d => ¬∃ c ∈ coveredCols (indexConds ix conds) ix.cols, c.name = d.lhsCol.name

variable {K : Type}

/-- `beginTuple` and `nextTuple` from position `iid` of the index to the end of the scan. An entry that is not there
    (`IndexEntryNotFoundError`) and a row that is not there are skipped. -/
def scanRows (conds : List (Condition tab)) (s : IxIndexHandle K) (stop : Iid) : Nat → Iid → Except IxError (List (Row tab))
  | 0, iid => if iid = stop then .ok [] else .error .diverged
  | fuel + 1, iid =>
    if iid = stop then .ok []
    else
      let here : Except IxError (Option (Row tab)) :=
        match IxScan.rid s iid stop with
        | .ok rid => .ok ((t.getRecord rid).filter fun r => cmpConds conds r.bytes)
        | .error .entryNotFound => .ok none
        | .error e => .error e
      do
        let row ← here
        let iid ← IxScan.next s iid stop
        let rest ← scanRows conds s stop fuel iid
        .ok (row.toList ++ rest)

/-- `IndexScanExecutor`: the rows from `beginTuple` to `is_end`. -/
def indexScan (s : IxIndexHandle (IxKey ix.ixCols)) (conds : List (Condition tab)) (fuel : Nat) :
    Except IxError (List (Row tab)) := do
  let _ ← s.leafBegin
  let _ ← s.leafEnd
  let lower ← ixKey ix.ixCols (lowerKey (indexConds ix conds) ix.cols)
  let upper ← ixKey ix.ixCols (upperKey (indexConds ix conds) ix.cols)
  let lo ← s.lowerBound (ixFormat ix.ixCols) lower
  let hi ← s.upperBound (ixFormat ix.ixCols) upper
  scanRows t (fedConds ix conds) s hi fuel lo

end Scans
end Rmdb
