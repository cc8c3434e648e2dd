import Rmdb.Lib.Iterator
import Rmdb.Sql.Planner
import Rmdb.System.SmManager
import Rmdb.Txn.Version
import Mathlib.Algebra.GroupWithZero.Nat

/-! The operators that run a plan (`execution/executor_abstract.h` and the headers beside it).

An operator is an object of the class `AbstractExecutor`: an iterator over records, where `Next` may return a null pointer. -/

namespace Rmdb.Sql

/-! ### The database -/

/-- A record of a table file, with its mark in the `MvccMap` of the file. -/
structure Slot where
  rid : Rid
  bytes : Bytes
  mark : Option HeapTupleFields
deriving DecidableEq, Repr

/-- The columns stand one behind the other from an offset on. -/
def Laid : Nat → List Catalog.ColMeta → Prop
  | _, [] => True
  | off, c :: cs => c.offset = off ∧ Laid (off + c.len) cs

instance Laid.decidable : (off : Nat) → (cols : List Catalog.ColMeta) → Decidable (Laid off cols)
  | _, [] => isTrue trivial
  | off, c :: cs =>
    have := Laid.decidable (off + c.len) cs
    inferInstanceAs (Decidable (_ ∧ _))

/-- `record_size`: the length of all columns. -/
def recordSize (cols : List Catalog.ColMeta) : Nat := (cols.map (·.len)).sum

/-- A table: what the catalog says of it, its records in the order of `RmScan`, and its indexes. `range cols` is the open
    index on these columns, given by the entries between the bounds that some conditions set; an entry that cannot be read
    (`IndexEntryNotFoundError`) is `none`. -/
structure Table where
  tab : Catalog.TabMeta
  slots : List Slot
  range : List String → Option (List Condition → List (Option Rid))
  name_ne : tab.name ≠ ""
  cols_ne : tab.cols ≠ []
  laid : Laid 0 tab.cols
  named : ∀ c ∈ tab.cols, c.tabName = tab.name
  distinct : (tab.cols.map (·.name)).Nodup
  sized : ∀ s ∈ slots, s.bytes.length = recordSize tab.cols

/-- The open database as a transaction finds it; `txn` is null where no transaction runs. -/
structure Db where
  tables : List Table
  txn : Option Int

namespace Db
variable (db : Db)

/-- `db_`. -/
def catalog : Catalog.DbMeta := ⟨"", db.tables.map (·.tab)⟩

/-- The table of a name. -/
def table? (name : String) : Option Table := db.tables.find? (·.tab.name = name)

/-- `fh->visit`. -/
def visible (s : Slot) : Bool :=
  match db.txn with
  | none => true
  | some id => visitRecord s.mark id = .success

/-- `get_record_mvcc` of a record that is there. -/
def getRecordMvcc (s : Slot) : Option Bytes := if db.visible s then some s.bytes else none

end Db

/-- `AbstractExecutor`. `ownBuffer`: the records that `Next` returns lie in a buffer of the operator. `bound` bounds the
    number of its positions. The last two fields are what `dynamic_cast` to a `GroupExecutor` and to an `IndexScanExecutor`
    gives access to. -/
structure Executor extends Iter Fault (Option Bytes) where
  cols : List Catalog.ColMeta
  tupleLen : Nat
  ownBuffer : Bool
  bound : Nat
  currentGroupRecords : Option (State → List Bytes)
  indexColNames : Option (List String)

/-! ### Conditions -/

/-- `AbstractExecutor::get_col`. -/
def getCol (cols : List Catalog.ColMeta) (target : TabCol) : Except Fault Catalog.ColMeta :=
  match cols.find? fun c => c.tabName = target.tabName ∧ c.name = target.colName with
  | some c => .ok c
  | none => .error (.columnNotFound (target.tabName ++ "." ++ target.colName))

/-- A number in a record, as the bits of a float. -/
def numericBits (type : ColType) (data : Bytes) : Nat := if type = .int then floatBits (readInt data) else readWord data

/-- A constant, as the bits of a float. -/
def Value.numericBits : Value → Nat
  | .int n => floatBits n
  | .float w => w
  | .str _ => 0

/-- `eval_cond`. -/
def evalCond (cols : List Catalog.ColMeta) (cond : Condition) (rec : Bytes) : Except Fault Bool := do
  let lhs ← getCol cols cond.lhsCol
  let lhsData := rec.drop lhs.offset
  let (rhsType, rhsLen, rhsData, rhsBits) ← match cond.rhs with
    | .val v raw => Except.ok (v.type, raw.length, raw, v.numericBits)
    | .col d => do
      let rhs ← getCol cols d
      let data := rec.drop rhs.offset
      .ok (rhs.type, rhs.len, data, numericBits rhs.type data)
  if isNumericType lhs.type ∧ isNumericType rhsType then .ok (cond.op.floatTest (numericBits lhs.type lhsData) rhsBits)
  else if lhs.type ≠ rhsType then .error (.incompatibleType (coltype2str lhs.type) (coltype2str rhsType))
  else .ok (cond.op.test (strncmp lhsData rhsData (max lhs.len rhsLen)))

/-- Conditions one after the other, up to the first that does not hold. -/
def allHold {α : Type} (test : α → Except Fault Bool) : List α → Except Fault Bool
  | [] => .ok true
  | c :: cs => do
    let b ← test c
    if b then allHold test cs else .ok false

/-- `eval_conds`. -/
def evalConds (cols : List Catalog.ColMeta) (conds : List Condition) (rec : Bytes) : Except Fault Bool :=
  allHold (fun c => evalCond cols c rec) conds

/-- The sign of the comparison of two floats: a NaN is greater than anything. -/
def floatSign (a b : Nat) : Int := if floatEq a b then 0 else if floatLt a b then -1 else 1

/-- `IndexScanExecutor::cmp_cond`, which takes constants from their raw bytes. -/
def cmpCond (cols : List Catalog.ColMeta) (cond : Condition) (rec : Bytes) : Except Fault Bool := do
  let lhs ← getCol cols cond.lhsCol
  let lhsData := rec.drop lhs.offset
  let (rhsType, rhsData) ← match cond.rhs with
    | .val v raw => Except.ok (v.type, raw)
    | .col d => do
      let rhs ← getCol cols d
      .ok (rhs.type, rec.drop rhs.offset)
  if lhs.type = rhsType then .ok (cond.op.test (Rmdb.Condition.compare lhsData rhsData lhs.len rhsType))
  else if isNumericType lhs.type ∧ isNumericType rhsType then
    .ok (cond.op.test (floatSign (numericBits lhs.type lhsData) (numericBits rhsType rhsData)))
  else .error (.incompatibleType (coltype2str lhs.type) (coltype2str rhsType))

/-- `cmp_conds`. -/
def cmpConds (cols : List Catalog.ColMeta) (conds : List Condition) (rec : Bytes) : Except Fault Bool :=
  allHold (fun c => cmpCond cols c rec) conds

/-! ### Projection in a scan -/

/-- The columns that a scan puts out: the loop over `projection_col`, with the names seen so far. A column is given with its
    new offset beside the old one. -/
def projCols (cols : List Catalog.ColMeta) : List String → Nat → List TabCol → List (Catalog.ColMeta × Nat)
  | _, _, [] => []
  | seen, off, tc :: tcs =>
    if tc.colName ∈ seen then projCols cols seen off tcs
    else
      match cols.find? (·.name = tc.colName) with
      | none => projCols cols (tc.colName :: seen) off tcs
      | some c => ({ c with offset := off }, c.offset) :: projCols cols (tc.colName :: seen) (off + c.len) tcs

/-- What a scan hands out of the records of its table. -/
structure ScanOut where
  cols : List Catalog.ColMeta
  len : Nat
  ownBuffer : Bool
  project : Bytes → Bytes

/-- The members of a scan for its output: the buffer is there if the columns to put out have a length. -/
def scanOut (cols : List Catalog.ColMeta) (projectionCol : List TabCol) : ScanOut :=
  let proj := projCols cols [] 0 projectionCol
  let projLen := recordSize (proj.map (·.1))
  if 0 < projLen then
    ⟨proj.map (·.1), projLen, true, fun rec => proj.flatMap fun p => (rec.drop p.2).take p.1.len⟩
  else ⟨cols, recordSize cols, false, id⟩

/-! ### SeqScanExecutor -/

/-- `RmScan` moves from the records on to one that the conditions hold of. Without conditions the first record will do. -/
def seqSeek (db : Db) (cols : List Catalog.ColMeta) (conds : List Condition) : List Slot → Except Fault (List Slot)
  | [] => .ok []
  | s :: ss =>
    if conds = [] then .ok (s :: ss)
    else
      match db.getRecordMvcc s with
      | none => seqSeek db cols conds ss
      | some rec => do
        let b ← evalConds cols conds rec
        if b then .ok (s :: ss) else seqSeek db cols conds ss

/-- `SeqScanExecutor`. A position is given by the records from it on, and is not there before `beginTuple`. No operator calls
    `Next` before that. -/
def seqScan (db : Db) (t : Table) (conds : List Condition) (projectionCol : List TabCol) : Executor :=
  let out := scanOut t.tab.cols projectionCol
  { State := Option (List Slot)
    init := none
    start := fun _ => some <$> seqSeek db t.tab.cols conds t.slots
    step := fun s =>
      match s with
      | none => .error (.internalError "Scan not initialized at SeqScanExecutor")
      | some rest => some <$> seqSeek db t.tab.cols conds rest.tail
    isEnd := fun s => s.all (·.isEmpty)
    read := fun s =>
      match s with
      | some (slot :: _) => .ok ((db.getRecordMvcc slot).map out.project)
      | _ => .ok none
    cols := out.cols
    tupleLen := out.len
    ownBuffer := out.ownBuffer
    bound := t.slots.length
    currentGroupRecords := none
    indexColNames := none }

/-! ### IndexScanExecutor -/

/-- The record of an entry: an entry or a record that is not there is skipped, as is one that is not visible. -/
def indexRecord (db : Db) (t : Table) (entry : Option Rid) : Option Bytes := do
  let rid ← entry
  let slot ← t.slots.find? (·.rid = rid)
  db.getRecordMvcc slot

/-- `IxScan` moves from the entries on to one whose record the conditions hold of; the record is kept beside it. -/
def indexSeek (db : Db) (t : Table) (conds : List Condition) : List (Option Rid) →
    Except Fault (List (Option Rid) × Option Bytes)
  | [] => .ok ([], none)
  | entry :: entries =>
    match indexRecord db t entry with
    | none => indexSeek db t conds entries
    | some rec => do
      let b ← cmpConds t.tab.cols conds rec
      if b then .ok (entry :: entries, some rec) else indexSeek db t conds entries

/-- The columns of an index that conditions of the scan bound: `covered_cols`. -/
def coveredCols (conds : List Condition) : List String → List String
  | [] => []
  | c :: cs =>
    let ops := (conds.filter fun d => d.isRhsVal ∧ d.lhsCol.colName = c).map (·.op)
    if .eq ∈ ops then c :: coveredCols conds cs else if ops ≠ [] then [c] else []

/-- `fed_conds_` after `beginTuple`. -/
def fedConds (conds : List Condition) (indexCols : List String) : List Condition :=
  conds.filter fun d => !(d.isRhsVal && d.lhsCol.colName ∈ coveredCols conds indexCols)

/-- The checks of the constructor: the index is in the catalog, and a condition whose left column is of another table compares
    it with a column of this one. -/
def checkIndexScan (t : Table) (conds : List Condition) (indexCols : List String) : Except Fault Unit :=
  if (t.tab.index? (Catalog.SmManager.getIndexName t.tab.name indexCols)).isNone then
    .error (.indexNotFound t.tab.name indexCols)
  else if conds.all fun c => c.lhsCol.tabName = t.tab.name || (!c.isRhsVal && c.rhsTab = t.tab.name) then .ok ()
  else .error .assertFailed

/-- `IndexScanExecutor`. -/
def indexScan (db : Db) (t : Table) (conds : List Condition) (indexCols : List String) (projectionCol : List TabCol) : Executor :=
  let out := scanOut t.tab.cols projectionCol
  let fed := fedConds conds indexCols
  { State := List (Option Rid) × Option Bytes
    init := ([], none)
    start := fun _ =>
      match t.range indexCols with
      | none => .error (.indexNotFound t.tab.name indexCols)
      | some range => indexSeek db t fed (range conds)
    step := fun s => if s.1.isEmpty then .ok s else indexSeek db t fed s.1.tail
    isEnd := fun s => s.1.isEmpty
    read := fun s => .ok (if s.1.isEmpty then none else s.2.map out.project)
    cols := out.cols
    tupleLen := out.len
    ownBuffer := out.ownBuffer
    bound := ((t.range indexCols).map fun range => (range conds).length).getD 0
    currentGroupRecords := none
    indexColNames := some indexCols }

/-! ### NestedLoopJoinExecutor -/

/-- `MiniCol`. -/
structure MiniCol where
  offset : Nat
  len : Nat
  type : ColType

/-- A column of a join condition in the columns of a side; without a match the `MiniCol` stays unset. -/
def miniCol (cols : List Catalog.ColMeta) (target : TabCol) : Option MiniCol :=
  (cols.find? fun c => c.tabName = target.tabName ∧ c.name = target.colName).map fun c => ⟨c.offset, c.len, c.type⟩

/-- `Fliter::compare`. -/
def fliterCompare (left right : Bytes) (leftType rightType : ColType) (len : Nat) : Int :=
  match leftType, rightType with
  | .int, .int => compareInt (readInt left) (readInt right)
  | .string, _ => strncmp left right len
  | _, .string => -100
  | _, _ => floatCompare (numericBits leftType left) (numericBits rightType right)

/-- `Fliter::do_predict` for one condition. -/
def doPredictCond (leftCols rightCols : List Catalog.ColMeta) (left right : Bytes) (cond : Condition) : Except Fault Bool :=
  let rhs := match cond.rhs with
    | .val _ _ => none
    | .col d => miniCol rightCols d
  match miniCol leftCols cond.lhsCol, rhs with
  | some l, some r => .ok (cond.op.test (fliterCompare (left.drop l.offset) (right.drop r.offset) l.type r.type l.len))
  | _, _ => .error .uninitialized

/-- The test of `find_record`: both records are there, and `do_predict` holds. -/
def findTest (leftCols rightCols : List Catalog.ColMeta) (conds : List Condition) :
    Option Bytes → Option Bytes → Except Fault Bool
  | some left, some right => allHold (doPredictCond leftCols rightCols left right) conds
  | _, _ => .ok false

/-- The record of a join: the bytes of both sides. -/
def joinRecord (leftLen rightLen : Nat) : Option Bytes → Option Bytes → Option Bytes
  | some left, some right => some (left.take leftLen ++ right.take rightLen)
  | _, _ => none

/-- `NestedLoopJoinExecutor`. -/
def nestedLoopJoin (left right : Executor) (conds : List Condition) : Executor :=
  { Iter.nested left.toIter right.toIter (findTest left.cols right.cols conds) .diverged
      (Iter.nestedBound left.bound right.bound + 1) (joinRecord left.tupleLen right.tupleLen) none with
    cols := left.cols ++ right.cols.map fun c => { c with offset := c.offset + left.tupleLen }
    tupleLen := left.tupleLen + right.tupleLen
    ownBuffer := true
    bound := Iter.nestedBound left.bound right.bound
    currentGroupRecords := none
    indexColNames := none }

/-! ### ProjectionExecutor -/

/-- The columns with new offsets, one behind the other. -/
def relay : Nat → List Catalog.ColMeta → List Catalog.ColMeta
  | _, [] => []
  | off, c :: cs => { c with offset := off } :: relay (off + c.len) cs

/-- `ProjectionRun`, without the offset in the result: the runs stand there one behind the other. -/
structure ProjectionRun where
  srcOffset : Nat
  len : Nat

/-- The columns from a run on, where a column that starts at the end of the run extends it. -/
def extendRun (cur : ProjectionRun) : List Catalog.ColMeta → List ProjectionRun
  | [] => [cur]
  | c :: cs =>
    if cur.srcOffset + cur.len = c.offset then extendRun ⟨cur.srcOffset, cur.len + c.len⟩ cs
    else cur :: extendRun ⟨c.offset, c.len⟩ cs

/-- `runs_`. -/
def projectionRuns : List Catalog.ColMeta → List ProjectionRun
  | [] => []
  | c :: cs => extendRun ⟨c.offset, c.len⟩ cs

/-- The columns of the operator below that the projection selects. Columns without a table are those of an aggregation, which
    are taken by their position. -/
def selectedCols (prev : List Catalog.ColMeta) (selCols : List TabCol) : Except Fault (List Catalog.ColMeta) :=
  if prev.head?.any (·.tabName = "") then
    .ok (if selCols = [] then prev else prev.take selCols.length)
  else selCols.mapM (getCol prev)

/-- `ProjectionExecutor`. -/
def projection (prev : Executor) (selCols : List TabCol) : Except Fault Executor :=
  match selectedCols prev.cols selCols with
  | .error e => .error e
  | .ok sel =>
    .ok { prev.toIter.map (Option.map fun rec => (projectionRuns sel).flatMap fun run => (rec.drop run.srcOffset).take run.len) with
      cols := relay 0 sel
      tupleLen := recordSize sel
      ownBuffer := true
      bound := prev.bound
      currentGroupRecords := none
      indexColNames := none }

/-! ### SortExecutor -/

/-- `sorted_tuples`: where the operator below hands out its own buffer, all of them point to what it wrote there last. -/
def collected (ownBuffer : Bool) (tuples : List (Option Bytes)) : List (Option Bytes) :=
  if ownBuffer then
    match (tuples.filterMap id).getLast? with
    | some last => tuples.map (Option.map fun _ => last)
    | none => tuples
  else tuples

/-- A string column without the NUL bytes behind the string. -/
def cString (data : Bytes) (len : Nat) : Bytes := (data.take len).takeWhile (· ≠ 0)

/-- The sign of the comparison of a column in two records. -/
def compareCell (c : Catalog.ColMeta) (a b : Bytes) : Int :=
  let x := a.drop c.offset
  let y := b.drop c.offset
  match c.type with
  | .int => compareInt (readInt x) (readInt y)
  | .float => floatSign (readWord x) (readWord y)
  | .string =>
    if cString x c.len = cString y c.len then 0 else if bytesLt (cString x c.len) (cString y c.len) then -1 else 1

/-- `compare_tuples`. -/
def compareTuples : List (Catalog.ColMeta × Bool) → Bytes → Bytes → Bool
  | [], _, _ => false
  | (c, isDesc) :: keys, a, b =>
    let res := compareCell c a b
    if res ≠ 0 then (if isDesc then 0 < res else res < 0) else compareTuples keys a b

/-- `std::sort` of the tuples: with keys and two tuples or more each is looked into. -/
def sortTuples (stl : Stl) (keys : List (Catalog.ColMeta × Bool)) (tuples : List (Option Bytes)) :
    Except Fault (List (Option Bytes)) :=
  if keys ≠ [] ∧ 2 ≤ tuples.length ∧ none ∈ tuples then .error .nullPointer
  else
    .ok (pick tuples (stl.sort tuples.length fun i j =>
      match tuples[i]?, tuples[j]? with
      | some (some a), some (some b) => compareTuples keys a b
      | _, _ => false))

/-- The cut of LIMIT. -/
def cutTuples (limit : Int) (tuples : List (Option Bytes)) : List (Option Bytes) :=
  if 0 < limit ∧ limit.toNat < tuples.length then tuples.take limit.toNat else tuples

/-- `SortExecutor`. -/
def sortExecutor (stl : Stl) (prev : Executor) (selCols : List TabCol) (isDesc : List Bool) (limit : Int) : Except Fault Executor :=
  match selCols.mapM (getCol prev.cols) with
  | .error e => .error e
  | .ok keys =>
    let it := prev.toIter.buffered (S := Option Bytes) (fun s => do
        let (tuples, s) ← prev.rest .diverged prev.bound s
        let tuples ← sortTuples stl (keys.zip isDesc) (collected prev.ownBuffer tuples)
        .ok (cutTuples limit tuples, s))
      (fun tuple => if tuple.isSome then .ok tuple else .error .nullPointer) none
    .ok { it with
      cols := prev.cols
      tupleLen := prev.tupleLen
      ownBuffer := false
      bound := prev.bound
      currentGroupRecords := none
      indexColNames := none }

end Rmdb.Sql
