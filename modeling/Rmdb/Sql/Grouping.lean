import Rmdb.Sql.Executor

/-! Grouping and aggregation: `GroupExecutor` (`execution/executor_group.h`) and `OptimizedAggregationExecutor`
(`execution/executor_aggregation_optimized.h`). -/

namespace Rmdb.Sql

/-- `get_col_idx`: a missing table name matches any table. -/
def getColIdx (cols : List Catalog.ColMeta) (c : TabCol) : Except Fault Catalog.ColMeta :=
  match cols.find? (isNamed c) with
  | some col => .ok col
  | none => .error (.runtimeError ("Column not found: " ++ c.colName))

/-- The value of a column in a record. -/
def cellValue (col : Catalog.ColMeta) (rec : Bytes) : Value := .fromRaw (rec.drop col.offset) col.type col.len

/-! ### Sums -/

/-- `+` of two floats. -/
def addFloat (a b : Nat) : Nat := (Float32.ofBits a.toUInt32 + Float32.ofBits b.toUInt32).toBits.toNat

/-- `/` of two floats. -/
def divFloat (a b : Nat) : Nat := (Float32.ofBits a.toUInt32 / Float32.ofBits b.toUInt32).toBits.toNat

/-- A number as a `double`. -/
def Value.toDouble : Value → Float
  | .int n => .ofInt n
  | .float w => (Float32.ofBits w.toUInt32).toFloat
  | .str _ => 0

/-- The sum of a column: that of an INT column is an `int`, that of a FLOAT column a `float`, and there is no other. -/
def sumValues (type : ColType) (vs : List Value) : Value :=
  match type with
  | .int => .int (vs.foldl (fun sum v => match v with
      | .int n => wrapInt (sum + n)
      | _ => sum) 0)
  | .float => .float (vs.foldl (fun sum v => match v with
      | .float w => addFloat sum w
      | _ => sum) 0)
  | .string => .int 0

/-- The average of a column, computed as a `double`. -/
def avgValues (vs : List Value) : Value :=
  if vs = [] then .float 0
  else .float ((vs.foldl (fun sum v => sum + v.toDouble) 0) / Float.ofNat vs.length).toFloat32.toBits.toNat

/-- The least or the greatest value of a column: the first one that none behind it replaces. -/
def extremum (type : AggType) : List Value → Option Value
  | [] => none
  | v :: vs => some (vs.foldl (fun best w => if (if type = .min then w.lt best else w.gt best) then w else best) v)

/-! ### GroupExecutor -/

/-- `GroupData`. -/
structure GroupData where
  records : List Bytes
  representative : Option Bytes

/-- `GroupKeyHash`. -/
def groupKeyHash (stl : Stl) (key : List Value) : UInt64 :=
  key.foldl (fun hash v => hash ^^^ (stl.hashValue v + 0x9e3779b9 + (hash <<< (6 : UInt64)) + (hash >>> (2 : UInt64)))) 0

/-- Two keys are one key of the map: they have one hash value and are equal. -/
def sameKey (stl : Stl) (a b : List Value) : Bool :=
  groupKeyHash stl a = groupKeyHash stl b && a.length = b.length && (a.zip b).all fun p => p.1.eq p.2

/-- `groups_`, in the order in which its keys were put in. -/
abbrev Groups := List (List Value × GroupData)

/-- `groups_[key]`, changed by `f`; a key that is not there is put in first. -/
def Groups.update (stl : Stl) (key : List Value) (f : GroupData → GroupData) : Groups → Groups
  | [] => [(key, f ⟨[], none⟩)]
  | (k, g) :: rest => if sameKey stl k key then (k, f g) :: rest else (k, g) :: Groups.update stl key f rest

/-- The order in which an iterator goes through the map. -/
def Groups.inOrder (stl : Stl) (groups : Groups) : Groups := pick groups (stl.order (groups.map fun e => groupKeyHash stl e.1))

/-- `extract_group_key`. Expressions that are no columns are left out. -/
def extractGroupKey (cols : List Catalog.ColMeta) (groupBy : List ColItem) (rec : Option Bytes) : Except Fault (List Value) :=
  if groupBy = [] then .ok [.int 1]
  else (groupBy.filterMap (·.col?)).mapM fun c => do
    let col ← getColIdx cols c
    match rec with
    | some rec => .ok (cellValue col rec)
    | none => .error .nullPointer

/-- A record is put into its group. -/
def addRecord (stl : Stl) (cols : List Catalog.ColMeta) (groupBy : List ColItem) (groups : Groups) (rec : Option Bytes) :
    Except Fault Groups := do
  let key ← extractGroupKey cols groupBy rec
  match rec with
  | none => .error .nullPointer
  | some rec =>
    let groups :=
      if groups.any fun e => sameKey stl e.1 key then groups
      else (groups.update stl key fun _ => ⟨[], none⟩).update stl key fun g => { g with representative := some rec }
    .ok (groups.update stl key fun g => { g with records := g.records ++ [rec] })

/-- `compute_agg_for_having`. -/
def computeAggForHaving (cols : List Catalog.ColMeta) (agg : AggExpr) (g : GroupData) : Except Fault Value :=
  match agg.aggType, agg.arg with
  | .count, _ => .ok (.int (wrapInt g.records.length))
  | .avg, none => .ok (.float 0)
  | _, none => .ok (.int 0)
  | type, some c => do
    let col ← getColIdx cols c
    let vs := g.records.map (cellValue col)
    .ok (match type with
      | .sum => sumValues col.type vs
      | .avg => avgValues vs
      | type => (extremum type vs).getD (.int 0))

/-- `evaluate_having_value`. -/
def evaluateHavingValue (cols : List Catalog.ColMeta) (g : GroupData) : Operand → Except Fault Value
  | .agg a => computeAggForHaving cols a g
  | .val (.int n) => .ok (.int n)
  | .val (.float w) => .ok (.float w)
  | .val (.str s) => .ok (.str s)
  | .val (.bool _) => .ok (.int 0)
  | .col c =>
    match g.representative with
    | none => .ok (.int 0)
    | some rec => do
      let col ← getColIdx cols c
      .ok (cellValue col rec)

/-- The comparison of two values in a HAVING clause: numbers of different types are compared as floats. -/
def compareHaving (op : CompOp) (a b : Value) : Bool :=
  if a.type ≠ b.type ∧ ¬(isNumericType a.type ∧ isNumericType b.type) then false
  else
    let a := if a.type ≠ b.type then Value.float a.numericBits else a
    let b := if a.type ≠ b.type then Value.float b.numericBits else b
    match op with
    | .eq => a.eq b
    | .ne => !a.eq b
    | .lt => a.lt b
    | .le => a.le b
    | .gt => a.gt b
    | .ge => a.ge b

/-- `evaluate_having_expr`. Both sides of AND and OR are evaluated. -/
def evaluateHavingExpr (cols : List Catalog.ColMeta) (g : GroupData) : Having → Except Fault Bool
  | .compare lhs op rhs => do
    let a ← evaluateHavingValue cols g lhs
    let b ← evaluateHavingValue cols g rhs
    .ok (compareHaving op a b)
  | .logical lhs op rhs => do
    let a ← evaluateHavingExpr cols g lhs
    let b ← evaluateHavingExpr cols g rhs
    .ok (match op with
      | .and => a && b
      | .or => a || b)

/-- `filter_groups_by_having`. -/
def filterGroups (cols : List Catalog.ColMeta) (having : Option Having) : Groups → Except Fault Groups
  | [] => .ok []
  | e :: rest => do
    let keep ← match having with
      | none => Except.ok true
      | some h => evaluateHavingExpr cols e.2 h
    let rest ← filterGroups cols having rest
    .ok (if keep then e :: rest else rest)

/-- The groups of `beginTuple`, in their order, from those that the records make. -/
def finishGroups (stl : Stl) (cols : List Catalog.ColMeta) (groupBy : List ColItem) (having : Option Having) (groups : Groups) :
    Except Fault (List GroupData) := do
  let groups : Groups := if groupBy = [] ∧ groups = [] then [([.int 1], ⟨[], none⟩)] else groups
  let groups ← filterGroups cols having (groups.inOrder stl)
  .ok (groups.map (·.2))

/-- `GroupExecutor`. -/
def groupExecutor (stl : Stl) (child : Executor) (groupBy : List ColItem) (having : Option Having) : Executor :=
  { child.toIter.buffered (fun s => do
      let (groups, s) ← child.fold (addRecord stl child.cols groupBy) .diverged child.bound [] s
      let groups ← finishGroups stl child.cols groupBy having groups
      .ok (groups, s))
      (fun g => if g.representative.isSome then .ok g.representative else .error .nullPointer) none with
    cols := child.cols
    tupleLen := child.tupleLen
    ownBuffer := false
    bound := 3 * child.bound + 1
    currentGroupRecords := some fun p => (p.2.head?.map (·.records)).getD []
    indexColNames := none }

/-! ### OptimizedAggregationExecutor -/

/-- `compute_single_aggregation`. -/
def computeSingleAggregation (cols : List Catalog.ColMeta) (agg : AggExpr) (records : List Bytes) : Except Fault Value :=
  match agg.aggType, agg.arg with
  | .count, none => .ok (.int (wrapInt records.length))
  | .count, some c => do
    let _ ← getColIdx cols c
    .ok (.int (wrapInt records.length))
  | .avg, none => .ok (.float 0)
  | _, none => .ok (.int 0)
  | type, some c =>
    if records = [] then .ok (if type = .avg then .float 0 else .int 0)
    else do
      let col ← getColIdx cols c
      let vs := records.map (cellValue col)
      .ok (match type with
        | .sum => sumValues col.type vs
        | .avg => avgValues vs
        | type => (extremum type vs).getD (.int 0))

/-- `compute_aggregation_for_group`: the values of the result row of a group. -/
def computeAggregationForGroup (cols : List Catalog.ColMeta) (selectExprs : List ColItem) (records : List Bytes) :
    Except Fault (List Value) :=
  selectExprs.mapM fun e =>
    match e.expr, records with
    | .agg a, records => computeSingleAggregation cols a records
    | .col _, [] => .ok (.int 0)
    | .col c, rec :: _ => do
      let col ← getColIdx cols c
      .ok (cellValue col rec)

/-- The state of an aggregate over the records so far: `counts`, `int_sums`, `float_sums`, and `min_vals` or `max_vals` once
    there was a record (`first_record`). -/
structure AggState where
  count : Nat
  intSum : Int
  floatSum : Nat
  best : Option Value

/-- `is_null_direct`. -/
def isNullDirect (data : Bytes) (type : ColType) (len : Nat) : Bool := type = .string && 0 < len && data.head? = some 0

/-- `update_streaming_agg_state` for one item of the select list. -/
def updateAggState (cols : List Catalog.ColMeta) (rec : Option Bytes) (e : ColItem) (s : AggState) : Except Fault AggState :=
  match e.expr with
  | .col _ => .ok s
  | .agg a =>
    match a.arg with
    | none => .ok (if a.aggType = .count then { s with count := s.count + 1 } else s)
    | some c => do
      let col ← getColIdx cols c
      match rec with
      | none => .error .nullPointer
      | some rec =>
        let data := rec.drop col.offset
        if isNullDirect data col.type col.len then .ok s
        else
          let v := cellValue col rec
          .ok (match a.aggType with
            | .count => { s with count := s.count + 1 }
            | .sum | .avg =>
              match v with
              | .int n => { s with count := s.count + 1, intSum := wrapInt (s.intSum + n) }
              | .float w => { s with count := s.count + 1, floatSum := addFloat s.floatSum w }
              | .str _ => { s with count := s.count + 1 }
            | type =>
              match s.best with
              | none => { s with best := some v }
              | some w => if (if type = .min then v.lt w else w.lt v) then { s with best := some v } else s)

/-- `compute_final_results` for one item. -/
def finalValue (cols : List Catalog.ColMeta) (e : ColItem) (s : AggState) : Except Fault Value :=
  match e.expr with
  | .col _ => .ok (.int 0)
  | .agg a =>
    match a.aggType, a.arg with
    | .count, _ => .ok (.int (wrapInt s.count))
    | .sum, some c => do
      let col ← getColIdx cols c
      .ok (match col.type with
        | .int => .int s.intSum
        | .float => .float s.floatSum
        | .string => .int 0)
    | .avg, some c => do
      let col ← getColIdx cols c
      .ok (match col.type with
        | .int => .float (if 0 < s.count then divFloat (floatBits s.intSum) (floatBits s.count) else 0)
        | .float => .float (if 0 < s.count then divFloat s.floatSum (floatBits s.count) else 0)
        | .string => .int 0)
    | .sum, none | .avg, none => .ok (.int 0)
    | _, _ => .ok (s.best.getD (.int 0))

/-- `update_streaming_agg_state`. -/
def updateAggStates (cols : List Catalog.ColMeta) (selectExprs : List ColItem) (p : List AggState × Bool) (rec : Option Bytes) :
    Except Fault (List AggState × Bool) := do
  let states ← (selectExprs.zip p.1).mapM fun q => updateAggState cols rec q.1 q.2
  .ok (states, true)

/-- The one aggregate that the select list consists of. -/
def singleAgg (selectExprs : List ColItem) : Option AggExpr :=
  match selectExprs with
  | [e] =>
    match e.expr with
    | .agg a => some a
    | .col _ => none
  | _ => none

section Aggregation
variable (child : Executor)

/-- `compute_single_count_aggregation`. -/
def singleCount (agg : AggExpr) (s : child.State) : Except Fault (List (List Value) × child.State) :=
  match agg.arg with
  | none => do
    let (n, s) ← child.count .diverged child.bound s
    .ok ([[.int (wrapInt n)]], s)
  | some c => do
    let col ← getColIdx child.cols c
    let (n, s) ← child.fold (fun (n : Nat) rec =>
      match rec with
      | none => .error .nullPointer
      | some rec => .ok (if isNullDirect (rec.drop col.offset) col.type col.len then n else n + 1)) .diverged child.bound 0 s
    .ok ([[.int (wrapInt n)]], s)

/-- The value that `try_index_min_max_optimization` takes from a record. -/
def indexValue (c : TabCol) (rec : Option Bytes) : Except Fault Value := do
  let col ← getColIdx child.cols c
  match rec with
  | none => .error .nullPointer
  | some rec => .ok (cellValue col rec)

/-- `try_index_min_max_optimization`: over an index whose last column is the argument, the first record has the least value
    and the last one the greatest. -/
def tryIndexMinMax (agg : AggExpr) (s : child.State) : Except Fault (Option Value × child.State) :=
  match agg.arg, child.indexColNames with
  | some c, some names =>
    if names.getLast? = some c.colName then
      if agg.aggType = .min then
        if child.isEnd s then .ok (none, s)
        else do
          let rec ← child.read s
          let v ← indexValue child c rec
          .ok (some v, s)
      else
        child.fold (fun _ rec => do
          let v ← indexValue child c rec
          .ok (some v)) .diverged child.bound none s
    else .ok (none, s)
  | _, _ => .ok (none, s)

/-- The streaming part of `compute_streaming_aggregation`: no row without records, unless something is counted. -/
def streamAggregation (selectExprs : List ColItem) (s : child.State) : Except Fault (List (List Value) × child.State) := do
  let (p, s) ← child.fold (updateAggStates child.cols selectExprs) .diverged child.bound
    (selectExprs.map fun _ => ⟨0, 0, 0, none⟩, false) s
  let counts := selectExprs.any fun e => match e.expr with
    | .agg a => a.aggType = .count
    | .col _ => false
  if !p.2 && !counts then .ok ([], s)
  else do
    let row ← (selectExprs.zip p.1).mapM fun q => finalValue child.cols q.1 q.2
    .ok (if row = [] then [] else [row], s)

/-- `compute_streaming_aggregation`. -/
def computeStreamingAggregation (selectExprs : List ColItem) (s : child.State) :
    Except Fault (List (List Value) × child.State) :=
  match singleAgg selectExprs with
  | none => streamAggregation child selectExprs s
  | some agg =>
    if agg.aggType = .count then singleCount child agg s
    else if agg.aggType = .min ∨ agg.aggType = .max then do
      let (v, s) ← tryIndexMinMax child agg s
      match v with
      | some v => .ok ([[v]], s)
      | none => streamAggregation child selectExprs s
    else streamAggregation child selectExprs s

/-- `beginTuple` of the aggregation: a row for each group of a `GroupExecutor`, else one over all records. -/
def aggregate (selectExprs : List ColItem) (s : child.State) : Except Fault (List (List Value) × child.State) :=
  match child.currentGroupRecords with
  | some records =>
    (child.view fun s => .ok (records s)).fold (fun rows recs => do
      let row ← computeAggregationForGroup child.cols selectExprs recs
      .ok (rows ++ [row])) .diverged child.bound [] s
  | none => computeStreamingAggregation child selectExprs s

end Aggregation

/-- `get_agg_result_type`. -/
def getAggResultType (cols : List Catalog.ColMeta) (agg : AggExpr) : Except Fault ColType :=
  match agg.aggType, agg.arg with
  | .count, _ => .ok .int
  | .avg, _ => .ok .float
  | _, none => .ok .int
  | _, some c => do
    let col ← getColIdx cols c
    .ok col.type

/-- The name of an aggregate in the output. -/
def aggOutputName : AggType → String
  | .count => "COUNT(*)"
  | .sum => "SUM"
  | .avg => "AVG"
  | .min => "MIN"
  | .max => "MAX"

/-- `build_output_columns`, from item `i` and an offset on. -/
def buildOutputColumns (cols : List Catalog.ColMeta) : Nat → Nat → List ColItem → Except Fault (List Catalog.ColMeta)
  | _, _, [] => .ok []
  | i, off, e :: es => do
    let unnamed := "col_" ++ toString i
    let given := e.aliasName.getD unnamed
    let col : Catalog.ColMeta ← match e.expr with
      | .agg a => do
        let type ← getAggResultType cols a
        Except.ok ⟨"", if given = unnamed then aggOutputName a.aggType else given, type, 4, off, false⟩
      | .col c => do
        let col ← getColIdx cols c
        .ok ⟨"", if given = unnamed then c.colName else given, col.type, col.len, off, false⟩
    let rest ← buildOutputColumns cols (i + 1) (off + col.len) es
    .ok (col :: rest)

/-- The bytes of a value in a column of the output. -/
def valueBytes (col : Catalog.ColMeta) (v : Value) : Bytes :=
  let data := match v with
    | .int n => putInt n
    | .float w => putWord w
    | .str s => s
  data.take col.len ++ List.replicate (col.len - data.length) 0

/-- `OptimizedAggregationExecutor`. -/
def aggregationExecutor (child : Executor) (selectExprs : List ColItem) : Except Fault Executor :=
  match buildOutputColumns child.cols 0 0 selectExprs with
  | .error e => .error e
  | .ok cols =>
    .ok { child.toIter.buffered (aggregate child selectExprs)
        (fun row => .ok (some ((cols.zip row).flatMap fun p => valueBytes p.1 p.2))) none with
      cols := cols
      tupleLen := recordSize cols
      ownBuffer := false
      bound := child.bound + 1
      currentGroupRecords := none
      indexColNames := none }

end Rmdb.Sql
