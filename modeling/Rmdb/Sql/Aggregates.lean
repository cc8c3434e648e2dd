import Rmdb.Sql.Grouping

/-! The loops of the two functions that compute an aggregate over the records of a group: `compute_agg_for_having`
(`execution/executor_group.h`) and `compute_single_aggregation` (`execution/executor_aggregation_optimized.h`). The results of
both are in `Rmdb.Sql.Grouping`. -/

namespace Rmdb.Sql

namespace Value

/-- `is_null`. -/
def isNull (_ : Value) : Bool := false

/-- `int_val` of an INT. -/
def intVal : Value → Int
  | .int n => n
  | _ => 0

/-- `float_val` of a FLOAT. -/
def floatVal : Value → Nat
  | .float w => w
  | _ => 0

end Value

/-- The loops of SUM, which both functions have. -/
def sumLoop (type : ColType) (vs : List Value) : Value :=
  match type with
  | .int => .int (vs.foldl (fun sum v => if v.isNull then sum else wrapInt (sum + v.intVal)) 0)
  | .float => .float (vs.foldl (fun sum v => if v.isNull then sum else addFloat sum v.floatVal) 0)
  | .string => .int 0

/-- The loop of COUNT over a column. -/
def countLoop (vs : List Value) : Nat := vs.foldl (fun count v => if v.isNull then count else count + 1) 0

/-- A turn of the loop of MIN and MAX for HAVING: `first` and `result`. -/
def havingStep (type : AggType) (s : Bool × Value) (v : Value) : Bool × Value :=
  if v.isNull then s
  else if s.1 then (false, v)
  else if type = .min ∧ v.lt s.2 then (s.1, v)
  else if type = .max ∧ v.gt s.2 then (s.1, v)
  else s

/-- A turn of the loop of MIN and MAX for the select list: `found_valid` and `min_max_val`. -/
def singleStep (type : AggType) (s : Bool × Value) (v : Value) : Bool × Value :=
  if v.isNull then s
  else if !s.1 then (true, v)
  else
    let shouldUpdate := if type = .min then v.lt s.2 else v.gt s.2
    if shouldUpdate then (s.1, v) else s

/-- The value of a column without any valid value. -/
def defaultValue : ColType → Value
  | .int => .int 0
  | .float => .float 0
  | .string => .str []

/-- `compute_agg_for_having`, with its loops. -/
def aggForHavingLoops (cols : List Catalog.ColMeta) (agg : AggExpr) (records : List Bytes) : Except Fault Value :=
  match agg.aggType, agg.arg with
  | .count, _ => .ok (.int (wrapInt records.length))
  | .avg, none => .ok (.float 0)
  | _, none => .ok (.int 0)
  | type, some c => do
    let col ← getColIdx cols c
    let vs := records.map (cellValue col)
    .ok (match type with
      | .sum => sumLoop col.type vs
      | .avg => avgValues vs
      | type => (vs.foldl (havingStep type) (true, .int 0)).2)

/-- `compute_single_aggregation`, with its loops. -/
def singleAggregationLoops (cols : List Catalog.ColMeta) (agg : AggExpr) (records : List Bytes) : Except Fault Value :=
  match agg.aggType, agg.arg with
  | .count, none => .ok (.int (wrapInt records.length))
  | .count, some c => do
    let col ← getColIdx cols c
    .ok (.int (wrapInt (countLoop (records.map (cellValue col)))))
  | .avg, none => .ok (.float 0)
  | _, none => .ok (.int 0)
  | type, some c =>
    if records = [] then .ok (if type = .avg then .float 0 else .int 0)
    else do
      let col ← getColIdx cols c
      let vs := records.map (cellValue col)
      .ok (match type with
        | .sum => sumLoop col.type vs
        | .avg => avgValues vs
        | type =>
          let s := vs.foldl (singleStep type) (false, .int 0)
          if s.1 then s.2 else defaultValue col.type)

end Rmdb.Sql
