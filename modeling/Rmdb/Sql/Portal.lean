import Rmdb.Sql.Grouping

/-! From a plan to the rows of a SELECT statement: `Portal::convert_plan_executor` (`portal.h`) and `QlManager::select_from`
(`execution/execution_manager.cpp`). -/

namespace Rmdb.Sql
variable (stl : Stl) (db : Db)

/-- `convert_plan_executor`. A null pointer in a plan is used by the operator above it. -/
def convertPlanExecutor : Plan → Except Fault Executor
  | .null => .error .nullPointer
  | .scan index tabName conds projectionCol =>
    match db.table? tabName, index with
    | none, _ => .error (.tableNotFound tabName)
    | some t, none => .ok (seqScan db t conds projectionCol)
    | some t, some cols =>
      match checkIndexScan t conds cols with
      | .error e => .error e
      | .ok _ => .ok (indexScan db t conds cols projectionCol)
  | .join left right conds =>
    match convertPlanExecutor left, convertPlanExecutor right with
    | .error e, _ => .error e
    | _, .error e => .error e
    | .ok l, .ok r => .ok (nestedLoopJoin l r conds)
  | .sort subplan selCols isDesc limit =>
    match convertPlanExecutor subplan with
    | .error e => .error e
    | .ok prev => sortExecutor stl prev selCols isDesc limit
  | .group input groupBy having =>
    match convertPlanExecutor input with
    | .error e => .error e
    | .ok child => .ok (groupExecutor stl child groupBy having)
  | .agg input selectExprs =>
    match convertPlanExecutor input with
    | .error e => .error e
    | .ok child => aggregationExecutor child selectExprs
  | .projection subplan selCols =>
    match convertPlanExecutor subplan with
    | .error e => .error e
    | .ok prev => projection prev selCols

/-- `select_from`: the records that are printed. Each is looked into. -/
def selectFrom (root : Executor) : Except Fault (List Bytes) := do
  let s ← root.start root.init
  let (rows, _) ← root.fold (fun rows rec =>
    match rec with
    | none => .error .nullPointer
    | some rec => .ok (rows ++ [rec])) .diverged root.bound [] s
  .ok rows

/-- The rows of a plan. -/
def runPlan (plan : Plan) : Except Fault (List Bytes) :=
  match convertPlanExecutor stl db plan with
  | .error e => .error e
  | .ok root => selectFrom root

/-- The rows of an analysed SELECT statement. -/
def runQuery (joinEnabled : Bool) (q : Query) : Except Fault (List Bytes) := do
  let plan ← generateSelectPlan stl db.catalog joinEnabled q
  runPlan stl db plan

end Rmdb.Sql
