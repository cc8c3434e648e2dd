import Rmdb.Exec.Planner
import Rmdb.Sql.Analyze

/-! The plan of a SELECT statement: `Planner::generate_select_plan` and what it calls (`optimizer/planner.cpp`). -/

namespace Rmdb.Sql
open Catalog (DbMeta)

/-! ### The standard library

What the standard leaves to an implementation: hash values, the order in which an `unordered_map` is gone through and
where `std::sort` puts elements that compare equal. -/

/-- A comparison that `std::sort` may be given: a strict weak order. -/
structure StrictWeak {α : Type} (lt : α → α → Bool) : Prop where
  irrefl : ∀ a, lt a a = false
  trans : ∀ a b c, lt a b → lt b c → lt a c
  incomp : ∀ a b c, lt a b = false → lt b a = false → lt b c = false → lt c b = false → lt a c = false

/-- `order hashes` are the positions of the keys with these hash values, in the order of the map that they were put in one
    after the other. `sort n lt` are the positions of `n` elements after `std::sort`. -/
structure Stl where
  hash : String → UInt64
  /-- The hash value of `Value::to_string`. -/
  hashValue : Value → UInt64
  order : List UInt64 → List Nat
  sort : (n : Nat) → (Nat → Nat → Bool) → List Nat
  order_perm : ∀ hashes, (order hashes).Perm (List.range hashes.length)
  sort_perm : ∀ n lt, (sort n lt).Perm (List.range n)
  sort_sorted : ∀ n lt, StrictWeak (fun i j : Fin n => lt i j) → (sort n lt).Pairwise fun i j => lt j i = false

/-- The elements at some positions. -/
def pick {α : Type} (l : List α) (positions : List Nat) : List α := positions.filterMap (l[·]?)

/-! ### Constants that equalities carry over -/

/-- `make_col_key`. -/
def makeColKey (c : TabCol) : String := c.tabName ++ "." ++ c.colName

/-- `key_to_col`, in the order in which its keys were put in. -/
def keyToCol (conds : List Condition) : List (String × TabCol) :=
  conds.foldl (fun m c =>
    let put := fun (m : List (String × TabCol)) (d : TabCol) =>
      if (m.lookup (makeColKey d)).isSome then m.map fun e => if e.1 = makeColKey d then (e.1, d) else e
      else m ++ [(makeColKey d, d)]
    match c.op, c.rhs with
    | .eq, .val _ _ => put m c.lhsCol
    | .eq, .col d => put (put m c.lhsCol) d
    | _, _ => m) []

/-- `adjacency[key]`. -/
def adjacency (conds : List Condition) (key : String) : List String :=
  conds.flatMap fun c =>
    match c.op, c.rhs with
    | .eq, .col d =>
      (if makeColKey c.lhsCol = key then [makeColKey d] else []) ++ (if makeColKey d = key then [makeColKey c.lhsCol] else [])
    | _, _ => []

/-- `constants_by_col[key]`, with the raw bytes of the constants. -/
def constantsByCol (conds : List Condition) (key : String) : List (Value × Bytes) :=
  conds.filterMap fun c =>
    match c.op, c.rhs with
    | .eq, .val v raw => if makeColKey c.lhsCol = key then some (v, raw) else none
    | _, _ => none

/-- The search for the columns that equalities connect with the first of `pending`. Every turn takes one of them. -/
def component (conds : List Condition) : Nat → List String → List String → List String × List String
  | 0, _, visited => ([], visited)
  | _ + 1, [], visited => ([], visited)
  | turns + 1, current :: pending, visited =>
    let (pending, visited) := (adjacency conds current).foldl
      (fun (p : List String × List String) next => if next ∈ p.2 then p else (p.1 ++ [next], p.2 ++ [next])) (pending, visited)
    let (rest, visited) := component conds turns pending visited
    (current :: rest, visited)

/-- `component_constants`. -/
def componentConstants (conds : List Condition) (keys : List String) : List (Value × Bytes) :=
  (keys.flatMap (constantsByCol conds)).foldl (fun vs v => if vs.any fun w => w.1.eq v.1 then vs else vs ++ [v]) []

/-- `same_condition` with `col = value`. -/
def isEqConst (col : TabCol) (v : Value) (c : Condition) : Bool :=
  c.lhsCol = col && c.op = .eq && match c.rhs with
    | .val w _ => w.eq v
    | .col _ => false

/-- `propagate_equality_constants_in_place`. -/
def propagateEqualityConstants (stl : Stl) (conds : List Condition) : List Condition :=
  let keys := keyToCol conds
  let starts := pick keys (stl.order (keys.map fun e => stl.hash e.1))
  let (_, propagated) := starts.foldl (fun (p : List String × List Condition) start =>
    if start.1 ∈ p.1 then p
    else
      let (members, visited) := component conds (keys.length + 1) [start.1] (p.1 ++ [start.1])
      let constants := componentConstants conds members
      let cols := members.filterMap (keys.lookup ·)
      (visited, cols.foldl (fun out col => constants.foldl (fun out v =>
        if conds.any (isEqConst col v.1) || out.any (isEqConst col v.1) then out
        else out ++ [⟨col, .eq, .val v.1 v.2⟩]) out) p.2)) ([], [])
  conds ++ propagated

/-! ### Scans -/

/-- The score of an index in `get_index_cols`. -/
def matchScore (conds : List Condition) : List Catalog.ColMeta → Nat
  | [] => 0
  | c :: cs =>
    if conds.any fun d => d.lhsCol.colName = c.name ∧ d.op = .eq then indexEqWeight + matchScore conds cs
    else if conds.any fun d => d.lhsCol.colName = c.name ∧ d.op ∈ [.lt, .le, .gt, .ge] then indexRangeWeight else 0

/-- `get_index_cols`. -/
def getIndexCols (tab : Catalog.TabMeta) (conds : List Condition) : Option (List String) :=
  let applicable := conds.filter fun c => c.isRhsVal ∧ c.lhsCol.tabName = tab.name
  let indexes := tab.indexes.map fun e => e.2.cols
  match (optimizeTpccIndexSelection tab.name (applicable.map (·.lhsCol.colName))).filter
      (fun names => indexes.any fun index => index.map (·.name) = names) with
  | some names => some names
  | none =>
    if applicable = [] then none
    else
      let best := indexes.foldl (fun (best : Nat × List String) index =>
        let score := matchScore applicable index
        let names := index.map (·.name)
        if best.1 < score then (score, names)
        else if score = best.1 ∧ isTpccRecommendedIndex tab.name names then (score + indexTpccBonus, names)
        else best) (0, [])
      if 0 < best.1 then some best.2 else none

/-- The conditions that `pop_conds` takes for a table: those with a constant on its columns, and all that compare two columns
    of one table, of whichever. -/
def isPopped (tab : String) (c : Condition) : Bool :=
  (tab = c.lhsCol.tabName && c.isRhsVal) || c.lhsCol.tabName = c.rhsTab

/-- `pop_conds`: the conditions that it returns, and those that it leaves. -/
def popConds (tab : String) (conds : List Condition) : List Condition × List Condition :=
  (conds.filter (isPopped tab), conds.filter fun c => !isPopped tab c)

/-- `pop_conds` for one table after the other: the conditions of each, and those that are left. -/
def popAll : List String → List Condition → List (String × List Condition) × List Condition
  | [], conds => ([], conds)
  | tab :: tabs, conds =>
    let (popped, conds) := popConds tab conds
    let (scans, rest) := popAll tabs conds
    ((tab, popped) :: scans, rest)

/-- `ScanPlan`, with the columns of the index for `T_IndexScan`, and the other plans. `null` is a null pointer. -/
inductive Plan where
  | null
  | scan (index : Option (List String)) (tabName : String) (conds : List Condition) (projectionCol : List TabCol)
  | join (left right : Plan) (conds : List Condition)
  | sort (subplan : Plan) (selCols : List TabCol) (isDesc : List Bool) (limit : Int)
  | group (input : Plan) (groupBy : List ColItem) (having : Option Having)
  | agg (input : Plan) (selectExprs : List ColItem)
  | projection (subplan : Plan) (selCols : List TabCol)
deriving DecidableEq, Repr

/-- `col_usage_[tab]`: the columns of a table in the select list, in GROUP BY and in conditions that compare two columns. -/
def colUsage (q : Query) (tab : String) : List TabCol :=
  (q.cols.filter (·.colName ≠ "*") ++ q.groupBy.filterMap (·.col?) ++ q.conds.flatMap fun c =>
    match c.rhs with
    | .val _ _ => []
    | .col d => [c.lhsCol, d]).filter (·.tabName = tab)

/-- The scans of the tables, and the conditions that are left. -/
def makeScans (db : DbMeta) (usage : String → List TabCol) :
    List String → List Condition → Except Fault (List (String × Plan) × List Condition)
  | [], conds => .ok ([], conds)
  | tab :: tabs, conds => do
    let popped := conds.filter (isPopped tab)
    let tabMeta ← getTable db tab
    let (scans, conds) ← makeScans db usage tabs (conds.filter fun c => !isPopped tab c)
    .ok ((tab, .scan (getIndexCols tabMeta popped) tab popped (usage tab)) :: scans, conds)

/-! ### Joins -/

/-- The two columns of a condition change places. -/
def swapCond (c : Condition) : Condition :=
  match c.rhs with
  | .val _ _ => c
  | .col d => ⟨d, swapOp c.op, .col c.lhsCol⟩

/-- `push_conds`, with the plan that it leaves. -/
def pushConds (c : Condition) : Plan → Nat × Plan
  | .scan index tab conds proj =>
    (if tab = c.lhsCol.tabName then 1 else if tab = c.rhsTab then 2 else 0, .scan index tab conds proj)
  | .join left right conds =>
    let l := pushConds c left
    if l.1 = 3 then (3, .join l.2 right conds)
    else
      let r := pushConds c right
      if r.1 = 3 then (3, .join left r.2 conds)
      else if l.1 = 0 ∨ r.1 = 0 then (l.1 + r.1, .join left right conds)
      else (3, .join left right (conds ++ [if l.1 = 2 then swapCond c else c]))
  | p => (0, p)

/-- The join so far, the scans that are in it (`scantbl`) and their tables (`joined_tables`). -/
structure JoinState where
  plan : Plan
  scantbl : List Bool
  joinedTables : List String

/-- `pop_scan`. -/
def popScan (scans : List (String × Plan)) (table : String) (s : JoinState) : Option Plan × JoinState :=
  match scans.findIdx? (·.1 = table) with
  | none => (none, s)
  | some i => (scans[i]?.map (·.2), { s with scantbl := s.scantbl.set i true, joinedTables := s.joinedTables ++ [table] })

/-- The first condition makes the first join. -/
def firstJoin (scans : List (String × Plan)) (s : JoinState) (c : Condition) : JoinState :=
  let (left, s) := popScan scans c.lhsCol.tabName s
  let (right, s) := popScan scans c.rhsTab s
  { s with plan := .join (left.getD .null) (right.getD .null) [c] }

/-- Every other condition joins its tables that are not in the join yet, or is pushed down to a join. -/
def nextJoin (scans : List (String × Plan)) (s : JoinState) (c : Condition) : JoinState :=
  let (left, s) := if c.lhsCol.tabName ∈ s.joinedTables then (none, s) else popScan scans c.lhsCol.tabName s
  let isneedreverse := c.rhsTab ∉ s.joinedTables
  let (right, s) := if isneedreverse then popScan scans c.rhsTab s else (none, s)
  match left, right with
  | some left, some right => { s with plan := .join (.join left right [c]) s.plan [] }
  | none, none => { s with plan := (pushConds c s.plan).2 }
  | left, right =>
    if isneedreverse then { s with plan := .join (right.getD .null) s.plan [swapCond c] }
    else { s with plan := .join (left.getD .null) s.plan [c] }

/-- The scans that no condition joins are joined at the end. -/
def joinRest (plan : Plan) : List (String × Plan) → List Bool → Plan
  | scan :: scans, joined :: scantbl => joinRest (if joined then plan else .join scan.2 plan []) scans scantbl
  | _, _ => plan

/-- `make_one_rel`. `joinEnabled`: one of `enable_nestedloop_join` and `enable_sortmerge_join` is set. -/
def makeOneRel (db : DbMeta) (joinEnabled : Bool) (q : Query) : Except Fault Plan := do
  let (scans, conds) ← makeScans db (colUsage q) q.tables q.conds
  let start : JoinState := ⟨.join .null .null [], scans.map fun _ => false, scans.map fun _ => ""⟩
  match conds with
  | [] => .ok (joinRest ((scans.head?.map (·.2)).getD .null) scans (start.scantbl.set 0 true))
  | c :: conds =>
    if joinEnabled then
      let s := conds.foldl (nextJoin scans) (firstJoin scans start c)
      .ok (joinRest s.plan scans s.scantbl)
    else .error (.internalError "No join executor selected!")

/-! ### The whole plan -/

/-- `generate_sort_plan`. A column that is not found leaves the empty name. -/
def generateSortPlan (db : DbMeta) (q : Query) (plan : Plan) : Except Fault Plan :=
  if q.hasSort then do
    let allCols ← getAllCols db q.tables
    let selCols := q.order.map fun o =>
      match allCols.find? (isNamed o.col) with
      | some c => ⟨c.tabName, c.name⟩
      | none => ⟨"", ""⟩
    .ok (.sort plan selCols (q.order.map (·.isDesc)) q.limit)
  else .ok plan

/-- `need_agg_plan`. -/
def needAggPlan (q : Query) : Bool := q.groupBy ≠ [] || q.selectExprs.any (·.isAgg)

/-- `generate_select_plan`. -/
def generateSelectPlan (stl : Stl) (db : DbMeta) (joinEnabled : Bool) (q : Query) : Except Fault Plan := do
  let q := { q with conds := propagateEqualityConstants stl q.conds }
  let basePlan ← makeOneRel db joinEnabled q
  let basePlan ← generateSortPlan db q basePlan
  if needAggPlan q then
    let plan := if q.groupBy ≠ [] ∨ q.having.isSome then Plan.group basePlan q.groupBy q.having else basePlan
    .ok (.projection (.agg plan q.selectExprs) q.cols)
  else .ok (.projection basePlan q.cols)

end Rmdb.Sql
