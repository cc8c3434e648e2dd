import Rmdb.Sql.Ast

/-! Semantic analysis of a SELECT statement: `Analyze::do_analyze` (`analyze/analyze.cpp`).

A right side of a condition that is neither a constant nor a column leaves `is_rhs_val` unset; `unset` is what the
variable holds then. -/

namespace Rmdb.Sql
open Catalog (DbMeta)

/-- What `do_analyze` makes of a SELECT statement; `hasSort` is that of `parse`. -/
structure Query where
  tables : List String
  cols : List TabCol
  conds : List Condition
  selectExprs : List ColItem
  groupBy : List ColItem
  having : Option Having
  order : List OrderBy
  limit : Int
  hasSort : Bool
deriving DecidableEq, Repr

/-- `DbMeta::get_table`. -/
def getTable (db : DbMeta) (name : String) : Except Fault Catalog.TabMeta :=
  match db.tab? name with
  | some tab => .ok tab
  | none => .error (.tableNotFound name)

/-- `TabMeta::get_col`. -/
def getTabCol (tab : Catalog.TabMeta) (name : String) : Except Fault Catalog.ColMeta :=
  match tab.cols.find? (·.name = name) with
  | some col => .ok col
  | none => .error (.columnNotFound name)

/-! ### Tables and aliases -/

/-- `extract_table_names`. -/
def extractTableNames : TableTree → List String
  | .ref name _ => [name]
  | .join left right _ _ => extractTableNames left ++ extractTableNames right

/-- `extract_table_aliases`, with `alias_to_table`. -/
def extractTableAliases : TableTree → List (String × String) → Except Fault (List (String × String))
  | .ref name a, m =>
    if a = "" then .ok m
    else if (m.lookup a).isSome then .error (.internalError ("Duplicate table alias: " ++ a))
    else .ok (m ++ [(a, name)])
  | .join left right _ _, m => do
    let m ← extractTableAliases left m
    extractTableAliases right m

/-- `extract_join_conds`. -/
def extractJoinConds : TableTree → List BinaryExpr
  | .ref _ _ => []
  | .join left right conds _ => conds ++ extractJoinConds left ++ extractJoinConds right

section Aliases
variable (m : List (String × String))

/-- `resolve_table_alias_name`. -/
def resolveTableAliasName (name : String) : String := if name = "" then name else (m.lookup name).getD name

def resolveCol (c : TabCol) : TabCol := { c with tabName := resolveTableAliasName m c.tabName }

def resolveAgg (a : AggExpr) : AggExpr := { a with arg := a.arg.map (resolveCol m) }

/-- `resolve_aliases_in_expr` on an item of a select list or a GROUP BY clause. -/
def resolveItem (e : ColItem) : ColItem :=
  { e with expr := match e.expr with
      | .col c => .col (resolveCol m c)
      | .agg a => .agg (resolveAgg m a) }

def resolveOperand : Operand → Operand
  | .agg a => .agg (resolveAgg m a)
  | .val l => .val l
  | .col c => .col (resolveCol m c)

/-- `resolve_aliases_in_expr` on a HAVING clause. -/
def resolveHaving : Having → Having
  | .compare lhs op rhs => .compare (resolveOperand m lhs) op (resolveOperand m rhs)
  | .logical lhs op rhs => .logical (resolveHaving lhs) op (resolveHaving rhs)

/-- One condition of `resolve_aliases_in_binary_exprs`. -/
def resolveBinaryExpr (e : BinaryExpr) : BinaryExpr :=
  ⟨resolveCol m e.lhs, e.op, match e.rhs with
    | .col c => .col (resolveCol m c)
    | rhs => rhs⟩

end Aliases

/-! ### Columns -/

/-- The loop of `check_column` that infers the table of a column; `tab` is the one found so far. -/
def inferTable (col : String) : List Catalog.ColMeta → String → Except Fault String
  | [], tab => .ok tab
  | c :: cs, tab =>
    if c.name = col then if tab ≠ "" then .error (.ambiguousColumn col) else inferTable col cs c.tabName
    else inferTable col cs tab

/-- `check_column`. -/
def checkColumn (allCols : List Catalog.ColMeta) (target : TabCol) : Except Fault TabCol :=
  if target.tabName = "" then do
    let tab ← inferTable target.colName allCols ""
    if tab = "" then .error (.columnNotFound target.colName) else .ok ⟨tab, target.colName⟩
  else if allCols.any fun c => c.tabName = target.tabName ∧ c.name = target.colName then .ok target
  else .error (.columnNotFound (target.tabName ++ "." ++ target.colName))

/-- `get_all_cols`. -/
def getAllCols (db : DbMeta) (tabNames : List String) : Except Fault (List Catalog.ColMeta) := do
  let tabs ← tabNames.mapM (getTable db)
  .ok (tabs.flatMap (·.cols))

/-- Two column names in different clauses mean the same column; a missing table name matches any. -/
def namesMatch (a b : TabCol) : Bool :=
  if a.tabName = "" ∨ b.tabName = "" then a.colName = b.colName else a.tabName = b.tabName ∧ a.colName = b.colName

/-- The column of `all_cols` has this name. -/
def isNamed (c : TabCol) (col : Catalog.ColMeta) : Bool := col.name = c.colName ∧ (c.tabName = "" ∨ col.tabName = c.tabName)

/-- A column as messages spell it. -/
def fullName (c : TabCol) : String := if c.tabName = "" then c.colName else c.tabName ++ "." ++ c.colName

/-! ### The select list -/

/-- The name of an aggregate without alias. -/
def aggName (a : AggExpr) : String :=
  let name := match a.aggType with
    | .count => "COUNT"
    | .sum => "SUM"
    | .avg => "AVG"
    | .min => "MIN"
    | .max => "MAX"
  match a.arg with
  | some c => name ++ "(" ++ c.colName ++ ")"
  | none => if a.aggType = .count then "COUNT(*)" else name

/-- The entry of `query->cols` for an item of the select list. -/
def selCol (e : ColItem) : TabCol :=
  match e.aliasName, e.expr with
  | some name, _ => ⟨"", name⟩
  | none, .col c => c
  | none, .agg a => ⟨"", aggName a⟩

def ColItem.isAgg (e : ColItem) : Bool :=
  match e.expr with
  | .agg _ => true
  | .col _ => false

/-- The loop over `query->cols` that gives them their tables. In a query with aggregates only the grouping columns are
    checked, or the columns of the tables where there is no GROUP BY. -/
def checkSelCol (allCols : List Catalog.ColMeta) (groupBy : List ColItem) (hasAggregation : Bool) (c : TabCol) :
    Except Fault TabCol :=
  if hasAggregation then
    let isTableCol :=
      if groupBy ≠ [] then groupBy.any fun g => g.col?.any fun d => d.colName = c.colName
      else allCols.any fun d => d.name = c.colName
    if isTableCol then checkColumn allCols c else .ok c
  else checkColumn allCols c

/-- `check_agg_expr`. -/
def checkAggExpr (allCols : List Catalog.ColMeta) (e : ColItem) : Except Fault Unit :=
  match e.expr with
  | .col _ => .ok ()
  | .agg a =>
    match a.arg with
    | none => if a.aggType = .count then .ok () else .error (.internalError "聚合函数参数必须是列")
    | some c =>
      match allCols.find? (isNamed c) with
      | none => .error (.columnNotFound (c.tabName ++ "." ++ c.colName))
      | some col =>
        if a.aggType = .count ∨ col.type = .int ∨ col.type = .float then .ok ()
        else .error (.incompatibleType (coltype2str col.type) "int/float")

/-- `check_group_by_semantics` for an item of the select list. -/
def checkGroupBySemantics (groupBy : List ColItem) (e : ColItem) : Except Fault Unit :=
  match e.expr with
  | .agg _ => .ok ()
  | .col c =>
    if groupBy.any fun g => g.col?.any (namesMatch c) then .ok ()
    else .error (.internalError ("Column '" ++ fullName c ++
      "' must appear in the GROUP BY clause or be used in an aggregate function"))

/-- `check_order_by_semantics` for an item of the ORDER BY clause. -/
def checkOrderBySemantics (groupBy selectExprs : List ColItem) (allCols : List Catalog.ColMeta) (o : OrderBy) :
    Except Fault Unit :=
  let found := allCols.filter (isNamed o.col)
  if o.col.tabName = "" ∧ 1 < found.length then .error (.ambiguousColumn o.col.colName)
  else if found = [] then .error (.columnNotFound (fullName o.col))
  else if groupBy = [] then .ok ()
  else if groupBy.any fun g => g.col?.any (namesMatch o.col) then .ok ()
  else if selectExprs.any fun e => match e.expr with
      | .agg a => a.arg.any (namesMatch o.col)
      | .col _ => false
    then .ok ()
  else .error (.internalError ("Column '" ++ fullName o.col ++
    "' in ORDER BY clause must appear in the GROUP BY clause or be used in an aggregate function"))

/-! ### Conditions -/

/-- `convert_sv_value`. -/
def convertSvValue : Lit → Except Fault Value
  | .int n => .ok (.int n)
  | .float w => .ok (.float w)
  | .str s => .ok (.str s)
  | .bool _ => .error (.internalError "Unexpected sv value type")

/-- `get_clause` for one condition. The raw bytes are set later. -/
def getClause (unset : Bool) (e : BinaryExpr) : Except Fault Condition :=
  match e.rhs with
  | .val l => do
    let v ← convertSvValue l
    .ok ⟨e.lhs, e.op, .val v []⟩
  | .col c => .ok ⟨e.lhs, e.op, .col c⟩
  | .other => .ok ⟨e.lhs, e.op, if unset then .val (.int 0) [] else .col ⟨"", ""⟩⟩

/-- INT or FLOAT. -/
def isNumericType (t : ColType) : Bool := t = .int || t = .float

/-- A constant becomes one of the type of its column. -/
def castValue (type : ColType) (v : Value) : Value :=
  match type, v with
  | .float, .int n => .float (floatBits n)
  | .int, .float w => .int (intOfFloat w)
  | _, v => v

/-- `check_clause` for one condition. -/
def checkClause (db : DbMeta) (allCols : List Catalog.ColMeta) (c : Condition) : Except Fault Condition := do
  let lhs ← checkColumn allCols c.lhsCol
  let rhs ← match c.rhs with
    | .val v raw => Except.ok (Rhs.val v raw)
    | .col d => do
      let d ← checkColumn allCols d
      .ok (.col d)
  let lhsTab ← getTable db lhs.tabName
  let lhsCol ← getTabCol lhsTab lhs.colName
  match rhs with
  | .val v _ =>
    let raw ← v.initRaw lhsCol.len
    if lhsCol.type ≠ v.type ∧ ¬(isNumericType lhsCol.type ∧ isNumericType v.type) then
      .error (.incompatibleType (coltype2str lhsCol.type) (coltype2str v.type))
    else .ok ⟨lhs, c.op, .val (castValue lhsCol.type v) raw⟩
  | .col d =>
    let rhsTab ← getTable db d.tabName
    let rhsCol ← getTabCol rhsTab d.colName
    if lhsCol.type ≠ rhsCol.type ∧ ¬(isNumericType lhsCol.type ∧ isNumericType rhsCol.type) then
      .error (.incompatibleType (coltype2str lhsCol.type) (coltype2str rhsCol.type))
    else .ok ⟨lhs, c.op, .col d⟩

/-! ### The statement -/

/-- `all_cols`: a semi join has the columns of its left table, which it takes for a `TableRef`. -/
def allColsOf (db : DbMeta) (tabs : TableTree) : Except Fault (List Catalog.ColMeta) :=
  match tabs with
  | .join (.ref name _) _ _ true => getAllCols db [name]
  | .join (.join _ _ _ _) _ _ true => .error .nullPointer
  | tabs => getAllCols db (extractTableNames tabs)

/-- `do_analyze` of a SELECT statement. -/
def doAnalyze (db : DbMeta) (unset : Bool) (x : SelectStmt) : Except Fault Query := do
  let tables := extractTableNames x.tabs
  let m ← extractTableAliases x.tabs []
  tables.forM fun name => if (db.tab? name).isSome then Except.ok () else .error (.tableNotFound name)
  let exprs := x.cols.map (resolveItem m)
  let groupBy := x.groupBy.map (resolveItem m)
  let order := x.order.map fun o => { o with col := resolveCol m o.col }
  let allCols ← allColsOf db x.tabs
  let cols ←
    if exprs = [] then Except.ok (allCols.map fun c => ⟨c.tabName, c.name⟩)
    else (exprs.map selCol).mapM (checkSelCol allCols groupBy (exprs.any (·.isAgg)))
  exprs.forM (checkAggExpr allCols)
  if groupBy ≠ [] then exprs.forM (checkGroupBySemantics groupBy)
  order.forM (checkOrderBySemantics groupBy exprs allCols)
  let conds ← ((x.conds ++ extractJoinConds x.tabs).map (resolveBinaryExpr m)).mapM (getClause unset)
  let condCols ← getAllCols db tables
  let conds ← conds.mapM (checkClause db condCols)
  .ok ⟨tables, cols, conds, exprs, groupBy, x.having.map (resolveHaving m), order, x.limit, x.hasSort⟩

end Rmdb.Sql
