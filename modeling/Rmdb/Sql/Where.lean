import Rmdb.Sql.Update

/-! The conditions of a WHERE clause as the grammar reads them (`parser/yacc.y`). -/

namespace Rmdb.Sql

/-- The productions of `expr`. -/
inductive ExprRule where
  | value (val : Lit)
  | col (col : TabCol)
  | aggExpr (agg : AggExpr)
  | plus (expr : ExprRule)
  | minus (expr : ExprRule)
  | binary (lhs : ExprRule) (op : ArithOp) (rhs : ExprRule)
  | parens (expr : ExprRule)
deriving DecidableEq, Repr

/-- `-` of a float. -/
def negFloat (bits : Nat) : Nat := if bits < 0x80000000 then bits + 0x80000000 else bits - 0x80000000

/-- The tree that the actions of the grammar build: a minus sign before a number is part of it. -/
def ExprRule.ast : ExprRule → Expr
  | .value l => .val l
  | .col c => .col c
  | .aggExpr _ => .other
  | .plus e => e.ast
  | .minus e =>
    match e.ast with
    | .val (.int n) => .val (.int (wrapInt (-n)))
    | .val (.float w) => .val (.float (negFloat w))
    | a => .arith (.val (.int 0)) .sub a
  | .binary lhs op rhs => .arith lhs.ast op rhs.ast
  | .parens e => e.ast

/-- The classes that `get_clause` tells apart. -/
def Expr.rhsExpr : Expr → RhsExpr
  | .val l => .val l
  | .col c => .col c
  | _ => .other

/-- The production of `condition`. -/
def condition (col : TabCol) (op : CompOp) (expr : ExprRule) : BinaryExpr := ⟨col, op, expr.ast.rhsExpr⟩

end Rmdb.Sql
