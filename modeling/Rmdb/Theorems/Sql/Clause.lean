import Rmdb.Sql.Where

/-! What the analysis makes of the conditions of a WHERE clause. -/

namespace Rmdb.Sql
open Outcomes

/-! ### Right sides -/

/-- The right side of a condition is this literal or this column. -/
def Rhs.Carries (r : Rhs) : Expr → Prop
  | .val l => ∃ v raw, convertSvValue l = .ok v ∧ r = .val v raw
  | .col c => r = .col c
  | _ => False

/-- `get_clause` gives the condition with its column, operator and right side, or raises an error, whatever an unset variable
    holds. -/
def Faithful (col : TabCol) (op : CompOp) (expr : ExprRule) : Prop :=
  ∀ unset, (∃ e, getClause unset (condition col op expr) = .error e) ∨
    ∃ c, getClause unset (condition col op expr) = .ok c ∧ c.lhsCol = col ∧ c.op = op ∧ c.rhs.Carries expr.ast

namespace ExprRule

/-- A number, with signs and parentheses around it. -/
def isNumber : ExprRule → Bool
  | .value (.int _) | .value (.float _) => true
  | .plus e | .minus e | .parens e => e.isNumber
  | _ => false

/-- A literal or a column, with plus signs and parentheses around it; minus signs stand before numbers only. -/
def isPlain : ExprRule → Bool
  | .value _ | .col _ => true
  | .plus e | .parens e => e.isPlain
  | .minus e => e.isNumber
  | _ => false

theorem isNumber_iff {e : ExprRule} :
    e.isNumber = true ↔ (∃ n, e.ast = .val (.int n)) ∨ ∃ w, e.ast = .val (.float w) := by
  induction e with
  | value l => cases l <;> simp [isNumber, ast]
  | col c => simp [isNumber, ast]
  | aggExpr a => simp [isNumber, ast]
  | plus e ih => exact ih
  | parens e ih => exact ih
  | binary lhs op rhs => simp [isNumber, ast]
  | minus e ih =>
    rw [isNumber, ih, ast]
    split <;> simp_all

theorem isPlain_iff {e : ExprRule} : e.isPlain = true ↔ (∃ l, e.ast = .val l) ∨ ∃ c, e.ast = .col c := by
  induction e with
  | value l => simp [isPlain, ast]
  | col c => simp [isPlain, ast]
  | aggExpr a => simp [isPlain, ast]
  | plus e ih => exact ih
  | parens e ih => exact ih
  | binary lhs op rhs => simp [isPlain, ast]
  | minus e =>
    rw [isPlain, isNumber_iff, ast]
    split <;> simp_all

end ExprRule

section GetClause
variable {col : TabCol} {op : CompOp} {expr : ExprRule}

theorem faithful_of_val {l : Lit} (h : expr.ast = .val l) : Faithful col op expr := by
  intro unset
  have hrhs : (condition col op expr).rhs = .val l := by rw [condition, h, Expr.rhsExpr]
  have hget : getClause unset (condition col op expr) = convertSvValue l >>= fun v => .ok ⟨col, op, .val v []⟩ := by
    rw [getClause, hrhs]
    rfl
  rw [hget, h]
  cases hv : convertSvValue l with
  | error e => exact Or.inl ⟨e, rfl⟩
  | ok v => exact Or.inr ⟨⟨col, op, .val v []⟩, rfl, rfl, rfl, v, [], hv, rfl⟩

theorem faithful_of_col {c : TabCol} (h : expr.ast = .col c) : Faithful col op expr := by
  intro unset
  have hrhs : (condition col op expr).rhs = .col c := by rw [condition, h, Expr.rhsExpr]
  rw [getClause, hrhs, h]
  exact Or.inr ⟨⟨col, op, .col c⟩, rfl, rfl, rfl, rfl⟩

/-- An aggregate and an arithmetic expression are passed over without an error. -/
theorem not_faithful (hval : ∀ l, expr.ast ≠ .val l) (hcol : ∀ c, expr.ast ≠ .col c) : ¬Faithful col op expr := by
  intro h
  have hrhs : (condition col op expr).rhs = .other := by
    rw [condition]
    cases ha : expr.ast with
    | val l => exact absurd ha (hval l)
    | col c => exact absurd ha (hcol c)
    | arith lhs op rhs => rfl
    | other => rfl
  rcases h false with ⟨e, he⟩ | ⟨c, -, -, -, hcarries⟩
  · rw [getClause, hrhs] at he
    cases he
  · cases ha : expr.ast with
    | val l => exact hval l ha
    | col d => exact hcol d ha
    | arith lhs op rhs =>
      rw [ha] at hcarries
      exact hcarries
    | other =>
      rw [ha] at hcarries
      exact hcarries

/-- The conditions that keep their right sides are those with a literal or a column there. -/
theorem getClause_faithful_iff (col : TabCol) (op : CompOp) (expr : ExprRule) : Faithful col op expr ↔ expr.isPlain = true := by
  rw [ExprRule.isPlain_iff]
  constructor
  · intro h
    by_contra hnot
    rw [not_or, not_exists, not_exists] at hnot
    exact not_faithful hnot.1 hnot.2 h
  · rintro (⟨l, hl⟩ | ⟨c, hc⟩)
    · exact faithful_of_val hl
    · exact faithful_of_col hc

end GetClause

/-- `x > 1 + 1`: the condition is made without an error, and its right side is a column without a name. -/
theorem not_faithful_sum : ¬Faithful ⟨"", "x"⟩ .gt (.binary (.value (.int 1)) .add (.value (.int 1))) ∧
    getClause false (condition ⟨"", "x"⟩ .gt (.binary (.value (.int 1)) .add (.value (.int 1)))) =
      .ok ⟨⟨"", "x"⟩, .gt, .col ⟨"", ""⟩⟩ :=
  ⟨not_faithful (fun l h => (by cases h)) fun c h => (by cases h), by decide⟩

end Rmdb.Sql
