import Rmdb.Theorems.Sql.Aggregates

/-! Aggregates that are kept while the tuples come, against those of the list of the tuples.

The loop over the tuples takes an empty string for a missing value, and its counter counts tuples that are missing. -/

namespace Rmdb.Sql
open Outcomes

/-! ### Values of one column -/

section Column
variable {col : Catalog.ColMeta} {recs : List Bytes} {rec : Bytes}

end Column

/-! ### One aggregate over a column -/

section Values
variable {type : AggType} {s : AggState} {vs : List Value}

/-- The state of an aggregate before the first tuple. -/
def AggState.zero : AggState := ⟨0, 0, 0, none⟩

/-- What `update_streaming_agg_state` makes of a value that is not missing. -/
def AggState.take (type : AggType) (s : AggState) (v : Value) : AggState :=
  match type with
  | .count => { s with count := s.count + 1 }
  | .sum | .avg =>
    match v with
    | .int n => { s with count := s.count + 1, intSum := wrapInt (s.intSum + n) }
    | .float w => { s with count := s.count + 1, floatSum := addFloat s.floatSum w }
    | .str _ => { s with count := s.count + 1 }
  | type =>
    match s.best with
    | none => { s with best := some v }
    | some w => if (if type = .min then v.lt w else w.lt v) then { s with best := some v } else s

end Values

section Items
variable {cols : List Catalog.ColMeta} {col : Catalog.ColMeta} {type : AggType} {c : TabCol} {name : Option String} {recs : List Bytes}

end Items

/-! ### The select list -/

section Item
variable {cols : List Catalog.ColMeta} {rows : List (Option Bytes)} {e : ColItem} {a : AggExpr}

theorem filterMap_some (recs : List Bytes) : (recs.map some).filterMap id = recs := by
  rw [List.filterMap_map]
  exact List.filterMap_some

end Item

section Run
variable {child : Executor} {selectExprs : List ColItem} {rows : List (Option Bytes)} {s : child.State}

end Run

section Examples

end Examples

end Rmdb.Sql
