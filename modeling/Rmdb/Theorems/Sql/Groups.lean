import Rmdb.Lib.GroupBy
import Rmdb.Theorems.Recovery.Analyze
import Rmdb.Theorems.Sql.Aggregates
import Rmdb.Theorems.Sql.Joins
import Rmdb.Theorems.Sql.NullPlans
import Rmdb.Theorems.Sql.Streaming
import Mathlib.Data.List.TakeWhile
import Mathlib.Data.List.Zip

/-! GROUP BY: the aggregation over a `GroupExecutor` returns one row for each key, with the results of its group, as far as the
columns of the output can hold them. -/

namespace Rmdb.Sql
open Outcomes GroupBy

/-! ### Keys -/

section Keys
variable {stl : Stl} {cols ks : List Catalog.ColMeta} {groupBy : List ColItem} {groups : Groups} {rec : Bytes}

/-- The key of a record: its values in the grouping columns. -/
def groupKey (ks : List Catalog.ColMeta) (rec : Bytes) : List Value := ks.map fun col => cellValue col rec

/-- The groups with their records. -/
def Groups.records (groups : Groups) : List (List Value × List Bytes) := groups.map fun e => (e.1, e.2.records)

end Keys

/-! ### The rows -/

section Rows
variable {stl : Stl} {child : Executor} {ks : List Catalog.ColMeta} {groupBy selectExprs : List ColItem} {tuples : List Bytes}

/-- The groups that the operator goes through: those of the records, or an empty one where there is neither a key nor a record. -/
def GroupsOf (groupBy : List ColItem) (ks : List Catalog.ColMeta) (tuples : List Bytes) (groups : List (List Value × List Bytes)) : Prop :=
  if groupBy = [] ∧ tuples = [] then groups = [([], [])] else Grouped (groupKey ks) tuples groups

theorem GroupsOf.length_le {groups : List (List Value × List Bytes)} (h : GroupsOf groupBy ks tuples groups) :
    groups.length ≤ 3 * tuples.length + 1 := by
  unfold GroupsOf at h
  split at h
  · rw [h]
    exact Nat.le_add_left ..
  · have := h.length_le
    omega

end Rows

/-! ### Rows as bytes -/

section Decoding
variable {col out : Catalog.ColMeta}

end Decoding

/-! ### The items of a row -/

section Items
variable {cols ks : List Catalog.ColMeta} {recs : List Bytes} {e : ColItem} {out : Catalog.ColMeta}

/-- What may be selected: a grouping column, the number of records, or a sum or an extremum of a column. -/
inductive GroupItem (cols ks : List Catalog.ColMeta) : ColItem → Prop where
  | key {c : TabCol} {col : Catalog.ColMeta} {name : Option String} (hcol : getColIdx cols c = .ok col) (hkey : col ∈ ks) :
      GroupItem cols ks ⟨.col c, name⟩
  | countAll {name : Option String} : GroupItem cols ks ⟨.agg ⟨.count, none⟩, name⟩
  | column {type : AggType} {c : TabCol} {col : Catalog.ColMeta} {name : Option String} (htype : type = .sum ∨ type = .min ∨ type = .max)
      (hcol : getColIdx cols c = .ok col) : GroupItem cols ks ⟨.agg ⟨type, some c⟩, name⟩

/-- The sum of an INT column, as far as 32 bits hold it. -/
def sumOf (col : Catalog.ColMeta) (recs : List Bytes) : Int := wrapInt (recs.map fun rec => readInt (rec.drop col.offset)).sum

/-- What the row of a group has to show for an item. -/
def Shows (cols : List Catalog.ColMeta) (recs : List Bytes) (e : ColItem) (v : Value) : Prop :=
  match e.expr with
  | .col c => ∀ col, getColIdx cols c = .ok col → ∀ rec ∈ recs, cellValue col rec = v
  | .agg a =>
    match a.arg with
    | none => v = .int recs.length
    | some c => ∀ col, getColIdx cols c = .ok col →
      if a.aggType = .sum then col.type = .int → v = .int (sumOf col recs)
      else Best.IsBest (aggBefore a.aggType) (recs.map (cellValue col)) v

/-- The type and the length that an item has in the output. -/
def OutCol (cols : List Catalog.ColMeta) (e : ColItem) (out : Catalog.ColMeta) : Prop :=
  match e.expr with
  | .col c => ∃ col, getColIdx cols c = .ok col ∧ out.type = col.type ∧ out.len = col.len
  | .agg a => getAggResultType cols a = .ok out.type ∧ out.len = 4

/-- The value that the row of a group has for an item. -/
def itemValue (cols : List Catalog.ColMeta) (recs : List Bytes) (e : ColItem) : Except Fault Value :=
  match e.expr, recs with
  | .agg a, recs => computeSingleAggregation cols a recs
  | .col _, [] => .ok (.int 0)
  | .col c, rec :: _ => do
    let col ← getColIdx cols c
    .ok (cellValue col rec)

theorem itemValue_key (cols : List Catalog.ColMeta) (c : TabCol) (name : Option String) (rec : Bytes) (recs : List Bytes) :
    itemValue cols (rec :: recs) ⟨.col c, name⟩ = getColIdx cols c >>= fun col => .ok (cellValue col rec) := rfl

theorem computeSingleAggregation_column {type : AggType} {c : TabCol} {col : Catalog.ColMeta} (hcol : getColIdx cols c = .ok col)
    (hrecs : recs ≠ []) : (type = .sum → computeSingleAggregation cols ⟨type, some c⟩ recs = .ok (sumValues col.type (recs.map (cellValue col)))) ∧
      (type = .min ∨ type = .max → computeSingleAggregation cols ⟨type, some c⟩ recs =
        .ok ((extremum type (recs.map (cellValue col))).getD (.int 0))) := by
  unfold computeSingleAggregation
  constructor
  · rintro rfl
    simp only [if_neg hrecs, hcol, ok_bind]
  · rintro (rfl | rfl) <;> simp only [if_neg hrecs, hcol, ok_bind]

theorem GroupItem.value (hitem : GroupItem cols ks e) (recs : List Bytes) : ∃ v, itemValue cols recs e = .ok v := by
  cases hitem with
  | key hcol hkey =>
    cases recs with
    | nil => exact ⟨_, rfl⟩
    | cons rec recs => exact ⟨_, by rw [itemValue_key, hcol, ok_bind]⟩
  | countAll => exact ⟨_, rfl⟩
  | @column type c col name htype hcol =>
    by_cases hrecs : recs = []
    · subst hrecs
      rcases htype with rfl | rfl | rfl <;> exact ⟨_, rfl⟩
    · obtain ⟨hsum, hbest⟩ := @computeSingleAggregation_column cols recs type c col hcol hrecs
      rcases htype with htype | htype
      · exact ⟨_, hsum htype⟩
      · exact ⟨_, hbest htype⟩

end Items

/-! ### One row for each key -/

section Main
variable {stl : Stl} {child : Executor} {cols ks : List Catalog.ColMeta} {groupBy selectExprs : List ColItem} {tuples : List Bytes}

theorem OutCol.typed {e : ColItem} {out : Catalog.ColMeta} (htyped : ∀ col ∈ cols, col.type ≠ .float ∧ (col.type = .int → col.len = 4))
    (hout : OutCol cols e out) : out.type ≠ .string → out.len = 4 := by
  unfold OutCol at hout
  split at hout
  · obtain ⟨col, hcol, htype, hlen⟩ := hout
    obtain ⟨hfloat, hint⟩ := htyped col (getColIdx_eq_ok hcol).1
    rw [htype, hlen]
    cases h : col.type with
    | string => exact fun hne => absurd rfl hne
    | float => exact absurd h hfloat
    | int => exact fun _ => hint h
  · exact fun _ => hout.2

end Main

section Examples

end Examples

end Rmdb.Sql
