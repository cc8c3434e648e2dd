import Rmdb.Exec.Scan

/-! The choice of an index: `Planner::get_index_cols` (`optimizer/planner.cpp`), with the preferences for the TPC-C
tables (`optimizer/tpcc_optimizer.h`). -/

namespace Rmdb

/-- `INDEX_EQ_WEIGHT`. -/
def indexEqWeight : Nat := 20

/-- `INDEX_RANGE_WEIGHT`. -/
def indexRangeWeight : Nat := 6

/-- `INDEX_TPCC_BONUS`. -/
def indexTpccBonus : Nat := 3

/-- `optimize_tpcc_index_selection`: the columns that need a condition, and the index to use then. -/
def tpccIndexes : List (String × List String × List String) :=
  [("district", ["d_w_id", "d_id"], ["d_w_id", "d_id"]),
   ("customer", ["c_w_id", "c_d_id"], ["c_w_id", "c_d_id", "c_id"]),
   ("stock", ["s_w_id", "s_i_id"], ["s_w_id", "s_i_id"]),
   ("orders", ["o_w_id", "o_d_id"], ["o_w_id", "o_d_id", "o_id"]),
   ("new_orders", ["no_w_id", "no_d_id"], ["no_w_id", "no_d_id", "no_o_id"]),
   ("order_line", ["ol_w_id", "ol_d_id", "ol_o_id"], ["ol_w_id", "ol_d_id", "ol_o_id", "ol_number"])]

/-- `optimize_tpcc_index_selection`. -/
def optimizeTpccIndexSelection (tabName : String) (condCols : List String) : Option (List String) :=
  (tpccIndexes.find? fun e => e.1 = tabName ∧ ∀ c ∈ e.2.1, c ∈ condCols).map (·.2.2)

/-- `is_tpcc_recommended_index`: the index starts with the columns of the TPC-C index. -/
def isTpccRecommendedIndex (tabName : String) (indexCols : List String) : Bool :=
  tpccIndexes.any fun e => e.1 = tabName ∧ e.2.2.isPrefixOf indexCols

section Choice
variable {tab : TabMeta}

/-- The score of an index: its leading columns with an `=`, and the next one if it has a range condition. -/
def matchScore (conds : List (Condition tab)) : List ColMeta → Nat
  | [] => 0
  | c :: cs =>
    if conds.any fun d => d.lhsCol.name = c.name ∧ d.op = .eq then indexEqWeight + matchScore conds cs
    else if conds.any fun d => d.lhsCol.name = c.name ∧ d.op ∈ [.lt, .le, .gt, .ge] then indexRangeWeight else 0

/-- One index in the loop of `get_index_cols`; `best` is the highest score so far and the index that has it. -/
def considerIndex (conds : List (Condition tab)) (best : Nat × List String) (index : List ColMeta) : Nat × List String :=
  let score := matchScore conds index
  let names := index.map (·.name)
  if best.1 < score then (score, names)
  else if score = best.1 ∧ isTpccRecommendedIndex tab.name names then (score + indexTpccBonus, names)
  else best

/-- `get_index_cols`: the columns of the index that the planner chooses, given the indexes of the table. -/
def getIndexCols (indexes : List (List ColMeta)) (conds : List (Condition tab)) : Option (List String) :=
  match (optimizeTpccIndexSelection tab.name (conds.map (·.lhsCol.name))).filter (· ∈ indexes.map (·.map (·.name))) with
  | some names => some names
  | none =>
    if conds = [] then none
    else
      let best := indexes.foldl (considerIndex conds) (0, [])
      if 0 < best.1 then some best.2 else none

end Choice
end Rmdb
