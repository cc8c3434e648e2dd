import Rmdb.System.SmManager
import Rmdb.Index.Run

/-! The loop of `create_index` over the rows of the table, on the index that it fills (`system/sm_manager.cpp`). -/

namespace Rmdb

namespace IxIndexHandle
variable {K : Type} [DecidableEq K]

/-- The loop of `create_index` from a row on, with `unique_keys` and the index: it gives up at a key that it has seen, or that
    `insert_entry` finds in the index. -/
def insertUnique (f : IxFormat K) (uniqueKeys : List K) (ih : IxIndexHandle K) :
    List (K × Rid) → Except IxError (Option (IxIndexHandle K))
  | [] => .ok (some ih)
  | e :: rows =>
    if uniqueKeys.contains e.1 then .ok none
    else do
      let (ih, p) ← ih.insertEntry f e.1 e.2
      if p = ixNoPage then .ok none else insertUnique f (uniqueKeys ++ [e.1]) ih rows

end IxIndexHandle

namespace Catalog.SmManager

/-- The columns in the file header of an index: an INT and a FLOAT have four bytes. -/
def ixCols (cols : List ColMeta) (h : ∀ c ∈ cols, c.type ≠ .string → c.len = 4) : List IxCol :=
  cols.pmap (fun c h => ⟨c.type, c.len, h⟩) h

/-- The key that `create_index` copies from a record. -/
def keyOf (cols : List ColMeta) (rec : Bytes) : Bytes := cols.flatMap fun c => (rec.drop c.offset).take c.len

end Catalog.SmManager
end Rmdb
