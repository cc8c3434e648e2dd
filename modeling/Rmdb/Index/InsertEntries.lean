import Rmdb.Index.Run

/-! `insert_entries`: many pairs at once (`index/ix_index_handle.cpp`). -/

namespace Rmdb
namespace IxIndexHandle
variable {K : Type}

/-- `is_sorted`: no key is larger than the next one. -/
def isSorted (f : IxFormat K) : List (K × Rid) → Bool
  | a :: b :: pairs => if f.compare a.1 b.1 > 0 then false else isSorted f (b :: pairs)
  | _ => true

/-- What `std::sort` promises: the same pairs, and none that stands before a smaller one. Which of two pairs with the same key
    comes first is not promised. -/
structure StdSort (f : IxFormat K) where
  sort : List (K × Rid) → List (K × Rid)
  perm : ∀ pairs, (sort pairs).Perm pairs
  sorted : ∀ pairs, (sort pairs).Pairwise fun a b => ¬f.compare b.1 a.1 < 0

variable [DecidableEq K] (f : IxFormat K)

/-- `insert_entry` for one pair after another. -/
def insertEach (s : IxIndexHandle K) : List (K × Rid) → Except IxError (IxIndexHandle K)
  | [] => .ok s
  | e :: pairs => do
    let (s, _) ← s.insertEntry f e.1 e.2
    s.insertEach pairs

/-- `insert_entries`. -/
def insertEntries (std : StdSort f) (s : IxIndexHandle K) (pairs : List (K × Rid)) : Except IxError (IxIndexHandle K) :=
  s.insertEach f (if isSorted f pairs then pairs else std.sort pairs)

end IxIndexHandle
end Rmdb
