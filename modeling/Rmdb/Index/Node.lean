import Rmdb.Index.Key

/-! One node of the B+ tree (`IxNodeHandle` in `index/ix_index_handle.h` and `.cpp`).

A node is the content of a page: the page header and the first `num_key` pairs of the two arrays
`keys` and `rids`. In a leaf a pair is an index entry, in an internal node a key with the page of a
child. -/

namespace Rmdb

/-- `IX_NO_PAGE`. -/
def ixNoPage : Int := -1

/-- `IX_LEAF_HEADER_PAGE`. -/
def ixLeafHeaderPage : Int := 1

/-- `IX_INIT_ROOT_PAGE`. -/
def ixInitRootPage : Int := 2

/-- `IX_INIT_NUM_PAGES`. -/
def ixInitNumPages : Int := 3

/-- What stops an operation on the index before it returns. -/
inductive IxError where
  /-- `IndexEntryNotFoundError`. -/
  | entryNotFound
  /-- `fetch_node` found no such page. -/
  | fetchFailed (pageNo : Int)
  /-- A failed `assert`. -/
  | assertFailed
  /-- A read of a slot from `num_key` on. -/
  | staleSlot
  /-- A walk along page numbers that visits more nodes than the file has pages: it never ends. -/
  | diverged
deriving DecidableEq, Repr

/-- A page of the index file as a node: `IxPageHdr` and the pairs in use. -/
structure IxNode (K : Type) where
  parent : Int
  isLeaf : Bool
  prevLeaf : Int
  nextLeaf : Int
  pairs : List (K × Rid)
deriving Repr

namespace IxNode
variable {K : Type}

/-- `get_size`. -/
def size (n : IxNode K) : Nat := n.pairs.length

/-- `is_root_page`. -/
def isRootPage (n : IxNode K) : Bool := n.parent == ixNoPage

/-- `get_key`. -/
def keyAt (n : IxNode K) (i : Nat) : Except IxError K :=
  match n.pairs[i]? with
  | some e => .ok e.1
  | none => .error .staleSlot

/-- The page in slot `i`. -/
def pageAt (ps : List (K × Rid)) (i : Nat) : Except IxError Int :=
  match ps[i]? with
  | some e => .ok e.2.pageNo
  | none => .error .staleSlot

/-- `value_at`: the page of child `i`. -/
def valueAt (n : IxNode K) (i : Nat) : Except IxError Int := pageAt n.pairs i

/-- `isFull`. -/
def isFull (f : IxFormat K) (n : IxNode K) : Bool := n.size == f.maxSize

/-- The loop of `lower_bound` and `upper_bound`: halve `[l, r)` until it is empty. `goLeft mid` is the
    test on the key at `mid`. -/
def searchLoop (goLeft : Nat → Bool) : Nat → Nat → Nat → Nat
  | 0, l, _ => l
  | fuel + 1, l, r =>
    if l < r then
      let mid := (l + r) / 2
      if goLeft mid then searchLoop goLeft fuel l mid else searchLoop goLeft fuel (mid + 1) r
    else l

/-- `lower_bound`: the first slot whose key is not below `target`. -/
def lowerBound (f : IxFormat K) (n : IxNode K) (target : K) : Nat :=
  searchLoop (fun mid => n.pairs[mid]?.any fun e => f.compare target e.1 ≤ 0) n.size 0 n.size

/-- `upper_bound`: the first slot whose key is above `target`. -/
def upperBound (f : IxFormat K) (n : IxNode K) (target : K) : Nat :=
  searchLoop (fun mid => n.pairs[mid]?.any fun e => f.compare target e.1 < 0) n.size 0 n.size

/-- `leaf_lookup`. -/
def leafLookup (f : IxFormat K) (n : IxNode K) (key : K) : Option Rid :=
  match n.pairs[n.lowerBound f key]? with
  | some e => if f.compare key e.1 ≠ 0 then none else some e.2
  | none => none

/-- `internal_lookup`: the page of the child to descend to. -/
def internalLookup (f : IxFormat K) (n : IxNode K) (key : K) : Except IxError Int :=
  let pos := n.upperBound f key
  if pos = 0 then n.valueAt 0 else n.valueAt (pos - 1)

/-- `insert_pairs`: put `ps` in front of slot `pos`. -/
def insertPairs (n : IxNode K) (pos : Nat) (ps : List (K × Rid)) : Except IxError (IxNode K) :=
  if pos > n.size then .error .entryNotFound
  else .ok { n with pairs := n.pairs.take pos ++ ps ++ n.pairs.drop pos }

/-- `insert`: the node and the slot of the new pair, or the node as it was and -1 when it has the key. -/
def insert (f : IxFormat K) (n : IxNode K) (key : K) (value : Rid) : Except IxError (IxNode K × Int) :=
  let pos := n.lowerBound f key
  if n.pairs[pos]?.any fun e => f.compare key e.1 = 0 then .ok (n, -1)
  else do
    let n' ← n.insertPairs pos [(key, value)]
    .ok (n', pos)

/-- `erase_pair`. -/
def erasePair (n : IxNode K) (pos : Nat) : Except IxError (IxNode K) :=
  if pos ≥ n.size then .error .entryNotFound else .ok { n with pairs := n.pairs.eraseIdx pos }

/-- `remove`: the node without `key`, and the slot where it is or would be. -/
def remove (f : IxFormat K) (n : IxNode K) (key : K) : Except IxError (IxNode K × Nat) :=
  let pos := n.lowerBound f key
  if n.pairs[pos]?.any fun e => f.compare key e.1 = 0 then do
    let n' ← n.erasePair pos
    .ok (n', pos)
  else .ok (n, pos)

/-- `set_key`. -/
def setKey (n : IxNode K) (i : Nat) (key : K) : IxNode K :=
  { n with pairs := n.pairs.modify i fun e => (key, e.2) }

/-- `find_child`: the slot of the child on page `child`. -/
def findChild (n : IxNode K) (child : Int) : Except IxError Nat :=
  let i := n.pairs.findIdx fun e => e.2.pageNo == child
  if i < n.size then .ok i else .error .assertFailed

end IxNode
end Rmdb
