import Rmdb.Index.Handle

/-! Positions in the leaves of an index and the scan over them (`lower_bound`, `upper_bound`,
`leaf_begin` and `leaf_end` of `IxIndexHandle`, and `IxScan` in `index/ix_scan.cpp`). -/

namespace Rmdb

/-- `Iid`: a slot of a leaf. -/
structure Iid where
  pageNo : Int
  slotNo : Nat
deriving DecidableEq, Repr

namespace IxIndexHandle
variable {K : Type}

/-- The position `pos` in the leaf `p`; past the last slot it is the first slot of the next leaf, except
    in the leaf the header names as the last one. -/
def iidAt (s : IxIndexHandle K) (p : Int) (leaf : IxNode K) (pos : Nat) : Iid :=
  if pos = leaf.size then
    if p = s.lastLeaf then ⟨p, pos⟩ else ⟨leaf.nextLeaf, 0⟩
  else ⟨p, pos⟩

/-- `IxIndexHandle::lower_bound`. -/
def lowerBound (f : IxFormat K) (s : IxIndexHandle K) (key : K) : Except IxError Iid := do
  let p ← s.findLeafPage f key
  let leaf ← s.fetchNode p
  .ok (s.iidAt p leaf (leaf.lowerBound f key))

/-- `IxIndexHandle::upper_bound`. -/
def upperBound (f : IxFormat K) (s : IxIndexHandle K) (key : K) : Except IxError Iid := do
  let p ← s.findLeafPage f key
  let leaf ← s.fetchNode p
  .ok (s.iidAt p leaf (leaf.upperBound f key))

/-- `leaf_end`. -/
def leafEnd (s : IxIndexHandle K) : Except IxError Iid :=
  if s.lastLeaf = ixNoPage then .ok ⟨ixNoPage, 0⟩
  else do
    let n ← s.fetchNode s.lastLeaf
    .ok ⟨s.lastLeaf, n.size⟩

/-- `leaf_begin`. -/
def leafBegin (s : IxIndexHandle K) : Except IxError Iid :=
  if s.firstLeaf = ixNoPage then s.leafEnd else .ok ⟨s.firstLeaf, 0⟩

end IxIndexHandle

namespace IxScan
variable {K : Type}

/-- The next position after the end of the leaf `n`: the next leaf, or `end_` behind the last one. -/
def nextLeaf (n : IxNode K) (stop : Iid) : Iid :=
  if n.nextLeaf ≠ ixNoPage ∧ n.nextLeaf ≠ ixLeafHeaderPage then ⟨n.nextLeaf, 0⟩ else stop

/-- `IxScan::next` from position `iid` of a scan that ends at `stop`. -/
def next (s : IxIndexHandle K) (iid stop : Iid) : Except IxError Iid :=
  if iid = stop then .error .assertFailed
  else do
    let n ← s.fetchNode iid.pageNo
    if !n.isLeaf then .error .assertFailed
    else if iid.slotNo ≥ n.size then .ok (nextLeaf n stop)
    else if iid.slotNo + 1 = n.size then .ok (nextLeaf n stop)
    else .ok ⟨iid.pageNo, iid.slotNo + 1⟩

/-- `IxScan::rid`. -/
def rid (s : IxIndexHandle K) (iid stop : Iid) : Except IxError Rid :=
  if iid = stop then .error .entryNotFound
  else do
    let n ← s.fetchNode iid.pageNo
    if !n.isLeaf then .error .entryNotFound
    else match n.pairs[iid.slotNo]? with
      | some e => .ok e.2
      | none => .error .entryNotFound

/-- `for (; !scan.is_end(); scan.next()) scan.rid()`, for at most `fuel` positions. -/
def collect (s : IxIndexHandle K) (stop : Iid) : Nat → Iid → Except IxError (List Rid)
  | 0, iid => if iid = stop then .ok [] else .error .diverged
  | fuel + 1, iid =>
    if iid = stop then .ok []
    else do
      let r ← rid s iid stop
      let iid ← next s iid stop
      let rest ← collect s stop fuel iid
      .ok (r :: rest)

end IxScan
end Rmdb
