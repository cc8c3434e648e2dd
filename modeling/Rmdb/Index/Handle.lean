import Rmdb.Index.Node

/-! The B+ tree of an index file (`IxIndexHandle` in `index/ix_index_handle.cpp`).

The state is the mutable part of the file header, the pages of the file and the allocation counter of
the disk manager. Pages are read and written in place: a fetched node is a pointer into the buffer
pool, so every operation reads a page as it was last written. -/

namespace Rmdb

/-- An open index: `file_hdr_`, the pages behind the buffer pool, and `fd2pageno_[fd]`. -/
structure IxIndexHandle (K : Type) where
  numPages : Int
  rootPage : Int
  firstLeaf : Int
  lastLeaf : Int
  pages : Int → Option (IxNode K)
  /-- The next page number that `DiskManager::allocate_page` gives out. -/
  fd2pageno : Int
  /-- The length of the file in pages. -/
  filePages : Nat

namespace IxIndexHandle
variable {K : Type}

/-- `fetch_node`. -/
def fetchNode (s : IxIndexHandle K) (p : Int) : Except IxError (IxNode K) :=
  match s.pages p with
  | some n => .ok n
  | none => .error (.fetchFailed p)

/-- A write through the pointer to page `p`. -/
def putNode (s : IxIndexHandle K) (p : Int) (n : IxNode K) : IxIndexHandle K :=
  { s with pages := fun q => if q = p then some n else s.pages q }

/-- Fetch page `p` and change it in place. -/
def modifyNode (s : IxIndexHandle K) (p : Int) (g : IxNode K → IxNode K) : Except IxError (IxIndexHandle K) := do
  let n ← s.fetchNode p
  .ok (s.putNode p (g n))

/-- A page that `new_page` has zeroed. -/
def zeroNode : IxNode K := { parent := 0, isLeaf := false, prevLeaf := 0, nextLeaf := 0, pairs := [] }

/-- `create_node`: a zeroed page with the next page number. -/
def createNode (s : IxIndexHandle K) : IxIndexHandle K × Int :=
  let p := s.fd2pageno
  ({ s.putNode p zeroNode with
      fd2pageno := p + 1
      numPages := max s.numPages (p + 1)
      filePages := max s.filePages (p + 1).toNat }, p)

/-- `release_node_handle`. -/
def releaseNodeHandle (s : IxIndexHandle K) : IxIndexHandle K := { s with numPages := s.numPages - 1 }

/-- The index that `IxManager::create_index` writes and `open_index` opens: an empty root leaf in a ring
    with the leaf header page. -/
def create : IxIndexHandle K where
  numPages := ixInitNumPages
  rootPage := ixInitRootPage
  firstLeaf := ixInitRootPage
  lastLeaf := ixInitRootPage
  pages := fun p =>
    if p = ixLeafHeaderPage then
      some { parent := ixNoPage, isLeaf := true, prevLeaf := ixInitRootPage, nextLeaf := ixInitRootPage, pairs := [] }
    else if p = ixInitRootPage then
      some { parent := ixNoPage, isLeaf := true, prevLeaf := ixLeafHeaderPage, nextLeaf := ixLeafHeaderPage, pairs := [] }
    else none
  fd2pageno := ixInitNumPages
  filePages := 3

/-- `close_index` and `open_index` of the same file: the header is written and read back, the pages are
    flushed, and the constructor sets the allocation counter to `num_pages_`. -/
def reopen (s : IxIndexHandle K) : IxIndexHandle K := { s with fd2pageno := s.numPages }

/-! ### Search -/

/-- The loop of `find_leaf_page`. -/
def findLeafLoop (f : IxFormat K) (s : IxIndexHandle K) (key : K) : Nat → Int → Except IxError Int
  | 0, _ => .error .diverged
  | fuel + 1, p => do
    let n ← s.fetchNode p
    if n.isLeaf then .ok p
    else do
      let child ← n.internalLookup f key
      findLeafLoop f s key fuel child

/-- `find_leaf_page`: the page of the leaf for `key`. -/
def findLeafPage (f : IxFormat K) (s : IxIndexHandle K) (key : K) : Except IxError Int :=
  findLeafLoop f s key s.filePages s.rootPage

/-- `get_value`. -/
def getValue (f : IxFormat K) (s : IxIndexHandle K) (key : K) : Except IxError (Option Rid) := do
  let p ← s.findLeafPage f key
  let leaf ← s.fetchNode p
  .ok (leaf.leafLookup f key)

/-- `is_unique`: whether `key` is absent, and the value found when it is not. -/
def isUnique (f : IxFormat K) (s : IxIndexHandle K) (key : K) : Except IxError (Bool × Option Rid) := do
  let p ← s.findLeafPage f key
  let leaf ← s.fetchNode p
  match leaf.pairs[leaf.lowerBound f key]? with
  | some e => if f.compare key e.1 ≠ 0 then .ok (true, none) else .ok (false, some e.2)
  | none => .ok (true, none)

/-! ### Parents and children -/

/-- `maintain_child`: child `i` of node `p` gets `p` as its parent. -/
def maintainChild (s : IxIndexHandle K) (p : Int) (i : Nat) : Except IxError (IxIndexHandle K) := do
  let n ← s.fetchNode p
  if n.isLeaf then .ok s
  else do
    let child ← n.valueAt i
    s.modifyNode child fun c => { c with parent := p }

/-- The loops over `maintain_child`: the children from slot `i` on, `count` of them. -/
def maintainChildren (s : IxIndexHandle K) (p : Int) : Nat → Nat → Except IxError (IxIndexHandle K)
  | _, 0 => .ok s
  | i, count + 1 => do
    let s ← s.maintainChild p i
    s.maintainChildren p (i + 1) count

/-- The loop of `maintain_parent`: write the first key of `cur` into its parent and go up, until the
    parent has it already or there is none. -/
def maintainParentLoop [DecidableEq K] (s : IxIndexHandle K) : Nat → Int → Except IxError (IxIndexHandle K)
  | 0, _ => .error .diverged
  | fuel + 1, cur => do
    let c ← s.fetchNode cur
    if c.parent = ixNoPage then .ok s
    else do
      let u ← s.fetchNode c.parent
      let rank ← u.findChild cur
      let parentKey ← u.keyAt rank
      let childFirstKey ← c.keyAt 0
      if parentKey = childFirstKey then .ok s
      else (s.putNode c.parent (u.setKey rank childFirstKey)).maintainParentLoop fuel c.parent

/-- `maintain_parent`. -/
def maintainParent [DecidableEq K] (s : IxIndexHandle K) (p : Int) : Except IxError (IxIndexHandle K) := do
  let n ← s.fetchNode p
  if n.size = 0 then .ok s else s.maintainParentLoop (s.filePages + 1) p

/-! ### Insertion -/

/-- The leaf part of `split`: the new leaf `q` goes into the ring behind `p`. -/
def linkLeaf (s : IxIndexHandle K) (p q : Int) : Except IxError (IxIndexHandle K) := do
  let n ← s.fetchNode p
  let s ← s.modifyNode q fun w => { w with prevLeaf := p, nextLeaf := n.nextLeaf }
  let s ← s.modifyNode p fun n => { n with nextLeaf := q }
  let w ← s.fetchNode q
  s.modifyNode w.nextLeaf fun m => { m with prevLeaf := q }

/-- `split`: move the pairs of `p` from `get_min_size()` on to a new node behind it. -/
def split (f : IxFormat K) (s : IxIndexHandle K) (p : Int) : Except IxError (IxIndexHandle K × Int) := do
  let (s, q) := s.createNode
  let n ← s.fetchNode p
  let splitPoint := f.minSize
  let s ← if n.isLeaf then s.linkLeaf p q else .ok s
  let s ← s.modifyNode q fun w => { w with pairs := [], isLeaf := n.isLeaf, parent := n.parent }
  let w ← s.fetchNode q
  let w ← w.insertPairs 0 (n.pairs.drop splitPoint)
  let s := s.putNode q w
  let s ← s.modifyNode p fun n => { n with pairs := n.pairs.take splitPoint }
  let s ← if w.isLeaf then .ok s else s.maintainChildren q 0 w.size
  .ok (s, q)

/-- The root case of `insert_into_parent`: a new root above `old` and `new`. -/
def newRoot (s : IxIndexHandle K) (old : Int) (key : K) (new : Int) : Except IxError (IxIndexHandle K) := do
  let (s, r) := s.createNode
  let o ← s.fetchNode old
  let oldKey ← o.keyAt 0
  let root : IxNode K := { parent := ixNoPage, isLeaf := false, prevLeaf := ixNoPage, nextLeaf := ixNoPage, pairs := [] }
  let root ← root.insertPairs 0 [(oldKey, ⟨old, -1⟩)]
  let root ← root.insertPairs 1 [(key, ⟨new, -1⟩)]
  let s := s.putNode r root
  let s ← s.modifyNode old fun n => { n with parent := r }
  let s ← s.modifyNode new fun n => { n with parent := r }
  .ok { s with rootPage := r }

/-- `insert_into_parent`: put `(key, new)` behind `old` in their parent, splitting full parents upwards. -/
def insertIntoParent (f : IxFormat K) : Nat → IxIndexHandle K → Int → K → Int → Except IxError (IxIndexHandle K)
  | 0, _, _, _, _ => .error .diverged
  | fuel + 1, s, old, key, new => do
    let o ← s.fetchNode old
    if o.isRootPage then s.newRoot old key new
    else do
      let p := o.parent
      let parent ← s.fetchNode p
      let rank ← parent.findChild old
      let parent ← parent.insertPairs (rank + 1) [(key, ⟨new, -1⟩)]
      let s := s.putNode p parent
      if parent.isFull f then do
        let (s, q) ← s.split f p
        let w ← s.fetchNode q
        let wKey ← w.keyAt 0
        insertIntoParent f fuel s p wKey q
      else .ok s

/-- `insert_entry`: the page of the leaf that took the entry, or `IX_NO_PAGE` when the key is there. -/
def insertEntry [DecidableEq K] (f : IxFormat K) (s : IxIndexHandle K) (key : K) (value : Rid) :
    Except IxError (IxIndexHandle K × Int) := do
  let p ← s.findLeafPage f key
  let leaf ← s.fetchNode p
  let oldSize := leaf.size
  let (leaf, pos) ← leaf.insert f key value
  if leaf.size = oldSize then .ok (s, ixNoPage)
  else do
    let s := s.putNode p leaf
    let s ← if pos = 0 then s.maintainParent p else .ok s
    let leaf ← s.fetchNode p
    if leaf.isFull f then do
      let (s, q) ← s.split f p
      let s := if p = s.lastLeaf then { s with lastLeaf := q } else s
      let w ← s.fetchNode q
      let wKey ← w.keyAt 0
      let s ← insertIntoParent f (s.filePages + 1) s p wKey q
      let w ← s.fetchNode q
      let found ← w.keyAt (w.lowerBound f key)
      .ok (s, if f.compare found key = 0 then q else p)
    else .ok (s, p)

/-! ### Deletion -/

/-- `adjust_root`: what is left to do when the root lost a pair. Returns whether the root goes away. -/
def adjustRoot (s : IxIndexHandle K) (p : Int) : Except IxError (IxIndexHandle K × Bool) := do
  let root ← s.fetchNode p
  if root.isLeaf && root.size == 0 then
    .ok ({ s with rootPage := ixInitRootPage, firstLeaf := ixNoPage, lastLeaf := ixNoPage }, true)
  else if !root.isLeaf then
    if root.size = 1 then do
      -- `remove_and_return_only_child`
      let child ← root.valueAt 0
      let root ← root.erasePair 0
      let s := { s.putNode p root with rootPage := child }
      let s ← s.modifyNode child fun c => { c with parent := ixNoPage }
      .ok (s.releaseNodeHandle, true)
    else if root.size = 0 then
      .ok ({ s with rootPage := ixInitRootPage, firstLeaf := ixNoPage, lastLeaf := ixNoPage }, true)
    else .ok (s, false)
  else .ok (s, false)

/-- `redistribute`: move one pair from the sibling `neighbor` to `node`, child `index` of `parent`. -/
def redistribute (s : IxIndexHandle K) (neighbor node parent : Int) (index : Nat) : Except IxError (IxIndexHandle K) := do
  let m ← s.fetchNode neighbor
  let n ← s.fetchNode node
  let u ← s.fetchNode parent
  if index = 0 then do
    -- `node` is left of `neighbor`
    let n ← n.insertPairs n.size (m.pairs.take 1)
    let m ← m.erasePair 0
    let key ← m.keyAt 0
    let s := ((s.putNode node n).putNode neighbor m).putNode parent (u.setKey (index + 1) key)
    if n.isLeaf then .ok s else s.maintainChild node (n.size - 1)
  else do
    let n ← n.insertPairs 0 (m.pairs.drop (m.size - 1))
    let m ← m.erasePair (m.size - 1)
    let key ← n.keyAt 0
    let s := ((s.putNode node n).putNode neighbor m).putNode parent (u.setKey index key)
    s.maintainChild node 0

/-- `erase_leaf`: take `leaf` out of the ring. -/
def eraseLeaf (s : IxIndexHandle K) (leaf : Int) : Except IxError (IxIndexHandle K) := do
  let n ← s.fetchNode leaf
  if !n.isLeaf then .error .assertFailed
  else do
    let s ← if n.prevLeaf ≠ ixNoPage then s.modifyNode n.prevLeaf fun m => { m with nextLeaf := n.nextLeaf }
      else .ok { s with firstLeaf := n.nextLeaf }
    let n ← s.fetchNode leaf
    if n.nextLeaf ≠ ixNoPage then s.modifyNode n.nextLeaf fun m => { m with prevLeaf := n.prevLeaf }
    else .ok { s with lastLeaf := n.prevLeaf }

/-- `coalesce`: merge the right one of two siblings into the left one. `again` is
    `coalesce_or_redistribute`, for a parent that became too small. -/
def coalesce (f : IxFormat K) (again : IxIndexHandle K → Int → Except IxError (IxIndexHandle K × Bool))
    (s : IxIndexHandle K) (neighbor node parent : Int) (index : Nat) : Except IxError (IxIndexHandle K × Bool) := do
  let (left, right, index) := if index = 0 then (node, neighbor, index + 1) else (neighbor, node, index)
  let r ← s.fetchNode right
  let l ← s.fetchNode left
  let prevSize := l.size
  let l ← l.insertPairs prevSize r.pairs
  let s := s.putNode left l
  let s ← if !r.isLeaf then s.maintainChildren left prevSize (l.size - prevSize)
    else do
      let s ← s.eraseLeaf right
      .ok (if right = s.lastLeaf then { s with lastLeaf := left } else s)
  let s := s.releaseNodeHandle
  let u ← s.fetchNode parent
  let u ← u.erasePair index
  let s := s.putNode parent u
  if u.size = 0 && u.isRootPage then s.adjustRoot parent
  else if u.size < f.minSize && !u.isRootPage then again s parent
  else .ok (s, false)

/-- `coalesce_or_redistribute`: repair `node` after it lost a pair. Returns whether a node goes away. -/
def coalesceOrRedistribute (f : IxFormat K) : Nat → IxIndexHandle K → Int → Except IxError (IxIndexHandle K × Bool)
  | 0, _, _ => .error .diverged
  | fuel + 1, s, node => do
    let n ← s.fetchNode node
    if n.isRootPage then s.adjustRoot node
    else if n.size ≥ f.minSize then .ok (s, false)
    else do
      let parent := n.parent
      let u ← s.fetchNode parent
      let index ← u.findChild node
      let neighborIndex := if index = 0 then 1 else index - 1
      if neighborIndex ≥ u.size then .ok (s, false)
      else do
        let neighbor ← u.valueAt neighborIndex
        let m ← s.fetchNode neighbor
        if n.size + m.size ≥ f.minSize * 2 then do
          let s ← s.redistribute neighbor node parent index
          .ok (s, false)
        else do
          let (s, _) ← s.coalesce f (coalesceOrRedistribute f fuel) neighbor node parent index
          .ok (s, true)

/-- `delete_entry`: whether the key was there. -/
def deleteEntry [DecidableEq K] (f : IxFormat K) (s : IxIndexHandle K) (key : K) :
    Except IxError (IxIndexHandle K × Bool) := do
  if s.rootPage = ixNoPage then .ok (s, false)
  else do
    let p ← s.findLeafPage f key
    let leaf ← s.fetchNode p
    let oldSize := leaf.size
    let (leaf, pos) ← leaf.remove f key
    if leaf.size = oldSize then .ok (s, false)
    else do
      let s := s.putNode p leaf
      let s ← if pos = 0 ∧ leaf.size > 0 then s.maintainParent p else .ok s
      let (s, _) ← coalesceOrRedistribute f (s.filePages + 1) s p
      .ok (s, true)

end IxIndexHandle
end Rmdb
