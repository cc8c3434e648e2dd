import Rmdb.Index.Scan
import Rmdb.Storage.BufferPool

/-! The index over the buffer pool (`index/ix_index_handle.cpp`, `index/ix_scan.cpp`). Here a node is the bytes of a page in a
frame: an operation fetches the pages that it reads and changes, and unpins them. What happens to the pairs of a node is in
`Rmdb.Index.Node`; the same tree without the pool is `Rmdb.IxIndexHandle`. -/

namespace Rmdb

/-! ### The bytes of a node -/

/-- The bytes of a page with some of them overwritten. -/
def pageWrite (offset : Nat) (bs page : Bytes) : Bytes := page.take offset ++ bs ++ page.drop (offset + bs.length)

/-- What the nodes read of the file header, for keys as the bytes that are stored. -/
def bytesFormat (cols : List IxCol) : IxFormat Bytes := ⟨ixCompare cols, btreeOrder cols⟩

namespace IxNode
variable (cols : List IxCol)

/-- `get_key`: where key `i` is. -/
def keyOffset (i : Nat) : Nat := sizeofIxPageHdr + i * colTotLen cols

/-- `get_rid`: where `rids[i]` is, behind the `keys_size_` bytes of the keys. -/
def ridOffset (i : Nat) : Nat := sizeofIxPageHdr + (btreeOrder cols + 1) * colTotLen cols + i * sizeofRid

/-- `IxPageHdr` and the first `num_key` pairs of a page. -/
def load (page : Bytes) : IxNode Bytes where
  parent := readInt (page.drop 4)
  isLeaf := page.getD 12 0 != 0
  prevLeaf := readInt (page.drop 16)
  nextLeaf := readInt (page.drop 20)
  pairs := (List.range (readInt (page.drop 8)).toNat).map fun i =>
    ((page.drop (keyOffset cols i)).take (colTotLen cols), readRid (page.drop (ridOffset cols i)))

/-- The node in a page. The bytes behind its pairs stay as they are. -/
def store (n : IxNode Bytes) (page : Bytes) : Bytes :=
  let page := pageWrite 4 (putInt n.parent) page
  let page := pageWrite 8 (putInt n.size) page
  let page := pageWrite 12 [if n.isLeaf then 1 else 0] page
  let page := pageWrite 16 (putInt n.prevLeaf ++ putInt n.nextLeaf) page
  let page := pageWrite (keyOffset cols 0) (n.pairs.flatMap fun e => e.1) page
  pageWrite (ridOffset cols 0) (n.pairs.flatMap fun e => putRid e.2) page

end IxNode

/-! ### The state -/

/-- `file_hdr_` of an open index, and the pool that has its pages. -/
structure IxLayer where
  pool : BufferPool
  numPages : Int
  rootPage : Int
  firstLeaf : Int
  lastLeaf : Int

/-- `IxNodeHandle`: a frame, and the number of the page that is in it as long as it is pinned. -/
structure IxHandle where
  frame : Nat
  pageNo : Int
deriving DecidableEq, Repr

/-- What an operation raises. -/
inductive IxRaised where
  | ix (e : IxError)
  | disk (e : DiskError)
  /-- `create_node` without a frame. -/
  | noFrame
deriving DecidableEq, Repr

/-- An operation. An exception leaves the state as it is then. -/
abbrev IxM := ExceptT IxRaised (StateM IxLayer)

namespace IxLayer
variable (cols : List IxCol) (fd : Int)

/-- What a node does may fail. -/
def ofNode {α : Type} (r : Except IxError α) : IxM α :=
  match r with
  | .ok a => return a
  | .error e => throw (.ix e)

/-- `fetch_node`. -/
def fetchNode (p : Int) : IxM IxHandle := do
  let s ← get
  set { s with pool := (s.pool.fetchPage ⟨fd, p⟩).1 }
  match (s.pool.fetchPage ⟨fd, p⟩).2 with
  | .error e => throw (.disk e)
  | .ok none => throw (.ix (.fetchFailed p))
  | .ok (some fr) => return ⟨fr, p⟩

/-- `create_node`. -/
def createNode : IxM IxHandle := do
  let s ← get
  match (s.pool.newPage fd).2 with
  | .error e =>
    set { s with pool := (s.pool.newPage fd).1 }
    throw (.disk e)
  | .ok none =>
    set { s with pool := (s.pool.newPage fd).1 }
    throw .noFrame
  | .ok (some (id, fr)) =>
    set { s with pool := (s.pool.newPage fd).1, numPages := max s.numPages (id.pageNo + 1) }
    return ⟨fr, id.pageNo⟩

/-- `release_node_handle`. -/
def releaseNodeHandle : IxM Unit := modify fun s => { s with numPages := s.numPages - 1 }

def unpinPage (h : IxHandle) (isDirty : Bool) : IxM Unit :=
  modify fun s => { s with pool := (s.pool.unpinPage ⟨fd, h.pageNo⟩ isDirty).1 }

/-- The node behind a handle, as it is now. -/
def loadNode (h : IxHandle) : IxM (IxNode Bytes) := do
  let s ← get
  return .load cols (s.pool.pages h.frame).data

/-- A change of the node behind a handle, in place. -/
def putNode (h : IxHandle) (n : IxNode Bytes) : IxM Unit :=
  modify fun s =>
    let page := s.pool.pages h.frame
    { s with pool := s.pool.setPage h.frame { page with data := n.store cols page.data } }

def modifyNode (h : IxHandle) (g : IxNode Bytes → IxNode Bytes) : IxM Unit := do
  let n ← loadNode cols h
  putNode cols h (g n)

/-- A bound on the nodes of a walk that ends. -/
def walkBound : IxM Nat := do
  let s ← get
  return s.pool.disk.fd2pageno fd + 1

/-! ### Search -/

/-- The loop of `find_leaf_page`. -/
def findLeafLoop (key : Bytes) : Nat → IxHandle → IxM IxHandle
  | 0, _ => throw (.ix .diverged)
  | fuel + 1, h => do
    let n ← loadNode cols h
    if n.isLeaf then return h
    else
      let childPageNo ← ofNode (n.internalLookup (bytesFormat cols) key)
      let child ← fetchNode fd childPageNo
      unpinPage fd h false
      findLeafLoop key fuel child

/-- `find_leaf_page`. -/
def findLeafPage (key : Bytes) : IxM IxHandle := do
  let fuel ← walkBound fd
  let s ← get
  let root ← fetchNode fd s.rootPage
  findLeafLoop cols fd key fuel root

/-- `get_value`. -/
def getValue (key : Bytes) : IxM (Option Rid) := do
  let h ← findLeafPage cols fd key
  let leaf ← loadNode cols h
  unpinPage fd h false
  return leaf.leafLookup (bytesFormat cols) key

/-- `is_unique`. -/
def isUnique (key : Bytes) : IxM (Bool × Option Rid) := do
  let h ← findLeafPage cols fd key
  let leaf ← loadNode cols h
  unpinPage fd h false
  match leaf.pairs[leaf.lowerBound (bytesFormat cols) key]? with
  | some e => if (bytesFormat cols).compare key e.1 ≠ 0 then return (true, none) else return (false, some e.2)
  | none => return (true, none)

/-- The position `pos` in a leaf, or the first one of the next leaf. -/
def iidAt (lastLeaf p : Int) (leaf : IxNode Bytes) (pos : Nat) : Iid :=
  if pos = leaf.size then
    if p = lastLeaf then ⟨p, pos⟩ else ⟨leaf.nextLeaf, 0⟩
  else ⟨p, pos⟩

/-- `lower_bound` and `upper_bound`, for the search in the leaf. -/
def bound (search : IxNode Bytes → Nat) (key : Bytes) : IxM Iid := do
  let h ← findLeafPage cols fd key
  let leaf ← loadNode cols h
  let s ← get
  unpinPage fd h false
  return iidAt s.lastLeaf h.pageNo leaf (search leaf)

def lowerBound (key : Bytes) : IxM Iid := bound cols fd (fun leaf => leaf.lowerBound (bytesFormat cols) key) key

def upperBound (key : Bytes) : IxM Iid := bound cols fd (fun leaf => leaf.upperBound (bytesFormat cols) key) key

/-! ### Parents and children -/

/-- `maintain_child`. -/
def maintainChild (h : IxHandle) (i : Nat) : IxM Unit := do
  let n ← loadNode cols h
  if n.isLeaf then return
  else
    let childPageNo ← ofNode (n.valueAt i)
    let child ← fetchNode fd childPageNo
    modifyNode cols child fun c => { c with parent := h.pageNo }
    unpinPage fd child true

/-- The loops over `maintain_child`: the children from slot `i` on, `count` of them. -/
def maintainChildren (h : IxHandle) : Nat → Nat → IxM Unit
  | _, 0 => return
  | i, count + 1 => do
    maintainChild cols fd h i
    maintainChildren h (i + 1) count

/-- `if (curr != node) unpin_page(curr, true)` in `maintain_parent`. -/
def leaveNode (isNode : Bool) (curr : IxHandle) : IxM Unit := if isNode then return else unpinPage fd curr true

/-- The loop of `maintain_parent`. `isNode` says that `curr` is the node it began with, which the caller unpins. The rank is
    valid after the assertion in `find_child`. -/
def maintainParentLoop : Nat → Bool → IxHandle → IxM Unit
  | 0, _, _ => throw (.ix .diverged)
  | fuel + 1, isNode, curr => do
    let c ← loadNode cols curr
    if c.parent = ixNoPage then leaveNode fd isNode curr
    else
      let parent ← fetchNode fd c.parent
      let u ← loadNode cols parent
      let rank ← ofNode (u.findChild curr.pageNo)
      let parentKey ← ofNode (u.keyAt rank)
      let childFirstKey ← ofNode (c.keyAt 0)
      if parentKey = childFirstKey then
        leaveNode fd isNode curr
        unpinPage fd parent false
      else
        putNode cols parent (u.setKey rank childFirstKey)
        leaveNode fd isNode curr
        maintainParentLoop fuel false parent

/-- `maintain_parent`. -/
def maintainParent (h : IxHandle) : IxM Unit := do
  let n ← loadNode cols h
  if n.size = 0 then return
  else
    let fuel ← walkBound fd
    maintainParentLoop cols fd fuel true h

/-! ### Insertion -/

/-- The leaf part of `split`. -/
def linkLeaf (h q : IxHandle) : IxM Unit := do
  let n ← loadNode cols h
  modifyNode cols q fun w => { w with prevLeaf := h.pageNo, nextLeaf := n.nextLeaf }
  modifyNode cols h fun n => { n with nextLeaf := q.pageNo }
  let w ← loadNode cols q
  let next ← fetchNode fd w.nextLeaf
  modifyNode cols next fun m => { m with prevLeaf := q.pageNo }
  unpinPage fd next true

/-- `split`. -/
def split (h : IxHandle) : IxM IxHandle := do
  let q ← createNode fd
  let splitPoint := (bytesFormat cols).minSize
  let n ← loadNode cols h
  (if n.isLeaf then linkLeaf cols fd h q else pure ())
  let n ← loadNode cols h
  modifyNode cols q fun w => { w with pairs := [], isLeaf := n.isLeaf, parent := n.parent }
  let w ← loadNode cols q
  let w ← ofNode (w.insertPairs 0 (n.pairs.drop splitPoint))
  putNode cols q w
  modifyNode cols h fun n => { n with pairs := n.pairs.take splitPoint }
  (if w.isLeaf then pure () else maintainChildren cols fd q 0 w.size)
  return q

/-- The root case of `insert_into_parent`. -/
def newRoot (old : IxHandle) (key : Bytes) (new : IxHandle) : IxM Unit := do
  let r ← createNode fd
  let o ← loadNode cols old
  let oldKey ← ofNode (o.keyAt 0)
  let root : IxNode Bytes := { parent := ixNoPage, isLeaf := false, prevLeaf := ixNoPage, nextLeaf := ixNoPage, pairs := [] }
  let root ← ofNode (root.insertPairs 0 [(oldKey, ⟨old.pageNo, -1⟩)])
  let root ← ofNode (root.insertPairs 1 [(key, ⟨new.pageNo, -1⟩)])
  putNode cols r root
  modifyNode cols old fun n => { n with parent := r.pageNo }
  modifyNode cols new fun n => { n with parent := r.pageNo }
  modify fun s => { s with rootPage := r.pageNo }
  unpinPage fd r true

/-- `insert_into_parent`. -/
def insertIntoParent : Nat → IxHandle → Bytes → IxHandle → IxM Unit
  | 0, _, _, _ => throw (.ix .diverged)
  | fuel + 1, old, key, new => do
    let o ← loadNode cols old
    if o.isRootPage then newRoot cols fd old key new
    else
      let parent ← fetchNode fd o.parent
      let u ← loadNode cols parent
      let rank ← ofNode (u.findChild old.pageNo)
      let u ← ofNode (u.insertPairs (rank + 1) [(key, ⟨new.pageNo, -1⟩)])
      putNode cols parent u
      if u.isFull (bytesFormat cols) then
        let q ← split cols fd parent
        let w ← loadNode cols q
        let wKey ← ofNode (w.keyAt 0)
        insertIntoParent fuel parent wKey q
        unpinPage fd q true
        unpinPage fd parent true
      else unpinPage fd parent true

/-- What `insert_entry` does with a leaf that is full. -/
def splitLeaf (h : IxHandle) (key : Bytes) : IxM Int := do
  let q ← split cols fd h
  modify fun s => if h.pageNo = s.lastLeaf then { s with lastLeaf := q.pageNo } else s
  let w ← loadNode cols q
  let wKey ← ofNode (w.keyAt 0)
  let fuel ← walkBound fd
  insertIntoParent cols fd fuel h wKey q
  let w ← loadNode cols q
  let found ← ofNode (w.keyAt (w.lowerBound (bytesFormat cols) key))
  unpinPage fd h true
  unpinPage fd q true
  return if (bytesFormat cols).compare found key = 0 then q.pageNo else h.pageNo

/-- `insert_entry`. -/
def insertEntry (key : Bytes) (value : Rid) : IxM Int := do
  let h ← findLeafPage cols fd key
  let leaf ← loadNode cols h
  let (leaf', pos) ← ofNode (leaf.insert (bytesFormat cols) key value)
  if leaf'.size = leaf.size then
    unpinPage fd h false
    return ixNoPage
  else
    putNode cols h leaf'
    (if pos = 0 then maintainParent cols fd h else pure ())
    let leaf ← loadNode cols h
    if leaf.isFull (bytesFormat cols) then splitLeaf cols fd h key
    else
      unpinPage fd h true
      return h.pageNo

/-! ### Deletion -/

/-- `adjust_root`. -/
def adjustRoot (h : IxHandle) : IxM Bool := do
  let root ← loadNode cols h
  if root.isLeaf && root.size == 0 then
    modify fun s => { s with rootPage := ixInitRootPage, firstLeaf := ixNoPage, lastLeaf := ixNoPage }
    return true
  else if !root.isLeaf then
    if root.size = 1 then
      -- `remove_and_return_only_child`
      let childPageNo ← ofNode (root.valueAt 0)
      let root ← ofNode (root.erasePair 0)
      putNode cols h root
      modify fun s => { s with rootPage := childPageNo }
      let child ← fetchNode fd childPageNo
      modifyNode cols child fun c => { c with parent := ixNoPage }
      unpinPage fd child true
      releaseNodeHandle
      return true
    else if root.size = 0 then
      modify fun s => { s with rootPage := ixInitRootPage, firstLeaf := ixNoPage, lastLeaf := ixNoPage }
      return true
    else return false
  else return false

/-- `redistribute`. -/
def redistribute (neighbor node parent : IxHandle) (index : Nat) : IxM Unit := do
  let m ← loadNode cols neighbor
  let n ← loadNode cols node
  if index = 0 then
    let n ← ofNode (n.insertPairs n.size (m.pairs.take 1))
    putNode cols node n
    let m ← loadNode cols neighbor
    let m ← ofNode (m.erasePair 0)
    putNode cols neighbor m
    let key ← ofNode (m.keyAt 0)
    modifyNode cols parent (·.setKey (index + 1) key)
    if n.isLeaf then return else maintainChild cols fd node (n.size - 1)
  else
    let n ← ofNode (n.insertPairs 0 (m.pairs.drop (m.size - 1)))
    putNode cols node n
    let m ← loadNode cols neighbor
    let m ← ofNode (m.erasePair (m.size - 1))
    putNode cols neighbor m
    let key ← ofNode (n.keyAt 0)
    modifyNode cols parent (·.setKey index key)
    maintainChild cols fd node 0

/-- `erase_leaf`, the leaf before. -/
def unlinkPrev (h : IxHandle) : IxM Unit := do
  let n ← loadNode cols h
  if n.prevLeaf ≠ ixNoPage then
    let prev ← fetchNode fd n.prevLeaf
    modifyNode cols prev fun m => { m with nextLeaf := n.nextLeaf }
    unpinPage fd prev true
  else modify fun s => { s with firstLeaf := n.nextLeaf }

/-- `erase_leaf`, the leaf behind. -/
def unlinkNext (h : IxHandle) : IxM Unit := do
  let n ← loadNode cols h
  if n.nextLeaf ≠ ixNoPage then
    let next ← fetchNode fd n.nextLeaf
    modifyNode cols next fun m => { m with prevLeaf := n.prevLeaf }
    unpinPage fd next true
  else modify fun s => { s with lastLeaf := n.prevLeaf }

/-- `erase_leaf`. -/
def eraseLeaf (h : IxHandle) : IxM Unit := do
  let n ← loadNode cols h
  if !n.isLeaf then throw (.ix .assertFailed)
  else
    unlinkPrev cols fd h
    unlinkNext cols fd h

/-- `coalesce` for two siblings, of which the pairs of the right one go to the left one. -/
def mergeInto (again : IxHandle → IxM Bool) (left right parent : IxHandle) (index : Nat) : IxM Bool := do
  let r ← loadNode cols right
  let l ← loadNode cols left
  let prevSize := l.size
  let l ← ofNode (l.insertPairs prevSize r.pairs)
  putNode cols left l
  (if !r.isLeaf then maintainChildren cols fd left prevSize (l.size - prevSize)
    else do
      eraseLeaf cols fd right
      modify fun s => if right.pageNo = s.lastLeaf then { s with lastLeaf := left.pageNo } else s)
  releaseNodeHandle
  let u ← loadNode cols parent
  let u ← ofNode (u.erasePair index)
  putNode cols parent u
  if u.size = 0 && u.isRootPage then adjustRoot cols fd parent
  else if u.size < (bytesFormat cols).minSize && !u.isRootPage then again parent
  else return false

/-- `coalesce`. `again` is `coalesce_or_redistribute`. -/
def coalesce (again : IxHandle → IxM Bool) (neighbor node parent : IxHandle) (index : Nat) : IxM Bool :=
  if index = 0 then mergeInto cols fd again node neighbor parent (index + 1)
  else mergeInto cols fd again neighbor node parent index

/-- An exception handler that unpins what was fetched and raises again, as in `delete_entry` and `coalesce_or_redistribute`. -/
def releasing {α : Type} (hs : List IxHandle) (body : IxM α) : IxM α :=
  tryCatch body fun e => do
    hs.forM fun h => unpinPage fd h false
    throw e

/-- The siblings are there: `redistribute` or `coalesce`. -/
def repair (again : IxHandle → IxM Bool) (neighbor node parent : IxHandle) (index : Nat) : IxM Bool := do
  let n ← loadNode cols node
  let m ← loadNode cols neighbor
  if n.size + m.size ≥ (bytesFormat cols).minSize * 2 then
    redistribute cols fd neighbor node parent index
    unpinPage fd parent true
    unpinPage fd neighbor true
    return false
  else
    let _ ← coalesce cols fd again neighbor node parent index
    unpinPage fd parent true
    unpinPage fd neighbor true
    return true

/-- `coalesce_or_redistribute` with the parent fetched: it finds the sibling. -/
def withSibling (again : IxHandle → IxM Bool) (node parent : IxHandle) : IxM Bool := do
  let u ← loadNode cols parent
  let index ← releasing fd [parent] (ofNode (u.findChild node.pageNo))
  let neighborIndex := if index = 0 then 1 else index - 1
  if neighborIndex ≥ u.size then
    unpinPage fd parent false
    return false
  else
    let neighbor ← releasing fd [parent] (do
      let p ← ofNode (u.valueAt neighborIndex)
      fetchNode fd p)
    releasing fd [parent, neighbor] (repair cols fd again neighbor node parent index)

/-- `coalesce_or_redistribute`. -/
def coalesceOrRedistribute : Nat → IxHandle → IxM Bool
  | 0, _ => throw (.ix .diverged)
  | fuel + 1, h => do
    let n ← loadNode cols h
    if n.isRootPage then adjustRoot cols fd h
    else if n.size ≥ (bytesFormat cols).minSize then return false
    else
      let parent ← fetchNode fd n.parent
      withSibling cols fd (coalesceOrRedistribute fuel) h parent

/-- `delete_entry` with the leaf found. -/
def deleteInLeaf (h : IxHandle) (key : Bytes) : IxM Bool := do
  let leaf ← loadNode cols h
  let (leaf', pos) ← ofNode (leaf.remove (bytesFormat cols) key)
  if leaf'.size = leaf.size then
    unpinPage fd h false
    return false
  else
    putNode cols h leaf'
    (if pos = 0 ∧ leaf'.size > 0 then maintainParent cols fd h else pure ())
    let fuel ← walkBound fd
    let _ ← coalesceOrRedistribute cols fd fuel h
    unpinPage fd h true
    return true

/-- `delete_entry`. -/
def deleteEntry (key : Bytes) : IxM Bool := do
  let s ← get
  if s.rootPage = ixNoPage then return false
  else
    let h ← findLeafPage cols fd key
    releasing fd [h] (deleteInLeaf cols fd h key)

end IxLayer

/-! ### A new index -/

/-- A page of `create_index`: an empty leaf between the leaves `prev` and `next`. -/
def createdPage (cols : List IxCol) (prev next : Int) : Bytes :=
  IxNode.store cols { parent := ixNoPage, isLeaf := true, prevLeaf := prev, nextLeaf := next, pairs := [] } (pageWrite 0 (putInt ixNoPage) zeroPage)

/-- The file that `create_index` writes, open as `fd`. The header page is read and written with the file header only. -/
def createdDisk (cols : List IxCol) (fd : Int) : Disk where
  pages := fun id =>
    if id = ⟨fd, 0⟩ then some zeroPage
    else if id = ⟨fd, ixLeafHeaderPage⟩ then some (createdPage cols ixInitRootPage ixInitRootPage)
    else if id = ⟨fd, ixInitRootPage⟩ then some (createdPage cols ixLeafHeaderPage ixLeafHeaderPage)
    else none
  fd2pageno := fun i => if i = fd then ixInitNumPages.toNat else 0

/-- `open_index` of the new file, with a pool of its own. -/
def IxLayer.created (cols : List IxCol) (fd : Int) (poolSize : Nat) (fds : Nat → Int) : IxLayer where
  pool := .create poolSize fds (createdDisk cols fd)
  numPages := ixInitNumPages
  rootPage := ixInitRootPage
  firstLeaf := ixInitRootPage
  lastLeaf := ixInitRootPage

/-! ### Scans -/

/-- `IxScan`: its position, its end and the leaf in `cached_node_`. -/
structure IxCursor where
  iid : Iid
  stop : Iid
  cached : Option IxHandle
deriving DecidableEq, Repr

namespace IxCursor
open IxLayer
variable (cols : List IxCol) (fd : Int) (c : IxCursor)

/-- The leaf of the position: the cached one, or it is fetched in its place. -/
def leaf : IxM IxHandle :=
  match c.cached with
  | none => fetchNode fd c.iid.pageNo
  | some h =>
    if h.pageNo = c.iid.pageNo then return h
    else do
      unpinPage fd h false
      fetchNode fd c.iid.pageNo

/-- The position behind the leaf `h`: in the next leaf, or the end. -/
def leaveLeaf (h : IxHandle) (n : IxNode Bytes) : IxM IxCursor :=
  if n.nextLeaf ≠ ixNoPage ∧ n.nextLeaf ≠ ixLeafHeaderPage then do
    unpinPage fd h false
    let next ← fetchNode fd n.nextLeaf
    return ⟨⟨n.nextLeaf, 0⟩, c.stop, some next⟩
  else do
    unpinPage fd h false
    return ⟨c.stop, c.stop, none⟩

/-- `IxScan::next`. -/
def next : IxM IxCursor :=
  if c.iid = c.stop then throw (.ix .assertFailed)
  else do
    let h ← c.leaf fd
    let n ← loadNode cols h
    if !n.isLeaf then throw (.ix .assertFailed)
    else if c.iid.slotNo ≥ n.size then c.leaveLeaf fd h n
    else if c.iid.slotNo + 1 = n.size then c.leaveLeaf fd h n
    else return ⟨⟨c.iid.pageNo, c.iid.slotNo + 1⟩, c.stop, some h⟩

/-- `IxScan::rid`, as far as it changes the scan. -/
def rid : IxM IxCursor :=
  if c.iid = c.stop then throw (.ix .entryNotFound)
  else do
    let h ← c.leaf fd
    let n ← loadNode cols h
    if !n.isLeaf then throw (.ix .entryNotFound)
    else if c.iid.slotNo ≥ n.size then throw (.ix .entryNotFound)
    else return { c with cached := some h }

/-- `~IxScan`. -/
def close : IxM Unit :=
  match c.cached with
  | none => return
  | some h => unpinPage fd h false

end IxCursor

/-! ### Sessions -/

/-- A call of the index, or of one of the scans that are open. -/
inductive IxLayerCall where
  | insertEntry (key : Bytes) (value : Rid)
  | deleteEntry (key : Bytes)
  | getValue (key : Bytes)
  | isUnique (key : Bytes)
  | lowerBound (key : Bytes)
  | upperBound (key : Bytes)
  | openScan (lower upper : Iid)
  | scanNext (i : Nat)
  | scanRid (i : Nat)
  | closeScan (i : Nat)

/-- An open index and the scans over it. -/
structure IxSession where
  layer : IxLayer
  scans : List IxCursor

namespace IxSession
variable (cols : List IxCol) (fd : Int) (s : IxSession)

/-- A call of the index. -/
def index {α : Type} (m : IxM α) : Except IxRaised Unit × IxSession :=
  let r := (m.run.run s.layer).run
  (r.1.map fun _ => (), { s with layer := r.2 })

/-- A call of scan `i`, which ends as `change` says. -/
def scan (i : Nat) {α : Type} (m : IxCursor → IxM α) (change : α → List IxCursor) : Except IxRaised Unit × IxSession :=
  match s.scans[i]? with
  | none => (.error (.ix .assertFailed), s)
  | some c =>
    match ((m c).run.run s.layer).run with
    | (.ok a, layer) => (.ok (), ⟨layer, change a⟩)
    | (.error e, layer) => (.error e, { s with layer := layer })

/-- A call, and whether it returns. -/
def call : IxLayerCall → Except IxRaised Unit × IxSession
  | .insertEntry key value => s.index (IxLayer.insertEntry cols fd key value)
  | .deleteEntry key => s.index (IxLayer.deleteEntry cols fd key)
  | .getValue key => s.index (IxLayer.getValue cols fd key)
  | .isUnique key => s.index (IxLayer.isUnique cols fd key)
  | .lowerBound key => s.index (IxLayer.lowerBound cols fd key)
  | .upperBound key => s.index (IxLayer.upperBound cols fd key)
  | .openScan lower upper => (.ok (), { s with scans := s.scans ++ [⟨lower, upper, none⟩] })
  | .scanNext i => s.scan i (·.next cols fd) fun c => s.scans.set i c
  | .scanRid i => s.scan i (·.rid cols fd) fun c => s.scans.set i c
  | .closeScan i => s.scan i (·.close fd) fun _ => s.scans.eraseIdx i

/-- The call is one of a scan. -/
def isScanCall : IxLayerCall → Bool
  | .scanNext _ | .scanRid _ | .closeScan _ => true
  | .insertEntry .. | .deleteEntry _ | .getValue _ | .isUnique _ | .lowerBound _ | .upperBound _ | .openScan .. => false

/-- A call as a step, while the disk operations succeed. A session goes on after an operation of the index that raises, and ends
    with a scan that does. -/
def step (c : IxLayerCall) : Except IxRaised IxSession :=
  match s.call cols fd c with
  | (.ok _, t) => .ok t
  | (.error (.disk e), _) => .error (.disk e)
  | (.error e, t) => if isScanCall c then .error e else .ok t

/-- The handles in the `cached_node_` of the scans. -/
def caches : List IxHandle := s.scans.filterMap (·.cached)

end IxSession
end Rmdb
