import Rmdb.Index.Layer

/-! The operations of an index with `root_latch_` (`index/ix_index_handle.cpp`): `find_leaf_page` takes it for an insertion and
a deletion, and says so in a boolean; each exit gives it back by hand. -/

namespace Rmdb

/-- `root_latch_`: it is taken, or it was released when it was free; and `is_root_locked` of the operation. -/
structure RootLatch where
  taken : Bool
  overReleased : Bool
  isRootLocked : Bool
deriving DecidableEq, Repr

/-- An index with its latch. -/
structure IxLatched where
  layer : IxLayer
  latch : RootLatch

/-- An operation with the latch. -/
abbrev IxLatchM := ExceptT IxRaised (StateM IxLatched)

/-- `Operation`. -/
inductive Operation where
  | find
  | insert
  | delete
deriving DecidableEq, Repr

namespace IxLatched
variable (cols : List IxCol) (fd : Int)

/-- What has nothing to do with the latch. -/
def plain {α : Type} (m : IxM α) : IxLatchM α :=
  ExceptT.mk fun s => ((m.run.run s.layer).run.1, { s with layer := (m.run.run s.layer).run.2 })

/-- `root_latch_.lock()`. Whoever finds it taken waits for ever: nobody else is there to release it. -/
def lock : IxLatchM Unit := do
  let s ← get
  if s.latch.taken then throw (.ix .diverged)
  else set { s with latch := { s.latch with taken := true } }

/-- `root_latch_.unlock()`. -/
def unlock : IxLatchM Unit := modify fun s =>
  { s with latch := if s.latch.taken then { s.latch with taken := false } else { s.latch with overReleased := true } }

/-- An assignment to `is_root_locked`. -/
def setRootLocked (b : Bool) : IxLatchM Unit := modify fun s => { s with latch := { s.latch with isRootLocked := b } }

/-- `if (is_root_locked) root_latch_.unlock();` -/
def unlockIfLocked : IxLatchM Unit := do
  let s ← get
  if s.latch.isRootLocked then unlock else return

/-- `if (*root_is_latched)`, and then also `*root_is_latched = false;` -/
def releaseEarly : IxLatchM Unit := do
  let s ← get
  if s.latch.isRootLocked then
    unlock
    setRootLocked false
  else return

/-! ### Search -/

/-- `find_leaf_page`: the leaf, and whether the latch was taken. -/
def findLeafPage (operation : Operation) (key : Bytes) : IxLatchM (IxHandle × Bool) := do
  (if operation = .find then pure () else lock)
  let h ← plain (IxLayer.findLeafPage cols fd key)
  return (h, operation != .find)

/-- `get_value`. -/
def getValue (key : Bytes) : IxLatchM (Option Rid) := do
  let (h, _) ← findLeafPage cols fd .find key
  let leaf ← plain (IxLayer.loadNode cols h)
  plain (IxLayer.unpinPage fd h false)
  return leaf.leafLookup (bytesFormat cols) key

/-- `is_unique`. -/
def isUnique (key : Bytes) : IxLatchM (Bool × Option Rid) := do
  let (h, _) ← findLeafPage cols fd .find key
  let leaf ← plain (IxLayer.loadNode cols h)
  plain (IxLayer.unpinPage fd h false)
  match leaf.pairs[leaf.lowerBound (bytesFormat cols) key]? with
  | some e => if (bytesFormat cols).compare key e.1 ≠ 0 then return (true, none) else return (false, some e.2)
  | none => return (true, none)

/-- `lower_bound` and `upper_bound`, for the search in the leaf. -/
def bound (search : IxNode Bytes → Nat) (key : Bytes) : IxLatchM Iid := do
  let (h, _) ← findLeafPage cols fd .find key
  let leaf ← plain (IxLayer.loadNode cols h)
  let s ← get
  plain (IxLayer.unpinPage fd h false)
  return IxLayer.iidAt s.layer.lastLeaf h.pageNo leaf (search leaf)

def lowerBound (key : Bytes) : IxLatchM Iid := bound cols fd (fun leaf => leaf.lowerBound (bytesFormat cols) key) key

def upperBound (key : Bytes) : IxLatchM Iid := bound cols fd (fun leaf => leaf.upperBound (bytesFormat cols) key) key

/-! ### Insertion -/

/-- `insert_entry`. -/
def insertEntry (key : Bytes) (value : Rid) : IxLatchM Int := do
  let (h, isRootLocked) ← findLeafPage cols fd .insert key
  setRootLocked isRootLocked
  let leaf ← plain (IxLayer.loadNode cols h)
  let (leaf', pos) ← plain (IxLayer.ofNode (leaf.insert (bytesFormat cols) key value))
  if leaf'.size = leaf.size then
    unlockIfLocked
    plain (IxLayer.unpinPage fd h false)
    return ixNoPage
  else
    plain (IxLayer.putNode cols h leaf')
    (if pos = 0 then plain (IxLayer.maintainParent cols fd h) else pure ())
    let leaf ← plain (IxLayer.loadNode cols h)
    if leaf.isFull (bytesFormat cols) then
      let p ← plain (IxLayer.splitLeaf cols fd h key)
      unlockIfLocked
      return p
    else
      plain (IxLayer.unpinPage fd h true)
      unlockIfLocked
      return h.pageNo

/-! ### Deletion -/

/-- The end of `coalesce` for two siblings, of which the pairs of the right one go to the left one. -/
def mergeInto (again : IxHandle → IxLatchM Bool) (left right parent : IxHandle) (index : Nat) : IxLatchM Bool := do
  let r ← plain (IxLayer.loadNode cols right)
  let l ← plain (IxLayer.loadNode cols left)
  let prevSize := l.size
  let l ← plain (IxLayer.ofNode (l.insertPairs prevSize r.pairs))
  plain (IxLayer.putNode cols left l)
  (if !r.isLeaf then plain (IxLayer.maintainChildren cols fd left prevSize (l.size - prevSize))
    else do
      plain (IxLayer.eraseLeaf cols fd right)
      plain (modify fun s => if right.pageNo = s.lastLeaf then { s with lastLeaf := left.pageNo } else s))
  plain IxLayer.releaseNodeHandle
  let u ← plain (IxLayer.loadNode cols parent)
  let u ← plain (IxLayer.ofNode (u.erasePair index))
  plain (IxLayer.putNode cols parent u)
  if u.size = 0 && u.isRootPage then plain (IxLayer.adjustRoot cols fd parent)
  else if u.size < (bytesFormat cols).minSize && !u.isRootPage then again parent
  else return false

/-- `coalesce`. -/
def coalesce (again : IxHandle → IxLatchM Bool) (neighbor node parent : IxHandle) (index : Nat) : IxLatchM Bool :=
  if index = 0 then mergeInto cols fd again node neighbor parent (index + 1)
  else mergeInto cols fd again neighbor node parent index

/-- The handler of `coalesce_or_redistribute`, with the nodes that it unpins. -/
def releasing {α : Type} (hs : List IxHandle) (body : IxLatchM α) : IxLatchM α :=
  tryCatch body fun e => do
    plain (hs.forM fun h => IxLayer.unpinPage fd h false)
    releaseEarly
    throw e

/-- The siblings are there: before `redistribute` the latch is released. -/
def repair (again : IxHandle → IxLatchM Bool) (neighbor node parent : IxHandle) (index : Nat) : IxLatchM Bool := do
  let n ← plain (IxLayer.loadNode cols node)
  let m ← plain (IxLayer.loadNode cols neighbor)
  if n.size + m.size ≥ (bytesFormat cols).minSize * 2 then
    releaseEarly
    plain (IxLayer.redistribute cols fd neighbor node parent index)
    plain (IxLayer.unpinPage fd parent true)
    plain (IxLayer.unpinPage fd neighbor true)
    return false
  else
    let _ ← coalesce cols fd again neighbor node parent index
    plain (IxLayer.unpinPage fd parent true)
    plain (IxLayer.unpinPage fd neighbor true)
    return true

/-- `coalesce_or_redistribute` with the parent fetched. -/
def withSibling (again : IxHandle → IxLatchM Bool) (node parent : IxHandle) : IxLatchM Bool := do
  let u ← plain (IxLayer.loadNode cols parent)
  let index ← releasing fd [parent] (plain (IxLayer.ofNode (u.findChild node.pageNo)))
  let neighborIndex := if index = 0 then 1 else index - 1
  if neighborIndex ≥ u.size then
    plain (IxLayer.unpinPage fd parent false)
    return false
  else
    let neighbor ← releasing fd [parent] (plain (do
      let p ← IxLayer.ofNode (u.valueAt neighborIndex)
      IxLayer.fetchNode fd p))
    releasing fd [parent, neighbor] (repair cols fd again neighbor node parent index)

/-- `coalesce_or_redistribute`. The latch is released once the root is adjusted. -/
def coalesceOrRedistribute : Nat → IxHandle → IxLatchM Bool
  | 0, _ => throw (.ix .diverged)
  | fuel + 1, h => do
    let n ← plain (IxLayer.loadNode cols h)
    if n.isRootPage then
      let isDelete ← plain (IxLayer.adjustRoot cols fd h)
      releaseEarly
      return isDelete
    else if n.size ≥ (bytesFormat cols).minSize then return false
    else
      let parent ← releasing fd [] (plain (IxLayer.fetchNode fd n.parent))
      withSibling cols fd (coalesceOrRedistribute fuel) h parent

/-- `delete_entry` with the leaf found. -/
def deleteInLeaf (h : IxHandle) (key : Bytes) : IxLatchM Bool := do
  let leaf ← plain (IxLayer.loadNode cols h)
  let (leaf', pos) ← plain (IxLayer.ofNode (leaf.remove (bytesFormat cols) key))
  if leaf'.size = leaf.size then
    unlockIfLocked
    plain (IxLayer.unpinPage fd h false)
    return false
  else
    plain (IxLayer.putNode cols h leaf')
    (if pos = 0 ∧ leaf'.size > 0 then plain (IxLayer.maintainParent cols fd h) else pure ())
    let fuel ← plain (IxLayer.walkBound fd)
    let _ ← coalesceOrRedistribute cols fd fuel h
    plain (IxLayer.unpinPage fd h true)
    unlockIfLocked
    return true

/-- The handler of `delete_entry`. -/
def deleting {α : Type} (hs : List IxHandle) (body : IxLatchM α) : IxLatchM α :=
  tryCatch body fun e => do
    plain (hs.forM fun h => IxLayer.unpinPage fd h false)
    unlockIfLocked
    throw e

/-- `delete_entry`. -/
def deleteEntry (key : Bytes) : IxLatchM Bool := do
  let s ← get
  if s.layer.rootPage = ixNoPage then return false
  else
    setRootLocked false
    let (h, isRootLocked) ← deleting fd [] (findLeafPage cols fd .delete key)
    setRootLocked isRootLocked
    deleting fd [h] (deleteInLeaf cols fd h key)

end IxLatched

/-! ### Runs -/

/-- A call of the index, or what the other users of the pool do to it. -/
inductive IxLatchCall where
  | getValue (key : Bytes)
  | isUnique (key : Bytes)
  | insertEntry (key : Bytes) (value : Rid)
  | deleteEntry (key : Bytes)
  | lowerBound (key : Bytes)
  | upperBound (key : Bytes)
  | others (pool : BufferPool)

namespace IxRaised

/-- It is an exception. Otherwise the process is aborted, reads or writes what is not there, or never comes to an end. -/
def isException : IxRaised → Bool
  | .ix (.fetchFailed _) | .ix .entryNotFound | .disk _ => true
  | .ix .assertFailed | .ix .staleSlot | .ix .diverged | .noFrame => false

end IxRaised

namespace IxLatched
variable (cols : List IxCol) (fd : Int) (s : IxLatched)

/-- How a call ends. -/
def finish {α : Type} (m : IxLatchM α) : Except IxRaised Unit × IxLatched := ((m.run.run s).run.1.map fun _ => (), (m.run.run s).run.2)

def call : IxLatchCall → Except IxRaised Unit × IxLatched
  | .getValue key => s.finish (getValue cols fd key)
  | .isUnique key => s.finish (isUnique cols fd key)
  | .insertEntry key value => s.finish (insertEntry cols fd key value)
  | .deleteEntry key => s.finish (deleteEntry cols fd key)
  | .lowerBound key => s.finish (lowerBound cols fd key)
  | .upperBound key => s.finish (upperBound cols fd key)
  | .others pool => (.ok (), { s with layer := { s.layer with pool := pool } })

/-- A call that returns or raises an exception. -/
def step (c : IxLatchCall) : Except IxRaised IxLatched :=
  match s.call cols fd c with
  | (.ok _, t) => .ok t
  | (.error e, t) => if e.isException then .ok t else .error e

/-- An index whose latch is free. -/
def unlatched (layer : IxLayer) : IxLatched := ⟨layer, ⟨false, false, false⟩⟩

end IxLatched
end Rmdb
