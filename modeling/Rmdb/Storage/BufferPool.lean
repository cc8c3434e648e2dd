import Rmdb.Defs

/-! The buffer pool (`storage/buffer_pool_manager.cpp`) with its clock replacer (`replacer/clock_replacer.h`) and the disk
    manager that it calls (`storage/disk_manager.cpp`). -/

namespace Rmdb

structure PageId where
  fd : Int
  pageNo : Int
deriving DecidableEq, Repr

/-- `INVALID_PAGE_ID`. -/
def invalidPageId : Int := -1

/-- The bytes of a page after `reset_memory`. -/
def zeroPage : Bytes := List.replicate pageSize 0

/-! ### The clock replacer -/

/-- `ClockReplacer::FrameStatus`. -/
structure FrameStatus where
  inReplacer : Bool
  ref : Bool
deriving DecidableEq, Repr

/-- `ClockReplacer`: `size` frames, of which `evictable` (`size_`) are in the replacer. -/
structure ClockReplacer where
  frames : Nat → FrameStatus
  clockHand : Nat
  size : Nat
  evictable : Nat

namespace ClockReplacer

def create (num : Nat) : ClockReplacer := ⟨fun _ => ⟨false, false⟩, 0, num, 0⟩

def setFrame (r : ClockReplacer) (fr : Nat) (st : FrameStatus) : ClockReplacer :=
  { r with frames := fun i => if i = fr then st else r.frames i }

/-- The loop of `victim`, for as many frames as are left to scan. -/
def victimLoop : Nat → ClockReplacer → ClockReplacer × Option Nat
  | 0, r => (r, none)
  | scans + 1, r =>
    let hand := r.clockHand
    let next := (hand + 1) % r.size
    if (r.frames hand).inReplacer then
      if (r.frames hand).ref then victimLoop scans { r.setFrame hand ⟨true, false⟩ with clockHand := next }
      else ({ r.setFrame hand ⟨false, false⟩ with clockHand := next, evictable := r.evictable - 1 }, some hand)
    else victimLoop scans { r with clockHand := next }

def victim (r : ClockReplacer) : ClockReplacer × Option Nat :=
  if r.evictable = 0 then (r, none) else victimLoop (r.size * 2) r

def pin (r : ClockReplacer) (fr : Nat) : ClockReplacer :=
  if r.size ≤ fr then r
  else if (r.frames fr).inReplacer then { r.setFrame fr ⟨false, false⟩ with evictable := r.evictable - 1 }
  else r

def unpin (r : ClockReplacer) (fr : Nat) : ClockReplacer :=
  if r.size ≤ fr then r
  else if (r.frames fr).inReplacer then r.setFrame fr ⟨true, true⟩
  else { r.setFrame fr ⟨true, true⟩ with evictable := r.evictable + 1 }

end ClockReplacer

/-! ### The disk manager -/

/-- The `InternalError` of `read_page` or `write_page`. -/
inductive DiskError where
  | readFailed (id : PageId)
  | writeFailed (id : PageId)
deriving DecidableEq, Repr

/-- The pages of the files, and the number of the next page that `allocate_page` gives out in each file. -/
structure Disk where
  pages : PageId → Option Bytes
  fd2pageno : Int → Nat

namespace Disk

/-- `write_page`: `pwrite` at the offset of the page, which fails for a negative one. The gap behind the end of the file is
    read as zeros. -/
def writePage (d : Disk) (id : PageId) (data : Bytes) : Except DiskError Disk :=
  if id.pageNo < 0 then .error (.writeFailed id)
  else
    let gap := fun q : PageId => q.fd = id.fd ∧ 0 ≤ q.pageNo ∧ q.pageNo < id.pageNo
    let pages := fun q => if q = id then some data else if gap q then some ((d.pages q).getD zeroPage) else d.pages q
    .ok { d with pages := pages }

/-- `read_page`: `pread` of a whole page, which fails behind the end of the file and at a negative offset. -/
def readPage (d : Disk) (id : PageId) : Except DiskError Bytes :=
  if id.pageNo < 0 then .error (.readFailed id)
  else match d.pages id with
    | some data => .ok data
    | none => .error (.readFailed id)

/-- `allocate_page`. -/
def allocatePage (d : Disk) (fd : Int) : Disk × Int :=
  ({ d with fd2pageno := fun i => if i = fd then d.fd2pageno fd + 1 else d.fd2pageno i }, d.fd2pageno fd)

end Disk

/-! ### The buffer pool -/

/-- `Page`: what a frame holds. -/
structure Page where
  id : PageId
  data : Bytes
  isDirty : Bool
  pinCount : Int

/-- `BufferPoolManager`. -/
structure BufferPool where
  poolSize : Nat
  pages : Nat → Page
  pageTable : PageId → Option Nat
  freeList : List Nat
  replacer : ClockReplacer
  disk : Disk

namespace BufferPool

/-- A new pool. The `fd` of a page that was never used is not initialised. -/
def create (poolSize : Nat) (fds : Nat → Int) (disk : Disk) : BufferPool where
  poolSize := poolSize
  pages := fun fr => ⟨⟨fds fr, invalidPageId⟩, zeroPage, false, 0⟩
  pageTable := fun _ => none
  freeList := List.range poolSize
  replacer := .create poolSize
  disk := disk

def setPage (s : BufferPool) (fr : Nat) (page : Page) : BufferPool :=
  { s with pages := fun i => if i = fr then page else s.pages i }

/-- `find_victim_page`. -/
def findVictimPage (s : BufferPool) : BufferPool × Option Nat :=
  match s.freeList with
  | fr :: rest => ({ s with freeList := rest }, some fr)
  | [] =>
    let (r, fr) := s.replacer.victim
    ({ s with replacer := r }, fr)

/-- The write-back of a dirty page. -/
def writeBack (s : BufferPool) (page : Page) : Except DiskError Disk :=
  if page.isDirty ∧ page.id.pageNo ≠ invalidPageId then s.disk.writePage page.id page.data else .ok s.disk

/-- `update_page`. It raises before it changes anything. -/
def updatePage (s : BufferPool) (fr : Nat) (newId : PageId) : Except DiskError BufferPool := do
  let page := s.pages fr
  let disk ← s.writeBack page
  let table := fun id => if id = newId then some fr else if id = page.id then none else s.pageTable id
  let dirty := if page.id.pageNo = invalidPageId then page.isDirty else false
  .ok ({ s with disk := disk, pageTable := table }.setPage fr { page with id := newId, data := zeroPage, isDirty := dirty })

/-- `fetch_page`: the frame that holds the page, pinned once more. The state is the one at the return or the exception. -/
def fetchPage (s : BufferPool) (id : PageId) : BufferPool × Except DiskError (Option Nat) :=
  match s.pageTable id with
  | some fr =>
    let page := s.pages fr
    ({ s with replacer := s.replacer.pin fr }.setPage fr { page with pinCount := page.pinCount + 1 }, .ok (some fr))
  | none =>
    match s.findVictimPage with
    | (s, none) => (s, .ok none)
    | (s, some fr) =>
      match s.updatePage fr id with
      | .error e => (s, .error e)
      | .ok s =>
        match s.disk.readPage id with
        | .error e => (s, .error e)
        | .ok data =>
          let page := s.pages fr
          ({ s with replacer := s.replacer.pin fr }.setPage fr { page with data := data, pinCount := page.pinCount + 1 },
            .ok (some fr))

/-- `unpin_page`. -/
def unpinPage (s : BufferPool) (id : PageId) (isDirty : Bool) : BufferPool × Bool :=
  match s.pageTable id with
  | none => (s, false)
  | some fr =>
    let page := s.pages fr
    if page.pinCount = 0 then (s, false)
    else
      let count := page.pinCount - 1
      let r := if count = 0 then s.replacer.unpin fr else s.replacer
      ({ s with replacer := r }.setPage fr { page with pinCount := count, isDirty := page.isDirty || isDirty }, true)

/-- `flush_page`. -/
def flushPage (s : BufferPool) (id : PageId) : BufferPool × Except DiskError Bool :=
  match s.pageTable id with
  | none => (s, .ok false)
  | some fr =>
    if id.pageNo = invalidPageId then (s, .ok false)
    else match s.disk.writePage id (s.pages fr).data with
      | .error e => (s, .error e)
      | .ok disk => ({ s with disk := disk }.setPage fr { s.pages fr with isDirty := false }, .ok true)

/-- `new_page`: the new page and its frame. -/
def newPage (s : BufferPool) (fd : Int) : BufferPool × Except DiskError (Option (PageId × Nat)) :=
  match s.findVictimPage with
  | (s, none) => (s, .ok none)
  | (s, some fr) =>
    let (disk, pageNo) := s.disk.allocatePage fd
    let s := { s with disk := disk }
    match s.updatePage fr ⟨fd, pageNo⟩ with
    | .error e => (s, .error e)
    | .ok s =>
      ({ s with replacer := s.replacer.pin fr }.setPage fr { s.pages fr with pinCount := 1 }, .ok (some (⟨fd, pageNo⟩, fr)))

/-- `delete_page`. -/
def deletePage (s : BufferPool) (id : PageId) : BufferPool × Except DiskError Bool :=
  match s.pageTable id with
  | none => (s, .ok true)
  | some fr =>
    if (s.pages fr).pinCount ≠ 0 then (s, .ok false)
    else match s.updatePage fr id with
      | .error e => (s, .error e)
      | .ok s => ({ s with freeList := s.freeList ++ [fr] }, .ok true)

/-- The loop of `flush_all_pages` over some frames. -/
def flushFrames (fd : Int) : List Nat → BufferPool → BufferPool × Except DiskError Unit
  | [], s => (s, .ok ())
  | fr :: frs, s =>
    let page := s.pages fr
    if fd = page.id.fd ∧ page.id.pageNo ≠ invalidPageId then
      match s.disk.writePage page.id page.data with
      | .error e => (s, .error e)
      | .ok disk => flushFrames fd frs ({ s with disk := disk }.setPage fr { page with isDirty := false })
    else flushFrames fd frs s

/-- `flush_all_pages`. -/
def flushAllPages (s : BufferPool) (fd : Int) : BufferPool × Except DiskError Unit := flushFrames fd (List.range s.poolSize) s

end BufferPool

/-- A call of an operation of the pool. -/
inductive BpCall where
  | fetchPage (id : PageId)
  | newPage (fd : Int)
  | unpinPage (id : PageId) (isDirty : Bool)
  | flushPage (id : PageId)
  | deletePage (id : PageId)
  | flushAllPages (fd : Int)

namespace BufferPool

/-- The state after an operation whose disk operations succeed. -/
def succeeded {α : Type} (r : BufferPool × Except DiskError α) : Except DiskError BufferPool := r.2.map fun _ => r.1

/-- A call as a step, without what it returns. -/
def step (s : BufferPool) : BpCall → Except DiskError BufferPool
  | .fetchPage id => succeeded (s.fetchPage id)
  | .newPage fd => succeeded (s.newPage fd)
  | .unpinPage id isDirty => .ok (s.unpinPage id isDirty).1
  | .flushPage id => succeeded (s.flushPage id)
  | .deletePage id => succeeded (s.deletePage id)
  | .flushAllPages fd => succeeded (s.flushAllPages fd)

end BufferPool
end Rmdb
