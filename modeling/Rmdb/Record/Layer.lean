import Rmdb.Record.File
import Rmdb.Storage.BufferPool
import Rmdb.Txn.Version

/-! The record layer over the buffer pool (`record/rm_file_handle.cpp`, `record/rm_scan.cpp`), and what a commit does in it
(`transaction/mvcc_manager.h`, `SmManager::persist_mvcc_version`). Here an operation fetches the pages of its file from the
pool and unpins them; what it does to their contents is in `Rmdb.Record.File`. A bit outside a record page is read as clear. -/

namespace Rmdb

/-- The files of the tables, and the order in which a loop over `fhs_` visits them. -/
structure Tables (T : Type) where
  fd : T → Int
  order : List T
  inj : ∀ t u, fd t = fd u → t = u

/-- The pool, the file handles of the tables and the version chains of their rows. -/
structure RecordLayer (T : Type) where
  pool : BufferPool
  fhs : T → RmFile
  versionChains : T × Rid → Option VersionChain

/-- What an operation raises. -/
inductive RmRaised where
  | rm (e : RmError)
  /-- "fail to create_new_page". -/
  | createFailed
  | disk (e : DiskError)

/-- `Bitmap::is_set`. -/
def RmPage.isSet (page : RmPage) (slotNo : Int) : Bool := 0 ≤ slotNo && (page.slots[slotNo.toNat]?.getD none).isSome

/-- `Bitmap::next_bit` for a set bit. -/
def RmPage.nextBit (page : RmPage) (maxN : Nat) (curr : Int) : Nat :=
  ((List.range maxN).find? fun (i : Nat) => curr < i && page.isSet i).getD maxN

/-- An operation. An exception leaves the state as it is then. -/
abbrev RmM (T : Type) := ExceptT RmRaised (StateM (RecordLayer T))

namespace RecordLayer
variable {T : Type} [DecidableEq T] (tabs : Tables T) (t : T)

def unpinPage (p : Int) (isDirty : Bool) : RmM T Unit :=
  modify fun s => { s with pool := (s.pool.unpinPage ⟨tabs.fd t, p⟩ isDirty).1 }

/-- A change of the file handle or of a page of the file. -/
def modifyFile (g : RmFile → RmFile) : RmM T Unit :=
  modify fun s => { s with fhs := Function.update s.fhs t (g (s.fhs t)) }

/-- `fetch_page_handle`. -/
def fetchPageHandle (p : Int) : RmM T RmPage := do
  let s ← get
  if p < 0 ∨ (s.fhs t).numPages ≤ p then throw (.rm (.recordNotFound p (-1)))
  else
    set { s with pool := (s.pool.fetchPage ⟨tabs.fd t, p⟩).1 }
    match (s.pool.fetchPage ⟨tabs.fd t, p⟩).2 with
    | .error e => throw (.disk e)
    | .ok none => throw (.rm (.recordNotFound p (-1)))
    | .ok (some _) => return ((s.fhs t).pages p).getD ⟨0, rmNoPage, []⟩

/-- The file after `create_new_page_handle`, for the page that the pool gave it. -/
def withNewPage (f : RmFile) (p : Int) : RmFile :=
  { f with fd2pageno := p + 1, firstFreePageNo := p, numPages := max f.numPages (p + 1) }.setPage p
    ⟨0, f.firstFreePageNo, List.replicate f.perPage none⟩

/-- `create_new_page_handle`. -/
def createNewPageHandle : RmM T (Int × RmPage) := do
  let s ← get
  match (s.pool.newPage (tabs.fd t)).2 with
  | .error e =>
    set { s with pool := (s.pool.newPage (tabs.fd t)).1 }
    throw (.disk e)
  | .ok none =>
    set { s with pool := (s.pool.newPage (tabs.fd t)).1 }
    throw .createFailed
  | .ok (some (id, _)) =>
    set { s with
      pool := (s.pool.newPage (tabs.fd t)).1
      fhs := Function.update s.fhs t (withNewPage (s.fhs t) id.pageNo) }
    return (id.pageNo, ⟨0, (s.fhs t).firstFreePageNo, List.replicate (s.fhs t).perPage none⟩)

/-- The page that an insertion goes to. -/
def freePageHandle : RmM T (Int × RmPage) := do
  let s ← get
  if (s.fhs t).firstFreePageNo = rmNoPage then createNewPageHandle tabs t
  else
    let page ← fetchPageHandle tabs t (s.fhs t).firstFreePageNo
    return ((s.fhs t).firstFreePageNo, page)

def getRecord (rid : Rid) : RmM T Bytes := do
  let page ← fetchPageHandle tabs t rid.pageNo
  if page.isSet rid.slotNo = false then
    unpinPage tabs t rid.pageNo false
    throw (.rm (.recordNotFound rid.pageNo rid.slotNo))
  else
    unpinPage tabs t rid.pageNo false
    return (page.slots[rid.slotNo.toNat]?.getD none).getD []

/-- `insert_record(buf)`. `Bitmap::first_bit` never returns -1. -/
def insertRecord (buf : Bytes) : RmM T Rid := do
  let (p, page) ← freePageHandle tabs t
  let slot := page.slots.findIdx (·.isNone)
  let page := { page with slots := page.slots.set slot (some buf), numRecords := page.numRecords + 1 }
  modifyFile t (·.unlinkIfFull p page)
  unpinPage tabs t p true
  return ⟨p, slot⟩

/-- `insert_record(rid, buf)`. -/
def insertRecordAt (rid : Rid) (buf : Bytes) : RmM T Unit := do
  let page ← fetchPageHandle tabs t rid.pageNo
  if page.isSet rid.slotNo = true then
    unpinPage tabs t rid.pageNo false
    throw (.rm .slotOccupied)
  else
    let page := { page with slots := page.slots.set rid.slotNo.toNat (some buf), numRecords := page.numRecords + 1 }
    modifyFile t fun f =>
      if f.firstFreePageNo = rid.pageNo then f.unlinkIfFull rid.pageNo page else f.setPage rid.pageNo page
    unpinPage tabs t rid.pageNo true

def deleteRecord (rid : Rid) : RmM T Unit := do
  let page ← fetchPageHandle tabs t rid.pageNo
  if page.isSet rid.slotNo = false then
    unpinPage tabs t rid.pageNo false
    throw (.rm (.recordNotFound rid.pageNo rid.slotNo))
  else
    let wasFull := fun f : RmFile => page.numRecords = f.perPage
    let page := { page with slots := page.slots.set rid.slotNo.toNat none, numRecords := page.numRecords - 1 }
    modifyFile t fun f => if wasFull f then f.releasePageHandle rid.pageNo page else f.setPage rid.pageNo page
    unpinPage tabs t rid.pageNo true

def updateRecord (rid : Rid) (buf : Bytes) : RmM T Unit := do
  let page ← fetchPageHandle tabs t rid.pageNo
  if page.isSet rid.slotNo = false then
    unpinPage tabs t rid.pageNo false
    throw (.rm (.recordNotFound rid.pageNo rid.slotNo))
  else
    modifyFile t (·.setPage rid.pageNo { page with slots := page.slots.set rid.slotNo.toNat (some buf) })
    unpinPage tabs t rid.pageNo true

/-- The loop of `insert_records_batch` over the pages. -/
def insertRecordsLoop : Nat → List Bytes → RmM T (List Rid)
  | _, [] => return []
  | 0, _ :: _ => throw (.rm .diverged)
  | fuel + 1, buf :: bufs => do
    let (p, page) ← freePageHandle tabs t
    let s ← get
    let batch := (buf :: bufs).take ((s.fhs t).perPage - page.numRecords).toNat
    let ns := (RmFile.fillSlots 0 page.slots batch).2
    let page := { page with slots := (RmFile.fillSlots 0 page.slots batch).1, numRecords := page.numRecords + ns.length }
    modifyFile t (·.unlinkIfFull p page)
    unpinPage tabs t p !ns.isEmpty
    let rids ← insertRecordsLoop fuel ((buf :: bufs).drop ns.length)
    return ns.map (fun (n : Nat) => ⟨p, n⟩) ++ rids

def insertRecordsBatch (bufs : List Bytes) : RmM T (List Rid) := do
  let s ← get
  insertRecordsLoop tabs t (bufs.length + (s.fhs t).numPages.toNat) bufs

/-- `is_record`. -/
def isRecord (rid : Rid) : RmM T Bool := do
  let page ← fetchPageHandle tabs t rid.pageNo
  return page.isSet rid.slotNo

/-- The loop of `RmScan::next`, with the number of pages that are left. -/
def scanLoop : Nat → Int → Int → RmM T Rid
  | 0, _, slotNo => return ⟨rmNoPage, slotNo⟩
  | n + 1, p, slotNo => do
    let page ← fetchPageHandle tabs t p
    let s ← get
    let next := page.nextBit (s.fhs t).perPage slotNo
    if next < (s.fhs t).perPage then
      unpinPage tabs t p false
      return ⟨p, next⟩
    else
      unpinPage tabs t p false
      scanLoop n (p + 1) rmNoPage

/-- `RmScan::next`. -/
def scanNext (rid : Rid) : RmM T Rid := do
  let s ← get
  scanLoop tabs t ((s.fhs t).numPages - rid.pageNo).toNat rid.pageNo rid.slotNo

/-- The constructor of `RmScan`. -/
def rmScan : RmM T Rid := scanNext tabs t ⟨1, rmNoPage⟩

/-- The search of `persist_mvcc_version` for the table of a position. Nothing is written. -/
def findTable (rid : Rid) : List T → RmM T Unit
  | [] => return
  | t :: ts => do
    let found ← isRecord tabs t rid
    if found then return else findTable rid ts

/-- `persist_committed_version`: exceptions are swallowed. -/
def persistMvccVersion (rid : Rid) : RmM T Unit := tryCatch (findTable tabs rid tabs.order) fun _ => return

/-- The transaction has a version in the chain that is not committed. -/
def hasVersion (chain : VersionChain) (id : Int) : Bool := chain.any fun v => v.txnId = id && v.createTs = invalidTimestamp

/-- `commit_chain_versions` for the chain of a row. -/
def commitChain (id commitTs : Int) (row : T × Rid) : RmM T Unit := do
  let s ← get
  match s.versionChains row with
  | none => return
  | some chain =>
    set { s with versionChains := Function.update s.versionChains row (some (chain.commitChainVersions id commitTs)) }
    if hasVersion chain id then persistMvccVersion tabs row.2 else return

/-- `TransactionManager::commit`, for the rows of the write set in the order of `target_keys`. -/
def commit (id commitTs : Int) : List (T × Rid) → RmM T Unit
  | [] => return
  | row :: rows => do
    commitChain tabs id commitTs row
    commit id commitTs rows

end RecordLayer

/-- A call of the record layer, or a commit. -/
inductive LayerCall (T : Type) where
  | getRecord (t : T) (rid : Rid)
  | insertRecord (t : T) (buf : Bytes)
  | insertRecordAt (t : T) (rid : Rid) (buf : Bytes)
  | deleteRecord (t : T) (rid : Rid)
  | updateRecord (t : T) (rid : Rid) (buf : Bytes)
  | insertRecordsBatch (t : T) (bufs : List Bytes)
  | isRecord (t : T) (rid : Rid)
  | rmScan (t : T)
  | scanNext (t : T) (rid : Rid)
  | commit (id commitTs : Int) (rows : List (T × Rid))

namespace RecordLayer
variable {T : Type} [DecidableEq T] (tabs : Tables T)

/-- The state after an operation, whether it returns or raises. -/
def finish {α : Type} (m : RmM T α) (s : RecordLayer T) : Except Empty (RecordLayer T) := .ok (m.run.run s).run.2

def step (s : RecordLayer T) : LayerCall T → Except Empty (RecordLayer T)
  | .getRecord t rid => finish (getRecord tabs t rid) s
  | .insertRecord t buf => finish (insertRecord tabs t buf) s
  | .insertRecordAt t rid buf => finish (insertRecordAt tabs t rid buf) s
  | .deleteRecord t rid => finish (deleteRecord tabs t rid) s
  | .updateRecord t rid buf => finish (updateRecord tabs t rid buf) s
  | .insertRecordsBatch t bufs => finish (insertRecordsBatch tabs t bufs) s
  | .isRecord t rid => finish (isRecord tabs t rid) s
  | .rmScan t => finish (rmScan tabs t) s
  | .scanNext t rid => finish (scanNext tabs t rid) s
  | .commit id commitTs rows => finish (commit tabs id commitTs rows) s

end RecordLayer
end Rmdb
