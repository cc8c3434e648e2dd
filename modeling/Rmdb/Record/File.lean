import Rmdb.Defs

/-! The record file of a table (`record/rm_file_handle.cpp`, `record/bitmap.h`).

A page holds a bitmap and as many slots as `num_records_per_page`; a slot whose bit is clear is `none` here. The pages with
a free slot are linked from `first_free_page_no` along `next_free_page_no`. -/

namespace Rmdb

/-- `RM_NO_PAGE`. -/
def rmNoPage : Int := -1

/-- `RM_MAX_RECORD_SIZE`. -/
def rmMaxRecordSize : Nat := 512

/-- `sizeof(RmFileHdr)`: six `int` fields and a `bool`, padded. -/
def sizeofRmFileHdr : Nat := 28

/-- `num_records_per_page` as `RmManager::create_file` computes it. -/
def numRecordsPerPage (recordSize : Nat) : Nat := (8 * (pageSize - 1 - sizeofRmFileHdr) + 1) / (1 + recordSize * 8)

/-- `create_file` accepts the record size. -/
def RmAccepts (recordSize : Nat) : Prop := 1 ≤ recordSize ∧ recordSize ≤ rmMaxRecordSize

inductive RmError where
  /-- `RecordNotFoundError`. -/
  | recordNotFound (pageNo slotNo : Int)
  /-- The `runtime_error` of an insertion into an occupied slot. -/
  | slotOccupied
  /-- A bit or a slot outside the bitmap and the slots of a record page is read or written. -/
  | outOfPage
  /-- A walk along the free pages that never ends. -/
  | diverged
deriving DecidableEq, Repr

/-- A record page: `RmPageHdr`, the bitmap and the slots. -/
structure RmPage where
  numRecords : Int
  nextFreePageNo : Int
  slots : List (Option Bytes)
deriving DecidableEq, Repr

/-- `RmFileHandle`: the file header, the pages, and the number of the next page that the disk manager gives out. -/
structure RmFile where
  perPage : Nat
  numPages : Int
  firstFreePageNo : Int
  fd2pageno : Int
  pages : Int → Option RmPage

namespace RmFile

/-- A file that was created for records of a size and opened. Page 0 is the file header. -/
def create (recordSize : Nat) : RmFile := ⟨numRecordsPerPage recordSize, 1, rmNoPage, 1, fun _ => none⟩

def setPage (f : RmFile) (p : Int) (page : RmPage) : RmFile :=
  { f with pages := fun q => if q = p then some page else f.pages q }

/-- `fetch_page_handle`. -/
def fetchPageHandle (f : RmFile) (p : Int) : Except RmError RmPage :=
  if p < 0 ∨ f.numPages ≤ p then .error (.recordNotFound p (-1))
  else match f.pages p with
    | some page => .ok page
    | none => .error .outOfPage

/-- `create_new_page_handle`. -/
def createNewPageHandle (f : RmFile) : RmFile × Int × RmPage :=
  let p := f.fd2pageno
  let page : RmPage := ⟨0, f.firstFreePageNo, List.replicate f.perPage none⟩
  ({ f with fd2pageno := p + 1, firstFreePageNo := p, numPages := max f.numPages (p + 1) }.setPage p page, p, page)

/-- The page an insertion goes to: the first free page, or a new one. -/
def freePageHandle (f : RmFile) : Except RmError (RmFile × Int × RmPage) :=
  if f.firstFreePageNo = rmNoPage then .ok f.createNewPageHandle
  else do
    let page ← f.fetchPageHandle f.firstFreePageNo
    .ok (f, f.firstFreePageNo, page)

/-- A page that became full leaves the free pages; it is taken to be the first of them. -/
def unlinkIfFull (f : RmFile) (p : Int) (page : RmPage) : RmFile :=
  if page.numRecords = f.perPage then
    { f with firstFreePageNo := page.nextFreePageNo }.setPage p { page with nextFreePageNo := rmNoPage }
  else f.setPage p page

/-- The slot `slotNo` of a page as a position in the bitmap. -/
def slotIndex (f : RmFile) (slotNo : Int) : Except RmError Nat :=
  if 0 ≤ slotNo ∧ slotNo < f.perPage then .ok slotNo.toNat else .error .outOfPage

/-- `insert_record(buf)`. `Bitmap::first_bit` returns `num_records_per_page` when all bits are set. -/
def insertRecord (f : RmFile) (buf : Bytes) : Except RmError (RmFile × Rid) := do
  let (f, p, page) ← f.freePageHandle
  let slot := page.slots.findIdx (·.isNone)
  if f.perPage ≤ slot then .error .outOfPage
  else
    let page := { page with slots := page.slots.set slot (some buf), numRecords := page.numRecords + 1 }
    .ok (f.unlinkIfFull p page, ⟨p, slot⟩)

/-- `insert_record(rid, buf)`. -/
def insertRecordAt (f : RmFile) (rid : Rid) (buf : Bytes) : Except RmError RmFile := do
  let page ← f.fetchPageHandle rid.pageNo
  let slot ← f.slotIndex rid.slotNo
  if (page.slots[slot]?.getD none).isSome then .error .slotOccupied
  else
    let page := { page with slots := page.slots.set slot (some buf), numRecords := page.numRecords + 1 }
    if f.firstFreePageNo = rid.pageNo then .ok (f.unlinkIfFull rid.pageNo page)
    else .ok (f.setPage rid.pageNo page)

/-- `release_page_handle`. -/
def releasePageHandle (f : RmFile) (p : Int) (page : RmPage) : RmFile :=
  if f.firstFreePageNo ≠ p then
    { f with firstFreePageNo := p }.setPage p { page with nextFreePageNo := f.firstFreePageNo }
  else f.setPage p page

/-- `delete_record`. -/
def deleteRecord (f : RmFile) (rid : Rid) : Except RmError RmFile := do
  let page ← f.fetchPageHandle rid.pageNo
  let slot ← f.slotIndex rid.slotNo
  if (page.slots[slot]?.getD none).isNone then .error (.recordNotFound rid.pageNo rid.slotNo)
  else
    let wasFull := page.numRecords = f.perPage
    let page := { page with slots := page.slots.set slot none, numRecords := page.numRecords - 1 }
    if wasFull then .ok (f.releasePageHandle rid.pageNo page) else .ok (f.setPage rid.pageNo page)

/-- `update_record`. -/
def updateRecord (f : RmFile) (rid : Rid) (buf : Bytes) : Except RmError RmFile := do
  let page ← f.fetchPageHandle rid.pageNo
  let slot ← f.slotIndex rid.slotNo
  if (page.slots[slot]?.getD none).isNone then .error (.recordNotFound rid.pageNo rid.slotNo)
  else .ok (f.setPage rid.pageNo { page with slots := page.slots.set slot (some buf) })

/-- `get_record`. -/
def getRecord (f : RmFile) (rid : Rid) : Except RmError Bytes := do
  let page ← f.fetchPageHandle rid.pageNo
  let slot ← f.slotIndex rid.slotNo
  match page.slots[slot]?.getD none with
  | some buf => .ok buf
  | none => .error (.recordNotFound rid.pageNo rid.slotNo)

/-- The loop of `insert_records_batch` over the slots of a page from slot `i` on: the slots with records in the free ones,
    and the numbers of these. -/
def fillSlots : Nat → List (Option Bytes) → List Bytes → List (Option Bytes) × List Nat
  | _, [], _ => ([], [])
  | _, slots, [] => (slots, [])
  | i, some r :: slots, bufs =>
    let (slots, ns) := fillSlots (i + 1) slots bufs
    (some r :: slots, ns)
  | i, none :: slots, buf :: bufs =>
    let (slots, ns) := fillSlots (i + 1) slots bufs
    (some buf :: slots, i :: ns)

/-- The loop of `insert_records_batch` over the pages. -/
def insertRecordsLoop : Nat → RmFile → List Bytes → Except RmError (RmFile × List Rid)
  | _, f, [] => .ok (f, [])
  | 0, _, _ :: _ => .error .diverged
  | fuel + 1, f, buf :: bufs => do
    let (f, p, page) ← f.freePageHandle
    let batch := (buf :: bufs).take (f.perPage - page.numRecords).toNat
    let (slots, ns) := fillSlots 0 page.slots batch
    let page := { page with slots := slots, numRecords := page.numRecords + ns.length }
    let (f, rids) ← insertRecordsLoop fuel (f.unlinkIfFull p page) ((buf :: bufs).drop ns.length)
    .ok (f, ns.map (fun (n : Nat) => ⟨p, n⟩) ++ rids)

/-- `insert_records_batch`. An iteration places a record or leaves a full page. -/
def insertRecordsBatch (f : RmFile) (bufs : List Bytes) : Except RmError (RmFile × List Rid) :=
  insertRecordsLoop (bufs.length + f.numPages.toNat) f bufs

/-- The record at a position, if there is one: a set bit of a record page. -/
def lookup (f : RmFile) (rid : Rid) : Option Bytes :=
  (f.pages rid.pageNo).bind fun page => if 0 ≤ rid.slotNo then page.slots[rid.slotNo.toNat]?.getD none else none

end RmFile

/-- A record of `n` bytes. -/
abbrev Record (n : Nat) := { bs : Bytes // bs.length = n }

/-- A call of an operation of a record file. -/
inductive RmCall (n : Nat) where
  | insertRecord (buf : Record n)
  | insertRecordAt (rid : Rid) (buf : Record n)
  | insertRecordsBatch (bufs : List (Record n))
  | deleteRecord (rid : Rid)
  | updateRecord (rid : Rid) (buf : Record n)
  | getRecord (rid : Rid)

/-- The call names no other page than a record page (page 0 is the file header) and no slot outside it. -/
def RmCall.Addresses {n : Nat} (perPage : Nat) : RmCall n → Prop
  | .insertRecordAt rid _ | .deleteRecord rid | .updateRecord rid _ | .getRecord rid =>
    rid.pageNo ≠ 0 ∧ 0 ≤ rid.slotNo ∧ rid.slotNo < perPage
  | .insertRecord _ | .insertRecordsBatch _ => True

/-- What a call returns or raises. -/
inductive RmReply where
  | done
  | rid (rid : Rid)
  | rids (rids : List Rid)
  | record (buf : Bytes)
  | raised (e : RmError)
deriving DecidableEq, Repr

namespace RmFile
variable {n : Nat}

/-- The state and the reply of a call, or the exception that it raises. -/
def callResult (f : RmFile) : RmCall n → Except RmError (RmFile × RmReply)
  | .insertRecord buf => do
    let (f, rid) ← f.insertRecord buf.val
    .ok (f, .rid rid)
  | .insertRecordAt rid buf => do
    let f ← f.insertRecordAt rid buf.val
    .ok (f, .done)
  | .insertRecordsBatch bufs => do
    let (f, rids) ← f.insertRecordsBatch (bufs.map (·.val))
    .ok (f, .rids rids)
  | .deleteRecord rid => do
    let f ← f.deleteRecord rid
    .ok (f, .done)
  | .updateRecord rid buf => do
    let f ← f.updateRecord rid buf.val
    .ok (f, .done)
  | .getRecord rid => do
    let buf ← f.getRecord rid
    .ok (f, .record buf)

/-- One call. The operations that raise an exception do so before they change anything; what happens outside the
    page is not modelled. -/
def call (f : RmFile) (c : RmCall n) : Except RmError (RmFile × RmReply) :=
  match f.callResult c with
  | .ok r => .ok r
  | .error (.recordNotFound p s) => .ok (f, .raised (.recordNotFound p s))
  | .error .slotOccupied => .ok (f, .raised .slotOccupied)
  | .error e => .error e

/-- A call as a step, without its reply. -/
def step (f : RmFile) (c : RmCall n) : Except RmError RmFile := (f.call c).map (·.1)

end RmFile
end Rmdb
