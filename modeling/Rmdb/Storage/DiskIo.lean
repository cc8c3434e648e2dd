import Rmdb.Storage.BufferPool

/-! `fetch_page` over any disk operations. `Disk` fails only where no file can be read or written; here `read_page` and
`write_page` may raise an exception at any call, as on a disk that is full or broken. -/

namespace Rmdb

/-- `read_page` and `write_page`. -/
structure DiskIo where
  readPage : Disk → PageId → Except DiskError Bytes
  writePage : Disk → PageId → Bytes → Except DiskError Disk

/-- The operations of a disk that works. -/
def DiskIo.working : DiskIo := ⟨Disk.readPage, Disk.writePage⟩

namespace BufferPool
variable (io : DiskIo)

/-- The write-back of a dirty page. -/
def writeBackIo (s : BufferPool) (page : Page) : Except DiskError Disk :=
  if page.isDirty ∧ page.id.pageNo ≠ invalidPageId then io.writePage s.disk page.id page.data else .ok s.disk

/-- `update_page`. -/
def updatePageIo (s : BufferPool) (fr : Nat) (newId : PageId) : Except DiskError BufferPool := do
  let page := s.pages fr
  let disk ← s.writeBackIo io page
  let table := fun id => if id = newId then some fr else if id = page.id then none else s.pageTable id
  let dirty := if page.id.pageNo = invalidPageId then page.isDirty else false
  .ok ({ s with disk := disk, pageTable := table }.setPage fr { page with id := newId, data := zeroPage, isDirty := dirty })

/-- `fetch_page`. The state is the one at the return or the exception. -/
def fetchPageIo (s : BufferPool) (id : PageId) : BufferPool × Except DiskError (Option Nat) :=
  match s.pageTable id with
  | some fr =>
    let page := s.pages fr
    ({ s with replacer := s.replacer.pin fr }.setPage fr { page with pinCount := page.pinCount + 1 }, .ok (some fr))
  | none =>
    match s.findVictimPage with
    | (s, none) => (s, .ok none)
    | (s, some fr) =>
      match s.updatePageIo io fr id with
      | .error e => (s, .error e)
      | .ok s =>
        match io.readPage s.disk id with
        | .error e => (s, .error e)
        | .ok data =>
          let page := s.pages fr
          ({ s with replacer := s.replacer.pin fr }.setPage fr { page with data := data, pinCount := page.pinCount + 1 },
            .ok (some fr))

theorem fetchPageIo_working (s : BufferPool) (id : PageId) : s.fetchPageIo .working id = s.fetchPage id := rfl

end BufferPool
end Rmdb
