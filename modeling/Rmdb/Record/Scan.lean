import Rmdb.Record.Layer

/-! The scan of a table file (`record/rm_scan.cpp`). -/

namespace Rmdb
namespace RmFile

/-- The loop of `RmScan::next`, with the number of pages that are left. -/
def scanLoop (f : RmFile) : Nat → Int → Int → Except RmError Rid
  | 0, _, slotNo => .ok ⟨rmNoPage, slotNo⟩
  | n + 1, p, slotNo => do
    let page ← f.fetchPageHandle p
    let next := page.nextBit f.perPage slotNo
    if next < f.perPage then .ok ⟨p, next⟩ else f.scanLoop n (p + 1) rmNoPage

/-- `RmScan::next`. -/
def scanNext (f : RmFile) (rid : Rid) : Except RmError Rid := f.scanLoop (f.numPages - rid.pageNo).toNat rid.pageNo rid.slotNo

/-- The constructor of `RmScan`. -/
def rmScan (f : RmFile) : Except RmError Rid := f.scanNext ⟨1, rmNoPage⟩

/-- `for (; !scan.is_end(); scan.next()) scan.rid()`, for at most `fuel` positions. -/
def scanRids (f : RmFile) : Nat → Rid → Except RmError (List Rid)
  | 0, rid => if rid.pageNo = rmNoPage then .ok [] else .error .diverged
  | fuel + 1, rid =>
    if rid.pageNo = rmNoPage then .ok []
    else do
      let next ← f.scanNext rid
      let rest ← f.scanRids fuel next
      .ok (rid :: rest)

/-- `for (RmScan scan(fh); !scan.is_end(); scan.next()) scan.rid()`. -/
def scan (f : RmFile) (fuel : Nat) : Except RmError (List Rid) := do
  let rid ← f.rmScan
  f.scanRids fuel rid

end RmFile
end Rmdb
