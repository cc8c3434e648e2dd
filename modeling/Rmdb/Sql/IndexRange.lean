import Rmdb.Index.Scan
import Rmdb.Sql.Grouping
import Rmdb.System.CreateIndex

/-! What an `IxScan` gives to an `IndexScanExecutor` (`execution/executor_index_scan.h`). -/

namespace Rmdb

/-- The loop of `beginTuple` and `nextTuple` over an `IxScan` from position `iid` to its end. An entry that is not there
    (`IndexEntryNotFoundError`) is `none`. -/
def IxScan.visit {K : Type} (s : IxIndexHandle K) (stop : Iid) : Nat → Iid → Except IxError (List (Option Rid))
  | 0, iid => if iid = stop then .ok [] else .error .diverged
  | fuel + 1, iid =>
    if iid = stop then .ok []
    else
      let here : Except IxError (Option Rid) :=
        match IxScan.rid s iid stop with
        | .ok rid => .ok (some rid)
        | .error .entryNotFound => .ok none
        | .error e => .error e
      do
        let entry ← here
        let iid ← IxScan.next s iid stop
        let rest ← visit s stop fuel iid
        .ok (entry :: rest)

end Rmdb
