import Rmdb.Txn.MvccManager
import Rmdb.Lib.TextStream

/-! The keys of the version chains: `rid_to_key` makes them from a table and a position in it, three parsers take the position
back out of them, and `clear_table_versions` selects those of a table. -/

namespace Rmdb
open TextStream

/-- `rid_to_key`. -/
def MvccManager.ridToKey (rid : Rid) (tableName : String) : String :=
  tableName ++ "_" ++ String.ofList (showInt rid.pageNo) ++ "_" ++ String.ofList (showInt rid.slotNo)

/-- What the parsers of a key share: the two numbers behind the last underscores. If the only underscore is the first character,
    the search for the one before it starts over at the end of the key. -/
def parseKey (key : String) : Option Rid := do
  let cs := key.toList
  let last ← findLastOf '_' cs cs.length
  let secondLast ← findLastOf '_' cs (if last = 0 then cs.length else last)
  let count := if last ≤ secondLast then cs.length else last - secondLast - 1
  let pageNo ← stoi ((cs.drop (secondLast + 1)).take count)
  let slotNo ← stoi (cs.drop (last + 1))
  return ⟨pageNo, slotNo⟩

/-- `MVCCRecordManager::key_to_rid`. -/
def MvccRecordManager.keyToRid (key : String) : Rid := (parseKey key).getD ⟨-1, -1⟩

/-- `MVCCExecutorBase::key_to_rid`; the table does not matter. -/
def MvccExecutorBase.keyToRid (key _tableName : String) : Rid := (parseKey key).getD ⟨-1, -1⟩

/-- `persist_committed_version`: the call of `persist_mvcc_version` that it makes, if it makes one. -/
def MvccManager.persistCommittedVersion (hasStorage : Bool) (key : String) (version : Option TupleVersion) : Option (Rid × TupleVersion) := do
  let v ← version
  if hasStorage then
    let rid ← parseKey key
    return (rid, v)
  else none

/-- The keys that `clear_table_versions` removes: those that begin with the table and an underscore, and those that begin with an
    underscore and do not contain the table. -/
def MvccManager.clearsKey (tableName key : String) : Bool :=
  (tableName ++ "_").toList.isPrefixOf key.toList ||
    ("_".toList.isPrefixOf key.toList && !key.toList.tails.any fun cs => tableName.toList.isPrefixOf cs)

/-- `clear_table_versions`. -/
def MvccManager.clearTableVersions (m : MvccManager String) (tableName : String) : MvccManager String :=
  { m with versionChains := fun key => if clearsKey tableName key then none else m.versionChains key }

end Rmdb
