import Rmdb.Exec.Scan

/-! What marks the writes of a transaction before it commits: the `MvccMap` of a table file (`record/mvcc_map.h`) and the
version chain of a row (`transaction/mvcc_defs.h`, `transaction/mvcc_manager.h`). -/

namespace Rmdb

/-- `INVALID_TIMESTAMP`: the creation time of a version before its transaction commits. -/
def invalidTimestamp : Int := -1

/-! ### The marks of a table file -/

/-- `HeapTupleFields`. -/
structure HeapTupleFields where
  xmin : Int
  xmax : Int
deriving DecidableEq, Repr

inductive RCInfo where
  | success
  | recordInvisible
  | lockedConflict
deriving DecidableEq, Repr

/-- `visit_record` on the mark of a slot, for a reader that is not read-only. -/
def visitRecord (mark : Option HeapTupleFields) (id : Int) : RCInfo :=
  match mark with
  | none => .success
  | some m =>
    if 0 < m.xmin ∧ 0 < m.xmax then
      if m.xmin ≤ id ∧ id ≤ m.xmax then .success else .recordInvisible
    else if m.xmin < 0 then
      if -m.xmin = id then .success else .recordInvisible
    else if m.xmax < 0 then
      if -m.xmax ≠ id then .lockedConflict else .recordInvisible
    else .success

/-- The mark that `MvccMap::insert_record` sets. -/
def insertMark (id : Int) : HeapTupleFields := ⟨-id, intMax⟩

/-! ### Version chains -/

/-- `TupleVersion`, without the link to the version before it. -/
structure TupleVersion where
  data : Bytes
  txnId : Int
  createTs : Int
  expireTs : Int
  isDeleted : Bool
deriving DecidableEq, Repr

/-- A version that a transaction writes: not committed and not expired. -/
def TupleVersion.new (data : Bytes) (id : Int) (isDeleted : Bool) : TupleVersion :=
  ⟨data, id, invalidTimestamp, intMax, isDeleted⟩

/-- `VersionChain`: the versions of a row, from the newest one on. -/
abbrev VersionChain := List TupleVersion

namespace VersionChain

/-- The loops over a chain stop after `max_iterations`. -/
def maxIterations : Nat := 1000

/-- The head of the chain is a version of another transaction that has not committed. -/
def conflicts (chain : VersionChain) (id : Int) : Bool :=
  match chain with
  | [] => false
  | v :: _ => v.txnId ≠ id && v.createTs = invalidTimestamp

/-- The head of the chain is a deletion by another transaction that has committed. -/
def deletedByOther (chain : VersionChain) (id : Int) : Bool :=
  match chain with
  | [] => false
  | v :: _ => v.isDeleted && v.txnId ≠ id && v.createTs ≠ invalidTimestamp

/-- `is_version_visible`. -/
def isVersionVisible (v : TupleVersion) (id readTs : Int) : Bool :=
  if v.txnId = id then !v.isDeleted
  else !v.isDeleted && v.createTs ≠ invalidTimestamp && v.createTs ≠ intMax && v.createTs ≤ readTs &&
    !(v.expireTs ≠ intMax && v.expireTs ≠ invalidTimestamp && v.expireTs ≤ readTs)

/-- The loop of `find_visible_version`. -/
def findVisibleLoop (readTs id : Int) : VersionChain → Option TupleVersion
  | [] => none
  | v :: vs =>
    if v.txnId = id then if v.isDeleted then none else some v
    else if v.isDeleted then
      if v.createTs = invalidTimestamp ∨ readTs < v.createTs then findVisibleLoop readTs id vs else none
    else if v.createTs ≠ invalidTimestamp ∧ v.createTs ≠ intMax ∧ v.createTs ≤ readTs ∧
        (v.expireTs = intMax ∨ readTs < v.expireTs) then some v
    else findVisibleLoop readTs id vs

/-- `find_visible_version`. -/
def findVisibleVersion (chain : VersionChain) (readTs id : Int) : Option TupleVersion :=
  findVisibleLoop readTs id (chain.take maxIterations)

/-- `find_version_for_delete`. -/
def findVersionForDelete (chain : VersionChain) (readTs id : Int) : Option TupleVersion :=
  (chain.take maxIterations).find? fun v => !v.isDeleted && isVersionVisible v id readTs

/-- The loop of `reconstruct_version`. -/
def reconstructLoop (targetTs id : Int) : VersionChain → Option TupleVersion
  | [] => none
  | v :: vs =>
    if v.txnId = id then if v.isDeleted then none else some v
    else if v.createTs ≠ invalidTimestamp ∧ v.createTs ≠ intMax ∧ v.createTs ≤ targetTs ∧
        (v.expireTs = intMax ∨ targetTs < v.expireTs) ∧ ¬v.isDeleted then some v
    else reconstructLoop targetTs id vs

/-- `reconstruct_version` on the chain of the row: the version whose data it copies. -/
def reconstructVersion (chain : VersionChain) (targetTs id : Int) : Option TupleVersion :=
  reconstructLoop targetTs id (chain.take maxIterations)

/-- `update_version`: the chain after an update, or nothing if the update is refused. -/
def updateVersion (chain : VersionChain) (newData : Bytes) (id readTs : Int) : Option VersionChain :=
  if chain.conflicts id then none
  else match chain with
    | [] => some [.new newData id false]
    | v :: vs =>
      if v.txnId = id ∧ v.createTs = invalidTimestamp then
        if v.isDeleted then none else some ({ v with data := newData } :: vs)
      else match findVisibleVersion (v :: vs) readTs id with
        | none => none
        | some u => if u.isDeleted then none else some (.new newData id false :: v :: vs)

/-- `delete_version` on the chain of the row: the chain after a deletion, or nothing if it is refused. -/
def deleteVersion (chain : VersionChain) (id readTs : Int) : Option VersionChain :=
  if chain.conflicts id then none
  else match chain.findVersionForDelete readTs id with
    | none => none
    | some v =>
      if v.isDeleted then none
      else if chain.any fun u => u.txnId = id && u.isDeleted then none
      else some (.new v.data id true :: chain)

/-- The version that `delete_version` puts into a new chain for the record in the file. -/
def initialVersion (data : Bytes) : TupleVersion := ⟨data, 0, 0, intMax, false⟩

/-- The loop of `commit_chain_versions`; `expire` says that the version before was committed by it. -/
def commitLoop (id commitTs : Int) : Bool → VersionChain → VersionChain
  | _, [] => []
  | expire, v :: vs =>
    let u := if expire && v.createTs ≠ invalidTimestamp && v.expireTs = intMax then { v with expireTs := commitTs } else v
    if v.txnId = id ∧ v.createTs = invalidTimestamp then { u with createTs := commitTs } :: commitLoop id commitTs true vs
    else u :: commitLoop id commitTs false vs

/-- `commit_chain_versions`. -/
def commitChainVersions (chain : VersionChain) (id commitTs : Int) : VersionChain := commitLoop id commitTs false chain

/-- `rollback_chain_versions`. -/
def rollbackChainVersions (chain : VersionChain) (id : Int) : VersionChain :=
  chain.filter fun v => !(v.txnId = id && v.createTs = invalidTimestamp)

end VersionChain
end Rmdb
