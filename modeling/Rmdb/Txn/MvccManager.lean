import Rmdb.Txn.Version
import Rmdb.Lib.Runs
import Mathlib.Logic.Function.Basic

/-! `MVCCManager` (`transaction/mvcc_manager.h`): the version chains of the rows, and the five operations that change them.

A row is a key of `version_chains_`, made of its table and its position. -/

namespace Rmdb

/-- `insert_version` on the chain of the row: the chain after an insertion, or nothing if it is refused. A transaction that
    deleted the row uses its deletion again. -/
def VersionChain.insertVersion (chain : VersionChain) (data : Bytes) (id : Int) : Option VersionChain :=
  match chain with
  | [] => some [.new data id false]
  | v :: vs =>
    if v.txnId = id ∧ v.createTs = invalidTimestamp then
      if v.isDeleted then some ({ v with data := data, isDeleted := false } :: vs) else none
    else if v.txnId ≠ id ∧ v.createTs = invalidTimestamp then none
    else some (.new data id false :: v :: vs)

/-- `MVCCManager`, with the counter that the timestamps of commits come from. -/
structure MvccManager (K : Type) where
  versionChains : K → Option VersionChain
  nextTimestamp : Int

/-- The calls of `MVCCManager`. `delete_version` gets the record in the table file, if there is one, and the end of a
    transaction its write set. `getNextTimestamp` draws a timestamp that is not one of a commit. -/
inductive MvccCall (K : Type) where
  | insertVersion (row : K) (data : Bytes) (id : Int)
  | updateVersion (row : K) (data : Bytes) (id readTs : Int)
  | deleteVersion (row : K) (original : Option Bytes) (id readTs : Int)
  | commitTransaction (id : Int) (writeSet : List K)
  | rollbackTransaction (id : Int) (writeSet : List K)
  | getNextTimestamp

/-- The counter runs over. -/
inductive MvccError where
  | counterOverflow
deriving DecidableEq, Repr

namespace MvccManager
variable {K : Type} [DecidableEq K]

omit [DecidableEq K] in
/-- A new manager. -/
def init : MvccManager K := ⟨fun _ => none, 1⟩

/-- The chain of a row is changed, or stays if the change is refused. -/
def setChain (m : MvccManager K) (row : K) (chain : VersionChain) (changed : Option VersionChain) : MvccManager K :=
  { m with versionChains := Function.update m.versionChains row (some (changed.getD chain)) }

def insertVersion (m : MvccManager K) (row : K) (data : Bytes) (id : Int) : MvccManager K :=
  let chain := (m.versionChains row).getD []
  m.setChain row chain (chain.insertVersion data id)

def updateVersion (m : MvccManager K) (row : K) (data : Bytes) (id readTs : Int) : MvccManager K :=
  let chain := (m.versionChains row).getD []
  m.setChain row chain (chain.updateVersion data id readTs)

/-- `delete_version`: a row without a chain gets one with its record, also if the deletion is refused. -/
def deleteVersion (m : MvccManager K) (row : K) (original : Option Bytes) (id readTs : Int) : MvccManager K :=
  match (m.versionChains row).or (original.map fun rec => [VersionChain.initialVersion rec]) with
  | none => m
  | some chain => m.setChain row chain (chain.deleteVersion id readTs)

/-- `commit_transaction`. -/
def commitTransaction (m : MvccManager K) (id : Int) (writeSet : List K) (commitTs : Int) : MvccManager K :=
  { m with versionChains := fun row =>
      if row ∈ writeSet then (m.versionChains row).map (·.commitChainVersions id commitTs) else m.versionChains row }

/-- `rollback_transaction`: a chain that becomes empty is removed. -/
def rollbackTransaction (m : MvccManager K) (id : Int) (writeSet : List K) : MvccManager K :=
  { m with versionChains := fun row =>
      if row ∈ writeSet then ((m.versionChains row).map (·.rollbackChainVersions id)).filter (· ≠ []) else m.versionChains row }

/-- `get_next_timestamp`. -/
def getNextTimestamp (m : MvccManager K) : MvccManager K := { m with nextTimestamp := m.nextTimestamp + 1 }

def step (m : MvccManager K) : MvccCall K → Except MvccError (MvccManager K)
  | .insertVersion row data id => .ok (m.insertVersion row data id)
  | .updateVersion row data id readTs => .ok (m.updateVersion row data id readTs)
  | .deleteVersion row original id readTs => .ok (m.deleteVersion row original id readTs)
  | .commitTransaction id writeSet =>
    if m.nextTimestamp < intMax then .ok (m.getNextTimestamp.commitTransaction id writeSet m.nextTimestamp)
    else .error .counterOverflow
  | .rollbackTransaction id writeSet => .ok (m.rollbackTransaction id writeSet)
  | .getNextTimestamp => if m.nextTimestamp < intMax then .ok m.getNextTimestamp else .error .counterOverflow

end MvccManager
end Rmdb
