import Rmdb.Txn.Manager

/-! The lock manager (`transaction/concurrency/lock_manager.cpp`) and the release of locks at the end of a transaction
(`commit` and `abort` of `transaction/transaction_manager.cpp`). A request that cannot be granted is refused at once. -/

namespace Rmdb

inductive LockMode where
  | shared
  | exlucsive
  | intentionShared
  | intentionExclusive
  | sIx
deriving DecidableEq, Repr

structure LockRequest where
  txnId : Int
  lockMode : LockMode
  granted : Bool
deriving DecidableEq, Repr

/-- `LockDataId`: what can be locked. -/
inductive LockDataId where
  | table (fd : Int)
  | record (fd : Int) (rid : Rid)
deriving DecidableEq, Repr

/-- The state and the lock set of a transaction. -/
structure TxnLocks where
  state : TransactionState
  lockSet : List LockDataId
deriving DecidableEq, Repr

/-- The lock table and the live transactions. An item without a queue has an empty one. -/
structure LockManager where
  lockTable : LockDataId → List LockRequest
  txnMap : Int → Option TxnLocks
  nextTxnId : Int

namespace LockManager

def init : LockManager := ⟨fun _ => [], fun _ => none, 0⟩

variable (s : LockManager) (id : Int)

/-- `get_state`. -/
def state? : Option TransactionState := (s.txnMap id).map (·.state)

def modifyTxn (g : TxnLocks → TxnLocks) : LockManager :=
  { s with txnMap := Function.update s.txnMap id ((s.txnMap id).map g) }

/-- `set_state`. -/
def setState (st : TransactionState) : LockManager := s.modifyTxn id fun x => { x with state := st }

/-- A granted request at the end of the queue. -/
def grant (item : LockDataId) (mode : LockMode) : LockManager :=
  let s := { s with lockTable := Function.update s.lockTable item (s.lockTable item ++ [LockRequest.mk id mode true]) }
  s.modifyTxn id fun x => { x with lockSet := x.lockSet.insert item }

def refuse : LockManager × Bool := (s.setState id .aborted, false)

/-- Another transaction has a granted request on the item in one of the modes. -/
def heldByOther (item : LockDataId) (conflict : LockMode → Bool) : Bool :=
  (s.lockTable item).any fun r => r.granted && r.txnId ≠ id && conflict r.lockMode

/-! ### Records -/

def lockSharedOnRecord (rid : Rid) (tabFd : Int) : LockManager × Bool :=
  if s.state? id = some .shrinking then s.refuse id
  else if (s.lockTable (.record tabFd rid)).any fun r => r.txnId = id && r.granted then (s, true)
  else if s.heldByOther id (.record tabFd rid) fun m => m = .exlucsive then s.refuse id
  else (s.grant id (.record tabFd rid) .shared, true)

/-- The first granted request of the transaction that the loop of `lock_exclusive_on_record` returns at. -/
def ownMode (item : LockDataId) : Option LockMode :=
  ((s.lockTable item).find? fun r => r.txnId = id && r.granted && (r.lockMode = .exlucsive || r.lockMode = .shared)).map
    (·.lockMode)

def lockExclusiveOnRecord (rid : Rid) (tabFd : Int) : LockManager × Bool :=
  if s.state? id = some .shrinking then s.refuse id
  else match s.ownMode id (.record tabFd rid) with
    | some mode => if mode = .exlucsive then (s, true) else s.refuse id
    | none =>
      if s.heldByOther id (.record tabFd rid) fun _ => true then s.refuse id
      else (s.grant id (.record tabFd rid) .exlucsive, true)

/-! ### Tables -/

/-- A lock on a table, which the granted requests of others in the conflicting modes prevent. The own requests of the
    transaction are not looked at. -/
def lockOnTable (tabFd : Int) (mode : LockMode) (conflict : LockMode → Bool) : LockManager × Bool :=
  if s.state? id = some .shrinking then s.refuse id
  else if s.heldByOther id (.table tabFd) conflict then s.refuse id
  else (s.grant id (.table tabFd) mode, true)

def lockSharedOnTable (tabFd : Int) : LockManager × Bool :=
  s.lockOnTable id tabFd .shared fun m => m = .exlucsive || m = .intentionExclusive || m = .sIx

def lockExclusiveOnTable (tabFd : Int) : LockManager × Bool := s.lockOnTable id tabFd .exlucsive fun _ => true

def lockISOnTable (tabFd : Int) : LockManager × Bool :=
  s.lockOnTable id tabFd .intentionShared fun m => m = .exlucsive

def lockIXOnTable (tabFd : Int) : LockManager × Bool :=
  s.lockOnTable id tabFd .intentionExclusive fun m => m = .exlucsive || m = .shared || m = .sIx

/-! ### Release -/

def startShrinking : LockManager := if s.state? id = some .growing then s.setState id .shrinking else s

/-- The first request of the transaction leaves the queue. -/
def dequeue (item : LockDataId) : LockManager × Bool :=
  let s := s.modifyTxn id fun x => { x with lockSet := x.lockSet.filter (· ≠ item) }
  if (s.lockTable item).any (·.txnId = id) then
    ({ s with lockTable := Function.update s.lockTable item ((s.lockTable item).eraseP (·.txnId = id)) }, true)
  else (s, false)

def unlock (item : LockDataId) : LockManager × Bool :=
  let s := s.startShrinking id
  if s.lockTable item = [] then (s, false) else s.dequeue id item

def unlockAll (items : List LockDataId) : LockManager := items.foldl (fun s item => (s.unlock id item).1) s

/-- The locks that `TransactionManager::commit` releases. -/
def commit (x : TxnLocks) : LockManager :=
  let s := (s.setState id .shrinking).unlockAll id x.lockSet
  { s with txnMap := Function.update s.txnMap id none }

/-- The locks that `TransactionManager::abort` releases. -/
def abort (x : TxnLocks) : LockManager :=
  let s := s.unlockAll id x.lockSet
  { s with txnMap := Function.update s.txnMap id none }

/-- `TransactionManager::begin`. -/
def begin : LockManager :=
  { s with txnMap := Function.update s.txnMap s.nextTxnId (some ⟨.growing, []⟩), nextTxnId := s.nextTxnId + 1 }

end LockManager

/-- A request for a lock. -/
inductive LockCall where
  | sharedOnRecord (rid : Rid) (tabFd : Int)
  | exclusiveOnRecord (rid : Rid) (tabFd : Int)
  | sharedOnTable (tabFd : Int)
  | exclusiveOnTable (tabFd : Int)
  | isOnTable (tabFd : Int)
  | ixOnTable (tabFd : Int)
deriving DecidableEq, Repr

/-- What the transactions do with their locks. -/
inductive LockAct where
  | begin
  | lock (id : Int) (c : LockCall)
  | unlock (id : Int) (item : LockDataId)
  | commit (id : Int)
  | abort (id : Int)
deriving DecidableEq, Repr

namespace LockManager

def lock (s : LockManager) (id : Int) : LockCall → LockManager × Bool
  | .sharedOnRecord rid tabFd => s.lockSharedOnRecord id rid tabFd
  | .exclusiveOnRecord rid tabFd => s.lockExclusiveOnRecord id rid tabFd
  | .sharedOnTable tabFd => s.lockSharedOnTable id tabFd
  | .exclusiveOnTable tabFd => s.lockExclusiveOnTable id tabFd
  | .isOnTable tabFd => s.lockISOnTable id tabFd
  | .ixOnTable tabFd => s.lockIXOnTable id tabFd

/-- A step of the transactions. Only live transactions call the lock manager. -/
def step (s : LockManager) (a : LockAct) : Except DbError LockManager :=
  match a with
  | .begin => if s.nextTxnId < intMax then .ok s.begin else .error .counterOverflow
  | .lock id c => .ok (if (s.txnMap id).isSome then (s.lock id c).1 else s)
  | .unlock id item => .ok (if (s.txnMap id).isSome then (s.unlock id item).1 else s)
  | .commit id => .ok ((s.txnMap id).elim s (s.commit id))
  | .abort id => .ok ((s.txnMap id).elim s (s.abort id))

end LockManager
end Rmdb
