import Rmdb.Lib.Runs
import Rmdb.Lib.TextStream
import Mathlib.Logic.Function.Basic

/-! The session of a client (`client_handler` and `SetTransaction` in `rmdb.cpp`, the utility commands of
`execution/execution_manager.cpp`).

The parser is a parameter. The transaction manager is seen through the transactions that the session began: a transaction
object is never freed, and it is in `txn_map` until it ends. -/

namespace Rmdb

/-! ### Control statements -/

/-- `normalize_client_command`. -/
def normalizeClientCommand (rawCmd : List Char) : List Char :=
  let trimmed := ((rawCmd.dropWhile TextStream.isSpace).reverse.dropWhile TextStream.isSpace).reverse
  let cut := if trimmed.getLast? = some ';' then trimmed.dropLast else trimmed
  cut.map Char.toUpper

/-- `is_transaction_control_statement`. -/
def isTransactionControlStatement (rawCmd : List Char) : Bool :=
  let normalized := normalizeClientCommand rawCmd
  normalized = "BEGIN".toList || normalized = "COMMIT".toList || normalized = "ROLLBACK".toList || normalized = "ABORT".toList

/-- What `yyparse` leaves, as far as the session tells it apart. -/
inductive Parsed where
  | syntaxError
  | noTree
  | setOutputFile
  | txnBegin
  | txnCommit
  | txnRollback
  | txnAbort
  | statement
deriving DecidableEq, Repr

/-- How a statement ends. -/
inductive Outcome where
  | done
  | transactionAbort
  | rmdbError
deriving DecidableEq, Repr

/-! ### The session -/

inductive TxnStatus where
  | active
  | committed
  | aborted
deriving DecidableEq, Repr

/-- `Transaction`. -/
structure SessionTxn (L : Type) where
  txnMode : Bool
  status : TxnStatus
  lockSet : List L

inductive EndCall where
  | commit
  | abort
deriving DecidableEq, Repr

/-- The state that the call sets. -/
def EndCall.status : EndCall → TxnStatus
  | commit => .committed
  | abort => .aborted

inductive SessionStatus where
  | running
  /-- The loop is left. -/
  | closed
  /-- The process is gone. -/
  | exited
deriving DecidableEq, Repr

/-- The variables of `client_handler`, the transactions that it began, and its calls of `commit` and `abort`. -/
structure ClientSession (L : Type) where
  txnId : Option Nat
  txns : Nat → Option (SessionTxn L)
  nextTxnId : Nat
  calls : List (EndCall × Option Nat)
  status : SessionStatus

namespace ClientSession
variable {L : Type} (s : ClientSession L)

def init : ClientSession L := ⟨none, fun _ => none, 0, [], .running⟩

/-- `get_transaction`: a transaction that has ended is not in the map. -/
def getTransaction (id : Nat) : Option Nat :=
  match s.txns id with
  | some txn => if txn.status = .active then some id else none
  | none => none

def txnMode (id : Nat) : Bool := (s.txns id).any (·.txnMode)

/-- `begin` of a new transaction, which is the next number. -/
def begin (txnMode : Bool) : ClientSession L :=
  { s with
    txns := Function.update s.txns s.nextTxnId (some ⟨txnMode, .active, []⟩)
    nextTxnId := s.nextTxnId + 1
    txnId := some s.nextTxnId }

/-- `commit` or `abort`: locks are released. A null pointer ends the process. -/
def endTxn (call : EndCall) (txn : Option Nat) : ClientSession L :=
  let s := { s with calls := s.calls ++ [(call, txn)] }
  match txn with
  | none => { s with status := .exited }
  | some id => { s with txns := Function.update s.txns id ((s.txns id).map fun t =>
      { t with status := call.status, lockSet := [] }) }

/-- The call, and `txn_id` is reset. -/
def endCurrent (call : EndCall) (txn : Option Nat) : ClientSession L := { s.endTxn call txn with txnId := none }

/-- `SetTransaction`, with the pointer that it puts into the context. -/
def setTransaction : ClientSession L × Option Nat :=
  match s.txnId.bind s.getTransaction with
  | some id => (s, some id)
  | none => (s.begin false, some s.nextTxnId)

/-- Locks that a statement takes. -/
def lock (txn : Option Nat) (locks : List L) : ClientSession L :=
  match txn with
  | none => s
  | some id => { s with txns := Function.update s.txns id ((s.txns id).map fun t => { t with lockSet := t.lockSet ++ locks }) }

/-- What the session does with a message between parsing and its answer: the new state and the context's pointer. -/
def execute (parsed : Parsed) (outcome : Outcome) (locks : List L) (txn : Option Nat) : ClientSession L × Option Nat :=
  match parsed with
  | .syntaxError | .noTree | .setOutputFile => (s, txn)
  | .txnBegin =>
    let s := if txn.any s.txnMode then s.endTxn .commit txn else s
    (s.begin true, some s.nextTxnId)
  | .txnCommit => if s.txnId.isSome ∧ txn.isSome then (s.endCurrent .commit txn, none) else (s, txn)
  | .txnRollback => if s.txnId.isSome ∧ txn.isSome then (s.endCurrent .abort txn, none) else (s, txn)
  | .txnAbort =>
    let txn := s.txnId.bind s.getTransaction
    (s.endCurrent .abort txn, txn)
  | .statement =>
    let s := s.lock txn locks
    match outcome with
    | .done | .rmdbError => (s, txn)
    | .transactionAbort => (if txn.isSome then s.endCurrent .abort txn else { s with txnId := none }, none)

/-- Behind the answer: a transaction of one statement is committed. -/
def autoCommit (txn : Option Nat) : ClientSession L :=
  match txn with
  | none => s
  | some id => if s.txnMode id then s else s.endCurrent .commit txn

end ClientSession

/-- A message, how its statement ends and which locks it takes, and whether the answer can be sent. -/
structure Message (L : Type) where
  text : List Char
  outcome : Outcome
  locks : List L
  sent : Bool

inductive SessionEvent (L : Type) where
  | message (m : Message L)
  /-- `read` returns nothing or fails. -/
  | disconnect
  /-- Other sessions begin transactions. -/
  | others (n : Nat)

namespace ClientSession
variable {L : Type} (parse : List Char → Parsed)

/-- The pointer in the context when a message is parsed. -/
def context (s : ClientSession L) (text : List Char) : ClientSession L × Option Nat :=
  if isTransactionControlStatement text then (s, s.txnId.bind s.getTransaction) else s.setTransaction

/-- The body of the loop for a message that is a statement. -/
def handle (s : ClientSession L) (m : Message L) : ClientSession L :=
  let (s, txn) := s.context m.text
  let (s, txn) := s.execute (parse m.text) m.outcome m.locks txn
  if s.status ≠ .running then s
  else if m.sent then s.autoCommit txn
  else { s with status := .closed }

/-- An event of the session. -/
def step (s : ClientSession L) (a : SessionEvent L) : Except Empty (ClientSession L) :=
  if s.status ≠ .running then .ok s
  else .ok <| match a with
    | .message m =>
      if m.text = "exit".toList then { s with status := .closed }
      else if m.text = "crash".toList then { s with status := .exited }
      else s.handle parse m
    | .disconnect => { s with status := .closed }
    | .others n => { s with nextTxnId := s.nextTxnId + n }

end ClientSession
end Rmdb
