import Rmdb.Recovery.Log

/-! The log of a database over several runs of the server. A start makes new managers (`rmdb.cpp`): LSNs and transaction ids
begin at 0 again, and new records go behind what the log file has. Recovery itself writes no log record. -/

namespace Rmdb

/-- A record of a transaction whose numbers fit their types. -/
structure TxnRecord where
  id : Int
  body : LogBody
  id_fits : InInt id
  body_fits : body.Fits
  len : body.logTotLen ≤ logBufferSize

/-- A running server: the log manager and `next_txn_id_`. -/
structure LogServer where
  log : LogManager
  nextTxnId : Int

inductive LogServerAct where
  /-- `TransactionManager::begin`. -/
  | begin
  | add (r : TxnRecord)
  | flush
  /-- A crash after the first `n` bytes of the buffer were written, and a restart. -/
  | crash (n : Nat)

namespace LogServer

/-- The start of a server on a log file. -/
def start (file : Bytes) : LogServer := ⟨.init file, 0⟩

def step (s : LogServer) : LogServerAct → Except Empty LogServer
  | .begin => .ok ⟨s.log.addLogToBuffer s.nextTxnId (-1) .begin, wrapInt (s.nextTxnId + 1)⟩
  | .add r => .ok { s with log := s.log.addLogToBuffer r.id (-1) r.body }
  | .flush => .ok { s with log := s.log.flushLogToDisk }
  | .crash n => .ok (start (s.log.file ++ s.log.pending.take n))

end LogServer
end Rmdb
