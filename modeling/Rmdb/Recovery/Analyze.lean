import Rmdb.Recovery.Log
import Rmdb.Record.File
import Mathlib.Logic.Function.Basic

/-! The scan of the log at a start (`RecoveryManager::analyze` in `recovery/log_recovery.cpp`, `read_log` of
`storage/disk_manager.cpp`). -/

namespace Rmdb

/-! ### Reading a record -/

/-- `RmRecord::Deserialize`. -/
def readRecord (a : Bytes) : Bytes := (a.drop 4).take (readInt a).toNat

def dropRecord (a : Bytes) : Bytes := a.drop (4 + (readInt a).toNat)

/-- A name behind its size. -/
def readName (a : Bytes) : Bytes := (a.drop 8).take (readSize a)

def dropName (a : Bytes) : Bytes := a.drop (8 + readSize a)

/-- `deserialize` behind the header, for the types that `analyze` has a case for. -/
def LogBody.deserialize (logType : Nat) (a : Bytes) : Option LogBody :=
  if logType = 0 then
    let b := dropRecord (dropRecord a)
    let c := dropName (b.drop 8)
    some (.update (readRecord a) (readRecord (dropRecord a)) (readRid b) (readName (b.drop 8)) (readInt c) (readInt (c.drop 4)))
  else if logType = 1 then
    let b := dropRecord a
    some (.insert (readRecord a) (readRid b) (readName (b.drop 8)))
  else if logType = 2 then
    let b := dropRecord a
    let c := dropName (b.drop 8)
    some (.delete (readRecord a) (readRid b) (readName (b.drop 8)) (readInt c) (readInt (c.drop 4)))
  else if logType = 3 then some .begin
  else if logType = 4 then some .commit
  else if logType = 5 then some .abort
  else none

/-- `deserialize`. -/
def LogEntry.deserialize (a : Bytes) : Option LogEntry :=
  (LogBody.deserialize (readWord a) (a.drop logHeaderSize)).map fun body =>
    ⟨readInt (a.drop 4), readInt (a.drop 12), readInt (a.drop 16), body⟩

/-- `log_tot_len_` in the header. -/
def readTotLen (a : Bytes) : Nat := readWord (a.drop 8)

/-! ### The scan -/

/-- What ends a recovery: an exception, or a loop that never ends. -/
inductive RecoveryError where
  | readLogError
  | diverged
  | rm (e : RmError)
deriving DecidableEq, Repr

/-- `read_log`. The size of the file is an `int`. -/
def readLog (file : Bytes) (size offset : Nat) : Except RecoveryError Bytes :=
  let fileSize := wrapInt file.length
  if fileSize < offset then .error .readLogError
  else .ok ((file.drop offset).take (min size (fileSize - offset).toNat))

/-- A record that `analyze` finds: its position in the file, the length in its header and what it says. -/
structure SeenRecord where
  offset : Nat
  totLen : Nat
  entry : LogEntry
deriving DecidableEq, Repr

/-- The inner loop of `analyze`: the records of a chunk, and the position in the file behind them. The
    positions are 32-bit numbers, and a record of a type without a case is looked at again and again. -/
def scanChunk (chunk : Bytes) : Nat → Nat → Nat → Except RecoveryError (List SeenRecord × Nat)
  | 0, _, _ => .error .diverged
  | fuel + 1, bufferOffset, fileOffset =>
    if chunk.length ≤ bufferOffset + 12 then .ok ([], fileOffset)
    else
      let src := chunk.drop bufferOffset
      if chunk.length < (readTotLen src + bufferOffset) % 0x100000000 then .ok ([], fileOffset)
      else match LogEntry.deserialize src with
        | none => scanChunk chunk fuel bufferOffset fileOffset
        | some r => do
          let (seen, o) ← scanChunk chunk fuel ((bufferOffset + readTotLen src) % 0x100000000)
            ((fileOffset + readTotLen src) % 0x100000000)
          .ok (⟨fileOffset, readTotLen src, r⟩ :: seen, o)

/-- The outer loop of `analyze`, with the turns that an inner loop may take. -/
def scanLoop (file : Bytes) (turns : Nat) : Nat → Nat → Except RecoveryError (List SeenRecord)
  | 0, _ => .error .diverged
  | fuel + 1, fileOffset => do
    let chunk ← readLog file logBufferSize fileOffset
    let (seen, o) ← scanChunk chunk turns 0 fileOffset
    if chunk.length < logBufferSize then .ok seen
    else
      let rest ← scanLoop file turns fuel o
      .ok (seen ++ rest)

/-- The records that `analyze` sees. No loop that ends comes to one position twice. -/
def scanLog (file : Bytes) : Except RecoveryError (List SeenRecord) := scanLoop file (logBufferSize + 1) (file.length + 1) 0

/-! ### What `analyze` keeps -/

structure Analysis where
  lsnOffset : Int → Option Nat
  lsnLen : Int → Option Nat
  undoMap : List (Int × List Int)
  redoList : List Int

namespace Analysis

def empty : Analysis := ⟨fun _ => none, fun _ => none, [], []⟩

/-- `undo_map_[id].push_back(lsn)`. The transactions are in the order of their ids. -/
def pushUndo (id lsn : Int) : List (Int × List Int) → List (Int × List Int)
  | [] => [(id, [lsn])]
  | (i, lsns) :: rest =>
    if id < i then (id, [lsn]) :: (i, lsns) :: rest
    else if id = i then (i, lsns ++ [lsn]) :: rest
    else (i, lsns) :: pushUndo id lsn rest

/-- `undo_map_.erase(id)`. -/
def eraseUndo (id : Int) (m : List (Int × List Int)) : List (Int × List Int) := m.filter (·.1 ≠ id)

/-- The case of the record's type. -/
def see (m : Analysis) (r : SeenRecord) : Analysis :=
  let e := r.entry
  let m := { m with
    lsnOffset := Function.update m.lsnOffset e.lsn (some r.offset)
    lsnLen := Function.update m.lsnLen e.lsn (some r.totLen) }
  match e.body with
  | .begin => { m with undoMap := pushUndo e.logTid e.lsn m.undoMap }
  | .commit | .abort => { m with undoMap := eraseUndo e.logTid m.undoMap }
  | .insert .. | .delete .. | .update .. =>
    { m with undoMap := pushUndo e.logTid e.lsn m.undoMap, redoList := m.redoList ++ [e.lsn] }
  | .checkpoint => m

end Analysis

/-- `analyze`. -/
def analyze (file : Bytes) : Except RecoveryError Analysis := do
  let seen ← scanLog file
  .ok (seen.foldl Analysis.see .empty)

end Rmdb
