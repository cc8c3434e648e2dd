import Rmdb.Defs

/-! Log records and the log manager (`recovery/log_manager.h`, `recovery/log_manager.cpp`, `write_log` of
`storage/disk_manager.cpp`). -/

namespace Rmdb

/-! ### Numbers in a record -/

/-- The eight bytes of a `size_t`. -/
def putSize (n : Nat) : Bytes := putWord n ++ putWord (n / 0x100000000)

/-- `*(size_t *)a`. -/
def readSize (a : Bytes) : Nat := readWord a + 0x100000000 * readWord (a.drop 4)

/-- The 32-bit value of a counter. -/
def wrapInt (n : Int) : Int := toSigned (n % 0x100000000).toNat

/-- The number is an `int`. -/
def InInt (n : Int) : Prop := -0x80000000 ≤ n ∧ n < 0x80000000

/-! ### Records -/

/-- `LOG_HEADER_SIZE`. -/
def logHeaderSize : Nat := 20

/-- `LOG_BUFFER_SIZE`. -/
def logBufferSize : Nat := 1024 * pageSize

/-- What a log record has besides its header, for each `LogType`. -/
inductive LogBody where
  | update (oldValue newValue : Bytes) (rid : Rid) (tableName : Bytes) (firstFreePageNo numPages : Int)
  | insert (insertValue : Bytes) (rid : Rid) (tableName : Bytes)
  | delete (deleteValue : Bytes) (rid : Rid) (tableName : Bytes) (firstFreePageNo numPages : Int)
  | begin
  | commit
  | abort
  | checkpoint
deriving DecidableEq, Repr

namespace LogBody

/-- The number of the `LogType`. -/
def logType : LogBody → Nat
  | update .. => 0
  | insert .. => 1
  | delete .. => 2
  | begin => 3
  | commit => 4
  | abort => 5
  | checkpoint => 6

/-- `log_tot_len_` as the constructor of the record computes it. -/
def logTotLen : LogBody → Nat
  | update old new _ tableName _ _ =>
    logHeaderSize + 4 * 2 + (old.length + new.length) + 8 + (8 + tableName.length) + 4 + 4
  | insert value _ tableName => logHeaderSize + 4 + value.length + 8 + (8 + tableName.length)
  | delete value _ tableName _ _ => logHeaderSize + 4 + value.length + 8 + (8 + tableName.length) + 4 + 4
  | begin | commit | abort | checkpoint => logHeaderSize

/-- `RmRecord` with its size. -/
def putRecord (value : Bytes) : Bytes := putInt value.length ++ value

/-- What `serialize` writes behind the header. -/
def serialize : LogBody → Bytes
  | update old new rid tableName firstFreePageNo numPages =>
    putRecord old ++ (putRecord new ++ (putRid rid ++ (putSize tableName.length ++ (tableName ++
      (putInt firstFreePageNo ++ putInt numPages)))))
  | insert value rid tableName => putRecord value ++ (putRid rid ++ (putSize tableName.length ++ tableName))
  | delete value rid tableName firstFreePageNo numPages =>
    putRecord value ++ (putRid rid ++ (putSize tableName.length ++ (tableName ++
      (putInt firstFreePageNo ++ putInt numPages))))
  | begin | commit | abort | checkpoint => []

end LogBody

def RidFits (rid : Rid) : Prop := InInt rid.pageNo ∧ InInt rid.slotNo

/-- The numbers of the record fit their types. No code adds a checkpoint record. -/
def LogBody.Fits : LogBody → Prop
  | .update _ _ rid _ firstFreePageNo numPages => RidFits rid ∧ InInt firstFreePageNo ∧ InInt numPages
  | .insert _ rid _ => RidFits rid
  | .delete _ rid _ firstFreePageNo numPages => RidFits rid ∧ InInt firstFreePageNo ∧ InInt numPages
  | .begin | .commit | .abort => True
  | .checkpoint => False

/-- `LogRecord`. -/
structure LogEntry where
  lsn : Int
  logTid : Int
  prevLsn : Int
  body : LogBody
deriving DecidableEq, Repr

/-- `serialize`. -/
def LogEntry.serialize (r : LogEntry) : Bytes :=
  putWord r.body.logType ++ (putInt r.lsn ++ (putWord r.body.logTotLen ++ (putInt r.logTid ++ (putInt r.prevLsn ++
    r.body.serialize))))

/-! ### The log manager -/

/-- `LogManager` with its buffer, and the log file. `persist_lsn_` has no value before the first flush. -/
structure LogManager where
  globalLsn : Int
  buffer : Nat → UInt8
  offset : Nat
  persistLsn : Option Int
  file : Bytes

namespace LogManager

/-- A log manager over a log file. -/
def init (file : Bytes) : LogManager := ⟨0, fun _ => 0, 0, none, file⟩

variable (s : LogManager)

/-- The first bytes of the buffer. -/
def pending : Bytes := (List.range s.offset).map s.buffer

/-- `flush_log_to_disk`. `write_log` writes behind the end of the file. -/
def flushLogToDisk : LogManager :=
  { s with
    file := s.file ++ s.pending
    buffer := fun _ => 0
    offset := 0
    persistLsn := some (wrapInt (s.globalLsn - 1)) }

/-- `is_full`. -/
def isFull (appendSize : Nat) : Bool := logBufferSize < s.offset + appendSize

/-- Bytes copied into the buffer from its offset on. -/
def store (bytes : Bytes) : LogManager :=
  { s with buffer := fun i => if s.offset ≤ i ∧ i < s.offset + bytes.length then bytes.getD (i - s.offset) 0 else s.buffer i }

/-- The record that `add_log_to_buffer` gives the next LSN. -/
def nextEntry (logTid prevLsn : Int) (body : LogBody) : LogEntry := ⟨s.globalLsn, logTid, prevLsn, body⟩

/-- `add_log_to_buffer`. -/
def addLogToBuffer (logTid prevLsn : Int) (body : LogBody) : LogManager :=
  let s := if s.isFull body.logTotLen then s.flushLogToDisk else s
  let r := s.nextEntry logTid prevLsn body
  let s := { s with globalLsn := wrapInt (s.globalLsn + 1) }.store r.serialize
  { s with offset := s.offset + body.logTotLen }

end LogManager

/-- A record that fits into the log buffer. -/
abbrev BufferedBody := { body : LogBody // body.logTotLen ≤ logBufferSize }

/-- A call of the log manager. -/
inductive LogAct where
  | addLogToBuffer (logTid prevLsn : Int) (body : BufferedBody)
  | flushLogToDisk

/-- A call as a step, which returns. -/
def LogManager.step (s : LogManager) : LogAct → Except Empty LogManager
  | .addLogToBuffer logTid prevLsn body => .ok (s.addLogToBuffer logTid prevLsn body.val)
  | .flushLogToDisk => .ok s.flushLogToDisk

end Rmdb
