import Rmdb.Recovery.Analyze
import Rmdb.Theorems.Recovery.Log
import Mathlib.Data.List.Nodup

/-! `analyze` sees the records of a log: what `serialize` writes, `deserialize` reads, and a log whose last record is torn is
read up to that record. -/

namespace Rmdb
open Runs

/-! ### Numbers -/

theorem readInt_putInt {n : Int} (h : InInt n) (l : Bytes) : readInt (putInt n ++ l) = n := by
  have hlt : (n % 0x100000000).toNat < 0x100000000 := by omega
  obtain ⟨hlo, hhi⟩ := h
  rw [readInt, putInt, readWord_putWord hlt]
  unfold toSigned
  split <;> omega

theorem wrapInt_of_inInt {n : Int} (h : InInt n) : wrapInt n = n := by
  obtain ⟨hlo, hhi⟩ := h
  unfold wrapInt toSigned
  split <;> omega

theorem inInt_wrapInt (n : Int) : InInt (wrapInt n) := by
  unfold wrapInt toSigned InInt
  split <;> omega

theorem putWord_mod (n : Nat) : putWord (n % 0x100000000) = putWord n := by
  simp only [putWord, List.cons.injEq, and_true]
  refine ⟨?_, ?_, ?_, ?_⟩ <;> refine UInt8.toNat_inj.mp ?_ <;> simp only [UInt8.toNat_ofNat'] <;> omega

theorem readSize_putSize {n : Nat} (h : n < 0x10000000000000000) (l : Bytes) : readSize (putSize n ++ l) = n := by
  have hlow : readWord (putSize n ++ l) = n % 0x100000000 := by
    rw [putSize, ← putWord_mod, List.append_assoc, readWord_putWord (by omega)]
  have hhigh : readWord ((putSize n ++ l).drop 4) = n / 0x100000000 := by
    rw [putSize, List.append_assoc, List.drop_append_of_le_length (by simp), ← putWord_length n, List.drop_length,
      List.nil_append, readWord_putWord (by omega)]
  rw [readSize, hlow, hhigh]
  omega

@[simp] theorem drop_putInt (n : Int) (l : Bytes) : (putInt n ++ l).drop 4 = l := rfl

@[simp] theorem drop_putRid (rid : Rid) (l : Bytes) : (putRid rid ++ l).drop 8 = l := rfl

theorem readRid_putRid {rid : Rid} (h : RidFits rid) (l : Bytes) : readRid (putRid rid ++ l) = rid := by
  rw [readRid, putRid, List.append_assoc, readInt_putInt h.1, drop_putInt, readInt_putInt h.2]

/-! ### Records -/

theorem readInt_putRecord {value : Bytes} (h : value.length < 0x80000000) (l : Bytes) :
    readInt (LogBody.putRecord value ++ l) = value.length := by
  rw [LogBody.putRecord, List.append_assoc, readInt_putInt ⟨by omega, by omega⟩]

theorem readRecord_putRecord {value : Bytes} (h : value.length < 0x80000000) (l : Bytes) :
    readRecord (LogBody.putRecord value ++ l) = value := by
  rw [readRecord, readInt_putRecord h, LogBody.putRecord, List.append_assoc, drop_putInt]
  simp

theorem dropRecord_putRecord {value : Bytes} (h : value.length < 0x80000000) (l : Bytes) :
    dropRecord (LogBody.putRecord value ++ l) = l := by
  rw [dropRecord, readInt_putRecord h, Int.toNat_natCast, ← putRecord_length, List.drop_left]

theorem readName_putSize {tableName : Bytes} (h : tableName.length < 0x10000000000000000) (l : Bytes) :
    readName (putSize tableName.length ++ (tableName ++ l)) = tableName := by
  rw [readName, readSize_putSize h, ← putSize_length tableName.length, List.drop_left, List.take_left]

theorem dropName_putSize {tableName : Bytes} (h : tableName.length < 0x10000000000000000) (l : Bytes) :
    dropName (putSize tableName.length ++ (tableName ++ l)) = l := by
  rw [dropName, readSize_putSize h, ← List.drop_drop, ← putSize_length tableName.length, List.drop_left, List.drop_left]

theorem LogBody.deserialize_serialize {body : LogBody} (h : body.Fits) (hlen : body.logTotLen < 0x80000000) (l : Bytes) :
    LogBody.deserialize body.logType (body.serialize ++ l) = some body := by
  cases body with
  | update old new rid tableName firstFreePageNo numPages =>
    obtain ⟨hrid, hfree, hpages⟩ := h
    simp only [LogBody.logTotLen, logHeaderSize] at hlen
    simp only [deserialize, logType, serialize, List.append_assoc, if_true,
      readRecord_putRecord (show old.length < 0x80000000 by omega), dropRecord_putRecord (show old.length < 0x80000000 by omega),
      readRecord_putRecord (show new.length < 0x80000000 by omega), dropRecord_putRecord (show new.length < 0x80000000 by omega),
      readRid_putRid hrid, drop_putRid, readName_putSize (show tableName.length < 0x10000000000000000 by omega),
      dropName_putSize (show tableName.length < 0x10000000000000000 by omega), readInt_putInt hfree, drop_putInt,
      readInt_putInt hpages]
  | insert value rid tableName =>
    simp only [LogBody.logTotLen, logHeaderSize] at hlen
    have hrid : RidFits rid := h
    simp [deserialize, logType, serialize, List.append_assoc, -drop_putRid,
      readRecord_putRecord (show value.length < 0x80000000 by omega),
      dropRecord_putRecord (show value.length < 0x80000000 by omega), readRid_putRid hrid, drop_putRid,
      readName_putSize (show tableName.length < 0x10000000000000000 by omega)]
  | delete value rid tableName firstFreePageNo numPages =>
    obtain ⟨hrid, hfree, hpages⟩ := h
    simp only [LogBody.logTotLen, logHeaderSize] at hlen
    simp [deserialize, logType, serialize, List.append_assoc,
      readRecord_putRecord (show value.length < 0x80000000 by omega),
      dropRecord_putRecord (show value.length < 0x80000000 by omega), readRid_putRid hrid, drop_putRid,
      readName_putSize (show tableName.length < 0x10000000000000000 by omega),
      dropName_putSize (show tableName.length < 0x10000000000000000 by omega), readInt_putInt hfree, drop_putInt,
      readInt_putInt hpages]
  | begin => rfl
  | commit => rfl
  | abort => rfl
  | checkpoint => exact h.elim

/-- The members of the record fit their types, and so do the positions in it: `serialize` and `deserialize` count in `int`s. -/
structure LogEntry.Typed (r : LogEntry) : Prop where
  lsn : InInt r.lsn
  logTid : InInt r.logTid
  prevLsn : InInt r.prevLsn
  body : r.body.Fits
  len : r.body.logTotLen < 0x80000000

/-- A record that the log manager can have written. -/
structure LogEntry.Fits (r : LogEntry) : Prop where
  lsn : InInt r.lsn
  logTid : InInt r.logTid
  prevLsn : InInt r.prevLsn
  body : r.body.Fits
  len : r.body.logTotLen ≤ logBufferSize

theorem LogEntry.Fits.typed {r : LogEntry} (h : r.Fits) : r.Typed :=
  ⟨h.lsn, h.logTid, h.prevLsn, h.body, Nat.lt_of_le_of_lt h.len (by decide)⟩

theorem logType_lt (body : LogBody) : body.logType < 0x100000000 := by cases body <;> simp [LogBody.logType]

theorem LogEntry.Typed.deserialize {r : LogEntry} (h : r.Typed) (l : Bytes) :
    LogEntry.deserialize (r.serialize ++ l) = some r := by
  have hbody := LogBody.deserialize_serialize h.body h.len l
  simp only [LogEntry.serialize, List.append_assoc]
  unfold LogEntry.deserialize
  rw [readWord_putWord (logType_lt r.body)]
  show Option.map _ (LogBody.deserialize r.body.logType (r.body.serialize ++ l)) = _
  rw [hbody]
  have hlsn : readInt (putInt r.lsn ++ (putWord r.body.logTotLen ++ (putInt r.logTid ++ (putInt r.prevLsn ++
    (r.body.serialize ++ l))))) = r.lsn := readInt_putInt h.lsn _
  have htid : readInt (putInt r.logTid ++ (putInt r.prevLsn ++ (r.body.serialize ++ l))) = r.logTid :=
    readInt_putInt h.logTid _
  have hprev : readInt (putInt r.prevLsn ++ (r.body.serialize ++ l)) = r.prevLsn := readInt_putInt h.prevLsn _
  simp only [Option.map_some, Option.some.injEq]
  exact congr (congr (congr (congr rfl hlsn) htid) hprev) rfl

theorem LogEntry.Fits.deserialize {r : LogEntry} (h : r.Fits) (l : Bytes) :
    LogEntry.deserialize (r.serialize ++ l) = some r := h.typed.deserialize l

theorem LogEntry.Typed.readTotLen_take {r : LogEntry} (h : r.Typed) {n : Nat} (hn : 12 ≤ n) (l : Bytes) :
    readTotLen (r.serialize.take n ++ l) = r.body.logTotLen := by
  have hlen : r.body.logTotLen < 0x100000000 := Nat.lt_trans h.len (by decide)
  obtain ⟨m, rfl⟩ := Nat.exists_eq_add_of_le hn
  have htake : r.serialize.take (12 + m) = putWord r.body.logType ++ (putInt r.lsn ++ (putWord r.body.logTotLen ++
      (putInt r.logTid ++ (putInt r.prevLsn ++ r.body.serialize)).take m)) := by
    rw [Nat.add_comm]
    rfl
  rw [htake]
  simp only [List.append_assoc]
  exact readWord_putWord hlen _

theorem LogEntry.Fits.readTotLen_take {r : LogEntry} (h : r.Fits) {n : Nat} (hn : 12 ≤ n) (l : Bytes) :
    readTotLen (r.serialize.take n ++ l) = r.body.logTotLen := h.typed.readTotLen_take hn l

theorem LogEntry.Typed.readTotLen_serialize {r : LogEntry} (h : r.Typed) (l : Bytes) :
    readTotLen (r.serialize ++ l) = r.body.logTotLen := by
  have hlen : 12 ≤ r.serialize.length := by
    rw [LogEntry.serialize_length]
    cases r.body <;> simp only [LogBody.logTotLen, logHeaderSize] <;> omega
  simpa using h.readTotLen_take hlen l

theorem LogEntry.Fits.readTotLen_serialize {r : LogEntry} (h : r.Fits) (l : Bytes) :
    readTotLen (r.serialize ++ l) = r.body.logTotLen := h.typed.readTotLen_serialize l

/-- The log codec: a record takes the bytes that its constructor counted, and is read back from them, whatever follows. -/
theorem LogEntry.roundTrip {r : LogEntry} (h : r.Typed) (l : Bytes) : r.serialize.length = r.body.logTotLen ∧
    readTotLen (r.serialize ++ l) = r.body.logTotLen ∧ LogEntry.deserialize (r.serialize ++ l) = some r :=
  ⟨r.serialize_length, h.readTotLen_serialize l, h.deserialize l⟩

/-- The update of a two-byte record of table `t`. -/
theorem LogEntry.roundTrip_update :
    let r : LogEntry := ⟨7, 1, 6, .update [1, 2] [3, 4] ⟨1, 0⟩ [116] (-1) 2⟩
    r.serialize.length = r.body.logTotLen ∧ readTotLen (r.serialize ++ [9]) = r.body.logTotLen ∧
      LogEntry.deserialize (r.serialize ++ [9]) = some r :=
  LogEntry.roundTrip ⟨⟨by decide, by decide⟩, ⟨by decide, by decide⟩, ⟨by decide, by decide⟩,
    by simp [LogBody.Fits, RidFits, InInt], by decide⟩ [9]

/-! ### The scan -/

/-- The beginning of a record, without its end. -/
def Torn (b : Bytes) : Prop := ∃ r : LogEntry, r.Fits ∧ ∃ n < r.serialize.length, b = r.serialize.take n

theorem torn_nil : Torn [] := by
  refine ⟨⟨0, 0, 0, .begin⟩, ⟨⟨?_, ?_⟩, ⟨?_, ?_⟩, ⟨?_, ?_⟩, trivial, ?_⟩, 0, ?_, rfl⟩ <;> decide

theorem Torn.length_lt {b : Bytes} (h : Torn b) : b.length < logBufferSize := by
  obtain ⟨r, hr, n, hn, rfl⟩ := h
  have := hr.len
  rw [r.serialize_length] at hn
  rw [List.length_take]
  omega

/-- The records as `analyze` finds them from a position on. -/
def seenFrom : Nat → List LogEntry → List SeenRecord
  | _, [] => []
  | o, r :: rs => ⟨o, r.body.logTotLen, r⟩ :: seenFrom (o + r.body.logTotLen) rs

theorem scanChunk_torn {chunk torn : Bytes} {fuel o fileOffset : Nat} (htorn : Torn torn)
    (hchunk : chunk.drop o = torn) (hsize : chunk.length ≤ logBufferSize) :
    scanChunk chunk (fuel + 1) o fileOffset = .ok ([], fileOffset) := by
  have hlen : torn.length = chunk.length - o := by rw [← hchunk, List.length_drop]
  unfold scanChunk
  split
  · rfl
  · rename_i hlong
    obtain ⟨r, hr, n, hn, rfl⟩ := htorn
    rw [List.length_take] at hlen
    rw [r.serialize_length] at hn hlen
    have htot : readTotLen (chunk.drop o) = r.body.logTotLen := by
      rw [hchunk]
      simpa using hr.readTotLen_take (by omega) []
    have hmod : (readTotLen (chunk.drop o) + o) % 0x100000000 = r.body.logTotLen + o := by
      have := hr.len
      have : logBufferSize < 0x10000000 := by decide
      rw [htot]
      omega
    rw [if_pos (by omega)]

theorem scanChunk_records {chunk torn : Bytes} {rs : List LogEntry} {fuel o fileOffset : Nat} (hrs : ∀ r ∈ rs, r.Fits)
    (htorn : Torn torn) (hchunk : chunk.drop o = rs.flatMap (·.serialize) ++ torn) (ho : o ≤ chunk.length)
    (hsize : chunk.length ≤ logBufferSize) (hend : fileOffset + (chunk.length - o) < 0x80000000) (hfuel : rs.length < fuel) :
    scanChunk chunk fuel o fileOffset = .ok (seenFrom fileOffset rs, fileOffset + (rs.flatMap (·.serialize)).length) := by
  induction rs generalizing fuel o fileOffset with
  | nil =>
    obtain ⟨fuel, rfl⟩ := Nat.exists_eq_succ_of_ne_zero (Nat.ne_zero_of_lt hfuel)
    exact scanChunk_torn htorn hchunk hsize
  | cons r rs ih =>
    obtain ⟨fuel, rfl⟩ := Nat.exists_eq_succ_of_ne_zero (Nat.ne_zero_of_lt hfuel)
    have hr : r.Fits := hrs r List.mem_cons_self
    rw [List.flatMap_cons, List.append_assoc] at hchunk
    have htot : readTotLen (chunk.drop o) = r.body.logTotLen := by
      rw [hchunk, hr.readTotLen_serialize]
    have hlen : r.body.logTotLen + o ≤ chunk.length := by
      have := congrArg List.length hchunk
      rw [List.length_drop, List.length_append, r.serialize_length] at this
      omega
    have hpos : 20 ≤ r.body.logTotLen := by
      cases r.body <;> simp only [LogBody.logTotLen, logHeaderSize] <;> omega
    have hnext : chunk.drop (o + r.body.logTotLen) = rs.flatMap (·.serialize) ++ torn := by
      rw [← List.drop_drop, hchunk, ← r.serialize_length, List.drop_left]
    have hrest : scanChunk chunk fuel (o + r.body.logTotLen) (fileOffset + r.body.logTotLen) =
        .ok (seenFrom (fileOffset + r.body.logTotLen) rs,
          fileOffset + r.body.logTotLen + (rs.flatMap (·.serialize)).length) :=
      ih (fun r' hr' => hrs r' (List.mem_cons_of_mem r hr')) hnext (by omega) (by omega) (Nat.lt_of_succ_lt_succ hfuel)
    have hbuf : logBufferSize < 0x10000000 := by decide
    have hmod : (o + r.body.logTotLen) % 0x100000000 = o + r.body.logTotLen := Nat.mod_eq_of_lt (by omega)
    have hmod' : (fileOffset + r.body.logTotLen) % 0x100000000 = fileOffset + r.body.logTotLen := Nat.mod_eq_of_lt (by omega)
    have hr' : LogEntry.deserialize (chunk.drop o) = some r := by rw [hchunk, hr.deserialize]
    unfold scanChunk
    rw [if_neg (by omega), if_neg (by rw [htot]; omega)]
    simp only [hr', htot, hmod, hmod', hrest, bind, Except.bind]
    simp [seenFrom, r.serialize_length, Nat.add_assoc]

/-- The number of records that are whole in the first `n` bytes. -/
def fitCount : Nat → List LogEntry → Nat
  | _, [] => 0
  | n, r :: rs => if r.body.logTotLen ≤ n then fitCount (n - r.body.logTotLen) rs + 1 else 0

theorem fitCount_le (n : Nat) (rs : List LogEntry) : fitCount n rs ≤ rs.length := by
  induction rs generalizing n with
  | nil => exact Nat.le_refl _
  | cons r rs ih =>
    unfold fitCount
    split
    · exact Nat.succ_le_succ (ih _)
    · exact Nat.zero_le _

/-- The first bytes of a log are whole records and the beginning of one. -/
theorem take_records {rs : List LogEntry} {torn : Bytes} (hrs : ∀ r ∈ rs, r.Fits) (htorn : Torn torn) (n : Nat) :
    ∃ torn', Torn torn' ∧
      (rs.flatMap (·.serialize) ++ torn).take n = (rs.take (fitCount n rs)).flatMap (·.serialize) ++ torn' ∧
      ((rs.flatMap (·.serialize) ++ torn).length ≤ n → fitCount n rs = rs.length) := by
  induction rs generalizing n with
  | nil =>
    obtain ⟨r, hr, m, hm, rfl⟩ := htorn
    refine ⟨r.serialize.take (min n m), ⟨r, hr, min n m, by omega, rfl⟩, ?_, fun _ => rfl⟩
    simp [fitCount, List.take_take]
  | cons r rs ih =>
    have hlen := r.serialize_length
    simp only [List.flatMap_cons, List.append_assoc, fitCount]
    split
    · obtain ⟨torn', htorn', heq, hall⟩ := ih (fun r' hr' => hrs r' (List.mem_cons_of_mem r hr')) (n - r.body.logTotLen)
      refine ⟨torn', htorn', ?_, fun hle => ?_⟩
      · rw [List.take_append, List.take_of_length_le (by omega), hlen, heq]
        simp
      · rw [List.length_cons, hall]
        rw [List.length_append] at hle
        omega
    · refine ⟨r.serialize.take n, ⟨r, hrs r List.mem_cons_self, n, by omega, rfl⟩, ?_, fun hle => ?_⟩
      · rw [List.take_append_of_le_length (by omega)]
        simp
      · rw [List.length_append] at hle
        omega

theorem length_le_serialize (rs : List LogEntry) : rs.length ≤ (rs.flatMap (·.serialize)).length := by
  induction rs with
  | nil => exact Nat.le_refl _
  | cons r rs ih =>
    have := r.serialize_pos
    simp only [List.length_cons, List.flatMap_cons, List.length_append]
    omega

theorem seenFrom_append (o : Nat) (rs rs' : List LogEntry) :
    seenFrom o (rs ++ rs') = seenFrom o rs ++ seenFrom (o + (rs.flatMap (·.serialize)).length) rs' := by
  induction rs generalizing o with
  | nil => rfl
  | cons r rs ih => simp [seenFrom, ih, r.serialize_length, Nat.add_assoc]

/-- What `read_log` can read of a file: the size of the file is an `int`. -/
def readable (file : Bytes) : Bytes := file.take (wrapInt file.length).toNat

theorem readable_eq {file : Bytes} (h : file.length < 0x80000000) : readable file = file := by
  rw [readable, wrapInt_of_inInt ⟨by omega, by omega⟩, Int.toNat_natCast, List.take_length]

theorem readable_length {file : Bytes} (h : 0 ≤ wrapInt file.length) : ((readable file).length : Int) = wrapInt file.length := by
  have hle : wrapInt file.length ≤ file.length := by
    unfold wrapInt toSigned
    split <;> omega
  rw [readable, List.length_take]
  omega

theorem readLog_eq {file : Bytes} {size o : Nat} (h : 0 ≤ wrapInt file.length) (ho : o ≤ (readable file).length) :
    readLog file size o = .ok (((readable file).drop o).take size) := by
  have hlen := readable_length h
  have htake : (file.drop o).take (min size (wrapInt file.length - o).toNat) = ((readable file).drop o).take size := by
    rw [readable, List.drop_take, List.take_take]
    congr 1
    omega
  unfold readLog
  simp only [if_neg (show ¬wrapInt file.length < o by omega), htake]

theorem scanLoop_records {file torn : Bytes} {rs : List LogEntry} {fuel o : Nat} (hrs : ∀ r ∈ rs, r.Fits)
    (htorn : Torn torn) (hdrop : (readable file).drop o = rs.flatMap (·.serialize) ++ torn) (ho : o ≤ (readable file).length)
    (hfile : 0 ≤ wrapInt file.length) (hfuel : rs.length < fuel) :
    scanLoop file (logBufferSize + 1) fuel o = .ok (seenFrom o rs) := by
  induction fuel generalizing rs o with
  | zero => omega
  | succ fuel ih =>
    obtain ⟨torn', htorn', hchunk, hall⟩ := take_records hrs htorn logBufferSize
    rw [← hdrop] at hchunk hall
    have hfit : ∀ r ∈ rs.take (fitCount logBufferSize rs), r.Fits := fun r hr => hrs r (List.mem_of_mem_take hr)
    have hsize : (((readable file).drop o).take logBufferSize).length ≤ logBufferSize := List.length_take_le _ _
    have hscan : scanChunk (((readable file).drop o).take logBufferSize) (logBufferSize + 1) 0 o =
        .ok (seenFrom o (rs.take (fitCount logBufferSize rs)),
          o + ((rs.take (fitCount logBufferSize rs)).flatMap (·.serialize)).length) := by
      refine scanChunk_records hfit htorn' hchunk (Nat.zero_le _) hsize ?_ ?_
      · have hint := (inInt_wrapInt file.length).2
        have hread := readable_length hfile
        rw [List.length_take, List.length_drop]
        omega
      · have hk := length_le_serialize (rs.take (fitCount logBufferSize rs))
        have hlen := congrArg List.length hchunk
        rw [List.length_append] at hlen
        omega
    unfold scanLoop
    simp only [readLog_eq hfile ho, hscan, bind, Except.bind]
    split
    · -- the chunk is the rest of the file
      rename_i hshort
      rw [hall (by rw [List.length_take] at hshort; omega), List.take_length]
    · -- a full chunk has a whole record, since records are not longer than the buffer
      rename_i hfull
      have hpos : 0 < fitCount logBufferSize rs := by
        cases rs with
        | nil =>
          have := htorn.length_lt
          simp only [List.flatMap_nil, List.nil_append] at hdrop
          rw [hdrop, List.length_take] at hfull
          omega
        | cons r rs =>
          have := (hrs r List.mem_cons_self).len
          simp [fitCount, this]
      have hsplit := List.take_append_drop (fitCount logBufferSize rs) rs
      have hnext : (readable file).drop (o + ((rs.take (fitCount logBufferSize rs)).flatMap (·.serialize)).length) =
          (rs.drop (fitCount logBufferSize rs)).flatMap (·.serialize) ++ torn := by
        conv at hdrop => rhs; rw [← hsplit, List.flatMap_append, List.append_assoc]
        rw [← List.drop_drop, hdrop, List.drop_left]
      have hle : o + ((rs.take (fitCount logBufferSize rs)).flatMap (·.serialize)).length ≤ (readable file).length := by
        have := congrArg List.length hchunk
        rw [List.length_take, List.length_drop, List.length_append] at this
        omega
      have hlt : (rs.drop (fitCount logBufferSize rs)).length < fuel := by
        have := fitCount_le logBufferSize rs
        rw [List.length_drop]
        omega
      rw [ih (fun r hr => hrs r (List.mem_of_mem_drop hr)) hnext hle hlt]
      show Except.ok _ = _
      rw [← seenFrom_append, hsplit]

/-- `analyze` sees the whole records of what it can read, also when the beginning of another one follows. -/
theorem scanLog_records {file torn : Bytes} {rs : List LogEntry} (hrs : ∀ r ∈ rs, r.Fits) (htorn : Torn torn)
    (hread : readable file = rs.flatMap (·.serialize) ++ torn) (hfile : 0 ≤ wrapInt file.length) :
    scanLog file = .ok (seenFrom 0 rs) := by
  refine scanLoop_records hrs htorn hread (Nat.zero_le _) hfile ?_
  have hlen := length_le_serialize rs
  have hle : (readable file).length ≤ file.length := by
    rw [readable]
    exact List.length_take_le' _ _
  rw [hread, List.length_append] at hle
  omega

theorem seenFrom_entry (o : Nat) (rs : List LogEntry) : (seenFrom o rs).map (·.entry) = rs := by
  induction rs generalizing o with
  | nil => rfl
  | cons r rs ih => simp [seenFrom, ih]

/-! ### What `analyze` keeps -/

namespace Analysis

theorem see_lsnOffset (m : Analysis) (r : SeenRecord) :
    (m.see r).lsnOffset = Function.update m.lsnOffset r.entry.lsn (some r.offset) := by
  dsimp only [see]
  split <;> rfl

theorem see_lsnLen (m : Analysis) (r : SeenRecord) :
    (m.see r).lsnLen = Function.update m.lsnLen r.entry.lsn (some r.totLen) := by
  dsimp only [see]
  split <;> rfl

theorem see_undoMap (m : Analysis) (r : SeenRecord) :
    (m.see r).undoMap = pushUndo r.entry.logTid r.entry.lsn m.undoMap ∨
      (m.see r).undoMap = eraseUndo r.entry.logTid m.undoMap ∨ (m.see r).undoMap = m.undoMap := by
  dsimp only [see]
  split
  · exact .inl rfl
  · exact .inr (.inl rfl)
  · exact .inr (.inl rfl)
  · exact .inl rfl
  · exact .inl rfl
  · exact .inl rfl
  · exact .inr (.inr rfl)

theorem foldl_see_other {rs : List LogEntry} {l : Int} (h : ∀ r ∈ rs, r.lsn ≠ l) (o : Nat) (m : Analysis) :
    ((seenFrom o rs).foldl see m).lsnOffset l = m.lsnOffset l ∧ ((seenFrom o rs).foldl see m).lsnLen l = m.lsnLen l := by
  induction rs generalizing o m with
  | nil => exact ⟨rfl, rfl⟩
  | cons r rs ih =>
    obtain ⟨hoff, hlen⟩ := ih (fun r' hr' => h r' (List.mem_cons_of_mem r hr')) (o + r.body.logTotLen) (m.see ⟨o, r.body.logTotLen, r⟩)
    have hne := (h r List.mem_cons_self).symm
    rw [see_lsnOffset, Function.update_of_ne hne] at hoff
    rw [see_lsnLen, Function.update_of_ne hne] at hlen
    exact ⟨hoff, hlen⟩

/-- The position and the length of a record are found under its LSN. -/
theorem foldl_see_at {A B : List LogEntry} {r : LogEntry} (hnd : ((A ++ r :: B).map (·.lsn)).Nodup) (m : Analysis) :
    ((seenFrom 0 (A ++ r :: B)).foldl see m).lsnOffset r.lsn = some (A.flatMap (·.serialize)).length ∧
      ((seenFrom 0 (A ++ r :: B)).foldl see m).lsnLen r.lsn = some r.body.logTotLen := by
  have hB : ∀ r' ∈ B, r'.lsn ≠ r.lsn := by
    intro r' hr' heq
    rw [List.map_append, List.map_cons, List.nodup_append] at hnd
    exact (List.nodup_cons.mp hnd.2.1).1 (heq ▸ List.mem_map_of_mem hr')
  rw [seenFrom_append, List.foldl_append, seenFrom, List.foldl_cons, Nat.zero_add]
  obtain ⟨hoff, hlen⟩ := foldl_see_other hB ((A.flatMap (·.serialize)).length + r.body.logTotLen)
    (((seenFrom 0 A).foldl see m).see ⟨(A.flatMap (·.serialize)).length, r.body.logTotLen, r⟩)
  rw [see_lsnOffset, Function.update_self] at hoff
  rw [see_lsnLen, Function.update_self] at hlen
  exact ⟨hoff, hlen⟩

/-- A record that changes a table. -/
def IsData (r : LogEntry) : Bool :=
  match r.body with
  | .insert .. | .delete .. | .update .. => true
  | .begin | .commit | .abort | .checkpoint => false

theorem foldl_see_redoList (rs : List LogEntry) (o : Nat) (m : Analysis) :
    ((seenFrom o rs).foldl see m).redoList = m.redoList ++ (rs.filter IsData).map (·.lsn) := by
  induction rs generalizing o m with
  | nil => simp [seenFrom]
  | cons r rs ih =>
    rw [seenFrom, List.foldl_cons, ih]
    unfold see
    cases hb : r.body <;> simp [IsData, hb]

end Analysis
/-- The records that `analyze` sees in a log file. -/
structure Visible (file : Bytes) (rs : List LogEntry) : Prop where
  size : 0 ≤ wrapInt file.length
  read : ∃ torn, Torn torn ∧ readable file = rs.flatMap (·.serialize) ++ torn
  fits : ∀ r ∈ rs, r.Fits
  nodup : (rs.map (·.lsn)).Nodup

/-- What `analyze` keeps of records. -/
def Analysis.of (rs : List LogEntry) : Analysis := (seenFrom 0 rs).foldl Analysis.see .empty

/-! ### The transactions to undo -/

/-- A record that ends its transaction. -/
def IsEnd (r : LogEntry) : Bool :=
  match r.body with
  | .commit | .abort => true
  | .begin | .insert .. | .delete .. | .update .. | .checkpoint => false

/-- The records of a transaction behind which there is no end of it. -/
def unfinished (tid : Int) : List LogEntry → List LogEntry
  | [] => []
  | r :: rs =>
    if r.logTid = tid ∧ !IsEnd r ∧ ¬∃ r' ∈ rs, r'.logTid = tid ∧ IsEnd r' then r :: unfinished tid rs else unfinished tid rs

namespace Analysis

/-- The list under an id. -/
def undoOf (m : Analysis) (tid : Int) : List Int := (m.undoMap.lookup tid).getD []

/-- The ids go up, and no list is empty. -/
structure UndoOk (um : List (Int × List Int)) : Prop where
  sorted : (um.map (·.1)).Pairwise (· < ·)
  nonempty : ∀ x ∈ um, x.2 ≠ []

theorem lookup_cons_eq (tid id : Int) (lsns : List Int) (um : List (Int × List Int)) :
    List.lookup tid ((id, lsns) :: um) = if tid = id then some lsns else um.lookup tid := by
  rw [List.lookup_cons]
  by_cases htid : tid = id
  · rw [if_pos htid, beq_iff_eq.mpr htid]
  · rw [if_neg htid, beq_eq_false_iff_ne.mpr htid]

theorem lookup_of_lt {um : List (Int × List Int)} {tid : Int} (h : ∀ x ∈ um, tid < x.1) : um.lookup tid = none := by
  rw [List.lookup_eq_none_iff]
  intro x hx
  have hlt := h x hx
  simp only [ne_eq, bne_iff_ne]
  omega

theorem mem_pushUndo_fst {id lsn : Int} {um : List (Int × List Int)} {x : Int × List Int} (hx : x ∈ pushUndo id lsn um) :
    (x.1 = id ∨ ∃ y ∈ um, y.1 = x.1) ∧ (x ∈ um ∨ x.2 ≠ []) := by
  induction um with
  | nil =>
    obtain rfl := List.mem_singleton.mp hx
    exact ⟨Or.inl rfl, Or.inr (by simp)⟩
  | cons y um ih =>
    obtain ⟨i, lsns⟩ := y
    simp only [pushUndo] at hx
    split at hx
    · rcases List.mem_cons.mp hx with rfl | hx
      · exact ⟨Or.inl rfl, Or.inr (by simp)⟩
      · exact ⟨Or.inr ⟨x, hx, rfl⟩, Or.inl hx⟩
    · split at hx
      · next heq =>
        rcases List.mem_cons.mp hx with rfl | hx
        · exact ⟨Or.inl heq.symm, Or.inr (by simp)⟩
        · exact ⟨Or.inr ⟨x, List.mem_cons_of_mem _ hx, rfl⟩, Or.inl (List.mem_cons_of_mem _ hx)⟩
      · rcases List.mem_cons.mp hx with rfl | hx
        · exact ⟨Or.inr ⟨_, List.mem_cons_self, rfl⟩, Or.inl List.mem_cons_self⟩
        · rcases ih hx with ⟨hid | ⟨y, hy, hid⟩, hmem⟩
          · exact ⟨Or.inl hid, hmem.imp_left (List.mem_cons_of_mem _)⟩
          · exact ⟨Or.inr ⟨y, List.mem_cons_of_mem _ hy, hid⟩, hmem.imp_left (List.mem_cons_of_mem _)⟩

theorem UndoOk.push {um : List (Int × List Int)} (h : UndoOk um) (id lsn : Int) : UndoOk (pushUndo id lsn um) where
  sorted := by
    have hsorted := h.sorted
    clear h
    induction um with
    | nil => exact List.pairwise_singleton _ _
    | cons y um ih =>
      obtain ⟨i, lsns⟩ := y
      obtain ⟨hi, hum⟩ := List.pairwise_cons.mp hsorted
      have hlt : ∀ y ∈ um, i < y.1 := fun y hy => hi y.1 (List.mem_map_of_mem hy)
      simp only [pushUndo]
      split
      · next hid =>
        refine List.pairwise_cons.mpr ⟨fun k hk => ?_, hsorted⟩
        obtain ⟨y, hy, rfl⟩ := List.mem_map.mp hk
        rcases List.mem_cons.mp hy with rfl | hy
        · exact hid
        · exact Int.lt_trans hid (hlt y hy)
      · split
        · exact hsorted
        · refine List.pairwise_cons.mpr ⟨fun k hk => ?_, ih hum⟩
          obtain ⟨x, hx, rfl⟩ := List.mem_map.mp hk
          rcases (mem_pushUndo_fst hx).1 with hid | ⟨y, hy, hid⟩
          · show i < x.1
            omega
          · have := hlt y hy
            show i < x.1
            omega
  nonempty x hx := by
    rcases (mem_pushUndo_fst hx).2 with hmem | hne
    · exact h.nonempty x hmem
    · exact hne

theorem UndoOk.erase {um : List (Int × List Int)} (h : UndoOk um) (id : Int) : UndoOk (eraseUndo id um) where
  sorted := h.sorted.sublist (List.filter_sublist.map _)
  nonempty x hx := h.nonempty x (List.mem_of_mem_filter hx)

theorem lookup_pushUndo {um : List (Int × List Int)} (h : (um.map (·.1)).Pairwise (· < ·)) (id lsn tid : Int) :
    (pushUndo id lsn um).lookup tid = if tid = id then some ((um.lookup id).getD [] ++ [lsn]) else um.lookup tid := by
  induction um with
  | nil =>
    by_cases htid : tid = id <;> simp [pushUndo, lookup_cons_eq, htid]
  | cons y um ih =>
    obtain ⟨i, lsns⟩ := y
    obtain ⟨hi, hum⟩ := List.pairwise_cons.mp h
    simp only [pushUndo]
    split
    · next hid =>
      have hnone : List.lookup id ((i, lsns) :: um) = none := by
        refine lookup_of_lt fun x hx => ?_
        rcases List.mem_cons.mp hx with rfl | hx
        · exact hid
        · exact Int.lt_trans hid (hi x.1 (List.mem_map_of_mem hx))
      rw [hnone, lookup_cons_eq]
      by_cases htid : tid = id <;> simp [htid]
    · split
      · next heq =>
        subst heq
        rw [lookup_cons_eq, lookup_cons_eq, lookup_cons_eq]
        by_cases htid : tid = id <;> simp [htid]
      · next hlt hne =>
        rw [lookup_cons_eq, ih hum, lookup_cons_eq, lookup_cons_eq]
        by_cases htid : tid = i
        · have : ¬i = id := fun heq => hne heq.symm
          simp [htid, this]
        · simp [htid, hne]

theorem lookup_eraseUndo (um : List (Int × List Int)) (id tid : Int) :
    (eraseUndo id um).lookup tid = if tid = id then none else um.lookup tid := by
  induction um with
  | nil => simp [eraseUndo]
  | cons y um ih =>
    obtain ⟨i, lsns⟩ := y
    rw [eraseUndo] at ih ⊢
    by_cases hi : i = id
    · rw [List.filter_cons_of_neg (by simpa using hi), ih, lookup_cons_eq]
      by_cases htid : tid = id
      · simp [htid]
      · have hne : ¬tid = i := fun heq => htid (heq.trans hi)
        simp [htid, hne]
    · rw [List.filter_cons_of_pos (by simpa using hi), lookup_cons_eq, lookup_cons_eq, ih]
      by_cases htid : tid = i
      · simp [htid, hi]
      · simp [htid]

/-- A record is pushed to the list of its transaction, or takes the list away. -/
theorem lookup_see {m : Analysis} (h : UndoOk m.undoMap) {r : SeenRecord} (hr : r.entry.body ≠ .checkpoint) (tid : Int) :
    (m.see r).undoMap.lookup tid =
      if tid = r.entry.logTid then if IsEnd r.entry then none else some (m.undoOf tid ++ [r.entry.lsn])
      else m.undoMap.lookup tid := by
  have hpush : (pushUndo r.entry.logTid r.entry.lsn m.undoMap).lookup tid =
      if tid = r.entry.logTid then some (m.undoOf tid ++ [r.entry.lsn]) else m.undoMap.lookup tid := by
    rw [lookup_pushUndo h.sorted]
    split
    · next htid => rw [undoOf, htid]
    · rfl
  dsimp only [see]
  cases hbody : r.entry.body with
  | checkpoint => exact absurd hbody hr
  | commit => simpa [IsEnd, hbody] using lookup_eraseUndo m.undoMap r.entry.logTid tid
  | abort => simpa [IsEnd, hbody] using lookup_eraseUndo m.undoMap r.entry.logTid tid
  | begin => simpa [IsEnd, hbody] using hpush
  | insert value rid tableName => simpa [IsEnd, hbody] using hpush
  | delete value rid tableName firstFreePageNo numPages => simpa [IsEnd, hbody] using hpush
  | update old new rid tableName firstFreePageNo numPages => simpa [IsEnd, hbody] using hpush

theorem UndoOk.see {m : Analysis} (h : UndoOk m.undoMap) (r : SeenRecord) : UndoOk (m.see r).undoMap := by
  rcases see_undoMap m r with heq | heq | heq
  · rw [heq]
    exact h.push _ _
  · rw [heq]
    exact h.erase _
  · rw [heq]
    exact h

theorem UndoOk.foldl {rs : List LogEntry} {o : Nat} {m : Analysis} (h : UndoOk m.undoMap) :
    UndoOk ((seenFrom o rs).foldl Analysis.see m).undoMap := by
  induction rs generalizing o m with
  | nil => exact h
  | cons r rs ih => exact ih (h.see _)

/-- The list of a transaction: what was there unless the transaction ends, and what follows its last end. -/
theorem undoOf_foldl {rs : List LogEntry} (hrs : ∀ r ∈ rs, r.body ≠ .checkpoint) (o : Nat) {m : Analysis} (h : UndoOk m.undoMap)
    (tid : Int) : ((seenFrom o rs).foldl see m).undoOf tid =
      (if ∃ r ∈ rs, r.logTid = tid ∧ IsEnd r then [] else m.undoOf tid) ++ (unfinished tid rs).map (·.lsn) := by
  induction rs generalizing o m with
  | nil => simp [seenFrom, unfinished]
  | cons r rs ih =>
    obtain ⟨hr, hrs⟩ := List.forall_mem_cons.mp hrs
    rw [seenFrom, List.foldl_cons, ih hrs _ (h.see _)]
    have hsee : (m.see ⟨o, r.body.logTotLen, r⟩).undoOf tid =
        if tid = r.logTid then if IsEnd r then [] else m.undoOf tid ++ [r.lsn] else m.undoOf tid := by
      rw [undoOf, lookup_see h hr]
      split
      · split <;> rfl
      · rfl
    rw [hsee]
    by_cases hend : ∃ r' ∈ rs, r'.logTid = tid ∧ IsEnd r'
    · have hcons : ∃ r' ∈ r :: rs, r'.logTid = tid ∧ IsEnd r' := by
        obtain ⟨r', hr', hboth⟩ := hend
        exact ⟨r', List.mem_cons_of_mem r hr', hboth⟩
      rw [if_pos hend, if_pos hcons, unfinished, if_neg fun h => h.2.2 hend]
    · rw [if_neg hend, unfinished]
      by_cases htid : r.logTid = tid
      · by_cases hisEnd : IsEnd r
        · have hcons : ∃ r' ∈ r :: rs, r'.logTid = tid ∧ IsEnd r' := ⟨r, List.mem_cons_self, htid, hisEnd⟩
          rw [if_pos htid.symm, if_pos hisEnd, if_pos hcons, if_neg fun h => by simp [hisEnd] at h]
        · have hcons : ¬∃ r' ∈ r :: rs, r'.logTid = tid ∧ IsEnd r' := by
            rintro ⟨r', hr', hboth⟩
            rcases List.mem_cons.mp hr' with rfl | hr'
            · exact hisEnd hboth.2
            · exact hend ⟨r', hr', hboth⟩
          rw [if_pos htid.symm, if_neg hisEnd, if_neg hcons, if_pos ⟨htid, by simpa using hisEnd, hend⟩]
          simp
      · have hcons : ¬∃ r' ∈ r :: rs, r'.logTid = tid ∧ IsEnd r' := by
          rintro ⟨r', hr', hboth⟩
          rcases List.mem_cons.mp hr' with rfl | hr'
          · exact htid hboth.1
          · exact hend ⟨r', hr', hboth⟩
        rw [if_neg (Ne.symm htid), if_neg hcons, if_neg fun h => htid h.1]

theorem UndoOk.lookup {m : Analysis} (h : UndoOk m.undoMap) (tid : Int) :
    m.undoMap.lookup tid = if m.undoOf tid = [] then none else some (m.undoOf tid) := by
  rw [undoOf]
  cases hlookup : m.undoMap.lookup tid with
  | none => rfl
  | some lsns =>
    obtain ⟨A, B, hsplit, -⟩ := List.lookup_eq_some_iff.mp hlookup
    have hne : lsns ≠ [] := h.nonempty (tid, lsns) (by rw [hsplit]; simp)
    rw [Option.getD_some, if_neg hne]

/-- The positions and the lengths of the records are there, the changes are listed for `redo`, and for a transaction the records
in `undone`. -/
structure Found (m : Analysis) (rs : List LogEntry) (undone : Int → List LogEntry) : Prop where
  at_lsn : ∀ A r B, rs = A ++ r :: B →
    m.lsnOffset r.lsn = some (A.flatMap (·.serialize)).length ∧ m.lsnLen r.lsn = some r.serialize.length
  no_other : ∀ l, (∀ r ∈ rs, r.lsn ≠ l) → m.lsnOffset l = none ∧ m.lsnLen l = none
  redo : m.redoList = (rs.filter IsData).map (·.lsn)
  undo : ∀ tid, m.undoMap.lookup tid = if undone tid = [] then none else some ((undone tid).map (·.lsn))
  undo_nodup : (m.undoMap.map (·.1)).Nodup

theorem found_of {rs : List LogEntry} (hnodup : (rs.map (·.lsn)).Nodup) (hrs : ∀ r ∈ rs, r.body ≠ .checkpoint) :
    (Analysis.of rs).Found rs (unfinished · rs) := by
  have hempty : UndoOk Analysis.empty.undoMap := ⟨List.Pairwise.nil, by simp [Analysis.empty]⟩
  have hok : UndoOk (Analysis.of rs).undoMap := hempty.foldl
  refine ⟨fun A r B hsplit => ?_, fun l hl => foldl_see_other hl 0 .empty, foldl_see_redoList rs 0 .empty, fun tid => ?_, ?_⟩
  · subst hsplit
    obtain ⟨hoff, hlen⟩ := foldl_see_at hnodup .empty
    rw [r.serialize_length]
    exact ⟨hoff, hlen⟩
  · have hundo : (Analysis.of rs).undoOf tid = (unfinished tid rs).map (·.lsn) := by
      rw [Analysis.of, undoOf_foldl hrs 0 hempty]
      simp [undoOf, Analysis.empty]
    rw [hok.lookup, hundo]
    simp only [List.map_eq_nil_iff]
  · exact hok.sorted.imp fun hlt => Int.ne_of_lt hlt

end Analysis

/-- `analyze` of a log finds every record and the transactions to undo, wherever a chunk ends. -/
theorem analyze_found (rs : List LogEntry) (torn : Bytes) (hrs : ∀ r ∈ rs, r.Fits) (hnodup : (rs.map (·.lsn)).Nodup)
    (htorn : Torn torn) (hlen : (rs.flatMap (·.serialize) ++ torn).length < 0x80000000) :
    ∃ m, analyze (rs.flatMap (·.serialize) ++ torn) = .ok m ∧ m.Found rs (unfinished · rs) := by
  have hsize : 0 ≤ wrapInt (rs.flatMap (·.serialize) ++ torn).length := by
    rw [wrapInt_of_inInt ⟨by omega, by omega⟩]
    omega
  refine ⟨.of rs, ?_, Analysis.found_of hnodup fun r hr heq => ?_⟩
  · simp only [analyze, scanLog_records hrs htorn (readable_eq hlen) hsize, bind, Except.bind]
    rfl
  · have hbody := (hrs r hr).body
    rw [heq] at hbody
    exact hbody

/-- A transaction that commits, one that does not, and the beginning of a record. -/
def twoTxns : List LogEntry :=
  [⟨0, 0, -1, .begin⟩, ⟨1, 1, -1, .begin⟩, ⟨2, 1, 1, .insert [7] ⟨1, 0⟩ [116]⟩, ⟨3, 0, 0, .commit⟩]

theorem analyze_found_twoTxns : ∃ m, analyze (twoTxns.flatMap (·.serialize) ++ [3, 0, 0]) = .ok m ∧
    m.Found twoTxns (unfinished · twoTxns) := by
  refine analyze_found twoTxns [3, 0, 0] (fun r hr => ?_) (by decide) ⟨⟨0, 0, 0, .begin⟩, ?_, 3, by decide, by decide⟩ (by decide)
  · obtain rfl | rfl | rfl | rfl : r = ⟨0, 0, -1, .begin⟩ ∨ r = ⟨1, 1, -1, .begin⟩ ∨ r = ⟨2, 1, 1, .insert [7] ⟨1, 0⟩ [116]⟩ ∨
        r = ⟨3, 0, 0, .commit⟩ := by simpa [twoTxns] using hr
    · exact ⟨by simp [InInt], by simp [InInt], by simp [InInt], trivial, by decide⟩
    · exact ⟨by simp [InInt], by simp [InInt], by simp [InInt], trivial, by decide⟩
    · exact ⟨by simp [InInt], by simp [InInt], by simp [InInt], by simp [LogBody.Fits, RidFits, InInt], by decide⟩
    · exact ⟨by simp [InInt], by simp [InInt], by simp [InInt], trivial, by decide⟩
  · exact ⟨by simp [InInt], by simp [InInt], by simp [InInt], trivial, by decide⟩

/-- The records of a transaction that has no end. -/
def unended (rs : List LogEntry) (tid : Int) : List LogEntry :=
  if ∃ r ∈ rs, r.logTid = tid ∧ IsEnd r then [] else rs.filter (·.logTid = tid)

/-- A transaction id that is used again after its commit. -/
def reusedId : List LogEntry := [⟨0, 0, -1, .commit⟩, ⟨1, 0, -1, .begin⟩]

/-- A log of many begins. -/
def longLog (n : Nat) : List LogEntry := (List.range n).map fun lsn : Nat => ⟨(lsn : Int), 0, -1, .begin⟩

theorem longLog_length (n : Nat) : ((longLog n).flatMap (·.serialize)).length = 20 * n := by
  have hlen : ∀ lsns : List Nat, ((lsns.map fun lsn : Nat => (⟨(lsn : Int), 0, -1, .begin⟩ : LogEntry)).flatMap
      (·.serialize)).length = 20 * lsns.length := by
    intro lsns
    induction lsns with
    | nil => rfl
    | cons lsn lsns ih =>
      rw [List.map_cons, List.flatMap_cons, List.length_append, ih, LogEntry.serialize_length, List.length_cons]
      simp only [LogBody.logTotLen, logHeaderSize]
      omega
  rw [longLog, hlen, List.length_range]

theorem analyze_long {file : Bytes} (hlow : 0x80000000 ≤ file.length) (hhigh : file.length < 0x100000000) :
    analyze file = .error .readLogError := by
  have hread : readLog file logBufferSize 0 = .error .readLogError := by
    unfold readLog
    refine if_pos ?_
    unfold wrapInt toSigned
    split <;> omega
  simp only [analyze, scanLog, scanLoop, hread, bind, Except.bind]

theorem not_analyze_found : (¬∀ rs torn, (∀ r ∈ rs, r.Fits) → (rs.map (·.lsn)).Nodup → Torn torn →
      ∃ m, analyze (rs.flatMap (·.serialize) ++ torn) = .ok m ∧ m.Found rs (unended rs)) ∧
    analyze ((longLog 107374183).flatMap (·.serialize)) = .error .readLogError := by
  constructor
  · intro h
    have hfits : ∀ r ∈ reusedId, r.Fits := by
      intro r hr
      obtain rfl | rfl : r = ⟨0, 0, -1, .commit⟩ ∨ r = ⟨1, 0, -1, .begin⟩ := by simpa [reusedId] using hr
      · exact ⟨by simp [InInt], by simp [InInt], by simp [InInt], trivial, by decide⟩
      · exact ⟨by simp [InInt], by simp [InInt], by simp [InInt], trivial, by decide⟩
    obtain ⟨m, hm, hfound⟩ := h reusedId [] hfits (by decide) torn_nil
    rw [List.append_nil] at hm
    have hundo := hfound.undo 0
    have heval : (analyze (reusedId.flatMap (·.serialize))).toOption.map (·.undoMap.lookup 0) = some (some [1]) := by decide
    rw [hm] at heval
    obtain heval : m.undoMap.lookup 0 = some [1] := Option.some.inj heval
    rw [heval] at hundo
    exact absurd hundo (by decide)
  · refine analyze_long ?_ ?_
    · rw [longLog_length]
      omega
    · rw [longLog_length]
      omega

end Rmdb
