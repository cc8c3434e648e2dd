import Rmdb.Recovery.Log
import Rmdb.Lib.Runs

/-! The log file and the log buffer hold the records that were added, one behind the other. -/

namespace Rmdb
open Runs

/-! ### Lengths and counters -/

@[simp] theorem putWord_length (n : Nat) : (putWord n).length = 4 := rfl
@[simp] theorem putInt_length (n : Int) : (putInt n).length = 4 := rfl
@[simp] theorem putSize_length (n : Nat) : (putSize n).length = 8 := rfl
@[simp] theorem putRid_length (rid : Rid) : (putRid rid).length = 8 := rfl

@[simp] theorem putRecord_length (value : Bytes) : (LogBody.putRecord value).length = 4 + value.length := by
  simp [LogBody.putRecord]

/-- Every record is as long as its constructor computes. -/
theorem LogEntry.serialize_length (r : LogEntry) : r.serialize.length = r.body.logTotLen := by
  unfold LogEntry.serialize
  cases hb : r.body <;> simp [LogBody.serialize, LogBody.logTotLen, logHeaderSize] <;> omega

theorem LogEntry.serialize_pos (r : LogEntry) : 0 < r.serialize.length := by
  rw [LogEntry.serialize_length]
  cases r.body <;> simp only [LogBody.logTotLen, logHeaderSize] <;> omega

/-- The bytes of a list of records tell how many they are. -/
theorem length_serialize_take_lt {rs : List LogEntry} {k k' : Nat} (hlt : k < k') (hk : k' ≤ rs.length) :
    ((rs.take k).flatMap (·.serialize)).length < ((rs.take k').flatMap (·.serialize)).length := by
  induction rs generalizing k k' with
  | nil =>
    simp at hk
    omega
  | cons r rs ih =>
    obtain ⟨k', rfl⟩ := Nat.exists_eq_succ_of_ne_zero (Nat.ne_zero_of_lt hlt)
    cases k with
    | zero =>
      have hpos := r.serialize_pos
      simp only [List.take_zero, List.flatMap_nil, List.length_nil, List.take_succ_cons, List.flatMap_cons, List.length_append]
      omega
    | succ k =>
      have := ih (Nat.lt_of_succ_lt_succ hlt) (Nat.le_of_succ_le_succ hk)
      simp only [List.take_succ_cons, List.flatMap_cons, List.length_append]
      omega

theorem serialize_take_inj {rs : List LogEntry} {k k' : Nat} (hk : k ≤ rs.length) (hk' : k' ≤ rs.length)
    (h : (rs.take k).flatMap (·.serialize) = (rs.take k').flatMap (·.serialize)) : k = k' := by
  rcases Nat.lt_trichotomy k k' with hlt | heq | hgt
  · have := length_serialize_take_lt hlt hk'
    rw [h] at this
    omega
  · exact heq
  · have := length_serialize_take_lt hgt hk
    rw [h] at this
    omega

theorem wrapInt_add_one (n : Int) : wrapInt (wrapInt n + 1) = wrapInt (n + 1) := by
  simp only [wrapInt, toSigned]
  split <;> split <;> split <;> omega

theorem wrapInt_sub_one (n : Int) : wrapInt (wrapInt n - 1) = wrapInt (n - 1) := by
  simp only [wrapInt, toSigned]
  split <;> split <;> split <;> omega

namespace LogManager
variable {s : LogManager}

theorem pending_store (bytes : Bytes) :
    ({ s.store bytes with offset := s.offset + bytes.length } : LogManager).pending = s.pending ++ bytes := by
  simp only [pending, store, List.range_add, List.map_append, List.map_map]
  congr 1
  · refine List.map_congr_left fun i hi => ?_
    have hlt : i < s.offset := List.mem_range.mp hi
    simp [Nat.not_le.mpr hlt]
  · refine List.ext_getElem (by simp) fun i hi hi' => ?_
    simp [hi']

/-! ### The records of a run -/

/-- The records that were added so far. -/
def noteAdd (s : LogManager) (a : LogAct) (_ : LogManager) (g : List LogEntry) : List LogEntry :=
  match a with
  | .addLogToBuffer logTid prevLsn body => g ++ [s.nextEntry logTid prevLsn body.val]
  | .flushLogToDisk => g

/-- The LSN of the last record, `INVALID_LSN` if there is none. -/
def lastLsn (rs : List LogEntry) : Int := (rs.getLast?.map (·.lsn)).getD (-1)

/-- The file and the buffer hold the records in the order of their LSNs; the LSNs count the records in 32 bits. The last
    flush noted the LSN of the last record in the file. -/
structure LogOk (p : LogManager × List LogEntry) : Prop where
  contents : p.1.file ++ p.1.pending = p.2.flatMap (·.serialize)
  lsn : ∀ (i : Nat) (r : LogEntry), p.2[i]? = some r → r.lsn = wrapInt i
  bounded : p.1.offset ≤ logBufferSize
  persist : ∀ lsn, p.1.persistLsn = some lsn →
    ∃ k, p.1.file = (p.2.take k).flatMap (·.serialize) ∧ lsn = lastLsn (p.2.take k)

/-- The first `k` records are in the file, the others in the buffer. -/
structure LogInv (p : LogManager × List LogEntry) (k : Nat) : Prop where
  file : p.1.file = (p.2.take k).flatMap (·.serialize)
  pending : p.1.pending = (p.2.drop k).flatMap (·.serialize)
  next : p.1.globalLsn = wrapInt p.2.length
  lsn : ∀ (i : Nat) (r : LogEntry), p.2[i]? = some r → r.lsn = wrapInt i
  persist : ∀ lsn, p.1.persistLsn = some lsn → lsn = lastLsn (p.2.take k)

theorem LogInv.ok {p : LogManager × List LogEntry} {k : Nat} (h : LogInv p k) (hb : p.1.offset ≤ logBufferSize) : LogOk p where
  contents := by
    rw [h.file, h.pending, ← List.flatMap_append, List.take_append_drop]
  lsn := h.lsn
  bounded := hb
  persist lsn hlsn := ⟨k, h.file, h.persist lsn hlsn⟩

theorem lastLsn_eq {rs : List LogEntry} (h : ∀ (i : Nat) (r : LogEntry), rs[i]? = some r → r.lsn = wrapInt i) :
    lastLsn rs = wrapInt (rs.length - 1) := by
  rcases List.eq_nil_or_concat rs with rfl | ⟨init, last, rfl⟩
  · rfl
  · have hlast : last.lsn = wrapInt (init.length : Nat) := h init.length last (by simp)
    simp [lastLsn, hlast]

theorem LogInv.flush {g : List LogEntry} {k : Nat} (h : LogInv (s, g) k) : LogInv (s.flushLogToDisk, g) g.length where
  file := by
    show s.file ++ s.pending = _
    rw [h.file, h.pending, ← List.flatMap_append, List.take_append_drop, List.take_length]
  pending := by simp [flushLogToDisk, LogManager.pending]
  next := h.next
  lsn := h.lsn
  persist lsn hlsn := by
    cases hlsn
    rw [List.take_length, lastLsn_eq h.lsn, h.next, wrapInt_sub_one]

theorem LogInv.store {g : List LogEntry} {k : Nat} (h : LogInv (s, g) k) (hk : k ≤ g.length) (logTid prevLsn : Int)
    (body : LogBody) :
    LogInv ({ ({ s with globalLsn := wrapInt (s.globalLsn + 1) }.store (s.nextEntry logTid prevLsn body).serialize) with
      offset := s.offset + body.logTotLen }, g ++ [s.nextEntry logTid prevLsn body]) k where
  file := by
    rw [List.take_append_of_le_length hk]
    exact h.file
  pending := by
    rw [List.drop_append_of_le_length hk, List.flatMap_append, ← h.pending]
    have hstore := pending_store (s := { s with globalLsn := wrapInt (s.globalLsn + 1) })
      (s.nextEntry logTid prevLsn body).serialize
    rw [LogEntry.serialize_length] at hstore
    exact hstore.trans (by simp [LogManager.pending])
  next := by
    show wrapInt (s.globalLsn + 1) = _
    rw [show s.globalLsn = wrapInt g.length from h.next, wrapInt_add_one]
    simp
  lsn i r hr := by
    rcases Nat.lt_trichotomy i g.length with hi | hi | hi
    · rw [List.getElem?_append_left hi] at hr
      exact h.lsn i r hr
    · subst hi
      obtain rfl : s.nextEntry logTid prevLsn body = r := by simpa using hr
      exact h.next
    · rw [List.getElem?_eq_none (by simp; omega)] at hr
      cases hr
  persist lsn hlsn := by
    rw [List.take_append_of_le_length hk]
    exact h.persist lsn hlsn

theorem LogInv.add {g : List LogEntry} {k : Nat} (h : LogInv (s, g) k) (hk : k ≤ g.length) (logTid prevLsn : Int)
    (body : LogBody) :
    ∃ k' ≤ g.length, k ≤ k' ∧ LogInv (s.addLogToBuffer logTid prevLsn body, g ++ [s.nextEntry logTid prevLsn body]) k' := by
  unfold addLogToBuffer
  split
  · exact ⟨g.length, Nat.le_refl _, hk, h.flush.store (Nat.le_refl _) logTid prevLsn body⟩
  · exact ⟨k, hk, Nat.le_refl _, h.store hk logTid prevLsn body⟩

theorem addLogToBuffer_bounded (logTid prevLsn : Int) (body : BufferedBody) :
    (s.addLogToBuffer logTid prevLsn body.val).offset ≤ logBufferSize := by
  unfold addLogToBuffer
  split
  · simpa [store, flushLogToDisk] using body.property
  · rename_i hfits
    simpa [store, isFull] using hfits

/-- Every record is in the file or in the buffer, and the buffer is not full. -/
def LogHeld (p : LogManager × List LogEntry) : Prop := p.1.offset ≤ logBufferSize ∧ ∃ k ≤ p.2.length, LogInv p k

theorem logInv_init : LogInv (init [], []) 0 := ⟨rfl, rfl, rfl, by simp, by simp [init]⟩

theorem logHeld_run (as : List LogAct) : Always (noting step noteAdd) LogHeld (init [], []) as := by
  refine always_of_invariant (I := LogHeld) (P := fun _ _ => True) ?_ (fun _ h => h)
    ⟨Nat.zero_le _, 0, Nat.le_refl _, logInv_init⟩ (throughout_of_forall fun _ _ => trivial)
  rintro ⟨s, g⟩ a ⟨-, k, hk, h⟩ -
  cases a with
  | addLogToBuffer logTid prevLsn body =>
    obtain ⟨k', hk', -, h'⟩ := h.add hk logTid prevLsn body.val
    exact ⟨_, rfl, addLogToBuffer_bounded logTid prevLsn body, k', Nat.le_trans hk' (by simp [noteAdd]), h'⟩
  | flushLogToDisk => exact ⟨_, rfl, Nat.zero_le _, g.length, Nat.le_refl _, h.flush⟩

/-- In every state of every run of the log manager, the log file and the buffer are the records that were added. -/
theorem logOk_always (as : List LogAct) : Always (noting step noteAdd) LogOk (init [], []) as :=
  always_mono (fun _ h => h.2.elim fun _ hk => hk.2.ok h.1) (logHeld_run as)

/-- A call that adds the record of a transaction's begin. -/
def addBegin : LogAct := .addLogToBuffer 0 (-1) ⟨.begin, by decide⟩

theorem exec_addBegin (n : Nat) (p : LogManager × List LogEntry) :
    ∃ q, exec (noting step noteAdd) p (List.replicate n addBegin) = .ok q ∧ q.2.length = p.2.length + n := by
  induction n generalizing p with
  | zero => exact ⟨p, rfl, rfl⟩
  | succ n ih =>
    obtain ⟨q, hq, hlen⟩ := ih (p.1.addLogToBuffer 0 (-1) .begin, p.2 ++ [p.1.nextEntry 0 (-1) .begin])
    refine ⟨q, hq, ?_⟩
    rw [hlen, List.length_append]
    simp
    omega

/-- The counter of the LSNs has 32 bits: record 2147483648 gets a negative LSN. -/
theorem lsn_not_consecutive : ¬Always (noting step noteAdd)
    (fun p => LogOk p ∧ ∀ (i : Nat) (r : LogEntry), p.2[i]? = some r → r.lsn = i) (init [], [])
    (List.replicate 2147483649 addBegin) := by
  intro h
  obtain ⟨p, hp, hlen⟩ := exec_addBegin 2147483649 (init [], [])
  obtain ⟨-, hconsecutive⟩ := h.at_end hp
  obtain ⟨-, k, -, hinv⟩ := (logHeld_run _).at_end hp
  have hlt : 2147483648 < p.2.length := by
    rw [hlen]
    decide
  have hget := List.getElem?_eq_getElem hlt
  have hwrapped := hinv.lsn _ _ hget
  rw [hconsecutive _ _ hget] at hwrapped
  revert hwrapped
  decide

end LogManager
end Rmdb
