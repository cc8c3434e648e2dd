import Rmdb.Recovery.Restart
import Rmdb.Theorems.Recovery.Analyze
import Mathlib.Data.List.Nodup

/-! The log over several runs of the server: when its records and transactions can be told apart. -/

namespace Rmdb
open Runs
namespace LogServer

/-- What happened so far: the number of this run of the server, the whole records that earlier runs left in the log file (with
    the numbers of the runs), the records of this run, and the length of the log file at its start. -/
structure Note where
  run : Nat
  past : List (Nat × LogEntry)
  entries : List LogEntry
  startLen : Nat

def Note.start : Note := ⟨0, [], [], 0⟩

/-- The whole records in a log file of the given length. -/
def Note.complete (g : Note) (fileLen : Nat) : List (Nat × LogEntry) :=
  g.past ++ (g.entries.take (fitCount (fileLen - g.startLen) g.entries)).map fun r => (g.run, r)

def noteServer (s : LogServer) (a : LogServerAct) (t : LogServer) (g : Note) : Note :=
  match a with
  | .begin => { g with entries := g.entries ++ [s.log.nextEntry s.nextTxnId (-1) .begin] }
  | .add r => { g with entries := g.entries ++ [s.log.nextEntry r.id (-1) r.body] }
  | .flush => g
  | .crash _ => ⟨g.run + 1, g.complete t.log.file.length, [], t.log.file.length⟩

/-- The whole records in the log file have different LSNs, those of different runs are of different transactions, and
    `analyze` sees all of them. -/
structure TellsApart (p : LogServer × Note) : Prop where
  lsn : ((p.2.complete p.1.log.file.length).map (·.2.lsn)).Nodup
  txn : ∀ x ∈ p.2.complete p.1.log.file.length, ∀ y ∈ p.2.complete p.1.log.file.length, x.1 ≠ y.1 → x.2.logTid ≠ y.2.logTid
  seen : ∃ seen, scanLog p.1.log.file = .ok seen ∧ ∀ x ∈ p.2.complete p.1.log.file.length, x.2 ∈ seen.map (·.entry)

/-- What a step writes behind the log file. -/
def written (s : LogServer) : LogServerAct → Bytes
  | .begin => if s.log.isFull logHeaderSize then s.log.pending else []
  | .add r => if s.log.isFull r.body.logTotLen then s.log.pending else []
  | .flush => s.log.pending
  | .crash n => s.log.pending.take n

/-- The log is written only by a run of the server that found it empty, and its size stays an `int`. -/
def FirstWriter (p : LogServer × Note) (a : LogServerAct) : Prop :=
  (p.1.written a ≠ [] → p.2.startLen = 0) ∧ (p.1.log.file ++ p.1.written a).length < 0x80000000

variable {s t : LogServer} {g : Note} {a : LogServerAct}

theorem addLogToBuffer_file (l : LogManager) (id prev : Int) (body : LogBody) :
    (l.addLogToBuffer id prev body).file = l.file ++ if l.isFull body.logTotLen then l.pending else [] := by
  unfold LogManager.addLogToBuffer
  split <;> simp [LogManager.store, LogManager.flushLogToDisk]

theorem step_file (h : step s a = .ok t) : t.log.file = s.log.file ++ s.written a := by
  cases a with
  | begin =>
    cases h
    exact addLogToBuffer_file ..
  | add r =>
    cases h
    exact addLogToBuffer_file ..
  | flush =>
    cases h
    rfl
  | crash n =>
    cases h
    rfl

theorem fitCount_zero (rs : List LogEntry) : fitCount 0 rs = 0 := by
  cases rs with
  | nil => rfl
  | cons r rs =>
    have := r.serialize_pos
    rw [r.serialize_length] at this
    simp only [fitCount]
    rw [if_neg (by omega)]

theorem lsn_nodup {rs : List LogEntry} {k : Nat} (h : ∀ (i : Nat) (r : LogEntry), rs[i]? = some r → r.lsn = wrapInt i)
    (hk : k ≤ rs.length) (hlt : k < 0x80000000) : ((rs.take k).map (·.lsn)).Nodup := by
  rw [List.nodup_iff_getElem?_ne_getElem?]
  intro i j hij hj
  simp only [List.length_map, List.length_take] at hj
  have hi := h i _ (List.getElem?_eq_getElem (show i < rs.length by omega))
  have hj' := h j _ (List.getElem?_eq_getElem (show j < rs.length by omega))
  rw [wrapInt_of_inInt ⟨by omega, by omega⟩] at hi hj'
  simp only [List.getElem?_map, List.getElem?_take, show i < k by omega, show j < k by omega, if_true,
    List.getElem?_eq_getElem (show i < rs.length by omega), List.getElem?_eq_getElem (show j < rs.length by omega),
    Option.map_some, ne_eq, Option.some.injEq, hi, hj']
  omega

/-- A log file that one run wrote: its whole records, and the beginning of another. -/
structure Left (file : Bytes) (past : List (Nat × LogEntry)) : Prop where
  run : ∃ n, ∀ x ∈ past, x.1 = n
  fits : ∀ x ∈ past, x.2.Fits
  lsn : (past.map (·.2.lsn)).Nodup
  file : ∃ torn, Torn torn ∧ file = (past.map (·.2)).flatMap (·.serialize) ++ torn

/-- A run that found the log empty counts its records; one that did not has written nothing. -/
structure Sound (p : LogServer × Note) : Prop where
  small : p.1.log.file.length < 0x80000000
  lsn : InInt p.1.log.globalLsn
  txn : InInt p.1.nextTxnId
  fits : ∀ r ∈ p.2.entries, r.Fits
  first : p.2.startLen = 0 → p.2.past = [] ∧ ∃ k ≤ p.2.entries.length, LogManager.LogInv (p.1.log, p.2.entries) k
  later : p.2.startLen ≠ 0 → p.1.log.file.length = p.2.startLen ∧ Left p.1.log.file p.2.past

theorem Left.tellsApart {file : Bytes} {past : List (Nat × LogEntry)} (h : Left file past) (hsmall : file.length < 0x80000000) :
    (past.map (·.2.lsn)).Nodup ∧ (∀ x ∈ past, ∀ y ∈ past, x.1 ≠ y.1 → x.2.logTid ≠ y.2.logTid) ∧
      ∃ seen, scanLog file = .ok seen ∧ ∀ x ∈ past, x.2 ∈ seen.map (·.entry) := by
  obtain ⟨n, hn⟩ := h.run
  obtain ⟨torn, htorn, rfl⟩ := h.file
  have hfits : ∀ r ∈ past.map (·.2), r.Fits := by
    intro r hr
    obtain ⟨x, hx, rfl⟩ := List.mem_map.mp hr
    exact h.fits x hx
  refine ⟨h.lsn, fun x hx y hy hne => absurd ((hn x hx).trans (hn y hy).symm) hne, _, scanLog_records hfits htorn (readable_eq hsmall) ?_, ?_⟩
  · rw [wrapInt_of_inInt ⟨by omega, by omega⟩]
    omega
  · intro x hx
    rw [seenFrom_entry]
    exact List.mem_map_of_mem hx

/-- The whole records of a prefix of what one run added. -/
theorem left_of_prefix {file : Bytes} {entries : List LogEntry} {n : Nat} (hfits : ∀ r ∈ entries, r.Fits)
    (hlsn : ∀ (i : Nat) (r : LogEntry), entries[i]? = some r → r.lsn = wrapInt i)
    (hfile : file = (entries.flatMap (·.serialize)).take file.length) (hsmall : file.length < 0x80000000) :
    Left file ((entries.take (fitCount file.length entries)).map fun r => (n, r)) := by
  obtain ⟨torn, htorn, hsplit, -⟩ := take_records hfits torn_nil file.length
  rw [List.append_nil, ← hfile] at hsplit
  have hlt : fitCount file.length entries < 0x80000000 := by
    have hle := length_le_serialize (entries.take (fitCount file.length entries))
    have hlen := congrArg List.length hsplit
    rw [List.length_append] at hlen
    rw [List.length_take, Nat.min_eq_left (fitCount_le _ _)] at hle
    omega
  refine ⟨⟨n, ?_⟩, ?_, ?_, torn, htorn, ?_⟩
  · intro x hx
    obtain ⟨r, -, rfl⟩ := List.mem_map.mp hx
    rfl
  · intro x hx
    obtain ⟨r, hr, rfl⟩ := List.mem_map.mp hx
    exact hfits r (List.mem_of_mem_take hr)
  · simpa [List.map_map, Function.comp_def] using lsn_nodup hlsn (fitCount_le file.length entries) hlt
  · simpa [List.map_map, Function.comp_def] using hsplit

theorem Sound.left {p : LogServer × Note} (h : Sound p) : Left p.1.log.file (p.2.complete p.1.log.file.length) := by
  unfold Note.complete
  by_cases hstart : p.2.startLen = 0
  · obtain ⟨hpast, k, hk, hinv⟩ := h.first hstart
    rw [hpast, hstart, Nat.sub_zero, List.nil_append]
    refine left_of_prefix h.fits hinv.lsn ?_ h.small
    have hfile : p.1.log.file = _ := hinv.file
    conv_rhs => rw [← List.take_append_drop k p.2.entries, List.flatMap_append, ← hfile, List.take_left]
  · obtain ⟨hlen, hleft⟩ := h.later hstart
    rw [hlen, Nat.sub_self, fitCount_zero, List.take_zero, List.map_nil, List.append_nil]
    exact hleft

theorem Sound.tellsApart {p : LogServer × Note} (h : Sound p) : TellsApart p := by
  obtain ⟨hlsn, htxn, hseen⟩ := h.left.tellsApart h.small
  exact ⟨hlsn, htxn, hseen⟩

/-- A step that adds a record. -/
theorem Sound.add {id : Int} {body : LogBody} {next : Int} (h : Sound (s, g)) (hid : InInt id) (hbody : body.Fits)
    (hlen : body.logTotLen ≤ logBufferSize) (hnext : InInt next)
    (hwrite : (if s.log.isFull body.logTotLen then s.log.pending else []) ≠ [] → g.startLen = 0)
    (hsmall : (s.log.file ++ if s.log.isFull body.logTotLen then s.log.pending else []).length < 0x80000000) :
    Sound (⟨s.log.addLogToBuffer id (-1) body, next⟩, { g with entries := g.entries ++ [s.log.nextEntry id (-1) body] }) where
  small := by
    show (s.log.addLogToBuffer id (-1) body).file.length < _
    rw [addLogToBuffer_file]
    exact hsmall
  lsn := by
    have : (s.log.addLogToBuffer id (-1) body).globalLsn = wrapInt (s.log.globalLsn + 1) := by
      unfold LogManager.addLogToBuffer
      split <;> rfl
    show InInt (s.log.addLogToBuffer id (-1) body).globalLsn
    rw [this]
    exact inInt_wrapInt _
  txn := hnext
  fits r hr := by
    rcases List.mem_append.mp hr with hr | hr
    · exact h.fits r hr
    · obtain rfl := List.mem_singleton.mp hr
      exact ⟨h.lsn, hid, show InInt (-1) from ⟨by decide, by decide⟩, hbody, hlen⟩
  first hstart := by
    obtain ⟨hpast, k, hk, hinv⟩ := h.first hstart
    obtain ⟨k', hk', -, hinv'⟩ := hinv.add hk id (-1) body
    exact ⟨hpast, k', Nat.le_trans hk' (by simp), hinv'⟩
  later hstart := by
    have hnone : (if s.log.isFull body.logTotLen then s.log.pending else []) = [] :=
      Classical.not_not.mp fun hne => hstart (hwrite hne)
    show (s.log.addLogToBuffer id (-1) body).file.length = _ ∧ Left (s.log.addLogToBuffer id (-1) body).file _
    rw [addLogToBuffer_file, hnone, List.append_nil]
    exact h.later hstart

theorem Sound.step (h : Sound (s, g)) (hstep : step s a = .ok t) (hP : FirstWriter (s, g) a) :
    Sound (t, noteServer s a t g) := by
  have hfile := step_file hstep
  obtain ⟨hwrite, hsmall⟩ := hP
  cases a with
  | begin =>
    cases hstep
    exact h.add h.txn trivial (by decide) (inInt_wrapInt _) hwrite hsmall
  | add r =>
    cases hstep
    exact h.add r.id_fits r.body_fits r.len h.txn hwrite hsmall
  | flush =>
    cases hstep
    refine ⟨hsmall, h.lsn, h.txn, h.fits, fun hstart => ?_, fun hstart => ?_⟩
    · obtain ⟨hpast, k, hk, hinv⟩ := h.first hstart
      exact ⟨hpast, g.entries.length, Nat.le_refl _, hinv.flush⟩
    · have hnone : s.log.pending = [] := Classical.not_not.mp fun hne => hstart (hwrite hne)
      show (s.log.file ++ s.log.pending).length = _ ∧ Left (s.log.file ++ s.log.pending) _
      rw [hnone, List.append_nil]
      exact h.later hstart
  | crash n =>
    cases hstep
    have hleft : Left (s.log.file ++ s.log.pending.take n) (g.complete (s.log.file ++ s.log.pending.take n).length) := by
      by_cases hstart : g.startLen = 0
      · -- the file is a prefix of what this run added
        obtain ⟨hpast, k, hk, hinv⟩ := h.first hstart
        unfold Note.complete
        rw [hpast, hstart, Nat.sub_zero, List.nil_append]
        refine left_of_prefix h.fits hinv.lsn ?_ hsmall
        have hall : s.log.file ++ s.log.pending = g.entries.flatMap (·.serialize) := by
          have hf : s.log.file = _ := hinv.file
          have hp : s.log.pending = _ := hinv.pending
          rw [hf, hp, ← List.flatMap_append, List.take_append_drop]
        refine List.prefix_iff_eq_take.mp ?_
        rw [← hall]
        exact (List.prefix_append_right_inj _).mpr (List.take_prefix _ _)
      · have hnone : s.log.pending.take n = [] := Classical.not_not.mp fun hne => hstart (hwrite hne)
        rw [hnone, List.append_nil]
        exact h.left
    refine ⟨hsmall, show InInt 0 from ⟨by decide, by decide⟩, show InInt 0 from ⟨by decide, by decide⟩,
      fun r hr => absurd hr List.not_mem_nil, fun hstart => ?_, fun _ => ⟨rfl, hleft⟩⟩
    have hempty : s.log.file ++ s.log.pending.take n = [] := List.length_eq_zero_iff.mp hstart
    refine ⟨?_, 0, Nat.le_refl _, ?_⟩
    · obtain ⟨torn, -, hsplit⟩ := hleft.file
      have hlen := congrArg List.length (hempty.symm.trans hsplit)
      have hle := length_le_serialize ((g.complete (s.log.file ++ s.log.pending.take n).length).map (·.2))
      rw [List.length_append] at hlen
      rw [List.length_map] at hle
      exact List.length_eq_zero_iff.mp (Nat.eq_zero_of_le_zero (Nat.le_trans hle (by rw [List.length_nil] at hlen; omega)))
    · show LogManager.LogInv (LogManager.init (s.log.file ++ s.log.pending.take n), []) 0
      rw [hempty]
      exact LogManager.logInv_init

/-- In every run in which only the first writer of the log writes it, its records and transactions can be told apart and
    `analyze` sees them all. -/
theorem tellsApart_always {as : List LogServerAct}
    (h : Throughout (noting step noteServer) FirstWriter (start [], .start) as) :
    Always (noting step noteServer) TellsApart (start [], .start) as := by
  have hinit : Sound (start [], .start) := by
    refine ⟨by decide, ⟨by decide, by decide⟩, ⟨by decide, by decide⟩, fun r hr => absurd hr List.not_mem_nil, fun _ => ?_,
      fun hne => absurd rfl hne⟩
    exact ⟨rfl, 0, Nat.le_refl _, LogManager.logInv_init⟩
  refine always_of_invariant (I := Sound) ?_ (fun _ h => h.tellsApart) hinit h
  rintro ⟨s, g⟩ a hs hP
  obtain ⟨t, ht⟩ : ∃ t, step s a = .ok t := by
    cases a <;> exact ⟨_, rfl⟩
  exact ⟨_, noting_ok ht g, hs.step ht hP⟩

theorem tellsApart_always_restart : Always (noting step noteServer) TellsApart (start [], .start)
    [.begin, .crash 20, .begin, .crash 0] := by
  refine tellsApart_always ⟨⟨fun _ => rfl, by decide⟩, fun p hp => ?_⟩
  cases hp
  refine ⟨⟨fun _ => rfl, by decide⟩, fun p hp => ?_⟩
  cases hp
  refine ⟨⟨fun hne => absurd (by decide) hne, by decide⟩, fun p hp => ?_⟩
  cases hp
  exact ⟨⟨fun hne => absurd rfl hne, by decide⟩, fun _ _ => trivial⟩

theorem tellsApart_broken : ¬Always (noting step noteServer) TellsApart (start [], .start)
    [.begin, .flush, .crash 0, .begin, .flush] := by
  obtain ⟨p, hp, hview⟩ := exec_eval (noting step noteServer) (start [], .start) [.begin, .flush, .crash 0, .begin, .flush]
    (fun p => (p.2.complete p.1.log.file.length).map (·.2.lsn)) (b := [0, 0]) (by decide)
  intro h
  have hnodup := (h.at_end hp).lsn
  rw [hview] at hnodup
  revert hnodup
  decide

end LogServer
end Rmdb
