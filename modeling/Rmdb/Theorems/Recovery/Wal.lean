import Rmdb.Recovery.Wal
import Rmdb.Theorems.Recovery.Log

/-! Write-ahead logging: which pages and commits are ahead of the log. -/

namespace Rmdb
open Runs
variable {T : Type} [DecidableEq T] {name : T → Bytes}

/-- What happened so far: the log records, the changes of each page in memory and of its copy on disk (by the number of the
    log record, if there is one) and the transactions that committed. -/
structure WalNote (T : Type) where
  entries : List LogEntry
  changes : T × Int → List (Option Nat)
  onDisk : T × Int → List (Option Nat)
  committed : List Int

namespace Wal

def noteStart : WalNote T := ⟨[], fun _ => [], fun _ => [], []⟩

/-- The change of a page is noted under the record that the step adds. -/
def noteChange (g : WalNote T) (w : WalStep T) : T × Int → List (Option Nat) :=
  match w.page with
  | some page => Function.update g.changes page (g.changes page ++ [w.entry.map fun _ => g.entries.length])
  | none => g.changes

def noteDisk (g : WalNote T) : WalAct T → T × Int → List (Option Nat)
  | .writePage t p => Function.update g.onDisk (t, p) (g.changes (t, p))
  | _ => g.onDisk

def noteCommitted (g : WalNote T) : WalAct T → List Int
  | .commit id => id :: g.committed
  | _ => g.committed

def noteWal (name : T → Bytes) (s : Wal T) (a : WalAct T) (_ : Wal T) (g : WalNote T) : WalNote T :=
  match s.perform name a with
  | .ok w => ⟨g.entries ++ w.entry.toList, noteChange g w, noteDisk g a, noteCommitted g a⟩
  | .error _ => g

/-- Record `n` is in the log file. -/
def InLogFile (p : Wal T × WalNote T) (n : Nat) : Prop :=
  ∃ k ≤ p.2.entries.length, p.1.log.file = (p.2.entries.take k).flatMap (·.serialize) ∧ n < k

/-- The change of a page has a record, which is in the log file. -/
def Logged (p : Wal T × WalNote T) (change : Option Nat) : Prop := ∃ n, change = some n ∧ InLogFile p n

/-- The pages on disk have only changes that are in the log file, and so are all records of transactions that committed. -/
structure LogAhead (p : Wal T × WalNote T) : Prop where
  pages : ∀ page, ∀ c ∈ p.2.onDisk page, Logged p c
  commits : ∀ id ∈ p.2.committed, ∀ n r, p.2.entries[n]? = some r → r.logTid = id → InLogFile p n

/-- No transaction commits, and a page is written only when the record of each of its changes has left the log buffer. -/
def WaitsForLog (p : Wal T × WalNote T) (a : WalAct T) : Prop :=
  (∀ id, a ≠ .commit id) ∧ ∀ t pageNo, a = .writePage t pageNo → ∀ c ∈ p.2.changes (t, pageNo), Logged p c

variable {s : Wal T} {g : WalNote T} {a : WalAct T} {w : WalStep T}

/-! ### What a step does to the log -/

/-- A step adds one record to the log, or at most flushes it. -/
def LogStep (s : Wal T) (w : WalStep T) : Prop :=
  (w.entry = none ∧ (w.state.log = s.log ∨ w.state.log = s.log.flushLogToDisk)) ∨
    ∃ id body, w.entry = some (s.log.nextEntry id (-1) body) ∧ w.state.log = s.log.addLogToBuffer id (-1) body

theorem logStep_changed (context : Option Int) (t : T) (p : Int) (f : RmFile) (body : LogBody) :
    LogStep s (s.changed context t p f body) := by
  cases context with
  | none => exact .inl ⟨rfl, .inl rfl⟩
  | some id => exact .inr ⟨id, body, rfl, rfl⟩

omit [DecidableEq T] in
theorem logStep_orRaised {r : Except RmError (WalStep T)} (h : s.orRaised r = .ok w) (hr : ∀ w, r = .ok w → LogStep s w) :
    LogStep s w := by
  cases r with
  | ok w' => exact hr w h
  | error e => cases e <;> cases h <;> exact .inl ⟨rfl, .inl rfl⟩

theorem perform_log (h : s.perform name a = .ok w) : LogStep s w := by
  cases a with
  | begin id =>
    cases h
    exact .inr ⟨id, .begin, rfl, rfl⟩
  | insertRecord context t buf =>
    refine logStep_orRaised h fun w hw => ?_
    obtain ⟨y, -, hy⟩ := ok_of_bind hw
    cases hy
    exact logStep_changed ..
  | insertRecordAt t rid buf =>
    refine logStep_orRaised h fun w hw => ?_
    obtain ⟨y, -, hy⟩ := ok_of_bind hw
    cases hy
    exact logStep_changed ..
  | deleteRecord context t rid =>
    refine logStep_orRaised h fun w hw => ?_
    obtain ⟨old, -, hw⟩ := ok_of_bind hw
    obtain ⟨f, -, hf⟩ := ok_of_bind hw
    cases hf
    exact logStep_changed ..
  | updateRecord context t rid buf =>
    refine logStep_orRaised h fun w hw => ?_
    obtain ⟨old, -, hw⟩ := ok_of_bind hw
    obtain ⟨f, -, hf⟩ := ok_of_bind hw
    cases hf
    exact logStep_changed ..
  | commit id =>
    cases h
    exact .inr ⟨id, .commit, rfl, rfl⟩
  | abort id =>
    cases h
    exact .inr ⟨id, .abort, rfl, rfl⟩
  | writePage t p =>
    cases h
    exact .inl ⟨rfl, .inl rfl⟩
  | flushLog =>
    cases h
    exact .inl ⟨rfl, .inr rfl⟩

/-! ### The records in the log file -/

/-- The first `k` records are in the log file. -/
structure Filed (p : Wal T × WalNote T) (k : Nat) : Prop where
  le : k ≤ p.2.entries.length
  inv : LogManager.LogInv (p.1.log, p.2.entries) k

omit [DecidableEq T] in
theorem Filed.inLogFile_iff {p : Wal T × WalNote T} {k n : Nat} (h : Filed p k) : InLogFile p n ↔ n < k := by
  constructor
  · rintro ⟨k', hk', hfile, hn⟩
    rwa [serialize_take_inj hk' h.le (hfile.symm.trans h.inv.file)] at hn
  · exact fun hn => ⟨k, h.le, h.inv.file, hn⟩

theorem Filed.step {k : Nat} (h : Filed (s, g) k) (hw : s.perform name a = .ok w) :
    ∃ k', k ≤ k' ∧ (w.entry.isSome = true → k' ≤ g.entries.length) ∧ Filed (w.state, noteWal name s a w.state g) k' := by
  have hnote : (noteWal name s a w.state g).entries = g.entries ++ w.entry.toList := by
    simp only [noteWal, hw]
  rcases perform_log hw with ⟨hentry, hlog | hlog⟩ | ⟨id, body, hentry, hlog⟩
  · refine ⟨k, Nat.le_refl _, by simp [hentry], ?_, ?_⟩
    · simpa [hnote, hentry] using h.le
    · simpa [hnote, hentry, hlog] using h.inv
  · refine ⟨g.entries.length, h.le, by simp [hentry], ?_, ?_⟩
    · simp [hnote]
    · simpa [hnote, hentry, hlog] using h.inv.flush
  · obtain ⟨k', hk', hle, hinv⟩ := h.inv.add h.le id (-1) body
    refine ⟨k', hle, fun _ => hk', ?_, ?_⟩
    · show k' ≤ (noteWal name s a w.state g).entries.length
      rw [hnote, List.length_append]
      exact Nat.le_trans hk' (Nat.le_add_right _ _)
    · simpa [hnote, hentry, hlog] using hinv

/-! ### Runs -/

/-- No page on disk is ahead of the log file, and nothing has committed. -/
structure AheadInv (p : Wal T × WalNote T) : Prop where
  filed : ∃ k, Filed p k
  pages : ∀ page, ∀ c ∈ p.2.onDisk page, Logged p c
  commits : p.2.committed = []

omit [DecidableEq T] in
theorem AheadInv.ahead {p : Wal T × WalNote T} (h : AheadInv p) : LogAhead p :=
  ⟨h.pages, by simp [h.commits]⟩

omit [DecidableEq T] in
/-- What is in the log file stays there. -/
theorem Logged.step {k k' : Nat} {c : Option Nat} {q : Wal T × WalNote T} (h : Logged (s, g) c) (hk : Filed (s, g) k)
    (hle : k ≤ k') (hk' : Filed q k') : Logged q c := by
  obtain ⟨n, rfl, hn⟩ := h
  exact ⟨n, rfl, hk'.inLogFile_iff.mpr (Nat.lt_of_lt_of_le (hk.inLogFile_iff.mp hn) hle)⟩

theorem AheadInv.step (h : AheadInv (s, g)) (hw : s.perform name a = .ok w) :
    (WaitsForLog (s, g) a → AheadInv (w.state, noteWal name s a w.state g)) ∧
      (¬WaitsForLog (s, g) a → ¬LogAhead (w.state, noteWal name s a w.state g)) := by
  obtain ⟨k, hk⟩ := h.filed
  obtain ⟨k', hle, hnew, hk'⟩ := hk.step hw
  have hdisk : (noteWal name s a w.state g).onDisk = noteDisk g a := by simp only [noteWal, hw]
  have hcommitted : (noteWal name s a w.state g).committed = noteCommitted g a := by simp only [noteWal, hw]
  constructor
  · rintro ⟨hcommit, hwrite⟩
    refine ⟨⟨k', hk'⟩, ?_, ?_⟩
    · intro page c hc
      rw [hdisk] at hc
      refine Logged.step ?_ hk hle hk'
      cases a with
      | writePage t p =>
        simp only [noteDisk, Function.update_apply] at hc
        split at hc
        · exact hwrite t p rfl c hc
        · exact h.pages page c hc
      | _ => exact h.pages page c hc
    · rw [hcommitted]
      cases a with
      | commit id => exact absurd rfl (hcommit id)
      | _ => exact h.commits
  · intro hnot hahead
    refine hnot ⟨?_, ?_⟩
    · rintro id rfl
      cases hw
      have hin := hahead.commits id (by simp [hcommitted, noteCommitted]) g.entries.length
        (s.log.nextEntry id (-1) .commit) (by simp [noteWal, perform, addLog]) rfl
      have hlt := hk'.inLogFile_iff.mp hin
      have := hnew rfl
      omega
    · rintro t p rfl c hc
      cases hw
      obtain ⟨n, rfl, hn⟩ := hahead.pages (t, p) c (by simpa [hdisk, noteDisk] using hc)
      exact ⟨n, rfl, by simpa [InLogFile, noteWal, perform] using hn⟩

/-- A run is write-ahead just if no transaction commits in it and every page is written after the records of its changes:
    nothing flushes the log at a commit or before the write of a page. -/
theorem logAhead_always_iff (recordSize : T → Nat) {as : List (WalAct T)} {s : Wal T}
    (h : exec (step name) (init recordSize) as = .ok s) :
    Always (noting (step name) (noteWal name)) LogAhead (init recordSize, noteStart) as ↔
      Throughout (noting (step name) (noteWal name)) WaitsForLog (init recordSize, noteStart) as := by
  have hinit : AheadInv (init recordSize, noteStart (T := T)) :=
    ⟨⟨0, Nat.zero_le _, LogManager.logInv_init⟩, by simp [noteStart], rfl⟩
  refine always_iff_throughout (I := AheadInv) ?_ (fun _ h => h.ahead) hinit
    ((throughout_noting (noteWal name) noteStart).mpr (throughout_of_exec h))
  rintro ⟨s, g⟩ a hs ⟨t, ht⟩
  obtain ⟨w, hw, rfl⟩ : ∃ w, s.perform name a = .ok w ∧ w.state = t := by
    cases hp : s.perform name a with
    | error e => simp [step, hp, Except.map] at ht
    | ok w => exact ⟨w, rfl, by simpa [step, hp, Except.map] using ht⟩
  exact ⟨_, noting_ok ht g, hs.step hw⟩

/-- A transaction with an insertion into a table `t`. -/
def insertOne : List (WalAct Unit) := [.begin 0, .insertRecord (some 0) () [1, 2, 3, 4]]

theorem logAhead_always_iff_flushed : ∃ s : Wal Unit,
    exec (step fun _ => [116]) (init fun _ => 4) (insertOne ++ [.flushLog, .writePage () 1]) = .ok s ∧
    Always (noting (step fun _ => [116]) (noteWal fun _ => [116])) LogAhead (init fun _ => 4, noteStart)
      (insertOne ++ [.flushLog, .writePage () 1]) := by
  obtain ⟨s, hs, -⟩ := exec_eval (step fun _ => [116]) (init fun _ => 4) (insertOne ++ [.flushLog, .writePage () 1])
    (fun s => s.log.globalLsn) (b := 2) (by decide)
  refine ⟨s, hs, (logAhead_always_iff _ hs).mpr ?_⟩
  refine ⟨⟨by simp, by simp⟩, fun p hp => ?_⟩
  cases hp
  refine ⟨⟨by simp, by simp⟩, fun p hp => ?_⟩
  cases hp
  refine ⟨⟨by simp, by simp⟩, fun p hp => ?_⟩
  cases hp
  refine ⟨⟨by simp, ?_⟩, fun _ _ => trivial⟩
  rintro t pageNo ⟨⟩ c hc
  obtain rfl : c = some 1 := List.mem_singleton.mp hc
  exact ⟨1, rfl, 2, by decide, by decide, by decide⟩

def insertCommit : List (WalAct Unit) := [.begin 0, .insertRecord (some 0) () [1, 2, 3, 4], .commit 0]

def commitAhead (p : Wal Unit × WalNote Unit) : Bool :=
  p.1.log.file = [] && p.2.committed = [0] && p.2.entries[0]? = some ⟨0, 0, -1, .begin⟩

theorem logAhead_broken : ¬Always (noting (step fun _ => [116]) (noteWal fun _ => [116])) LogAhead
    (init fun _ => 4, noteStart) insertCommit := by
  obtain ⟨p, hp, hview⟩ := exec_eval (noting (step fun _ => [116]) (noteWal fun _ => [116])) (init fun _ => 4, noteStart)
    insertCommit commitAhead (b := true) (by decide)
  simp only [commitAhead, Bool.and_eq_true, decide_eq_true_eq] at hview
  obtain ⟨⟨hfile, hcommit⟩, hentry⟩ := hview
  intro h
  obtain ⟨k, hk, hprefix, hpos⟩ := (h.at_end hp).commits 0 (by simp [hcommit]) 0 _ hentry rfl
  have hlt := length_serialize_take_lt hpos hk
  rw [← hprefix, hfile] at hlt
  exact absurd hlt (Nat.not_lt_zero _)

end Wal
end Rmdb
