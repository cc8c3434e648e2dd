import Rmdb.Txn.LockManager
import Mathlib.Data.List.Nodup

/-! Locks of transactions: granted locks are compatible, two phases, and what remains of a transaction's locks.

A request leaves everything as it is, is refused, or adds a granted request to the end of one queue (`Asked`); an `unlock`
takes one request of its transaction out of one queue. -/

namespace Rmdb
open Runs

/-- The matrix of the lock modes. -/
def LockMode.compatible : LockMode → LockMode → Bool
  | .intentionShared, m => m ≠ .exlucsive
  | .intentionExclusive, m => m = .intentionShared || m = .intentionExclusive
  | .shared, m => m = .intentionShared || m = .shared
  | .sIx, m => m = .intentionShared
  | .exlucsive, _ => false

theorem LockMode.compatible_comm (m m' : LockMode) : m.compatible m' = m'.compatible m := by
  cases m <;> cases m' <;> rfl

/-- Records are locked in two modes only. -/
def LockDataId.admits : LockDataId → LockMode → Bool
  | .table _, _ => true
  | .record _ _, m => m = .shared || m = .exlucsive

namespace LockManager
variable {s t : LockManager} {id : Int}

/-- The transaction has a granted request on the item. -/
def holds (s : LockManager) (id : Int) (item : LockDataId) : Bool :=
  (s.lockTable item).any fun r => r.txnId = id && r.granted

theorem holds_iff {item : LockDataId} : s.holds id item = true ↔ ∃ r ∈ s.lockTable item, r.txnId = id ∧ r.granted = true := by
  simp [holds]

theorem heldByOther_iff {item : LockDataId} {conflict : LockMode → Bool} :
    s.heldByOther id item conflict = true ↔
      ∃ r ∈ s.lockTable item, r.granted = true ∧ r.txnId ≠ id ∧ conflict r.lockMode = true := by
  simp [heldByOther, and_assoc]

/-! ### Requests -/

/-- What a request does. -/
inductive Asked (s : LockManager) (id : Int) : LockManager × Bool → Prop where
  | held : Asked s id (s, true)
  | refused : Asked s id (s.setState id .aborted, false)
  | granted (item : LockDataId) (mode : LockMode) (hmode : item.admits mode = true)
      (hfree : ∀ r ∈ s.lockTable item, r.granted = true → r.txnId ≠ id → item.admits r.lockMode = true →
        mode.compatible r.lockMode = true) : Asked s id (s.grant id item mode, true)

theorem asked_onTable {tabFd : Int} {mode : LockMode} {conflict : LockMode → Bool}
    (hconflict : ∀ m, conflict m = false → mode.compatible m = true) : Asked s id (s.lockOnTable id tabFd mode conflict) := by
  unfold lockOnTable
  split
  · exact .refused
  · split
    · exact .refused
    · rename_i hother
      refine .granted _ _ rfl fun r hr hg hne _ => hconflict _ ?_
      rw [Bool.not_eq_true] at hother
      exact Bool.eq_false_iff.mpr fun hc => Bool.eq_false_iff.mp hother (heldByOther_iff.mpr ⟨r, hr, hg, hne, hc⟩)

theorem asked_sharedOnRecord {rid : Rid} {tabFd : Int} : Asked s id (s.lockSharedOnRecord id rid tabFd) := by
  unfold lockSharedOnRecord
  split
  · exact .refused
  · split
    · exact .held
    · split
      · exact .refused
      · rename_i hother
        refine .granted _ _ rfl fun r hr hg hne hadm => ?_
        have hx : r.lockMode ≠ .exlucsive := fun hx => hother (heldByOther_iff.mpr ⟨r, hr, hg, hne, decide_eq_true hx⟩)
        simp only [LockDataId.admits, Bool.or_eq_true, decide_eq_true_eq, hx, or_false] at hadm
        rw [hadm]
        rfl

theorem asked_exclusiveOnRecord {rid : Rid} {tabFd : Int} : Asked s id (s.lockExclusiveOnRecord id rid tabFd) := by
  unfold lockExclusiveOnRecord
  split
  · exact .refused
  · split
    · split
      · exact .held
      · exact .refused
    · split
      · exact .refused
      · rename_i hother
        exact .granted _ _ rfl fun r hr hg hne _ => absurd (heldByOther_iff.mpr ⟨r, hr, hg, hne, rfl⟩) hother

theorem asked_lock (c : LockCall) : Asked s id (s.lock id c) := by
  cases c with
  | sharedOnRecord rid tabFd => exact asked_sharedOnRecord
  | exclusiveOnRecord rid tabFd => exact asked_exclusiveOnRecord
  | sharedOnTable tabFd => exact asked_onTable (by intro m; cases m <;> decide)
  | exclusiveOnTable tabFd => exact asked_onTable (by intro m; cases m <;> decide)
  | isOnTable tabFd => exact asked_onTable (by intro m; cases m <;> decide)
  | ixOnTable tabFd => exact asked_onTable (by intro m; cases m <;> decide)

@[simp] theorem setState_lockTable (st : TransactionState) : (s.setState id st).lockTable = s.lockTable := rfl

@[simp] theorem grant_lockTable (item : LockDataId) (mode : LockMode) :
    (s.grant id item mode).lockTable = Function.update s.lockTable item (s.lockTable item ++ [⟨id, mode, true⟩]) := rfl

theorem mem_grant {item i : LockDataId} {mode : LockMode} {r : LockRequest} :
    r ∈ (s.grant id item mode).lockTable i ↔ r ∈ s.lockTable i ∨ i = item ∧ r = ⟨id, mode, true⟩ := by
  rw [grant_lockTable, Function.update_apply]
  split
  · rename_i hi
    subst hi
    simp
  · rename_i hi
    simp [hi]

/-! ### Release -/

@[simp] theorem startShrinking_lockTable : (s.startShrinking id).lockTable = s.lockTable := by
  unfold startShrinking
  split <;> rfl

theorem startShrinking_txnMap_ne {i : Int} (h : i ≠ id) : (s.startShrinking id).txnMap i = s.txnMap i := by
  unfold startShrinking
  split
  · exact Function.update_of_ne h _ _
  · rfl

theorem dequeue_lockTable (item : LockDataId) :
    (s.dequeue id item).1.lockTable = Function.update s.lockTable item ((s.lockTable item).eraseP (·.txnId = id)) := by
  dsimp only [dequeue]
  split
  · rfl
  · rename_i hno
    have hnone : (s.lockTable item).eraseP (·.txnId = id) = s.lockTable item :=
      List.eraseP_of_forall_not fun r hr hown => hno (List.any_eq_true.mpr ⟨r, hr, hown⟩)
    rw [hnone, Function.update_eq_self]
    rfl

theorem dequeue_txnMap (item : LockDataId) :
    (s.dequeue id item).1.txnMap =
      (s.modifyTxn id fun x => { x with lockSet := x.lockSet.filter (· ≠ item) }).txnMap := by
  dsimp only [dequeue]
  split <;> rfl

theorem unlock_lockTable (item : LockDataId) :
    (s.unlock id item).1.lockTable = Function.update s.lockTable item ((s.lockTable item).eraseP (·.txnId = id)) := by
  dsimp only [unlock]
  split
  · rename_i hnil
    rw [startShrinking_lockTable] at hnil ⊢
    rw [hnil, List.eraseP_nil, ← hnil, Function.update_eq_self]
  · rw [dequeue_lockTable, startShrinking_lockTable]

theorem unlock_txnMap_ne {item : LockDataId} {i : Int} (h : i ≠ id) : (s.unlock id item).1.txnMap i = s.txnMap i := by
  dsimp only [unlock]
  split
  · exact startShrinking_txnMap_ne h
  · rw [dequeue_txnMap]
    exact (Function.update_of_ne h _ _).trans (startShrinking_txnMap_ne h)

theorem unlockAll_lockTable {items : List LockDataId} (hnd : items.Nodup) (item : LockDataId) :
    (s.unlockAll id items).lockTable item =
      if item ∈ items then (s.lockTable item).eraseP (·.txnId = id) else s.lockTable item := by
  induction items generalizing s with
  | nil => rfl
  | cons i items ih =>
    obtain ⟨hi, hnd⟩ := List.nodup_cons.mp hnd
    show ((s.unlock id i).1.unlockAll id items).lockTable item = _
    rw [ih hnd, unlock_lockTable]
    by_cases hitem : item = i
    · subst hitem
      simp [hi]
    · simp [hitem]

theorem unlockAll_txnMap_ne {items : List LockDataId} {i : Int} (h : i ≠ id) :
    (s.unlockAll id items).txnMap i = s.txnMap i := by
  induction items generalizing s with
  | nil => rfl
  | cons item items ih => exact ih.trans (unlock_txnMap_ne h)

theorem unlockAll_sublist (items : List LockDataId) (item : LockDataId) :
    ((s.unlockAll id items).lockTable item).Sublist (s.lockTable item) := by
  induction items generalizing s with
  | nil => exact .refl _
  | cons i items ih =>
    refine ih.trans ?_
    rw [unlock_lockTable, Function.update_apply]
    split
    · rename_i h
      subst h
      exact List.eraseP_sublist
    · exact .refl _

/-! ### Granted locks are compatible -/

/-- Granted requests of different transactions on one item are in compatible modes. -/
def Compatible (s : LockManager) : Prop :=
  ∀ item, ∀ r ∈ s.lockTable item, ∀ r' ∈ s.lockTable item, r.granted = true → r'.granted = true → r.txnId ≠ r'.txnId →
    r.lockMode.compatible r'.lockMode = true

def ModesFit (s : LockManager) : Prop := ∀ item, ∀ r ∈ s.lockTable item, item.admits r.lockMode = true

theorem compatible_of_sublist (h : s.Compatible ∧ s.ModesFit)
    (hsub : ∀ item, (t.lockTable item).Sublist (s.lockTable item)) : t.Compatible ∧ t.ModesFit :=
  ⟨fun item r hr r' hr' => h.1 item r ((hsub item).mem hr) r' ((hsub item).mem hr'),
    fun item r hr => h.2 item r ((hsub item).mem hr)⟩

theorem compatible_grant {item : LockDataId} {mode : LockMode} (h : s.Compatible ∧ s.ModesFit)
    (hmode : item.admits mode = true)
    (hfree : ∀ r ∈ s.lockTable item, r.granted = true → r.txnId ≠ id → item.admits r.lockMode = true →
      mode.compatible r.lockMode = true) :
    (s.grant id item mode).Compatible ∧ (s.grant id item mode).ModesFit := by
  constructor
  · intro i r hr r' hr' hg hg' hne
    rcases mem_grant.mp hr with hin | ⟨hi, rfl⟩
    · rcases mem_grant.mp hr' with hin' | ⟨hi, rfl⟩
      · exact h.1 i r hin r' hin' hg hg' hne
      · subst hi
        rw [LockMode.compatible_comm]
        exact hfree r hin hg hne (h.2 _ r hin)
    · rcases mem_grant.mp hr' with hin' | ⟨-, rfl⟩
      · subst hi
        exact hfree r' hin' hg' (Ne.symm hne) (h.2 _ r' hin')
      · exact absurd rfl hne
  · intro i r hr
    rcases mem_grant.mp hr with hin | ⟨hi, rfl⟩
    · exact h.2 i r hin
    · subst hi
      exact hmode

theorem compatible_step {a : LockAct} (h : s.Compatible ∧ s.ModesFit) (hstep : step s a = .ok t) :
    t.Compatible ∧ t.ModesFit := by
  cases a with
  | begin =>
    simp only [step] at hstep
    split at hstep
    · cases hstep
      exact h
    · cases hstep
  | lock i c =>
    cases hstep
    split
    · cases hasked : s.lock i c with
      | mk u b =>
        have ha : Asked s i (u, b) := hasked ▸ asked_lock c
        cases ha with
        | held => exact h
        | refused => exact h
        | granted item mode hmode hfree => exact compatible_grant h hmode hfree
    · exact h
  | unlock i item =>
    cases hstep
    split
    · exact compatible_of_sublist h fun item' => unlockAll_sublist [item] item'
    · exact h
  | commit i =>
    cases hstep
    cases s.txnMap i with
    | none => exact h
    | some x => exact compatible_of_sublist h fun item => unlockAll_sublist x.lockSet item
  | abort i =>
    cases hstep
    cases s.txnMap i with
    | none => exact h
    | some x => exact compatible_of_sublist h fun item => unlockAll_sublist x.lockSet item

/-- In every state of every run, the granted locks of different transactions on one item are compatible. -/
theorem compatible_run {as : List LockAct} (h : exec step init as = .ok s) : s.Compatible := by
  have hinv : (init.Compatible ∧ init.ModesFit) :=
    ⟨fun item r hr => absurd hr List.not_mem_nil, fun item r hr => absurd hr List.not_mem_nil⟩
  have halways : Always step (fun s => s.Compatible ∧ s.ModesFit) init as :=
    always_of_invariant (fun s a hs hok => hok.imp fun t ht => ⟨ht, compatible_step hs ht⟩) (fun _ h => h) hinv
      (throughout_of_exec h)
  exact (halways.at_end h).1

theorem compatible_run_intentions : ∃ s : LockManager,
    exec step init [.begin, .begin, .lock 0 (.isOnTable 3), .lock 1 (.ixOnTable 3), .lock 0 (.exclusiveOnTable 3)] = .ok s ∧
    s.lockTable (.table 3) = [⟨0, .intentionShared, true⟩, ⟨1, .intentionExclusive, true⟩] ∧ s.Compatible := by
  obtain ⟨s, hs, hview⟩ := exec_eval step init
    [.begin, .begin, .lock 0 (.isOnTable 3), .lock 1 (.ixOnTable 3), .lock 0 (.exclusiveOnTable 3)]
    (fun s => s.lockTable (.table 3)) (b := [⟨0, .intentionShared, true⟩, ⟨1, .intentionExclusive, true⟩]) (by decide)
  exact ⟨s, hs, hview, compatible_run hs⟩

/-! ### Two phases -/

/-- Locks that prevent the request: for a record, those that the transaction has itself decide first. -/
def clashes (s : LockManager) (id : Int) : LockCall → Bool
  | .sharedOnRecord rid tabFd =>
    !s.holds id (.record tabFd rid) && s.heldByOther id (.record tabFd rid) fun m => m = .exlucsive
  | .exclusiveOnRecord rid tabFd =>
    match s.ownMode id (.record tabFd rid) with
    | some mode => mode ≠ .exlucsive
    | none => s.heldByOther id (.record tabFd rid) fun _ => true
  | .sharedOnTable tabFd =>
    s.heldByOther id (.table tabFd) fun m => m = .exlucsive || m = .intentionExclusive || m = .sIx
  | .exclusiveOnTable tabFd => s.heldByOther id (.table tabFd) fun _ => true
  | .isOnTable tabFd => s.heldByOther id (.table tabFd) fun m => m = .exlucsive
  | .ixOnTable tabFd => s.heldByOther id (.table tabFd) fun m => m = .exlucsive || m = .shared || m = .sIx

theorem lockOnTable_true_iff {tabFd : Int} {mode : LockMode} {conflict : LockMode → Bool} :
    (s.lockOnTable id tabFd mode conflict).2 = true ↔
      s.state? id ≠ some .shrinking ∧ s.heldByOther id (.table tabFd) conflict = false := by
  unfold lockOnTable
  split
  · simp [*, refuse]
  · split
    · simp [*, refuse]
    · simp [*]

theorem lock_true_iff {c : LockCall} :
    (s.lock id c).2 = true ↔ s.state? id ≠ some .shrinking ∧ s.clashes id c = false := by
  cases c with
  | sharedOnRecord rid tabFd =>
    simp only [lock, lockSharedOnRecord, clashes]
    split
    · simp [*, refuse]
    · split
      · rename_i hown
        rw [show s.holds id (.record tabFd rid) = true from hown]
        simp [*]
      · rename_i hown
        rw [show s.holds id (.record tabFd rid) = false from by simpa [holds] using hown]
        split <;> simp [*, refuse]
  | exclusiveOnRecord rid tabFd =>
    simp only [lock, lockExclusiveOnRecord, clashes]
    split
    · simp [*, refuse]
    · split
      · split <;> simp [*, refuse]
      · split <;> simp [*, refuse]
  | sharedOnTable tabFd => exact lockOnTable_true_iff
  | exclusiveOnTable tabFd => exact lockOnTable_true_iff
  | isOnTable tabFd => exact lockOnTable_true_iff
  | ixOnTable tabFd => exact lockOnTable_true_iff

/-- The transactions that have called `unlock` for a lock they held. -/
def noteUnlock (s : LockManager) (a : LockAct) (_ : LockManager) (g : List Int) : List Int :=
  match a with
  | .unlock id item => if (s.txnMap id).isSome && s.holds id item then id :: g else g
  | _ => g

/-- A request of a transaction that has unlocked one of its locks does not return `true`. -/
def TwoPhase (p : LockManager × List Int) (a : LockAct) (_ : LockManager × List Int) : Prop :=
  ∀ id c, a = .lock id c → id ∈ p.2 → (p.1.txnMap id).isSome = true → (p.1.lock id c).2 = false

/-- A transaction that has unlocked one of its locks and is in the state `aborted` requests only locks that other locks
    prevent. -/
def NoneAfterAbort (p : LockManager × List Int) (a : LockAct) : Prop :=
  ∀ id c, a = .lock id c → id ∈ p.2 → p.1.state? id = some .aborted → p.1.clashes id c = true

theorem setState_state? (st : TransactionState) (i : Int) :
    (s.setState id st).state? i = if i = id then (s.state? i).map fun _ => st else s.state? i := by
  unfold setState modifyTxn state?
  by_cases h : i = id
  · subst h
    simp [Option.map_map, Function.comp_def]
  · simp [h]

theorem modifyTxn_state? {g : TxnLocks → TxnLocks} (hg : ∀ x, (g x).state = x.state) (i : Int) :
    (s.modifyTxn id g).state? i = s.state? i := by
  unfold modifyTxn state?
  by_cases h : i = id
  · subst h
    simp [Option.map_map, Function.comp_def, hg]
  · simp [h]

theorem unlock_state? (item : LockDataId) :
    (s.unlock id item).1.state? id = if s.state? id = some .growing then some .shrinking else s.state? id := by
  have hshrink : (s.startShrinking id).state? id =
      if s.state? id = some .growing then some .shrinking else s.state? id := by
    unfold startShrinking
    split
    · rename_i h
      simp [setState_state?, h]
    · rfl
  dsimp only [unlock]
  split
  · exact hshrink
  · rw [state?, dequeue_txnMap]
    exact (modifyTxn_state? (by exact fun _ => rfl) id).trans hshrink

theorem unlock_nextTxnId (item : LockDataId) : (s.unlock id item).1.nextTxnId = s.nextTxnId := by
  have hshrink : (s.startShrinking id).nextTxnId = s.nextTxnId := by
    unfold startShrinking
    split <;> rfl
  dsimp only [unlock]
  split
  · exact hshrink
  · dsimp only [dequeue]
    split <;> exact hshrink

theorem unlockAll_nextTxnId (items : List LockDataId) : (s.unlockAll id items).nextTxnId = s.nextTxnId := by
  induction items generalizing s with
  | nil => rfl
  | cons item items ih => exact ih.trans (unlock_nextTxnId item)

/-- The states of the transactions of a run. -/
structure Phased (p : LockManager × List Int) : Prop where
  fresh : ∀ id, p.1.nextTxnId ≤ id → p.1.state? id = none
  known : ∀ id ∈ p.2, id < p.1.nextTxnId
  live : ∀ id, p.1.state? id ≠ some .committed
  shrunk : ∀ id ∈ p.2, p.1.state? id ≠ some .growing

/-- A step that starts no transaction and puts none back into its first phase. -/
theorem Phased.of_states {s t : LockManager} {g g' : List Int} (h : Phased (s, g)) (hnext : t.nextTxnId = s.nextTxnId)
    (hstate : ∀ id, t.state? id = s.state? id ∨ t.state? id = none ∨
      (s.state? id).isSome ∧ (t.state? id = some .shrinking ∨ t.state? id = some .aborted))
    (hnew : ∀ id ∈ g', id ∈ g ∨ (s.state? id).isSome ∧ t.state? id ≠ some .growing) : Phased (t, g') where
  fresh id hid := by
    have hs := h.fresh id (hnext ▸ hid)
    rcases hstate id with he | he | he
    · exact he.trans hs
    · exact he
    · simp [hs] at he
  known id hid := by
    show id < t.nextTxnId
    rw [hnext]
    rcases hnew id hid with hg | ⟨hsome, -⟩
    · exact h.known id hg
    · refine Int.not_le.mp fun hge => ?_
      simp [h.fresh id hge] at hsome
  live id := by
    show t.state? id ≠ _
    rcases hstate id with he | he | ⟨-, he | he⟩
    · rw [he]
      exact h.live id
    all_goals simp [he]
  shrunk id hid := by
    show t.state? id ≠ _
    rcases hnew id hid with hg | ⟨-, hne⟩
    · rcases hstate id with he | he | ⟨-, he | he⟩
      · rw [he]
        exact h.shrunk id hg
      all_goals simp [he]
    · exact hne

theorem state?_isSome : (s.state? id).isSome = (s.txnMap id).isSome := by simp [state?]

theorem Phased.lock {g : List Int} (h : Phased (s, g)) (c : LockCall) (hid : (s.txnMap id).isSome = true) :
    Phased ((s.lock id c).1, g) := by
  cases hasked : s.lock id c with
  | mk u b =>
    have ha : Asked s id (u, b) := hasked ▸ asked_lock c
    cases ha with
    | held => exact h
    | refused =>
      refine h.of_states rfl (fun i => ?_) fun i hi => .inl hi
      rw [setState_state?]
      split
      · rename_i hi
        subst hi
        obtain ⟨st, hst⟩ := Option.isSome_iff_exists.mp (state?_isSome.trans hid)
        simp [hst]
      · exact .inl rfl
    | granted item mode hmode hfree =>
      exact h.of_states rfl (fun i => .inl (modifyTxn_state? (by exact fun _ => rfl) i)) fun i hi => .inl hi

theorem Phased.unlock {g : List Int} (h : Phased (s, g)) (item : LockDataId) (hid : (s.txnMap id).isSome = true) :
    Phased ((s.unlock id item).1, noteUnlock s (.unlock id item) (s.unlock id item).1 g) := by
  have hne : (s.unlock id item).1.state? id ≠ some .growing := by
    rw [unlock_state?]
    split
    · simp
    · assumption
  refine h.of_states (unlock_nextTxnId item) (fun i => ?_) fun i hi => ?_
  · by_cases hi : i = id
    · subst hi
      rw [unlock_state?]
      split
      · rename_i hgrow
        exact .inr (.inr ⟨by simp [hgrow], .inl rfl⟩)
      · exact .inl rfl
    · exact .inl (congrArg _ (unlock_txnMap_ne hi))
  · simp only [noteUnlock] at hi
    split at hi
    · rcases List.mem_cons.mp hi with rfl | hi
      · exact .inr ⟨state?_isSome.trans hid, hne⟩
      · exact .inl hi
    · exact .inl hi

theorem commit_txnMap (x : TxnLocks) : (s.commit id x).txnMap = Function.update s.txnMap id none := by
  funext i
  by_cases hi : i = id
  · subst hi
    simp [commit]
  · simp only [commit, Function.update_of_ne hi]
    exact (unlockAll_txnMap_ne hi).trans (Function.update_of_ne hi _ _)

theorem abort_txnMap (x : TxnLocks) : (s.abort id x).txnMap = Function.update s.txnMap id none := by
  funext i
  by_cases hi : i = id
  · subst hi
    simp [abort]
  · simp only [abort, Function.update_of_ne hi]
    exact unlockAll_txnMap_ne hi

theorem Phased.ended {g : List Int} (h : Phased (s, g)) (htxn : t.txnMap = Function.update s.txnMap id none)
    (hnext : t.nextTxnId = s.nextTxnId) : Phased (t, g) := by
  refine h.of_states hnext (fun i => ?_) fun i hi => .inl hi
  rw [state?, htxn]
  by_cases hi : i = id
  · subst hi
    simp
  · simp [hi, state?]

theorem Phased.begin {g : List Int} (h : Phased (s, g)) : Phased (s.begin, g) where
  fresh id hid := by
    have hlt : s.nextTxnId < id := hid
    have hne : id ≠ s.nextTxnId := Int.ne_of_gt hlt
    have hs := h.fresh id (Int.le_of_lt hlt)
    simpa [LockManager.begin, state?, hne] using hs
  known id hid := Int.lt_trans (h.known id hid) (Int.lt_succ s.nextTxnId)
  live id := by
    by_cases hid : id = s.nextTxnId
    · subst hid
      simp [LockManager.begin, state?]
    · simpa [LockManager.begin, state?, hid] using h.live id
  shrunk id hmem := by
    have hid : id ≠ s.nextTxnId := Int.ne_of_lt (h.known id hmem)
    simpa [LockManager.begin, state?, hid] using h.shrunk id hmem

theorem Phased.step {g : List Int} {a : LockAct} (h : Phased (s, g)) (hstep : step s a = .ok t) :
    Phased (t, noteUnlock s a t g) := by
  cases a with
  | begin =>
    simp only [LockManager.step] at hstep
    split at hstep
    · cases hstep
      exact h.begin
    · cases hstep
  | lock id c =>
    cases hstep
    split
    · exact h.lock c (by assumption)
    · exact h
  | unlock id item =>
    cases hstep
    split
    · exact h.unlock item (by assumption)
    · rename_i hdead
      simpa [noteUnlock, hdead] using h
  | commit id =>
    cases hstep
    cases s.txnMap id with
    | none => exact h
    | some x => exact h.ended (commit_txnMap x) (unlockAll_nextTxnId x.lockSet)
  | abort id =>
    cases hstep
    cases s.txnMap id with
    | none => exact h
    | some x => exact h.ended (abort_txnMap x) (unlockAll_nextTxnId x.lockSet)

theorem twoPhase_iff {p q : LockManager × List Int} {a : LockAct} (h : Phased p) : TwoPhase p a q ↔ NoneAfterAbort p a := by
  have hiff : ∀ id c, id ∈ p.2 →
      (((p.1.txnMap id).isSome = true → (p.1.lock id c).2 = false) ↔
        (p.1.state? id = some .aborted → p.1.clashes id c = true)) := by
    intro id c hid
    rw [← state?_isSome, ← Bool.not_eq_true, lock_true_iff]
    have hgrow := h.shrunk id hid
    have hlive := h.live id
    cases hst : p.1.state? id with
    | none => simp
    | some st =>
      rw [hst] at hgrow hlive
      cases st <;> simp_all
  constructor
  · exact fun hp id c ha hid => (hiff id c hid).mp (hp id c ha hid)
  · exact fun hp id c ha hid => (hiff id c hid).mpr (hp id c ha hid)

/-- A run keeps the two phases just if no transaction that has unlocked one of its locks and is in the state `aborted` goes on
    to request a lock that nothing prevents: only the state `shrinking` refuses requests, and the first refusal ends it. -/
theorem twoPhase_each_iff {as : List LockAct} (h : exec step init as = .ok s) :
    EachStep (noting step noteUnlock) TwoPhase (init, []) as ↔
      Throughout (noting step noteUnlock) NoneAfterAbort (init, []) as := by
  have hinit : Phased (init, []) :=
    ⟨fun _ _ => rfl, fun _ h => absurd h List.not_mem_nil, by simp [init, state?], fun _ h => absurd h List.not_mem_nil⟩
  refine eachStep_iff_throughout (I := Phased) ?_ hinit
    ((throughout_noting noteUnlock []).mpr (throughout_of_exec h))
  intro p a hp hok
  obtain ⟨t, ht⟩ := hok
  exact ⟨_, noting_ok ht p.2, hp.step ht, twoPhase_iff hp⟩

/-- One lock, its release and a request, which is refused. -/
def unlockThenLock : List LockAct :=
  [.begin, .lock 0 (.isOnTable 3), .unlock 0 (.table 3), .lock 0 (.isOnTable 4)]

theorem twoPhase_each_iff_refused : ∃ s : LockManager, exec step init unlockThenLock = .ok s ∧
    EachStep (noting step noteUnlock) TwoPhase (init, []) unlockThenLock := by
  obtain ⟨s, hs, -⟩ := exec_eval step init unlockThenLock (fun s => s.nextTxnId) (b := 1) (by decide)
  refine ⟨s, hs, (twoPhase_each_iff hs).mpr ?_⟩
  refine ⟨by rintro _ _ ⟨⟩, fun p hp => ?_⟩
  cases hp
  refine ⟨fun _ _ _ h => absurd h List.not_mem_nil, fun p hp => ?_⟩
  cases hp
  refine ⟨by rintro _ _ ⟨⟩, fun p hp => ?_⟩
  cases hp
  refine ⟨?_, fun _ _ => trivial⟩
  rintro id c ⟨⟩ - hst
  exact absurd hst (by decide)

theorem twoPhase_broken :
    ¬EachStep (noting step noteUnlock) TwoPhase (init, []) (unlockThenLock ++ [.lock 0 (.isOnTable 4)]) := by
  obtain ⟨p, hp, hview⟩ := exec_eval (noting step noteUnlock) (init, []) unlockThenLock
    (fun p => decide (0 ∈ p.2 ∧ (p.1.txnMap 0).isSome = true ∧ (p.1.lock 0 (.isOnTable 4)).2 = true)) (b := true)
    (by decide)
  obtain ⟨hmem, hlive, hret⟩ := of_decide_eq_true hview
  intro h
  obtain ⟨q, -, hq⟩ := h.at_exec hp
  simp [hq 0 _ rfl hmem hlive] at hret

/-! ### What remains of the locks of a transaction -/

/-- The lock sets of live transactions are the items they have granted requests on, and there is no request of a transaction
    that is not live. -/
structure LocksMatch (s : LockManager) : Prop where
  lockSet : ∀ id x, s.txnMap id = some x → ∀ item, item ∈ x.lockSet ↔ s.holds id item = true
  gone : ∀ id, s.txnMap id = none → ∀ item, ∀ r ∈ s.lockTable item, r.txnId ≠ id

/-- A transaction that ends has at most one request in every queue. -/
def EndsSingle (s : LockManager) (a : LockAct) : Prop :=
  ∀ id, a = .commit id ∨ a = .abort id → ∀ item, (s.lockTable item).countP (·.txnId = id) ≤ 1

/-- What holds in the states of a run besides: requests are granted, and lock sets have no duplicates. -/
structure Tracked (s : LockManager) : Prop extends LocksMatch s where
  fresh : ∀ id, s.nextTxnId ≤ id → s.txnMap id = none
  nodup : ∀ id x, s.txnMap id = some x → x.lockSet.Nodup
  granted : ∀ item, ∀ r ∈ s.lockTable item, r.granted = true

theorem countP_eraseP {α : Type} (p : α → Bool) (l : List α) : (l.eraseP p).countP p = l.countP p - 1 := by
  rcases List.exists_or_eq_self_of_eraseP p l with hself | ⟨a, l₁, l₂, hl₁, ha, hl, herase⟩
  · rw [hself]
    have hzero : l.countP p = 0 := by
      rw [List.countP_eq_zero]
      intro a ha hp
      have hlen := List.length_eraseP_of_mem ha hp
      have hpos := List.length_pos_of_mem ha
      rw [hself] at hlen
      omega
    omega
  · rw [herase, hl, List.countP_append, List.countP_append, List.countP_cons_of_pos ha]
    omega

theorem holds_congr {i : Int} {item : LockDataId}
    (h : ∀ r : LockRequest, r.txnId = i → (r ∈ t.lockTable item ↔ r ∈ s.lockTable item)) :
    t.holds i item = true ↔ s.holds i item = true := by
  rw [holds_iff, holds_iff]
  constructor
  · rintro ⟨r, hr, hown⟩
    exact ⟨r, (h r hown.1).mp hr, hown⟩
  · rintro ⟨r, hr, hown⟩
    exact ⟨r, (h r hown.1).mpr hr, hown⟩

theorem Tracked.begin (h : Tracked s) : Tracked s.begin where
  lockSet id x hx item := by
    by_cases hid : id = s.nextTxnId
    · subst hid
      obtain rfl : (⟨.growing, []⟩ : TxnLocks) = x := by simpa [LockManager.begin] using hx
      refine ⟨fun hmem => absurd hmem List.not_mem_nil, fun hholds => ?_⟩
      obtain ⟨r, hr, hown, -⟩ := holds_iff.mp hholds
      exact absurd hown (h.gone _ (h.fresh _ (Int.le_refl _)) item r hr)
    · exact h.lockSet id x (by simpa [LockManager.begin, hid] using hx) item
  gone id hnone item r hr := by
    refine h.gone id ?_ item r hr
    by_cases hid : id = s.nextTxnId
    · subst hid
      exact h.fresh _ (Int.le_refl _)
    · simpa [LockManager.begin, hid] using hnone
  fresh id hid := by
    have hlt : s.nextTxnId < id := hid
    simpa [LockManager.begin, Int.ne_of_gt hlt] using h.fresh id (Int.le_of_lt hlt)
  nodup id x hx := by
    by_cases hid : id = s.nextTxnId
    · subst hid
      obtain rfl : (⟨.growing, []⟩ : TxnLocks) = x := by simpa [LockManager.begin] using hx
      exact List.nodup_nil
    · exact h.nodup id x (by simpa [LockManager.begin, hid] using hx)
  granted := h.granted

theorem modifyTxn_txnMap {g : TxnLocks → TxnLocks} {i : Int} {y : TxnLocks} (hy : (s.modifyTxn id g).txnMap i = some y) :
    ∃ x, s.txnMap i = some x ∧ y = if i = id then g x else x := by
  simp only [modifyTxn, Function.update_apply] at hy
  split at hy
  · rename_i hi
    subst hi
    obtain ⟨x, hx, rfl⟩ := Option.map_eq_some_iff.mp hy
    exact ⟨x, hx, by simp⟩
  · rename_i hi
    exact ⟨y, hy, by simp [hi]⟩

theorem modifyTxn_txnMap_none {g : TxnLocks → TxnLocks} {i : Int} : (s.modifyTxn id g).txnMap i = none ↔ s.txnMap i = none := by
  simp only [modifyTxn, Function.update_apply]
  split
  · rename_i hi
    subst hi
    exact Option.map_eq_none_iff
  · exact Iff.rfl

theorem Tracked.setState (h : Tracked s) (st : TransactionState) : Tracked (s.setState id st) where
  lockSet i y hy item := by
    obtain ⟨x, hx, rfl⟩ := modifyTxn_txnMap hy
    have heq : (if i = id then { x with state := st } else x).lockSet = x.lockSet := by split <;> rfl
    rw [heq]
    exact h.lockSet i x hx item
  gone i hnone := h.gone i (modifyTxn_txnMap_none.mp hnone)
  fresh i hi := modifyTxn_txnMap_none.mpr (h.fresh i hi)
  nodup i y hy := by
    obtain ⟨x, hx, rfl⟩ := modifyTxn_txnMap hy
    split <;> exact h.nodup i x hx
  granted := h.granted

theorem Tracked.grant (h : Tracked s) (hlive : (s.txnMap id).isSome = true) (item : LockDataId) (mode : LockMode) :
    Tracked (s.grant id item mode) where
  lockSet i y hy item' := by
    obtain ⟨x, hx, rfl⟩ := modifyTxn_txnMap hy
    have hx' := h.lockSet i x hx item'
    by_cases hi : i = id
    · subst hi
      rw [if_pos rfl, holds_iff]
      simp only [List.mem_insert_iff, hx', holds_iff, mem_grant]
      constructor
      · rintro (rfl | ⟨r, hr, hown⟩)
        · exact ⟨⟨i, mode, true⟩, .inr ⟨rfl, rfl⟩, rfl, rfl⟩
        · exact ⟨r, .inl hr, hown⟩
      · rintro ⟨r, hr | ⟨rfl, -⟩, hown⟩
        · exact .inr ⟨r, hr, hown⟩
        · exact .inl rfl
    · rw [if_neg hi, hx']
      refine (holds_congr fun r hr => ?_).symm
      rw [mem_grant]
      refine or_iff_left fun hnew => hi ?_
      rw [← hr, hnew.2]
  gone i hnone item' r hr := by
    have hnone' := modifyTxn_txnMap_none.mp hnone
    rcases mem_grant.mp hr with hr | ⟨-, rfl⟩
    · exact h.gone i hnone' item' r hr
    · rintro rfl
      rw [show s.txnMap id = none from hnone'] at hlive
      cases hlive
  fresh i hi := modifyTxn_txnMap_none.mpr (h.fresh i hi)
  nodup i y hy := by
    obtain ⟨x, hx, rfl⟩ := modifyTxn_txnMap hy
    split
    · exact List.Nodup.insert (h.nodup i x hx)
    · exact h.nodup i x hx
  granted item' r hr := by
    rcases mem_grant.mp hr with hr | ⟨-, rfl⟩
    · exact h.granted item' r hr
    · rfl

/-- The requests of a transaction after its end: one less in every queue. -/
theorem Tracked.ended (h : Tracked s) {x : TxnLocks} (hx : s.txnMap id = some x)
    (htxn : t.txnMap = Function.update s.txnMap id none) (hnext : t.nextTxnId = s.nextTxnId)
    (hlocks : ∀ item, t.lockTable item =
      if item ∈ x.lockSet then (s.lockTable item).eraseP (·.txnId = id) else s.lockTable item) :
    ((∀ item, (s.lockTable item).countP (·.txnId = id) ≤ 1) → Tracked t) ∧
      ((¬∀ item, (s.lockTable item).countP (·.txnId = id) ≤ 1) → ¬LocksMatch t) := by
  have hother : ∀ item, ∀ r : LockRequest, r.txnId ≠ id → (r ∈ t.lockTable item ↔ r ∈ s.lockTable item) := by
    intro item r hr
    rw [hlocks]
    split
    · exact List.mem_eraseP_of_neg (by simpa using hr)
    · exact Iff.rfl
  have hcount : ∀ item, (t.lockTable item).countP (·.txnId = id) = (s.lockTable item).countP (·.txnId = id) - 1 := by
    intro item
    rw [hlocks]
    split
    · exact countP_eraseP _ _
    · rename_i hnot
      have hzero : (s.lockTable item).countP (·.txnId = id) = 0 := by
        rw [List.countP_eq_zero]
        intro r hr hown
        exact hnot ((h.lockSet id x hx item).mpr (holds_iff.mpr ⟨r, hr, of_decide_eq_true hown, h.granted item r hr⟩))
      omega
  constructor
  · intro hsingle
    refine ⟨⟨fun i y hy item => ?_, fun i hnone item r hr => ?_⟩, fun i hi => ?_, fun i y hy => ?_, fun item r hr => ?_⟩
    · rw [htxn, Function.update_apply] at hy
      split at hy
      · cases hy
      · rename_i hi
        rw [h.lockSet i y hy]
        exact (holds_congr fun r hr => hother item r (hr ▸ hi)).symm
    · by_cases hi : i = id
      · subst hi
        have hzero : (t.lockTable item).countP (·.txnId = i) = 0 := by
          have := hsingle item
          have := hcount item
          omega
        exact fun hown => List.countP_eq_zero.mp hzero r hr (decide_eq_true hown)
      · intro hown
        refine h.gone i ?_ item r ((hother item r (hown ▸ hi)).mp hr) hown
        rwa [htxn, Function.update_of_ne hi] at hnone
    · rw [htxn, Function.update_apply]
      split
      · rfl
      · exact h.fresh i (hnext ▸ hi)
    · rw [htxn, Function.update_apply] at hy
      split at hy
      · cases hy
      · exact h.nodup i y hy
    · refine h.granted item r ?_
      rw [hlocks] at hr
      split at hr
      · exact List.mem_of_mem_eraseP hr
      · exact hr
  · intro hdouble hmatch
    refine hdouble fun item => ?_
    have hzero : (t.lockTable item).countP (·.txnId = id) = 0 := by
      rw [List.countP_eq_zero]
      intro r hr hown
      exact hmatch.gone id (by simp [htxn]) item r hr (of_decide_eq_true hown)
    have := hcount item
    omega

theorem Tracked.dead (h : Tracked s) (hnone : s.txnMap id = none) (item : LockDataId) :
    (s.lockTable item).countP (·.txnId = id) ≤ 1 := by
  have hzero : (s.lockTable item).countP (·.txnId = id) = 0 := by
    rw [List.countP_eq_zero]
    exact fun r hr hown => h.gone id hnone item r hr (of_decide_eq_true hown)
  omega

theorem endsSingle_commit : EndsSingle s (.commit id) ↔ ∀ item, (s.lockTable item).countP (·.txnId = id) ≤ 1 := by
  simp [EndsSingle]

theorem endsSingle_abort : EndsSingle s (.abort id) ↔ ∀ item, (s.lockTable item).countP (·.txnId = id) ≤ 1 := by
  simp [EndsSingle]

theorem Tracked.step {a : LockAct} (h : Tracked s) (hstep : step s a = .ok t) (hlock : ∀ id item, a ≠ .unlock id item) :
    (EndsSingle s a → Tracked t) ∧ (¬EndsSingle s a → ¬LocksMatch t) := by
  cases a with
  | begin =>
    refine ⟨fun _ => ?_, fun hnot => absurd (by simp [EndsSingle]) hnot⟩
    simp only [LockManager.step] at hstep
    split at hstep
    · cases hstep
      exact h.begin
    · cases hstep
  | lock id c =>
    refine ⟨fun _ => ?_, fun hnot => absurd (by simp [EndsSingle]) hnot⟩
    cases hstep
    split
    · rename_i hlive
      cases hasked : s.lock id c with
      | mk u b =>
        have ha : Asked s id (u, b) := hasked ▸ asked_lock c
        cases ha with
        | held => exact h
        | refused => exact h.setState .aborted
        | granted item mode hmode hfree => exact h.grant hlive item mode
    · exact h
  | unlock id item => exact absurd rfl (hlock id item)
  | commit id =>
    cases hstep
    rw [endsSingle_commit]
    cases hx : s.txnMap id with
    | none => exact ⟨fun _ => h, fun hnot => absurd (h.dead hx) hnot⟩
    | some x => exact h.ended hx (commit_txnMap x) (unlockAll_nextTxnId x.lockSet) (unlockAll_lockTable (h.nodup id x hx))
  | abort id =>
    cases hstep
    rw [endsSingle_abort]
    cases hx : s.txnMap id with
    | none => exact ⟨fun _ => h, fun hnot => absurd (h.dead hx) hnot⟩
    | some x => exact h.ended hx (abort_txnMap x) (unlockAll_nextTxnId x.lockSet) (unlockAll_lockTable (h.nodup id x hx))

/-- In a run without calls of `unlock` by clients, the lock sets match the lock table and no request outlives its transaction
    just if no transaction ends with two requests in one queue: the end unlocks every item of the lock set once. -/
theorem locksMatch_always_iff {as : List LockAct} (h : exec step init as = .ok s)
    (hlock : ∀ a ∈ as, ∀ id item, a ≠ .unlock id item) :
    Always step LocksMatch init as ↔ Throughout step EndsSingle init as := by
  have hinit : Tracked init :=
    ⟨⟨by simp [init], fun _ _ _ _ hr => absurd hr List.not_mem_nil⟩, fun _ _ => rfl, by simp [init],
      fun _ _ hr => absurd hr List.not_mem_nil⟩
  refine always_iff_throughout (I := Tracked) ?_ (fun _ h => h.toLocksMatch) hinit
    ((throughout_of_exec h).and (throughout_of_forall hlock))
  rintro s a hs ⟨⟨t, ht⟩, hno⟩
  exact ⟨t, ht, hs.step ht hno⟩

/-- A lock on a table that is asked for twice. -/
def lockTwice : List LockAct := [.begin, .lock 0 (.isOnTable 3), .lock 0 (.isOnTable 3), .commit 0]

theorem locksMatch_always_iff_once : ∃ s : LockManager,
    exec step init [.begin, .lock 0 (.isOnTable 3), .commit 0] = .ok s ∧
    Always step LocksMatch init [.begin, .lock 0 (.isOnTable 3), .commit 0] := by
  obtain ⟨s, hs, -⟩ := exec_eval step init [.begin, .lock 0 (.isOnTable 3), .commit 0] (fun s => s.nextTxnId) (b := 1)
    (by decide)
  refine ⟨s, hs, (locksMatch_always_iff hs (by simp)).mpr ?_⟩
  refine ⟨by simp [EndsSingle], fun p hp => ?_⟩
  cases hp
  refine ⟨by simp [EndsSingle], fun p hp => ?_⟩
  cases hp
  refine ⟨endsSingle_commit.mpr fun item => ?_, fun _ _ => trivial⟩
  by_cases hitem : item = .table 3
  · subst hitem
    decide
  · simp [begin, init, lock, lockISOnTable, lockOnTable, state?, heldByOther, grant, modifyTxn, hitem]

theorem locksMatch_broken : ¬Always step LocksMatch init lockTwice := by
  obtain ⟨s, hs, hview⟩ := exec_eval step init lockTwice
    (fun s => decide (s.txnMap 0 = none ∧ (⟨0, .intentionShared, true⟩ : LockRequest) ∈ s.lockTable (.table 3))) (b := true)
    (by decide)
  obtain ⟨hnone, hmem⟩ := of_decide_eq_true hview
  intro h
  exact (h.at_end hs).gone 0 hnone _ _ hmem rfl

end LockManager
end Rmdb
