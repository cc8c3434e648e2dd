import Rmdb.Server.Session
import Mathlib.Data.List.Nodup

/-! The transactions of a session.

Between two messages the session has at most one open transaction, an explicit one. A statement outside of it runs in a
transaction of its own, which the end of the loop commits. Both go wrong where the text of a message is not taken for the
control statement that it is, where `ABORT` finds no transaction, and where the loop is left with a transaction open. -/

namespace Rmdb
namespace ClientSession
variable {L : Type} {s : ClientSession L} {txn : Option Nat} {mode mode' : Bool} {id : Nat}

/-- The transactions that were handed to `commit` or `abort`. -/
def targets (s : ClientSession L) : List (Option Nat) := s.calls.map (·.2)

/-- The transaction was ended and holds no lock. -/
def Finished (s : ClientSession L) (id : Nat) (t : SessionTxn L) : Prop := t.status ≠ .active ∧ t.lockSet = [] ∧ some id ∈ s.targets

/-- No null pointer and no transaction twice was handed to `commit` or `abort`, and every transaction has ended, up to the one that
    the session is in. -/
structure Clean (s : ClientSession L) : Prop where
  not_null : none ∉ s.targets
  once : s.targets.Nodup
  begun : ∀ id, some id ∈ s.targets → (s.txns id).isSome
  ended : ∀ id t, s.txns id = some t → s.status ≠ .closed ∧ s.txnId = some id ∨ s.Finished id t

/-- The state while a message is handled, with the transaction in the context. -/
structure Within (s : ClientSession L) (txn : Option Nat) (mode : Bool) : Prop where
  running : s.status = .running
  fresh : ∀ id, s.nextTxnId ≤ id → s.txns id = none
  txnId : s.txnId = txn
  not_null : none ∉ s.targets
  once : s.targets.Nodup
  begun : ∀ id, some id ∈ s.targets → (s.txns id).isSome
  current : ∀ id, txn = some id → ∃ t, s.txns id = some t ∧ t.txnMode = mode ∧ t.status = .active ∧ some id ∉ s.targets
  ended : ∀ id t, s.txns id = some t → txn = some id ∨ s.Finished id t

/-- The state between two messages: an open transaction is an explicit one. -/
def Between (s : ClientSession L) : Prop := s.Within s.txnId true ∨ s.status ≠ .running ∧ s.Clean

theorem Within.clean (h : s.Within txn mode) : s.Clean where
  not_null := h.not_null
  once := h.once
  begun := h.begun
  ended id t ht := by
    rcases h.ended id t ht with hcur | hfin
    · refine Or.inl ⟨?_, h.txnId.trans hcur⟩
      rw [h.running]
      decide
    · exact Or.inr hfin

theorem Between.clean (h : s.Between) : s.Clean := by
  rcases h with h | h
  · exact h.clean
  · exact h.2

theorem between_init : (init : ClientSession L).Between :=
  Or.inl ⟨rfl, fun _ _ => rfl, rfl, by simp [targets, init], List.nodup_nil, by simp [targets, init], by simp [init], by simp [init]⟩

/-! ### Beginning and ending a transaction -/

theorem Within.of_none (h : s.Within none mode) : s.Within none mode' :=
  { h with current := fun _ hid => by cases hid }

theorem Within.begin (h : s.Within none mode) (mode' : Bool) : (s.begin mode').Within (some s.nextTxnId) mode' where
  running := h.running
  fresh id hid := by
    have hne : id ≠ s.nextTxnId := Nat.ne_of_gt hid
    rw [ClientSession.begin]
    simp only [Function.update_of_ne hne]
    exact h.fresh id (Nat.le_of_succ_le hid)
  txnId := rfl
  not_null := h.not_null
  once := h.once
  begun id hid := by
    have hsome := h.begun id hid
    by_cases hne : id = s.nextTxnId
    · simp [ClientSession.begin, hne]
    · simpa [ClientSession.begin, hne] using hsome
  current id hid := by
    obtain rfl := Option.some.inj hid
    refine ⟨⟨mode', .active, []⟩, by simp [ClientSession.begin], rfl, rfl, fun hmem => ?_⟩
    have hsome := h.begun s.nextTxnId hmem
    rw [h.fresh s.nextTxnId (Nat.le_refl _)] at hsome
    cases hsome
  ended id t ht := by
    by_cases hne : id = s.nextTxnId
    · exact Or.inl (congrArg some hne.symm)
    · have ht : s.txns id = some t := by simpa [ClientSession.begin, hne] using ht
      rcases h.ended id t ht with hid | hfin
      · cases hid
      · exact Or.inr hfin

theorem targets_endTxn (call : EndCall) (txn : Option Nat) : (s.endTxn call txn).targets = s.targets ++ [txn] := by
  cases txn <;> simp [endTxn, targets]

theorem txns_endTxn_ne (call : EndCall) {i : Nat} (h : i ≠ id) : (s.endTxn call (some id)).txns i = s.txns i := by
  simp [endTxn, h]

theorem Within.endCurrent (h : s.Within (some id) mode) (call : EndCall) :
    (s.endCurrent call (some id)).Within none mode' := by
  obtain ⟨t, ht, -, -, hnot⟩ := h.current id rfl
  have htargets : (s.endCurrent call (some id)).targets = s.targets ++ [some id] :=
    targets_endTxn call (some id)
  refine ⟨h.running, fun i hi => ?_, rfl, ?_, ?_, fun i hi => ?_, fun i hi => (by cases hi), fun i u hu => ?_⟩
  · have hnone := h.fresh i hi
    have hne : i ≠ id := by
      rintro rfl
      rw [hnone] at ht
      cases ht
    exact (txns_endTxn_ne call hne).trans hnone
  · rw [htargets]
    simpa using h.not_null
  · rw [htargets, List.nodup_append]
    refine ⟨h.once, by simp, fun a ha b hb heq => hnot ?_⟩
    rw [← List.mem_singleton.mp hb, ← heq]
    exact ha
  · by_cases hne : i = id
    · subst hne
      simp [ClientSession.endCurrent, ClientSession.endTxn, ht]
    · rw [htargets] at hi
      have hsome := h.begun i (by simpa [hne] using hi)
      rw [← txns_endTxn_ne call hne] at hsome
      exact hsome
  · refine Or.inr ?_
    by_cases hne : i = id
    · subst hne
      have hself : (s.endTxn call (some i)).txns i = some { t with status := call.status, lockSet := [] } := by
        simp [ClientSession.endTxn, ht]
      obtain rfl := Option.some.inj (hself.symm.trans hu)
      refine ⟨?_, rfl, ?_⟩
      · cases call <;> simp [EndCall.status]
      · rw [htargets]
        simp
    · have hu : s.txns i = some u := (txns_endTxn_ne call hne).symm.trans hu
      rcases h.ended i u hu with hid | ⟨hstatus, hlocks, hmem⟩
      · exact absurd (Option.some.inj hid).symm hne
      · refine ⟨hstatus, hlocks, ?_⟩
        rw [htargets]
        exact List.mem_append_left _ hmem

theorem Within.lock (h : s.Within txn mode) (locks : List L) : (s.lock txn locks).Within txn mode := by
  cases txn with
  | none => exact h
  | some id =>
    obtain ⟨t, ht, hmode, hstatus, hnot⟩ := h.current id rfl
    have hne : ∀ i, i ≠ id → (s.lock (some id) locks).txns i = s.txns i := fun i hi => by simp [ClientSession.lock, hi]
    have hself : (s.lock (some id) locks).txns id = some { t with lockSet := t.lockSet ++ locks } := by simp [ClientSession.lock, ht]
    refine ⟨h.running, fun i hi => ?_, h.txnId, h.not_null, h.once, fun i hi => ?_, fun i hi => ?_, fun i u hu => ?_⟩
    · have hnone := h.fresh i hi
      have hid : i ≠ id := by
        rintro rfl
        rw [hnone] at ht
        cases ht
      exact (hne i hid).trans hnone
    · by_cases hid : i = id
      · rw [hid, hself]
        rfl
      · rw [hne i hid]
        exact h.begun i hi
    · obtain rfl := Option.some.inj hi
      exact ⟨_, hself, hmode, hstatus, hnot⟩
    · by_cases hid : i = id
      · exact Or.inl (congrArg some hid.symm)
      · exact h.ended i u ((hne i hid).symm.trans hu)

/-! ### A message -/

theorem Within.getTransaction (h : s.Within (some id) mode) : s.getTransaction id = some id := by
  obtain ⟨t, ht, -, hstatus, -⟩ := h.current id rfl
  rw [ClientSession.getTransaction, ht]
  exact if_pos hstatus

theorem Within.txnMode (h : s.Within (some id) mode) : s.txnMode id = mode := by
  obtain ⟨t, ht, hmode, -, -⟩ := h.current id rfl
  rw [ClientSession.txnMode, ht]
  exact hmode

/-- The end of the loop, from the answer on. -/
def finish (s : ClientSession L) (txn : Option Nat) (sent : Bool) : ClientSession L :=
  if s.status ≠ .running then s else if sent then s.autoCommit txn else { s with status := .closed }

theorem Within.finish (h : s.Within txn mode) {sent : Bool} (hsent : sent ∨ txn = none) : (s.finish txn sent).Between := by
  rw [ClientSession.finish, if_neg (not_not_intro h.running)]
  cases sent with
  | true =>
    rw [if_pos rfl]
    cases txn with
    | none =>
      refine Or.inl ?_
      rw [autoCommit, h.txnId]
      exact h.of_none
    | some id =>
      rw [autoCommit, h.txnMode]
      cases mode with
      | true =>
        refine Or.inl ?_
        rw [if_pos rfl, h.txnId]
        exact h
      | false =>
        rw [if_neg (by decide)]
        exact Or.inl (h.endCurrent .commit)
  | false =>
    rcases hsent with hsent | rfl
    · cases hsent
    · refine Or.inr ⟨by simp, h.not_null, h.once, h.begun, fun id t ht => ?_⟩
      rcases h.ended id t ht with hid | hfin
      · cases hid
      · exact Or.inr hfin

theorem not_clean_of_active {t : SessionTxn L} (ht : s.txns id = some t) (hstatus : t.status = .active)
    (hleft : s.status = .closed ∨ s.txnId ≠ some id) : ¬s.Clean := by
  intro h
  rcases h.ended id t ht with ⟨hopen, hid⟩ | hfin
  · rcases hleft with hclosed | hne
    · exact hopen hclosed
    · exact hne hid
  · exact hfin.1 hstatus

theorem Within.not_sent (h : s.Within (some id) mode) : ¬(s.finish (some id) false).Clean := by
  obtain ⟨t, ht, -, hstatus, -⟩ := h.current id rfl
  rw [ClientSession.finish, if_neg (not_not_intro h.running), if_neg (by decide)]
  exact not_clean_of_active (s := { s with status := .closed }) ht hstatus (Or.inl rfl)

theorem handle_eq (parse : List Char → Parsed) (s : ClientSession L) (m : Message L) : s.handle parse m =
    let p := s.context m.text
    let q := p.1.execute (parse m.text) m.outcome m.locks p.2
    q.1.finish q.2 m.sent := rfl

theorem context_cases (h : s.Within s.txnId true) (text : List Char) :
    (∃ id, s.txnId = some id ∧ s.context text = (s, some id)) ∨
      s.txnId = none ∧ isTransactionControlStatement text ∧ s.context text = (s, none) ∨
      s.txnId = none ∧ ¬isTransactionControlStatement text ∧ s.context text = (s.begin false, some s.nextTxnId) := by
  cases hid : s.txnId with
  | none =>
    by_cases htext : isTransactionControlStatement text
    · exact Or.inr (Or.inl ⟨rfl, htext, by rw [context, if_pos htext, hid]; rfl⟩)
    · exact Or.inr (Or.inr ⟨rfl, htext, by rw [context, if_neg htext, setTransaction, hid]; rfl⟩)
  | some id =>
    rw [hid] at h
    refine Or.inl ⟨id, rfl, ?_⟩
    rw [context, setTransaction, hid, Option.bind_some, h.getTransaction]
    split <;> rfl

/-- When a message leaves the transactions in order. -/
def MessageMeets (parse : List Char → Parsed) (s : ClientSession L) (m : Message L) : Prop :=
  match parse m.text with
  | .txnBegin => (isTransactionControlStatement m.text ∨ s.txnId.isSome) ∧ m.sent
  | .txnAbort => s.txnId.isSome ∨ ¬isTransactionControlStatement m.text ∧ ¬m.sent
  | .txnCommit | .txnRollback => True
  | .syntaxError | .noTree | .setOutputFile => m.sent ∨ isTransactionControlStatement m.text ∧ s.txnId = none
  | .statement => m.sent ∨ m.outcome = .transactionAbort ∨ isTransactionControlStatement m.text ∧ s.txnId = none

/-- The event leaves the transactions in order. -/
def Meets (parse : List Char → Parsed) (s : ClientSession L) (a : SessionEvent L) : Prop :=
  s.status = .running → match a with
    | .message m =>
      if m.text = "exit".toList then s.txnId = none
      else if m.text = "crash".toList then True
      else s.MessageMeets parse m
    | .disconnect => s.txnId = none
    | .others _ => True

section
variable {parse : List Char → Parsed} {m : Message L}

/-- `BEGIN` in another spelling: the transaction that `SetTransaction` began is lost. -/
theorem Within.begin_lost (h : s.Within (some id) false) (sent : Bool) : ¬((s.begin true).finish (some s.nextTxnId) sent).Clean := by
  obtain ⟨t, ht, -, hstatus, -⟩ := h.current id rfl
  have hne : id ≠ s.nextTxnId := by
    rintro rfl
    rw [h.fresh _ (Nat.le_refl _)] at ht
    cases ht
  have ht' : (s.begin true).txns id = some t := by simpa [ClientSession.begin, hne] using ht
  have hid : (s.begin true).txnId ≠ some id := fun heq => hne (Option.some.inj heq).symm
  have hmode : (s.begin true).txnMode s.nextTxnId = true := by simp [ClientSession.txnMode, ClientSession.begin]
  have hrunning : (s.begin true).status = .running := h.running
  rw [ClientSession.finish, if_neg (not_not_intro hrunning)]
  cases sent with
  | true =>
    rw [if_pos rfl, autoCommit, hmode, if_pos rfl]
    exact not_clean_of_active ht' hstatus (Or.inr hid)
  | false =>
    rw [if_neg (by decide)]
    exact not_clean_of_active (s := { s.begin true with status := .closed }) ht' hstatus (Or.inl rfl)

theorem Within.aborted_twice (h : s.Within (some id) false) :
    ¬((s.endCurrent .abort (some id)).finish (some id) true).Clean := by
  obtain ⟨t, ht, hmode, -, -⟩ := h.current id rfl
  have hends : (s.endCurrent .abort (some id)).Within none false := h.endCurrent .abort
  have hmode' : (s.endCurrent .abort (some id)).txnMode id = false := by
    simp [ClientSession.txnMode, ClientSession.endCurrent, ClientSession.endTxn, ht, hmode]
  rw [ClientSession.finish, if_neg (not_not_intro hends.running), if_pos rfl, autoCommit, hmode', if_neg (by decide)]
  intro hclean
  have honce := hclean.once
  have htargets : ((s.endCurrent .abort (some id)).endCurrent .commit (some id)).targets = s.targets ++ [some id] ++ [some id] := by
    simp [targets, ClientSession.endCurrent, ClientSession.endTxn]
  rw [htargets, List.nodup_append] at honce
  exact honce.2.2 (some id) (by simp) (some id) (by simp) rfl

theorem Within.aborted_unsent (h : s.Within (some id) mode) : ((s.endCurrent .abort (some id)).finish (some id) false).Between := by
  have hends : (s.endCurrent .abort (some id)).Within none true := h.endCurrent .abort
  have hfinish : ((s.endCurrent .abort (some id)).finish none false).Between := hends.finish (Or.inr rfl)
  exact hfinish

/-- `ABORT` ends an explicit transaction. -/
theorem Within.aborted (h : s.Within (some id) true) (sent : Bool) :
    ((s.endCurrent .abort (some id)).finish (some id) sent).Between := by
  obtain ⟨t, ht, hmode, -, -⟩ := h.current id rfl
  have hends : (s.endCurrent .abort (some id)).Within none true := h.endCurrent .abort
  have hmode' : (s.endCurrent .abort (some id)).txnMode id = true := by
    simp [ClientSession.txnMode, ClientSession.endCurrent, ClientSession.endTxn, ht, hmode]
  cases sent with
  | true =>
    rw [ClientSession.finish, if_neg (not_not_intro hends.running), if_pos rfl, autoCommit, hmode', if_pos rfl]
    exact Or.inl hends
  | false => exact h.aborted_unsent

theorem Within.answer (h : s.Within txn mode) (sent : Bool) :
    ((sent ∨ txn = none) → (s.finish txn sent).Between) ∧ (¬(sent ∨ txn = none) → ¬(s.finish txn sent).Clean) := by
  refine ⟨h.finish, fun hnot => ?_⟩
  cases txn with
  | none => exact absurd (Or.inr rfl) hnot
  | some id =>
    cases sent with
    | true => exact absurd (Or.inl rfl) hnot
    | false => exact h.not_sent

theorem Within.ended_by (h : s.Within txn mode) (call : EndCall) (sent : Bool) :
    ((if s.txnId.isSome ∧ txn.isSome then (s.endCurrent call txn, none) else (s, txn) : ClientSession L × Option Nat).1.finish
      (if s.txnId.isSome ∧ txn.isSome then (s.endCurrent call txn, none) else (s, txn) : ClientSession L × Option Nat).2 sent).Between := by
  cases txn with
  | none =>
    rw [if_neg fun hsome => (by cases hsome.2)]
    exact h.finish (Or.inr rfl)
  | some id =>
    have hends : (s.endCurrent call (some id)).Within none mode := h.endCurrent call
    rw [if_pos ⟨by rw [h.txnId]; rfl, rfl⟩]
    exact hends.finish (Or.inr rfl)

/-- A statement in the transaction of the context. -/
theorem Within.statement (h : s.Within txn mode) (m : Message L) :
    ((m.sent ∨ m.outcome = .transactionAbort ∨ txn = none) →
        ((s.execute .statement m.outcome m.locks txn).1.finish (s.execute .statement m.outcome m.locks txn).2 m.sent).Between) ∧
      (¬(m.sent ∨ m.outcome = .transactionAbort ∨ txn = none) →
        ¬((s.execute .statement m.outcome m.locks txn).1.finish (s.execute .statement m.outcome m.locks txn).2 m.sent).Clean) := by
  have hlock := h.lock m.locks
  have hanswer := hlock.answer m.sent
  cases hout : m.outcome with
  | done => exact ⟨fun hmeets => hanswer.1 (by simpa using hmeets), fun hnot => hanswer.2 (by simpa using hnot)⟩
  | rmdbError => exact ⟨fun hmeets => hanswer.1 (by simpa using hmeets), fun hnot => hanswer.2 (by simpa using hnot)⟩
  | transactionAbort =>
    refine ⟨fun _ => ?_, fun hnot => absurd (Or.inr (Or.inl rfl)) hnot⟩
    cases txn with
    | none =>
      have hends : ({ s with txnId := none } : ClientSession L).Within none mode := { h with txnId := rfl }
      exact hends.finish (Or.inr rfl)
    | some id =>
      have hends : ((s.lock (some id) m.locks).endCurrent .abort (some id)).Within none mode := hlock.endCurrent .abort
      exact hends.finish (Or.inr rfl)

theorem Within.begin_explicit (h : s.Within txn true) (m : Message L) :
    (m.sent → ((s.execute .txnBegin m.outcome m.locks txn).1.finish (s.execute .txnBegin m.outcome m.locks txn).2 m.sent).Between) ∧
      (¬m.sent → ¬((s.execute .txnBegin m.outcome m.locks txn).1.finish (s.execute .txnBegin m.outcome m.locks txn).2 m.sent).Clean) := by
  have hbegin : ∃ u : ClientSession L, s.execute .txnBegin m.outcome m.locks txn = (u.begin true, some u.nextTxnId) ∧
      (u.begin true).Within (some u.nextTxnId) true := by
    cases txn with
    | none => exact ⟨s, rfl, h.begin true⟩
    | some id =>
      have hmode : s.txnMode id = true := h.txnMode
      have hends : (s.endCurrent .commit (some id)).Within none true := h.endCurrent .commit
      refine ⟨s.endTxn .commit (some id), ?_, hends.begin true⟩
      simp [execute, hmode]
  obtain ⟨u, heq, hu⟩ := hbegin
  rw [heq]
  have hanswer := hu.answer m.sent
  exact ⟨fun hsent => hanswer.1 (Or.inl hsent), fun hnot => hanswer.2 (by simpa using hnot)⟩

theorem Within.handle (h : s.Within s.txnId true) (parse : List Char → Parsed) (m : Message L) :
    (s.MessageMeets parse m → (s.handle parse m).Between) ∧ (¬s.MessageMeets parse m → ¬(s.handle parse m).Clean) := by
  rw [handle_eq]
  rcases context_cases h m.text with ⟨id, hid, hctx⟩ | ⟨hid, htext, hctx⟩ | ⟨hid, htext, hctx⟩
  · -- in an explicit transaction
    have hw : s.Within (some id) true := hid ▸ h
    simp only [hctx, MessageMeets]
    cases parse m.text with
    | syntaxError => simpa [hid, execute] using hw.answer m.sent
    | noTree => simpa [hid, execute] using hw.answer m.sent
    | setOutputFile => simpa [hid, execute] using hw.answer m.sent
    | txnBegin => simpa [hid] using hw.begin_explicit m
    | txnCommit => exact ⟨fun _ => hw.ended_by .commit m.sent, fun hnot => absurd trivial hnot⟩
    | txnRollback => exact ⟨fun _ => hw.ended_by .abort m.sent, fun hnot => absurd trivial hnot⟩
    | txnAbort =>
      refine ⟨fun _ => ?_, fun hnot => absurd (Or.inl (by rw [hid]; rfl)) hnot⟩
      simp only [execute, hid, Option.bind_some, hw.getTransaction]
      exact hw.aborted m.sent
    | statement => simpa [hid] using hw.statement m
  · -- a control statement outside of a transaction
    have hw : s.Within none true := hid ▸ h
    simp only [hctx, MessageMeets]
    cases parse m.text with
    | syntaxError => simpa [hid, htext, execute] using (hw.answer m.sent).1
    | noTree => simpa [hid, htext, execute] using (hw.answer m.sent).1
    | setOutputFile => simpa [hid, htext, execute] using (hw.answer m.sent).1
    | txnBegin => simpa [hid, htext] using hw.begin_explicit m
    | txnCommit => exact ⟨fun _ => hw.ended_by .commit m.sent, fun hnot => absurd trivial hnot⟩
    | txnRollback => exact ⟨fun _ => hw.ended_by .abort m.sent, fun hnot => absurd trivial hnot⟩
    | txnAbort =>
      refine ⟨fun hmeets => ?_, fun _ hclean => ?_⟩
      · simp [hid, htext] at hmeets
      · -- a null pointer is aborted
        have hnull : none ∈ ((s.endCurrent .abort none).finish none m.sent).targets := by
          have hstatus : (s.endCurrent .abort none).status = .exited := rfl
          rw [ClientSession.finish, hstatus, if_pos (by decide)]
          simp [targets, ClientSession.endCurrent, endTxn]
        refine hclean.not_null ?_
        simpa only [execute, hid, Option.bind_none] using hnull
    | statement => simpa [hid, htext] using (hw.statement m).1
  · -- a statement outside of a transaction, or a control statement that is not taken for one
    have hw : (s.begin false).Within (some s.nextTxnId) false := (show s.Within none true from hid ▸ h).begin false
    simp only [hctx, MessageMeets]
    cases parse m.text with
    | syntaxError => simpa [hid, htext, execute] using hw.answer m.sent
    | noTree => simpa [hid, htext, execute] using hw.answer m.sent
    | setOutputFile => simpa [hid, htext, execute] using hw.answer m.sent
    | txnBegin =>
      refine ⟨fun hmeets => ?_, fun _ => ?_⟩
      · simp [hid, htext] at hmeets
      · have hmode : (s.begin false).txnMode s.nextTxnId = false := hw.txnMode
        have hlost := hw.begin_lost m.sent
        simpa [execute, hmode] using hlost
    | txnCommit => exact ⟨fun _ => hw.ended_by .commit m.sent, fun hnot => absurd trivial hnot⟩
    | txnRollback => exact ⟨fun _ => hw.ended_by .abort m.sent, fun hnot => absurd trivial hnot⟩
    | txnAbort =>
      simp only [execute, hw.txnId, Option.bind_some, hw.getTransaction]
      cases hsent : m.sent with
      | true => exact ⟨fun hmeets => (by simp [hid, htext] at hmeets), fun _ => hw.aborted_twice⟩
      | false => exact ⟨fun _ => hw.aborted_unsent, fun hnot => absurd (Or.inr ⟨htext, by simp⟩) hnot⟩
    | statement => simpa [hid, htext] using hw.statement m

/-- An event keeps the transactions in order if and only if it meets the condition. -/
theorem Between.step (h : s.Between) (parse : List Char → Parsed) (a : SessionEvent L) :
    ∃ t, s.step parse a = .ok t ∧ (s.Meets parse a → t.Between) ∧ (¬s.Meets parse a → ¬t.Clean) := by
  by_cases hrunning : s.status = .running
  · rcases h with h | h
    · have hclose : (s.txnId = none → ({ s with status := .closed } : ClientSession L).Between) ∧
          (s.txnId ≠ none → ¬({ s with status := .closed } : ClientSession L).Clean) := by
        have hanswer := h.answer false
        rw [ClientSession.finish, if_neg (not_not_intro hrunning), if_neg (by decide)] at hanswer
        simpa using hanswer
      refine ⟨_, if_neg (not_not_intro hrunning), ?_⟩
      cases a with
      | message m =>
        simp only [Meets, hrunning, true_implies]
        split
        · exact hclose
        · split
          · refine ⟨fun _ => Or.inr ⟨by simp, { h.clean with ended := fun id t ht => ?_ }⟩, fun hnot => absurd trivial hnot⟩
            rcases h.clean.ended id t ht with ⟨-, hid⟩ | hfin
            · exact Or.inl ⟨by simp, hid⟩
            · exact Or.inr hfin
          · exact h.handle parse m
      | disconnect => simpa [Meets, hrunning] using hclose
      | others n =>
        refine ⟨fun _ => Or.inl { h with fresh := fun id hid => h.fresh id (Nat.le_of_add_right_le hid) }, fun hnot => ?_⟩
        exact absurd (fun _ => trivial) hnot
    · exact absurd hrunning h.1
  · refine ⟨s, if_pos hrunning, fun _ => h, fun hnot => absurd (fun heq => absurd heq hrunning) hnot⟩

/-- In every session, whatever the clients send, the transactions are in order in every state if and only if every event meets
the condition. -/
theorem clean_always_iff (parse : List Char → Parsed) (as : List (SessionEvent L)) :
    Runs.Always (step parse) Clean (init : ClientSession L) as ↔ Runs.Throughout (step parse) (Meets parse) (init : ClientSession L) as :=
  Runs.always_iff_throughout (D := fun _ _ => True) (fun _ a h _ => Between.step h parse a) (fun _ h => Between.clean h) between_init
    (Runs.throughout_of_forall fun _ _ => trivial)

end

end ClientSession

/-- A parser that knows `BEGIN` with blanks around it, and nothing else. -/
def parseBegin (text : List Char) : Parsed :=
  if (text.filter (· ≠ ' ')).map Char.toUpper = "BEGIN;".toList then .txnBegin else .syntaxError

theorem not_clean_beginSpaced : ¬∀ as : List (SessionEvent Unit),
    Runs.Always (ClientSession.step parseBegin) ClientSession.Clean ClientSession.init as := by
  intro h
  obtain ⟨-, t, hstep, hclean⟩ := h [.message ⟨"BEGIN ;".toList, .done, [], true⟩]
  obtain ⟨u, hu, -, hnot⟩ := ClientSession.between_init.step parseBegin (.message ⟨"BEGIN ;".toList, .done, ([] : List Unit), true⟩)
  obtain rfl : t = u := Except.ok.inj (hstep.symm.trans hu)
  refine hnot (fun hmeets => ?_) hclean
  have hmessage : ClientSession.MessageMeets parseBegin ClientSession.init ⟨"BEGIN ;".toList, .done, ([] : List Unit), true⟩ := hmeets rfl
  have hparse : parseBegin "BEGIN ;".toList = .txnBegin := by decide
  rw [ClientSession.MessageMeets, hparse] at hmessage
  exact absurd hmessage.1 (by decide)

end Rmdb
