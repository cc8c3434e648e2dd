import Rmdb.Txn.MvccManager
import Mathlib.Data.List.Basic

/-! The order of the versions of a row.

The versions that are not committed are on top of the chain and belong to one transaction; a transaction that finds another's
version on top is refused. `commit` stamps them with a timestamp that is later than those of all committed versions, and
the version that was on top of these expires then. -/

namespace Rmdb
open VersionChain

/-- The version is not committed. -/
def TupleVersion.Pending (v : TupleVersion) : Prop := v.createTs = invalidTimestamp

instance : DecidablePred TupleVersion.Pending := fun v => inferInstanceAs (Decidable (v.createTs = invalidTimestamp))

/-- The uncommitted versions of a chain are those of one transaction and on top, the committed ones are below in the order of
    their timestamps, and one of these that has expired did so when the version above it was committed. -/
def VersionsOrdered (chain : VersionChain) : Prop :=
  (∃ id us cs, chain = us ++ cs ∧ (∀ u ∈ us, u.Pending ∧ u.txnId = id) ∧ (∀ c ∈ cs, ¬c.Pending) ∧
    cs.Pairwise fun a b => b.createTs ≤ a.createTs) ∧
  ∀ pre c post, chain = pre ++ c :: post → ¬c.Pending → c.expireTs < intMax → ∃ a, pre.getLast? = some a ∧ c.expireTs = a.createTs

/-! ### The invariant of a chain -/

/-- Each version has not expired, or did when the one above it was created. -/
def Expired : Option Int → VersionChain → Prop
  | _, [] => True
  | above, v :: vs => (v.expireTs = intMax ∨ above = some v.expireTs) ∧ Expired (some v.createTs) vs

/-- Uncommitted versions of a transaction. -/
def AllPending (id : Int) (us : VersionChain) : Prop := ∀ u ∈ us, u.Pending ∧ u.txnId = id ∧ u.expireTs = intMax

/-- Committed versions, from before the next timestamp `now`. -/
structure Settled (now : Int) (cs : VersionChain) : Prop where
  committed : ∀ c ∈ cs, 0 ≤ c.createTs ∧ c.createTs < now
  ordered : cs.Pairwise fun a b => b.createTs ≤ a.createTs
  expired : Expired none cs

def ChainInv (now : Int) (chain : VersionChain) : Prop := ∃ id us cs, chain = us ++ cs ∧ AllPending id us ∧ Settled now cs

section
variable {now id : Int} {chain us cs : VersionChain} {v : TupleVersion}

theorem Settled.not_pending (h : Settled now cs) : ∀ c ∈ cs, ¬c.Pending := by
  intro c hc hp
  have hnonneg := (h.committed c hc).1
  rw [hp] at hnonneg
  exact absurd hnonneg (by decide)

theorem expired_split {above : Option Int} {pre post : VersionChain} (h : Expired above (pre ++ v :: post)) :
    v.expireTs = intMax ∨ (pre = [] ∧ above = some v.expireTs) ∨ ∃ a, pre.getLast? = some a ∧ v.expireTs = a.createTs := by
  induction pre generalizing above with
  | nil =>
    rcases h.1 with hmax | habove
    · exact Or.inl hmax
    · exact Or.inr (Or.inl ⟨rfl, habove⟩)
  | cons u pre ih =>
    rcases ih h.2 with hmax | ⟨hnil, hu⟩ | ⟨a, ha, heq⟩
    · exact Or.inl hmax
    · subst hnil
      exact Or.inr (Or.inr ⟨u, rfl, (Option.some.inj hu).symm⟩)
    · refine Or.inr (Or.inr ⟨a, ?_, heq⟩)
      rw [List.getLast?_cons, ha]
      rfl

theorem ChainInv.versionsOrdered (h : ChainInv now chain) : VersionsOrdered chain := by
  obtain ⟨id, us, cs, rfl, hus, hcs⟩ := h
  refine ⟨⟨id, us, cs, rfl, fun u hu => ⟨(hus u hu).1, (hus u hu).2.1⟩, hcs.not_pending, hcs.ordered⟩, ?_⟩
  intro pre c post hsplit hc hexp
  rcases List.append_eq_append_iff.mp hsplit with ⟨pre', rfl, hcs'⟩ | ⟨us', hus', hcs'⟩
  · rw [hcs'] at hcs
    rcases expired_split hcs.expired with hmax | ⟨-, hnone⟩ | ⟨a, ha, heq⟩
    · omega
    · cases hnone
    · refine ⟨a, ?_, heq⟩
      rw [List.getLast?_append, ha]
      rfl
  · -- the version is one of the uncommitted ones, or the first committed one
    cases us' with
    | nil =>
      rw [List.nil_append] at hcs'
      rw [← hcs'] at hcs
      rcases hcs.expired.1 with hmax | hnone
      · omega
      · cases hnone
    | cons u us' =>
      obtain ⟨rfl, -⟩ := List.cons.inj hcs'
      exact absurd (hus c (by rw [hus']; simp)).1 hc

theorem chainInv_nil (now : Int) : ChainInv now [] :=
  ⟨0, [], [], rfl, fun _ hu => (by cases hu), fun _ hc => (by cases hc), .nil, trivial⟩

theorem ChainInv.mono (h : ChainInv now chain) : ChainInv (now + 1) chain := by
  obtain ⟨id, us, cs, rfl, hus, hcs⟩ := h
  refine ⟨id, us, cs, rfl, hus, fun c hc => ?_, hcs.ordered, hcs.expired⟩
  have := hcs.committed c hc
  omega

/-! ### Writes -/

/-- A transaction that finds no other's version on top puts one of its own there. -/
theorem ChainInv.push (h : ChainInv now chain) (hfree : chain.conflicts id = false) (data : Bytes) (isDeleted : Bool) :
    ChainInv now (.new data id isDeleted :: chain) := by
  obtain ⟨id', us, cs, rfl, hus, hcs⟩ := h
  have hown : ∀ u ∈ us, u.txnId = id := by
    cases us with
    | nil => exact fun u hu => by cases hu
    | cons w us =>
      have hw := hus w List.mem_cons_self
      have hid : id' = id := by
        rw [← hw.2.1]
        by_contra hne
        have hp : w.createTs = invalidTimestamp := hw.1
        simp [conflicts, hne, hp] at hfree
      intro u hu
      rw [(hus u hu).2.1, hid]
  refine ⟨id, .new data id isDeleted :: us, cs, rfl, fun u hu => ?_, hcs⟩
  rcases List.mem_cons.mp hu with rfl | hu
  · exact ⟨rfl, rfl, rfl⟩
  · exact ⟨(hus u hu).1, hown u hu, (hus u hu).2.2⟩

/-- The uncommitted version on top gets other data. -/
theorem ChainInv.overwrite (h : ChainInv now (v :: chain)) (hv : v.Pending) (data : Bytes) (isDeleted : Bool) :
    ChainInv now ({ v with data := data, isDeleted := isDeleted } :: chain) := by
  obtain ⟨id', us, cs, hsplit, hus, hcs⟩ := h
  cases us with
  | nil =>
    rw [List.nil_append] at hsplit
    exact absurd hv (hcs.not_pending v (by rw [← hsplit]; exact List.mem_cons_self))
  | cons w us =>
    obtain ⟨rfl, rfl⟩ := List.cons.inj hsplit
    refine ⟨id', { v with data := data, isDeleted := isDeleted } :: us, cs, rfl, fun u hu => ?_, hcs⟩
    rcases List.mem_cons.mp hu with rfl | hu
    · exact hus v List.mem_cons_self
    · exact hus u (List.mem_cons_of_mem v hu)

theorem ChainInv.insertVersion (h : ChainInv now chain) {data : Bytes} {c : VersionChain} (hc : chain.insertVersion data id = some c) :
    ChainInv now c := by
  cases chain with
  | nil =>
    cases hc
    exact h.push rfl data false
  | cons v vs =>
    rw [VersionChain.insertVersion] at hc
    split at hc
    · next hown =>
      split at hc
      · cases hc
        exact h.overwrite hown.2 data false
      · cases hc
    · split at hc
      · cases hc
      · next hother =>
        cases hc
        refine h.push ?_ data false
        simpa [conflicts] using hother

theorem ChainInv.updateVersion (h : ChainInv now chain) {data : Bytes} {readTs : Int} {c : VersionChain}
    (hc : chain.updateVersion data id readTs = some c) : ChainInv now c := by
  unfold VersionChain.updateVersion at hc
  split at hc
  · cases hc
  · next hfree =>
    have hfree : chain.conflicts id = false := Bool.eq_false_iff.mpr hfree
    cases chain with
    | nil =>
      cases hc
      exact h.push rfl data false
    | cons v vs =>
      simp only at hc
      split at hc
      · next hown =>
        split at hc
        · cases hc
        · cases hc
          exact h.overwrite hown.2 data v.isDeleted
      · split at hc
        · cases hc
        · split at hc
          · cases hc
          · cases hc
            exact h.push hfree data false

theorem ChainInv.deleteVersion (h : ChainInv now chain) {readTs : Int} {c : VersionChain}
    (hc : chain.deleteVersion id readTs = some c) : ChainInv now c := by
  rw [VersionChain.deleteVersion] at hc
  split at hc
  · cases hc
  · next hfree =>
    have hfree : chain.conflicts id = false := Bool.eq_false_iff.mpr hfree
    split at hc
    · cases hc
    · next v _ =>
      split at hc
      · cases hc
      · split at hc
        · cases hc
        · cases hc
          exact h.push hfree v.data true

theorem chainInv_initial (hnow : 0 < now) (data : Bytes) : ChainInv now [initialVersion data] := by
  refine ⟨0, [], [initialVersion data], rfl, fun _ hu => (by cases hu), fun c hc => ?_, List.pairwise_singleton _ _, Or.inl rfl, trivial⟩
  rw [List.mem_singleton] at hc
  subst hc
  exact ⟨Int.le_refl 0, hnow⟩

/-! ### The end of a transaction -/

/-- Nothing is stamped in versions that are not the transaction's uncommitted ones. -/
theorem commitLoop_other {commitTs : Int} (h : ∀ v ∈ chain, ¬(v.txnId = id ∧ v.createTs = invalidTimestamp)) :
    commitLoop id commitTs false chain = chain := by
  induction chain with
  | nil => rfl
  | cons v vs ih =>
    obtain ⟨hv, hvs⟩ := List.forall_mem_cons.mp h
    simp [commitLoop, hv, ih hvs]

/-- The first committed version below stamped ones expires. -/
theorem commitLoop_settled (id commitTs : Int) (hcs : Settled now cs) :
    (commitLoop id commitTs true cs).map (·.createTs) = cs.map (·.createTs) ∧ Expired (some commitTs) (commitLoop id commitTs true cs) := by
  cases cs with
  | nil => exact ⟨rfl, trivial⟩
  | cons c cs =>
    obtain ⟨hc, hrest⟩ := List.forall_mem_cons.mp hcs.not_pending
    have hmax : c.expireTs = intMax := by
      rcases hcs.expired.1 with hmax | hnone
      · exact hmax
      · cases hnone
    have hloop : commitLoop id commitTs true (c :: cs) = { c with expireTs := commitTs } :: cs := by
      have hne : c.createTs ≠ invalidTimestamp := hc
      rw [commitLoop]
      simp only [hmax, hne, ne_eq, not_false_eq_true, decide_true, Bool.and_true, if_true, and_false, if_false]
      rw [commitLoop_other fun v hv h => hrest v hv h.2]
    rw [hloop]
    exact ⟨rfl, Or.inr rfl, hcs.expired.2⟩

/-- A version with the timestamp of its commit. -/
def TupleVersion.stamped (commitTs : Int) (v : TupleVersion) : TupleVersion := { v with createTs := commitTs }

theorem commitLoop_pending {commitTs : Int} (hus : AllPending id us) (b : Bool) :
    commitLoop id commitTs b (us ++ cs) = us.map (·.stamped commitTs) ++ commitLoop id commitTs (b || !us.isEmpty) cs := by
  induction us generalizing b with
  | nil => simp
  | cons u us ih =>
    obtain ⟨hu, hus⟩ := List.forall_mem_cons.mp hus
    have hp : u.createTs = invalidTimestamp := hu.1
    rw [List.cons_append, commitLoop, ih hus]
    simp [hp, hu.2.1, TupleVersion.stamped]

theorem expired_stamped {commitTs : Int} (hus : AllPending id us) (hne : us ≠ []) (hcs : Expired (some commitTs) cs) (above : Option Int) :
    Expired above (us.map (·.stamped commitTs) ++ cs) := by
  induction us generalizing above with
  | nil => exact absurd rfl hne
  | cons u us ih =>
    obtain ⟨hu, hus⟩ := List.forall_mem_cons.mp hus
    refine ⟨Or.inl hu.2.2, ?_⟩
    cases us with
    | nil => exact hcs
    | cons w us => exact ih hus (by simp) _

theorem ChainInv.commit (h : ChainInv now chain) (hnow : 0 ≤ now) : ChainInv (now + 1) (chain.commitChainVersions id now) := by
  have hall := h
  obtain ⟨id', us, cs, rfl, hus, hcs⟩ := h
  by_cases hown : us ≠ [] ∧ id' = id
  · obtain ⟨hne, rfl⟩ := hown
    have hflag : (false || !us.isEmpty) = true := by simpa using hne
    rw [commitChainVersions, commitLoop_pending hus, hflag]
    obtain ⟨hstamps, hexp⟩ := commitLoop_settled id' now hcs
    have hback : ∀ c ∈ commitLoop id' now true cs, ∃ d ∈ cs, d.createTs = c.createTs := by
      intro c hc
      have hmem := List.mem_map_of_mem (f := (·.createTs)) hc
      rw [hstamps] at hmem
      exact List.mem_map.mp hmem
    refine ⟨id', [], _, rfl, fun _ hu => (by cases hu), fun c hc => ?_, ?_, expired_stamped hus hne hexp none⟩
    · rcases List.mem_append.mp hc with hc | hc
      · obtain ⟨u, -, rfl⟩ := List.mem_map.mp hc
        exact ⟨hnow, Int.lt_succ now⟩
      · obtain ⟨d, hd, heq⟩ := hback c hc
        have := hcs.committed d hd
        omega
    · refine List.pairwise_append.mpr ⟨?_, ?_, fun u hu c hc => ?_⟩
      · exact List.pairwise_map.mpr (List.pairwise_of_forall fun _ _ => Int.le_refl now)
      · have hord : (cs.map (·.createTs)).Pairwise fun a b => b ≤ a := List.pairwise_map.mpr hcs.ordered
        rw [← hstamps] at hord
        exact List.pairwise_map.mp hord
      · obtain ⟨w, -, rfl⟩ := List.mem_map.mp hu
        obtain ⟨d, hd, heq⟩ := hback c hc
        have := (hcs.committed d hd).2
        have hstamp : (w.stamped now).createTs = now := rfl
        omega
  · rw [commitChainVersions, commitLoop_other]
    · exact hall.mono
    · rintro v hv ⟨hid, hp⟩
      rw [List.mem_append] at hv
      rcases hv with hv | hv
      · exact hown ⟨List.ne_nil_of_mem hv, (hus v hv).2.1.symm.trans hid⟩
      · exact hcs.not_pending v hv hp

theorem ChainInv.rollback (h : ChainInv now chain) : ChainInv now (chain.rollbackChainVersions id) := by
  obtain ⟨id', us, cs, rfl, hus, hcs⟩ := h
  have hkept : cs.filter (fun v => !(v.txnId = id && v.createTs = invalidTimestamp)) = cs := by
    refine List.filter_eq_self.mpr fun c hc => ?_
    have hp : ¬c.createTs = invalidTimestamp := hcs.not_pending c hc
    simp [hp]
  rw [rollbackChainVersions, List.filter_append, hkept]
  by_cases hid : id' = id
  · have hgone : us.filter (fun v => !(v.txnId = id && v.createTs = invalidTimestamp)) = [] := by
      refine List.filter_eq_nil_iff.mpr fun u hu => ?_
      obtain ⟨hp, hu, -⟩ := hus u hu
      have hp : u.createTs = invalidTimestamp := hp
      simp [hp, hu, hid]
    rw [hgone]
    exact ⟨id', [], cs, rfl, fun _ hu => (by cases hu), hcs⟩
  · have hstay : us.filter (fun v => !(v.txnId = id && v.createTs = invalidTimestamp)) = us := by
      refine List.filter_eq_self.mpr fun u hu => ?_
      simp [(hus u hu).2.1, hid]
    rw [hstay]
    exact ⟨id', us, cs, rfl, hus, hcs⟩

end

/-! ### Runs -/

namespace MvccManager
variable {K : Type}

/-- Every version chain is in order. -/
def Ordered (m : MvccManager K) : Prop := ∀ row chain, m.versionChains row = some chain → VersionsOrdered chain

/-- Every version chain has the invariant, with timestamps from before the next one. -/
structure Inv (m : MvccManager K) : Prop where
  next : 0 < m.nextTimestamp
  chains : ∀ row chain, m.versionChains row = some chain → ChainInv m.nextTimestamp chain

/-- The counter has not run out when a timestamp is drawn. -/
def Fits (m : MvccManager K) : MvccCall K → Prop
  | .commitTransaction .. | .getNextTimestamp => m.nextTimestamp < intMax
  | .insertVersion .. | .updateVersion .. | .deleteVersion .. | .rollbackTransaction .. => True

instance (m : MvccManager K) : DecidablePred m.Fits
  | .commitTransaction .. | .getNextTimestamp => inferInstanceAs (Decidable (m.nextTimestamp < intMax))
  | .insertVersion .. | .updateVersion .. | .deleteVersion .. | .rollbackTransaction .. => inferInstanceAs (Decidable True)

theorem Inv.getD {m : MvccManager K} (h : Inv m) (row : K) : ChainInv m.nextTimestamp ((m.versionChains row).getD []) := by
  cases hc : m.versionChains row with
  | none => exact chainInv_nil _
  | some c => exact h.chains row c hc

variable [DecidableEq K]

theorem Inv.setChain {m : MvccManager K} (h : Inv m) {row : K} {chain : VersionChain} {changed : Option VersionChain}
    (hchain : ChainInv m.nextTimestamp chain) (hchanged : ∀ c, changed = some c → ChainInv m.nextTimestamp c) :
    Inv (m.setChain row chain changed) where
  next := h.next
  chains r c hc := by
    simp only [MvccManager.setChain, Function.update_apply] at hc
    split at hc
    · cases hc
      cases changed with
      | none => exact hchain
      | some c => exact hchanged c rfl
    · exact h.chains r c hc

/-- Every call that does not need a timestamp past the last one keeps the invariant. -/
theorem Inv.step {m : MvccManager K} (h : Inv m) {a : MvccCall K} (hfits : m.Fits a) : ∃ n, MvccManager.step m a = .ok n ∧ Inv n := by
  have hnow : 0 ≤ m.nextTimestamp := Int.le_of_lt h.next
  cases a with
  | insertVersion row data id => exact ⟨_, rfl, h.setChain (h.getD row) fun c hc => (h.getD row).insertVersion hc⟩
  | updateVersion row data id readTs => exact ⟨_, rfl, h.setChain (h.getD row) fun c hc => (h.getD row).updateVersion hc⟩
  | deleteVersion row original id readTs =>
    refine ⟨_, rfl, ?_⟩
    rw [MvccManager.deleteVersion]
    split
    · exact h
    · next chain hchain =>
      have hinv : ChainInv m.nextTimestamp chain := by
        rcases Option.or_eq_some_iff.mp hchain with hc | ⟨-, hc⟩
        · exact h.chains row chain hc
        · obtain ⟨rec, -, rfl⟩ := Option.map_eq_some_iff.mp hc
          exact chainInv_initial h.next rec
      exact h.setChain hinv fun c hc => hinv.deleteVersion hc
  | commitTransaction id writeSet =>
    refine ⟨_, if_pos hfits, Int.lt_add_one_of_le hnow, fun row chain hchain => ?_⟩
    simp only [MvccManager.commitTransaction, MvccManager.getNextTimestamp] at hchain ⊢
    split at hchain
    · obtain ⟨c, hc, rfl⟩ := Option.map_eq_some_iff.mp hchain
      exact (h.chains row c hc).commit hnow
    · exact (h.chains row chain hchain).mono
  | rollbackTransaction id writeSet =>
    refine ⟨_, rfl, h.next, fun row chain hchain => ?_⟩
    simp only [MvccManager.rollbackTransaction] at hchain ⊢
    split at hchain
    · obtain ⟨c, hc, rfl⟩ := Option.map_eq_some_iff.mp (Option.filter_eq_some_iff.mp hchain).1
      exact (h.chains row c hc).rollback
    · exact h.chains row chain hchain
  | getNextTimestamp => exact ⟨_, if_pos hfits, Int.lt_add_one_of_le hnow, fun row chain hchain => (h.chains row chain hchain).mono⟩

/-- In every run of calls by any transactions, until the counter runs out, every version chain is in order. -/
theorem ordered_always (as : List (MvccCall K)) (hfits : Runs.Throughout MvccManager.step Fits (init : MvccManager K) as) :
    Runs.Always MvccManager.step Ordered (init : MvccManager K) as := by
  refine Runs.always_of_invariant (I := Inv) (fun m a h hf => h.step hf) (fun m h row chain hc => (h.chains row chain hc).versionsOrdered)
    ⟨Int.one_pos, fun _ _ hc => (by cases hc)⟩ hfits

end MvccManager

/-- Two transactions write a row one after another, the second one twice, and a third one is taken back. -/
def versionCalls : List (MvccCall Unit) :=
  [.insertVersion () [1] 1, .commitTransaction 1 [()], .updateVersion () [2] 2 1, .deleteVersion () none 2 1, .insertVersion () [4] 3,
    .commitTransaction 2 [()], .insertVersion () [3] 3, .rollbackTransaction 3 [()]]

theorem ordered_versionCalls : Runs.Always MvccManager.step MvccManager.Ordered (MvccManager.init : MvccManager Unit) versionCalls := by
  have htest : ∀ (m : MvccManager Unit) a, decide (m.Fits a) = true → m.Fits a := fun _ _ h => of_decide_eq_true h
  exact MvccManager.ordered_always versionCalls (Runs.throughout_of_check htest (by decide))

end Rmdb
