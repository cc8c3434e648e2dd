import Rmdb.Theorems.Txn.Versions

/-! What a rollback leaves of the writes of a transaction.

A write puts an uncommitted version of its transaction on top of a chain, or changes one that is there. So the chain is the one from
before the first write under such versions, and these are what the rollback removes. -/

namespace Rmdb
open VersionChain

/-- An uncommitted version of the transaction. -/
def TupleVersion.OpenBy (id : Int) (v : TupleVersion) : Prop := v.txnId = id ∧ v.Pending

namespace VersionChain

/-- No version of the chain is an uncommitted one of the transaction. -/
def Closed (id : Int) (chain : VersionChain) : Prop := ∀ v ∈ chain, ¬v.OpenBy id

/-- A chain with uncommitted versions of the transaction on top. -/
def Over (id : Int) (base chain : VersionChain) : Prop := ∃ us, chain = us ++ base ∧ ∀ u ∈ us, u.OpenBy id

/-- A write of the transaction puts a version on top, or changes its own uncommitted one there. -/
def Wrote (id : Int) (chain c : VersionChain) : Prop :=
  (∃ u : TupleVersion, u.OpenBy id ∧ c = u :: chain) ∨
    ∃ (v u : TupleVersion) (vs : VersionChain), chain = v :: vs ∧ v.OpenBy id ∧ u.OpenBy id ∧ c = u :: vs

variable {id id' : Int} {chain base c : VersionChain} {data : Bytes} {readTs : Int}

theorem closed_nil (id : Int) : Closed id [] := fun _ hv => by cases hv

theorem closed_initial (id : Int) (data : Bytes) : Closed id [initialVersion data] := by
  intro v hv hopen
  rw [List.mem_singleton] at hv
  subst hv
  exact absurd hopen.2 (show ¬(0 : Int) = -1 by decide)

theorem openBy_new (data : Bytes) (id : Int) (isDeleted : Bool) : (TupleVersion.new data id isDeleted).OpenBy id := ⟨rfl, rfl⟩

/-! ### Writes -/

theorem wrote_of_insert (h : chain.insertVersion data id = some c) : Wrote id chain c := by
  cases chain with
  | nil =>
    cases h
    exact Or.inl ⟨_, openBy_new data id false, rfl⟩
  | cons v vs =>
    rw [VersionChain.insertVersion] at h
    split at h
    · next hown =>
      split at h
      · cases h
        exact Or.inr ⟨v, { v with data := data, isDeleted := false }, vs, rfl, hown, hown, rfl⟩
      · cases h
    · split at h
      · cases h
      · cases h
        exact Or.inl ⟨_, openBy_new data id false, rfl⟩

theorem wrote_of_update (h : chain.updateVersion data id readTs = some c) : Wrote id chain c := by
  unfold VersionChain.updateVersion at h
  split at h
  · cases h
  · cases chain with
    | nil =>
      cases h
      exact Or.inl ⟨_, openBy_new data id false, rfl⟩
    | cons v vs =>
      simp only at h
      split at h
      · next hown =>
        split at h
        · cases h
        · cases h
          exact Or.inr ⟨v, { v with data := data }, vs, rfl, hown, hown, rfl⟩
      · split at h
        · cases h
        · split at h
          · cases h
          · cases h
            exact Or.inl ⟨_, openBy_new data id false, rfl⟩

theorem wrote_of_delete (h : chain.deleteVersion id readTs = some c) : Wrote id chain c := by
  rw [VersionChain.deleteVersion] at h
  split at h
  · cases h
  · split at h
    · cases h
    · next v _ =>
      split at h
      · cases h
      · split at h
        · cases h
        · cases h
          exact Or.inl ⟨_, openBy_new v.data id true, rfl⟩

theorem Wrote.ne_nil (h : Wrote id chain c) : c ≠ [] := by
  rcases h with ⟨u, -, rfl⟩ | ⟨v, u, vs, -, -, -, rfl⟩ <;> exact List.cons_ne_nil _ _

theorem Wrote.over (h : Wrote id chain c) (hbase : Closed id base) (hover : Over id base chain) : Over id base c := by
  rcases hover with ⟨us, rfl, hus⟩
  rcases h with ⟨u, hu, rfl⟩ | ⟨v, u, vs, hsplit, hv, hu, rfl⟩
  · exact ⟨u :: us, rfl, List.forall_mem_cons.mpr ⟨hu, hus⟩⟩
  · cases us with
    | nil =>
      rw [List.nil_append] at hsplit
      exact absurd hv (hbase v (by rw [hsplit]; exact List.mem_cons_self))
    | cons w us =>
      obtain ⟨rfl, rfl⟩ := List.cons.inj hsplit
      exact ⟨u :: us, rfl, List.forall_mem_cons.mpr ⟨hu, (List.forall_mem_cons.mp hus).2⟩⟩

/-- The write of another transaction. -/
theorem Wrote.closed (h : Wrote id' chain c) (hne : id' ≠ id) (hclosed : Closed id chain) : Closed id c := by
  have hother : ∀ u : TupleVersion, u.OpenBy id' → ¬u.OpenBy id := fun u hu hopen => hne (hu.1.symm.trans hopen.1)
  rcases h with ⟨u, hu, rfl⟩ | ⟨v, u, vs, rfl, -, hu, rfl⟩
  · exact List.forall_mem_cons.mpr ⟨hother u hu, hclosed⟩
  · exact List.forall_mem_cons.mpr ⟨hother u hu, (List.forall_mem_cons.mp hclosed).2⟩

/-! ### The end of a transaction -/

/-- A commit changes a version's timestamps only. -/
theorem mem_commitLoop {commitTs : Int} {b : Bool} {v : TupleVersion} (hv : v ∈ commitLoop id commitTs b chain) :
    ∃ w ∈ chain, v.txnId = w.txnId ∧ (v.createTs = w.createTs ∨ v.createTs = commitTs) := by
  induction chain generalizing b with
  | nil => cases hv
  | cons w ws ih =>
    have hsame : ∀ u, u = (if b && w.createTs ≠ invalidTimestamp && w.expireTs = intMax then { w with expireTs := commitTs } else w) →
        u.txnId = w.txnId ∧ u.createTs = w.createTs := by
      intro u hu
      rw [hu]
      split <;> exact ⟨rfl, rfl⟩
    rw [commitLoop] at hv
    split at hv
    · rcases List.mem_cons.mp hv with rfl | hv
      · exact ⟨w, List.mem_cons_self, (hsame _ rfl).1, Or.inr rfl⟩
      · obtain ⟨x, hx, hsrc⟩ := ih hv
        exact ⟨x, List.mem_cons_of_mem w hx, hsrc⟩
    · rcases List.mem_cons.mp hv with rfl | hv
      · exact ⟨w, List.mem_cons_self, (hsame _ rfl).1, Or.inl (hsame _ rfl).2⟩
      · obtain ⟨x, hx, hsrc⟩ := ih hv
        exact ⟨x, List.mem_cons_of_mem w hx, hsrc⟩

theorem Closed.commit {commitTs : Int} (h : Closed id chain) (hts : 0 < commitTs) : Closed id (chain.commitChainVersions id' commitTs) := by
  intro v hv hopen
  rcases mem_commitLoop hv with ⟨w, hw, hid, hsame | hstamp⟩
  · exact h w hw ⟨hid.symm.trans hopen.1, hsame.symm.trans hopen.2⟩
  · have hp : v.createTs = invalidTimestamp := hopen.2
    rw [hstamp] at hp
    subst hp
    exact absurd hts (by decide)

theorem commitChainVersions_ne_nil {commitTs : Int} (h : chain ≠ []) : chain.commitChainVersions id commitTs ≠ [] := by
  cases chain with
  | nil => exact absurd rfl h
  | cons v vs =>
    rw [commitChainVersions, commitLoop]
    split <;> exact List.cons_ne_nil _ _

theorem closed_rollback (id : Int) (chain : VersionChain) : Closed id (chain.rollbackChainVersions id) := by
  intro v hv hopen
  have hp : v.createTs = invalidTimestamp := hopen.2
  have := (List.mem_filter.mp hv).2
  simp [hopen.1, hp] at this

theorem Closed.rollback (h : Closed id chain) : Closed id (chain.rollbackChainVersions id') := fun v hv => h v (List.mem_filter.mp hv).1

theorem Closed.rollback_eq (h : Closed id chain) : chain.rollbackChainVersions id = chain := by
  refine List.filter_eq_self.mpr fun v hv => ?_
  have hnot : ¬(v.txnId = id ∧ v.createTs = invalidTimestamp) := h v hv
  rw [Bool.not_eq_true', Bool.and_eq_false_iff, decide_eq_false_iff_not, decide_eq_false_iff_not]
  exact Decidable.not_and_iff_or_not.mp hnot

/-- The rollback removes what the transaction put on top. -/
theorem Over.rollback (h : Over id base chain) (hbase : Closed id base) : chain.rollbackChainVersions id = base := by
  obtain ⟨us, rfl, hus⟩ := h
  have hgone : us.filter (fun v => !(v.txnId = id && v.createTs = invalidTimestamp)) = [] := by
    refine List.filter_eq_nil_iff.mpr fun u hu => ?_
    have hp : u.createTs = invalidTimestamp := (hus u hu).2
    simp [(hus u hu).1, hp]
  have hkept := hbase.rollback_eq
  rw [rollbackChainVersions] at hkept ⊢
  rw [List.filter_append, hgone, hkept, List.nil_append]

end VersionChain

/-! ### Calls -/

variable {K : Type}

/-- The row that a call writes, and the transaction that does. -/
def MvccCall.write : MvccCall K → Option (K × Int)
  | .insertVersion row _ id | .updateVersion row _ id _ | .deleteVersion row _ id _ => some (row, id)
  | .commitTransaction .. | .rollbackTransaction .. | .getNextTimestamp => none

/-- The rows that the end of a transaction goes through. -/
def MvccCall.ended : MvccCall K → List K
  | .commitTransaction _ writeSet | .rollbackTransaction _ writeSet => writeSet
  | .insertVersion .. | .updateVersion .. | .deleteVersion .. | .getNextTimestamp => []

namespace MvccManager

/-- What `insert_version`, `update_version` and `delete_version` return: the write is not refused. -/
def accepts (m : MvccManager K) : MvccCall K → Bool
  | .insertVersion row data id => (((m.versionChains row).getD []).insertVersion data id).isSome
  | .updateVersion row data id readTs => (((m.versionChains row).getD []).updateVersion data id readTs).isSome
  | .deleteVersion row original id readTs =>
    ((m.versionChains row).or (original.map fun rec => [initialVersion rec])).any fun chain => (chain.deleteVersion id readTs).isSome
  | .commitTransaction .. | .rollbackTransaction .. | .getNextTimestamp => true

/-- The rows are those that the transaction writes, and no one else writes them or ends with them in its write set. -/
def Writes (id : Int) (rows : K → Prop) (m : MvccManager K) (c : MvccCall K) : Prop :=
  (∀ row i, c.write = some (row, i) → m.accepts c = true → (rows row ↔ i = id)) ∧ ∀ row ∈ c.ended, ¬rows row

theorem writes_iff {id : Int} {rows : K → Prop} [DecidablePred rows] {m : MvccManager K} {c : MvccCall K} :
    ((c.write.all fun p => !m.accepts c || decide (rows p.1 ↔ p.2 = id)) = true ∧ ∀ row ∈ c.ended, ¬rows row) ↔ Writes id rows m c := by
  unfold Writes
  cases hwrite : c.write with
  | none => simp
  | some p =>
    obtain ⟨row, i⟩ := p
    cases hacc : m.accepts c <;> simp

instance (id : Int) (rows : K → Prop) [DecidablePred rows] (m : MvccManager K) (c : MvccCall K) : Decidable (Writes id rows m c) :=
  decidable_of_iff _ writes_iff

/-- What a write works on: the chain of the row, or for a row without one an empty chain or one with the record of the file. -/
def Base (found : Option VersionChain) (chain : VersionChain) : Prop :=
  found = some chain ∨ found = none ∧ (chain = [] ∨ ∃ data, chain = [initialVersion data])

/-- What a write that is accepted, or one that is not, does to the chain of its row. -/
inductive RowWritten (id : Int) : Bool → Option VersionChain → Option VersionChain → Prop where
  | same (found) : RowWritten id false found found
  | refused (found chain) (hbase : Base found chain) (hne : chain ≠ []) : RowWritten id false found (some chain)
  | wrote (found chain c) (hbase : Base found chain) (hwrote : Wrote id chain c) : RowWritten id true found (some c)

section
variable {found left : Option VersionChain} {chain base : VersionChain} {id id' : Int} {accepted : Bool}

theorem Base.closed (h : Base found chain) (hfound : ∀ c, found = some c → Closed id c) : Closed id chain := by
  rcases h with h | ⟨-, rfl | ⟨data, rfl⟩⟩
  · exact hfound chain h
  · exact closed_nil id
  · exact closed_initial id data

theorem base_getD (found : Option VersionChain) : Base found (found.getD []) := by
  cases found with
  | none => exact Or.inr ⟨rfl, Or.inl rfl⟩
  | some chain => exact Or.inl rfl

theorem rowWritten_of_changed {changed : Option VersionChain} (hbase : Base found chain) (hchanged : ∀ c, changed = some c → Wrote id chain c)
    (hne : changed = none → found = some chain ∨ chain ≠ []) : RowWritten id changed.isSome found (some (changed.getD chain)) := by
  cases changed with
  | none =>
    rcases hne rfl with rfl | hne
    · exact .same _
    · exact .refused found chain hbase hne
  | some c => exact .wrote found chain c hbase (hchanged c rfl)

theorem rowWritten_of_getD (write : VersionChain → Option VersionChain) (hempty : write [] ≠ none)
    (hwrite : ∀ chain c, write chain = some c → Wrote id chain c) :
    RowWritten id (write (found.getD [])).isSome found (some ((write (found.getD [])).getD (found.getD []))) := by
  refine rowWritten_of_changed (base_getD found) (hwrite _) fun hnone => ?_
  cases found with
  | none => exact absurd hnone hempty
  | some chain => exact Or.inl rfl

/-- A row without a chain, or with versions of which none is an uncommitted one of the transaction. -/
def Fresh (id : Int) (found : Option VersionChain) : Prop := ∀ chain, found = some chain → chain ≠ [] ∧ Closed id chain

/-- What others write, and what is refused, leaves no uncommitted version of the transaction. -/
theorem RowWritten.fresh (h : RowWritten id' accepted found left) (hne : accepted = true → id' ≠ id) (hfresh : Fresh id found) :
    Fresh id left := by
  intro c hc
  cases h with
  | same => exact hfresh c hc
  | refused _ chain hbase hchain =>
    cases hc
    exact ⟨hchain, hbase.closed fun c hc => (hfresh c hc).2⟩
  | wrote _ chain c hbase hwrote =>
    cases hc
    exact ⟨hwrote.ne_nil, hwrote.closed (hne rfl) (hbase.closed fun c hc => (hfresh c hc).2)⟩

/-- What the transaction writes, and what is refused, leaves the versions below. -/
theorem RowWritten.over (h : RowWritten id' accepted (some chain) left) (hid : accepted = true → id' = id) (hclosed : Closed id base)
    (hover : Over id base chain) : ∃ c, left = some c ∧ Over id base c := by
  have hchain : ∀ {c}, Base (some chain) c → c = chain := by
    rintro c (h | ⟨h, -⟩)
    · exact (Option.some.inj h).symm
    · cases h
  cases h with
  | same => exact ⟨chain, rfl, hover⟩
  | refused _ c hbase =>
    obtain rfl := hchain hbase
    exact ⟨c, rfl, hover⟩
  | wrote _ c c' hbase hwrote =>
    obtain rfl := hchain hbase
    obtain rfl := hid rfl
    exact ⟨c', rfl, hwrote.over hclosed hover⟩

end

variable [DecidableEq K] {m n m₀ : MvccManager K} {a : MvccCall K} {row : K} {id i : Int} {rows : K → Prop}

theorem setChain_self (m : MvccManager K) (row : K) (chain : VersionChain) (changed : Option VersionChain) :
    (m.setChain row chain changed).versionChains row = some (changed.getD chain) := Function.update_self ..

theorem setChain_of_ne (m : MvccManager K) {row r : K} (hr : r ≠ row) (chain : VersionChain) (changed : Option VersionChain) :
    (m.setChain row chain changed).versionChains r = m.versionChains r := Function.update_of_ne hr ..

/-- A write changes the chain of its row only. -/
theorem step_of_write (h : MvccManager.step m a = .ok n) (hwrite : a.write = some (row, i)) :
    n.nextTimestamp = m.nextTimestamp ∧ RowWritten i (m.accepts a) (m.versionChains row) (n.versionChains row) ∧
      ∀ r, r ≠ row → n.versionChains r = m.versionChains r := by
  cases a with
  | insertVersion r data i =>
    cases hwrite
    cases h
    refine ⟨rfl, ?_, fun r hr => setChain_of_ne m hr ..⟩
    rw [MvccManager.insertVersion, setChain_self]
    exact rowWritten_of_getD (·.insertVersion data i) (Option.some_ne_none _) fun _ _ => wrote_of_insert
  | updateVersion r data i readTs =>
    cases hwrite
    cases h
    refine ⟨rfl, ?_, fun r hr => setChain_of_ne m hr ..⟩
    rw [MvccManager.updateVersion, setChain_self]
    exact rowWritten_of_getD (·.updateVersion data i readTs) (Option.some_ne_none _) fun _ _ => wrote_of_update
  | deleteVersion r original i readTs =>
    cases hwrite
    cases h
    rw [MvccManager.deleteVersion, accepts]
    cases hfound : (m.versionChains row).or (original.map fun rec => [initialVersion rec]) with
    | none => exact ⟨rfl, .same _, fun _ _ => rfl⟩
    | some chain =>
      refine ⟨rfl, ?_, fun r hr => setChain_of_ne m hr ..⟩
      rw [setChain_self]
      rcases Option.or_eq_some_iff.mp hfound with hold | ⟨hnone, hnew⟩
      · exact rowWritten_of_changed (Or.inl hold) (fun c hc => wrote_of_delete hc) fun _ => Or.inl hold
      · obtain ⟨data, -, rfl⟩ := Option.map_eq_some_iff.mp hnew
        exact rowWritten_of_changed (Or.inr ⟨hnone, Or.inr ⟨data, rfl⟩⟩) (fun c hc => wrote_of_delete hc)
          fun _ => Or.inr (List.cons_ne_nil _ _)
  | commitTransaction | rollbackTransaction | getNextTimestamp => cases hwrite

/-- The end of a transaction changes the rows of its write set only, and leaves no uncommitted versions where there were none. -/
theorem step_of_end (id : Int) (h : MvccManager.step m a = .ok n) (hwrite : a.write = none) (hnext : 0 < m.nextTimestamp) :
    0 < n.nextTimestamp ∧ (∀ r, r ∉ a.ended → n.versionChains r = m.versionChains r) ∧
      ∀ r, Fresh id (m.versionChains r) → Fresh id (n.versionChains r) := by
  cases a with
  | insertVersion | updateVersion | deleteVersion => cases hwrite
  | commitTransaction i writeSet =>
    rw [MvccManager.step] at h
    split at h
    · cases h
      refine ⟨Int.lt_add_one_of_le (Int.le_of_lt hnext), fun r hr => if_neg hr, fun r hfresh c hc => ?_⟩
      simp only [MvccManager.commitTransaction, MvccManager.getNextTimestamp] at hc
      split at hc
      · obtain ⟨chain, hchain, rfl⟩ := Option.map_eq_some_iff.mp hc
        obtain ⟨hne, hclosed⟩ := hfresh chain hchain
        exact ⟨commitChainVersions_ne_nil hne, hclosed.commit hnext⟩
      · exact hfresh c hc
    · cases h
  | rollbackTransaction i writeSet =>
    cases h
    refine ⟨hnext, fun r hr => if_neg hr, fun r hfresh c hc => ?_⟩
    simp only [MvccManager.rollbackTransaction] at hc
    split at hc
    · obtain ⟨hsome, hne⟩ := Option.filter_eq_some_iff.mp hc
      obtain ⟨chain, hchain, rfl⟩ := Option.map_eq_some_iff.mp hsome
      exact ⟨of_decide_eq_true hne, (hfresh chain hchain).2.rollback⟩
    · exact hfresh c hc
  | getNextTimestamp =>
    rw [MvccManager.step] at h
    split at h
    · cases h
      exact ⟨Int.lt_add_one_of_le (Int.le_of_lt hnext), fun _ _ => rfl, fun _ hfresh => hfresh⟩
    · cases h

/-- Since `m₀` the transaction has written some rows only, and no one else has written these. -/
structure Since (id : Int) (rows : K → Prop) (m₀ m : MvccManager K) : Prop where
  next : 0 < m.nextTimestamp
  outside : ∀ row, ¬rows row → Fresh id (m.versionChains row)
  inside : ∀ row, rows row → ∀ base, m₀.versionChains row = some base → ∃ chain, m.versionChains row = some chain ∧ Over id base chain

theorem Since.step (h : Since id rows m₀ m) (hstart : ∀ row base, m₀.versionChains row = some base → Closed id base)
    (ha : Writes id rows m a) (hs : MvccManager.step m a = .ok n) : Since id rows m₀ n := by
  cases hwrite : a.write with
  | none =>
    obtain ⟨hnext, hothers, hfresh⟩ := step_of_end id hs hwrite h.next
    refine ⟨hnext, fun r hr => hfresh r (h.outside r hr), fun r hr base hbase => ?_⟩
    rw [hothers r fun hmem => ha.2 r hmem hr]
    exact h.inside r hr base hbase
  | some p =>
    obtain ⟨row, i⟩ := p
    obtain ⟨hsame, hwrote, hothers⟩ := step_of_write hs hwrite
    have haccepted := ha.1 row i hwrite
    refine ⟨hsame ▸ h.next, fun r hr => ?_, fun r hr base hbase => ?_⟩
    · by_cases heq : r = row
      · subst heq
        exact hwrote.fresh (fun hacc hid => hr ((haccepted hacc).mpr hid)) (h.outside r hr)
      · rw [hothers r heq]
        exact h.outside r hr
    · obtain ⟨chain, hchain, hover⟩ := h.inside r hr base hbase
      by_cases heq : r = row
      · subst heq
        rw [hchain] at hwrote
        exact hwrote.over (fun hacc => (haccepted hacc).mp hr) (hstart r base hbase) hover
      · exact ⟨chain, (hothers r heq).trans hchain, hover⟩

theorem Since.exec {bs : List (MvccCall K)} (h : Since id rows m₀ m) (hstart : ∀ row base, m₀.versionChains row = some base → Closed id base)
    (hcalls : Runs.Throughout MvccManager.step (Writes id rows) m bs) (hrun : Runs.exec MvccManager.step m bs = .ok n) :
    Since id rows m₀ n := by
  induction bs generalizing m with
  | nil =>
    cases hrun
    exact h
  | cons b bs ih =>
    obtain ⟨t, ht, hrest⟩ := Runs.ok_of_bind hrun
    exact ih (h.step hstart hcalls.1 ht) (hcalls.2 t ht) hrest

theorem fresh_of_exec {as : List (MvccCall K)} (h : Runs.exec MvccManager.step init as = .ok m)
    (hnone : Runs.Throughout MvccManager.step (Writes id fun _ => False) init as) : 0 < m.nextTimestamp ∧ ∀ row, Fresh id (m.versionChains row) := by
  have hstart : Since id (fun _ : K => False) init init :=
    ⟨Int.one_pos, fun row _ chain hc => (by cases hc), fun row hrow => hrow.elim⟩
  have hend := hstart.exec (fun row base hbase => (by cases hbase)) hnone h
  exact ⟨hend.next, fun row => hend.outside row not_false⟩

/-- `rollback_transaction` of a transaction with the rows that it wrote in its write set, where the other transactions wrote
    other rows since its first write: no uncommitted version of it is left, every chain that it wrote is the one from before its first
    write, and the other chains are left alone. -/
theorem rollback_restores {as bs : List (MvccCall K)} {writeSet : List K} (hbefore : Runs.exec MvccManager.step init as = .ok m)
    (hfirst : Runs.Throughout MvccManager.step (Writes id fun _ => False) init as) (hrun : Runs.exec MvccManager.step m bs = .ok n)
    (hcalls : Runs.Throughout MvccManager.step (Writes id rows) m bs) (hset : ∀ row, rows row → row ∈ writeSet) :
    (∀ row chain, (n.rollbackTransaction id writeSet).versionChains row = some chain → ∀ v ∈ chain, ¬(v.txnId = id ∧ v.Pending)) ∧
      (∀ row chain, rows row → m.versionChains row = some chain → (n.rollbackTransaction id writeSet).versionChains row = some chain) ∧
      ∀ row, ¬rows row → (n.rollbackTransaction id writeSet).versionChains row = n.versionChains row := by
  obtain ⟨hnext, hfresh⟩ := fresh_of_exec hbefore hfirst
  have hclosed : ∀ row base, m.versionChains row = some base → Closed id base := fun row base hbase => (hfresh row base hbase).2
  have hstart : Since id rows m m :=
    ⟨hnext, fun row _ => hfresh row, fun row _ base hbase => ⟨base, hbase, [], rfl, fun _ hu => by cases hu⟩⟩
  have hend : Since id rows m n := hstart.exec hclosed hcalls hrun
  have hother : ∀ row, ¬rows row → (n.rollbackTransaction id writeSet).versionChains row = n.versionChains row := by
    intro row hrow
    simp only [MvccManager.rollbackTransaction]
    split
    · cases hfound : n.versionChains row with
      | none => rfl
      | some chain =>
        obtain ⟨hne, hclosed⟩ := hend.outside row hrow chain hfound
        rw [Option.map_some, hclosed.rollback_eq]
        simp [hne]
    · rfl
  refine ⟨fun row chain hleft => ?_, fun row chain hrow hchain => ?_, hother⟩
  · by_cases hrow : rows row
    · simp only [MvccManager.rollbackTransaction, hset row hrow, if_true] at hleft
      obtain ⟨c, -, rfl⟩ := Option.map_eq_some_iff.mp (Option.filter_eq_some_iff.mp hleft).1
      exact closed_rollback id c
    · rw [hother row hrow] at hleft
      exact (hend.outside row hrow chain hleft).2
  · obtain ⟨c, hc, hover⟩ := hend.inside row hrow chain hchain
    simp only [MvccManager.rollbackTransaction, hset row hrow, if_true, hc, Option.map_some, hover.rollback (hclosed row chain hchain)]
    simp [(hfresh row chain hchain).1]

/-- A row is there before the transaction begins, and another transaction writes a third row between its writes. -/
theorem rollback_restores_rows : ∃ m n : MvccManager Nat,
    Runs.exec MvccManager.step init [.insertVersion 0 [1] 1, .commitTransaction 1 [0]] = .ok m ∧
    Runs.exec MvccManager.step m [.updateVersion 0 [2] 2 1, .insertVersion 1 [3] 2, .insertVersion 2 [4] 3, .deleteVersion 0 none 2 1] = .ok n ∧
      (∀ row chain, (n.rollbackTransaction 2 [0, 1]).versionChains row = some chain → ∀ v ∈ chain, ¬(v.txnId = 2 ∧ v.Pending)) ∧
      (∀ row chain, row ∈ [0, 1] → m.versionChains row = some chain → (n.rollbackTransaction 2 [0, 1]).versionChains row = some chain) ∧
      ∀ row, ¬row ∈ [0, 1] → (n.rollbackTransaction 2 [0, 1]).versionChains row = n.versionChains row := by
  have hnone : ∀ (m : MvccManager Nat) c, decide (Writes 2 (fun _ => False) m c) = true → Writes 2 (fun _ => False) m c :=
    fun _ _ h => of_decide_eq_true h
  have hrows : ∀ (m : MvccManager Nat) c, decide (Writes 2 (· ∈ [0, 1]) m c) = true → Writes 2 (· ∈ [0, 1]) m c :=
    fun _ _ h => of_decide_eq_true h
  have hset : ∀ row, row ∈ [0, 1] → row ∈ [0, 1] := fun _ h => h
  have hrun : ∃ m : MvccManager Nat, Runs.exec MvccManager.step init [.insertVersion 0 [1] 1, .commitTransaction 1 [0]] = .ok m ∧
      Runs.check MvccManager.step (fun m c => decide (Writes 2 (· ∈ [0, 1]) m c)) m
        [.updateVersion 0 [2] 2 1, .insertVersion 1 [3] 2, .insertVersion 2 [4] 3, .deleteVersion 0 none 2 1] = true ∧
      ∃ n, Runs.exec MvccManager.step m
        [.updateVersion 0 [2] 2 1, .insertVersion 1 [3] 2, .insertVersion 2 [4] 3, .deleteVersion 0 none 2 1] = .ok n :=
    ⟨_, rfl, by decide, _, rfl⟩
  obtain ⟨m, hm, hcheck, n, hn⟩ := hrun
  exact ⟨m, n, hm, hn, rollback_restores hm (Runs.throughout_of_check hnone (by decide)) hn (Runs.throughout_of_check hrows hcheck) hset⟩

end MvccManager
end Rmdb
