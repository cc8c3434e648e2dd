import Rmdb.Theorems.Txn.Rollback

/-! Whether an UPDATE that fails has done nothing. It updates its rows one after another, and it removes the old entries of a
row one index after another before it comes to a key that is taken; nothing of this is taken back when it ends. -/

namespace Rmdb
open RmFile

namespace Db
variable {T I : Type} {db : Schema T I}

theorem Same.trans {s t u : Db T I} (h : Same s t) (k : Same t u) : Same s u :=
  ⟨fun row => (k.rows row).trans (h.rows row), fun p => (k.ihs p).trans (h.ihs p)⟩

theorem Same.taken {s t : Db T I} (h : Same s t) (i : I) (key : Bytes) (rid : Rid) : t.taken db i key rid = s.taken db i key rid := by
  rw [Db.taken, Db.taken, isUnique, isUnique, h.ihs]

theorem Same.removed {s t : Db T I} (h : Same s t) (rid : Rid) (old new : Bytes) (is : List I) :
    Db.removed db t rid old new is = Db.removed db s rid old new is := by
  simp only [Db.removed, h.taken]

section
variable [DecidableEq I] {s t u : Db T I} {id : Int}

theorem Quiet.same (h : Quiet db id [] s t) : Same s t := ⟨fun row => h.row row.1 row.2, fun p => h.gained.2 p⟩

/-- Which entries are gone when a key is taken. -/
theorem same_of_removed_iff {is : List I} {rid : Rid} {old : Bytes} (hsame : Same s u)
    (hq : Quiet db id (deletions db rid old is) u t) : Same s t ↔ ∀ i ∈ is, s.ihs (i, db.key i old) = none := by
  have hihs : ∀ p, t.ihs p = if KeyIn db old is p then none else s.ihs p := by
    intro p
    rw [hq.gained.2, foldl_deletions, hsame.ihs]
  constructor
  · intro h i hi
    rw [← h.ihs, hihs, if_pos ⟨hi, rfl⟩]
  · refine fun h => ⟨fun row => (hq.row row.1 row.2).trans (hsame.rows row), fun p => ?_⟩
    rw [hihs]
    split
    · next hp =>
      have hp' : p = (p.1, db.key p.1 old) := Prod.ext rfl hp.2
      rw [hp', h p.1 hp.1]
    · rfl

end

variable [DecidableEq T]

/-- The UPDATE does nothing to tables and indexes before it fails: the rows that it updates get the records that they have,
    and no entry is there that it removes before it comes to a key that is taken. -/
def Harmless (db : Schema T I) (s : Db T I) (id : Int) (tab : T) (set : List (SetClause (db.tab tab))) : List Rid → Prop
  | [] => True
  | rid :: rids =>
    match rowSeen db s id tab rid with
    | none => True
    | some none => Harmless db s id tab set rids
    | some (some old) =>
      match applySet set old with
      | .error _ => True
      | .ok new =>
        if (changed db old new (db.indexes tab)).any fun i => s.taken db i (db.keyBytes i new) rid then
          ∀ i ∈ removed db s rid old new (db.indexes tab), s.ihs (i, db.key i old) = none
        else new = old ∧ Harmless db s id tab set rids

section
variable {s t : Db T I} {id : Int} {tab : T} {rid : Rid}

theorem lock_ok_iff (hgrow : ∀ x, s.txnMap id = some x → x.state ≠ .shrinking) :
    (s.lockExclusiveOnRecord id tab rid).2 = true ↔ id ∈ s.lockTable (tab, rid) ∨ s.lockTable (tab, rid) = [] := by
  have hstate : (s.txnMap id).map (·.state) ≠ some .shrinking := by
    intro h
    obtain ⟨x, hx, hstate⟩ := Option.map_eq_some_iff.mp h
    exact hgrow x hx hstate
  rw [lockExclusiveOnRecord, if_neg hstate]
  split
  · next hmem => exact ⟨fun _ => Or.inl hmem, fun _ => rfl⟩
  · next hmem =>
    split
    · next hne => exact ⟨fun h => (Bool.false_ne_true h).elim, fun h => (h.elim hmem hne).elim⟩
    · next hempty => exact ⟨fun _ => Or.inr (Classical.not_not.mp hempty), fun _ => rfl⟩

theorem rowSeen_of_frame (hs : Sane db s) (hframe : Frame id s t) (hrow : t.row tab rid = s.row tab rid)
    (hmark : t.mvccMap (tab, db.slot tab rid) = s.mvccMap (tab, db.slot tab rid)) :
    rowSeen db t id tab rid = rowSeen db s id tab rid := by
  have hgrow : ∀ x, t.txnMap id = some x → x.state ≠ .shrinking := by
    intro x hx hstate
    obtain ⟨y, hy, hstate⟩ := hframe.phase x hx hstate
    exact hs.growing id y hy hstate
  have hlock : (t.lockExclusiveOnRecord id tab rid).2 = (s.lockExclusiveOnRecord id tab rid).2 := by
    rw [Bool.eq_iff_iff, lock_ok_iff hgrow, lock_ok_iff (hs.growing id)]
    rcases hframe.locks (tab, rid) with heq | ⟨hempty, hid, -⟩
    · rw [heq]
    · rw [hempty, hid]
      simp
  rw [rowSeen, rowSeen, hlock, hrow, hmark]

end

theorem requestEnd_same (db : Schema T I) (s : Db T I) (id : Int) : Same s (s.requestEnd db id) := by
  have hrefl : Same s s := ⟨fun _ => rfl, fun _ => rfl⟩
  rw [requestEnd]
  split
  · split
    · exact hrefl
    · exact ⟨fun _ => rfl, fun _ => rfl⟩
  · exact hrefl

/-! ### The loop over the rows -/

section
variable [DecidableEq I] {s t u : Db T I} {id : Int} {tab : T} {set : List (SetClause (db.tab tab))}

/-- The loop leaves rows alone that it does not come to. -/
theorem forRows_update_row (hs : Sane db s) (hact : (s.txnMap id).isSome) {rids : List (db.SlotRid tab)} {rid : Rid}
    (hrid : rid ∉ rids.map (·.val)) {e : Option Raised}
    (h : forRows (updateRow db id tab set) (rids.map (·.val)) s = .ok (t, e)) : t.row tab rid = s.row tab rid := by
  have hrow : ∀ u q, (Sane db u ∧ (u.txnMap id).isSome ∧ u.row tab rid = s.row tab rid) → q ∈ rids.map (·.val) → True →
      ∃ v e, updateRow db id tab set u q = .ok (v, e) ∧ Sane db v ∧ (v.txnMap id).isSome ∧ v.row tab rid = s.row tab rid := by
    rintro u q ⟨hu, hact, hrow⟩ hq -
    obtain ⟨r, -, rfl⟩ := List.mem_map.mp hq
    have hne : rid ≠ r.val := fun heq => hrid (heq ▸ hq)
    rcases updateRow_spec hact (hu.files tab) r.property set with ⟨v, e, hop, ⟨hquiet, -⟩ | ⟨old, new, -, -, -, hout⟩⟩
    · exact ⟨v, e, hop, hu.quiet hquiet, by rw [hquiet.active]; exact hact, by rw [hquiet.row]; exact hrow⟩
    · cases hout with
      | uniqueCheck _ _ _ _ _ _ hquiet =>
        exact ⟨v, _, hop, hu.quiet hquiet, by rw [hquiet.active]; exact hact, by rw [hquiet.row]; exact hrow⟩
      | abort _ hquiet =>
        exact ⟨v, _, hop, hu.quiet hquiet, by rw [hquiet.active]; exact hact, by rw [hquiet.row]; exact hrow⟩
      | done _ _ hw =>
        refine ⟨v, _, hop, hu.wrote hw, by rw [hw.active]; exact hact, ?_⟩
        rw [hw.rows (tab, rid) fun heq => hne (congrArg (·.2) heq)]
        exact hrow
  obtain ⟨v, e', hv, -, -, hv'⟩ := forRows_rule hrow (List.Subset.refl _) ⟨hs, hact, rfl⟩
    (rowsMeet_of_forall (fun _ _ => trivial) _ s)
  rw [h] at hv
  cases hv
  exact hv'

/-- A row that gets the record that it has. -/
theorem Wrote.same {rid : Rid} {rec : Bytes} {w : WriteRecord T I} (hrow : s.row tab rid = some rec) (hrow' : t.row tab rid = some rec)
    (hw : Wrote db id (tab, rid) (deletions db rid rec (changed db rec rec (db.indexes tab)) ++
      insertions db rid rec (changed db rec rec (db.indexes tab))) w [] s t) : Same s t := by
  have hnone : changed db rec rec (db.indexes tab) = [] := List.filter_eq_nil_iff.mpr fun i _ => by simp
  refine ⟨fun row => ?_, fun p => ?_⟩
  · by_cases hr : row = (tab, rid)
    · subst hr
      exact hrow'.trans hrow.symm
    · exact hw.rows row hr
  · rw [hw.gained.2, hnone]
    have hrec := hw.record
    cases w with
    | insertTuple => rfl
    | updateTuple => rfl
    | deleteTuple => rfl
    | ixInsertTuple => cases hrec
    | ixDeleteTuple => cases hrec

/-- An UPDATE that raises an exception, in a state that agrees with `s` on its rows. -/
theorem forRows_same_iff (hu : Sane db u) (hact : (u.txnMap id).isSome) (hsame : Same s u) {rids : List (db.SlotRid tab)}
    (hnodup : rids.Nodup) (hseen : ∀ rid ∈ rids, rowSeen db u id tab rid.val = rowSeen db s id tab rid.val) {e : Raised}
    (h : forRows (updateRow db id tab set) (rids.map (·.val)) u = .ok (t, some e)) (he : e ≠ .transactionAbort) :
    Same s t ↔ Harmless db s id tab set (rids.map (·.val)) := by
  induction rids generalizing u with
  | nil => cases h
  | cons r rids ih =>
    obtain ⟨hr, hnodup⟩ := List.nodup_cons.mp hnodup
    obtain ⟨hseen₀, hseen⟩ := List.forall_mem_cons.mp hseen
    have hother : ∀ q ∈ rids, q.val ≠ r.val := by
      rintro q hq heq
      exact hr (Subtype.ext heq ▸ hq)
    obtain ⟨v, e', hop, hcase⟩ := updateRow_spec hact (hu.files tab) r.property set
    simp only [List.map_cons, forRows, hop, bind, Except.bind] at h
    simp only [List.map_cons, Harmless, ← hseen₀]
    rcases hcase with ⟨hq, ⟨hskip, rfl⟩ | ⟨hset, hskip, hraise⟩⟩ | ⟨old, new, hold, hset, -, hout⟩
    · -- the row is not visible
      rw [hskip]
      refine ih (hu.quiet hq) (by rw [hq.active]; exact hact) (hsame.trans hq.same) hnodup (fun q hmem => ?_) h
      exact (rowSeen_of_frame hu hq.toFrame (hq.row tab q.val) (congrFun hq.mvccMap _)).trans (hseen q hmem)
    · -- the row cannot be locked or read, or a SET clause fails
      obtain ⟨e', rfl⟩ := Option.ne_none_iff_exists'.mp hraise
      cases h
      refine ⟨fun _ => ?_, fun _ => hsame.trans hq.same⟩
      cases hx : rowSeen db u id tab r.val with
      | none => trivial
      | some o =>
        cases o with
        | none => exact absurd hx hskip
        | some old =>
          cases hset' : applySet set old with
          | error => simp only [hset']
          | ok new => exact absurd hset' (hset old new hx)
    · rw [hold]
      simp only [hset, ← hsame.removed, ← hsame.taken]
      cases hout with
      | uniqueCheck pre post i hsplit htaken hpre hq =>
        cases h
        have hany : ((changed db old new (db.indexes tab)).any fun i => u.taken db i (db.keyBytes i new) r.val) = true :=
          List.any_eq_true.mpr ⟨i, by rw [hsplit]; simp, htaken⟩
        rw [if_pos hany, removed_of_taken hsplit htaken hpre]
        exact same_of_removed_iff hsame hq
      | abort =>
        cases h
        exact absurd rfl he
      | done hfree hrow hw =>
        have hany : ¬((changed db old new (db.indexes tab)).any fun i => u.taken db i (db.keyBytes i new) r.val) = true := by
          rw [List.any_eq_true]
          rintro ⟨i, hi, htaken⟩
          rw [hfree i hi] at htaken
          cases htaken
        rw [if_neg hany]
        have hactv : (v.txnMap id).isSome := by
          rw [hw.active]
          exact hact
        by_cases hnew : new = old
        · subst hnew
          rw [and_iff_right rfl]
          have hread := (gets_of_rowSeen hold).2
          refine ih (hu.wrote hw) hactv (hsame.trans (hw.same hread.2 hrow)) hnodup (fun q hmem => ?_) h
          have hne : (tab, q.val) ≠ (tab, r.val) := fun heq => hother q hmem (congrArg (·.2) heq)
          have hmark : (tab, db.slot tab q.val) ≠ (tab, db.slot tab r.val) :=
            fun heq => hother q hmem (slot_inj q.property r.property (congrArg (·.2) heq))
          exact (rowSeen_of_frame hu hw.toFrame (hw.rows (tab, q.val) hne) (hw.marks _ hmark)).trans (hseen q hmem)
        · -- the row keeps its new record
          refine ⟨fun hst => ?_, fun hh => absurd hh.1 hnew⟩
          have hkept : t.row tab r.val = v.row tab r.val := by
            refine forRows_update_row (hu.wrote hw) hactv (fun hmem => ?_) h
            obtain ⟨q, hq, heq⟩ := List.mem_map.mp hmem
            exact hother q hq heq
          have hs : s.row tab r.val = some old := (hsame.rows (tab, r.val)).symm.trans (gets_of_rowSeen hold).2.2
          rw [hst.rows (tab, r.val), hs, hrow] at hkept
          exact absurd (Option.some.inj hkept).symm hnew

/-- When an UPDATE that raises an exception, other than one that aborts the transaction, has done nothing at the end of the
    request. -/
theorem updateNext_same_iff {pre : List (Act db)} (hreach : Runs.exec (step db) (Db.init db) pre = .ok s)
    {x : Transaction T I} (hx : s.txnMap id = some x) {rids : List (db.SlotRid tab)} (hnodup : rids.Nodup) {e : Raised}
    (h : (s.setTransaction id x).updateNext db id tab (rids.map (·.val)) set = .ok (t, some e)) (he : e ≠ .transactionAbort) :
    Same s (t.requestEnd db id) ↔ Harmless db s id tab set (rids.map (·.val)) := by
  have hs : Sane db s := Sane.init.exec hreach
  have hq := quiet_setTransaction db s id x
  have hact : ((s.setTransaction id x).txnMap id).isSome := by
    rw [hq.active, hx]
    rfl
  have hend := requestEnd_same db t id
  have hiff : Same s (t.requestEnd db id) ↔ Same s t :=
    ⟨fun k => ⟨fun row => (hend.rows row).symm.trans (k.rows row), fun p => (hend.ihs p).symm.trans (k.ihs p)⟩, fun k => k.trans hend⟩
  rw [hiff]
  refine forRows_same_iff (hs.quiet hq) hact hq.same hnodup (fun rid _ => ?_) h he
  exact rowSeen_of_frame hs hq.toFrame (hq.row tab rid.val) (congrFun hq.mvccMap _)

end

end Db

theorem secondCol_mem : secondCol ∈ pairTab.cols := by decide

theorem secondCol_length (n : UInt8) : [n, 0, 0, 0].length = secondCol.len := rfl

/-- `SET b = n`. -/
def setSecond (n : UInt8) : SetClause pairTab := ⟨secondCol, secondCol_mem, fun _ => .ok ⟨[n, 0, 0, 0], secondCol_length n⟩⟩

/-- Transaction 1 inserts two rows and commits. -/
def insertTwo : List (Act pairDb) := [.begin true, .begin true, .begin true, pairInsert 1 5 6, pairInsert 1 7 8, .commit 1]

def firstRid : List (pairDb.SlotRid ()) := [⟨⟨1, 0⟩, firstSlot⟩]

theorem firstRid_nodup : firstRid.Nodup := List.nodup_singleton _

/-- `UPDATE t SET a = 9, b = 8` on the first row: the second row has 8. -/
theorem insertTwo_eval : ∃ s x t, Runs.exec (Db.step pairDb) (Db.init pairDb) insertTwo = .ok s ∧ s.txnMap 2 = some x ∧
    (s.setTransaction 2 x).updateNext pairDb 2 () (firstRid.map (·.val)) [setNum 9, setSecond 8] = .ok (t, some .uniqueCheck) ∧
    s.ihs (false, [5, 0, 0, 0]) = some ⟨1, 0⟩ ∧ (t.requestEnd pairDb 2).ihs (false, [5, 0, 0, 0]) = none := by
  obtain ⟨s, hs, hview⟩ := Runs.exec_eval (Db.step pairDb) (Db.init pairDb) insertTwo
    (fun s => (s.txnMap 2).bind fun x =>
      ((s.setTransaction 2 x).updateNext pairDb 2 () (firstRid.map (·.val)) [setNum 9, setSecond 8]).toOption.map fun r =>
        (r.2, s.ihs (false, [5, 0, 0, 0]), (r.1.requestEnd pairDb 2).ihs (false, [5, 0, 0, 0])))
    (b := some (some .uniqueCheck, some ⟨1, 0⟩, none)) (by decide)
  obtain ⟨x, hx, hview⟩ := Option.bind_eq_some_iff.mp hview
  cases hop : (s.setTransaction 2 x).updateNext pairDb 2 () (firstRid.map (·.val)) [setNum 9, setSecond 8] with
  | error e =>
    rw [hop] at hview
    cases hview
  | ok r =>
    rw [hop] at hview
    simp only [Except.toOption, Option.map_some, Option.some.injEq, Prod.mk.injEq] at hview
    obtain ⟨t, e⟩ := r
    obtain ⟨rfl, hbefore, hafter⟩ := hview
    exact ⟨s, x, t, hs, hx, hop, hbefore, hafter⟩

theorem updateNext_same_iff_taken : ∃ s x t, Runs.exec (Db.step pairDb) (Db.init pairDb) insertTwo = .ok s ∧ s.txnMap 2 = some x ∧
    (s.setTransaction 2 x).updateNext pairDb 2 () (firstRid.map (·.val)) [setNum 9, setSecond 8] = .ok (t, some .uniqueCheck) ∧
    (Db.Same s (t.requestEnd pairDb 2) ↔ Db.Harmless pairDb s 2 () [setNum 9, setSecond 8] (firstRid.map (·.val))) := by
  obtain ⟨s, x, t, hs, hx, hop, -⟩ := insertTwo_eval
  exact ⟨s, x, t, hs, hx, hop, Db.updateNext_same_iff hs hx firstRid_nodup hop (by decide)⟩

/-- The entry of the first row in the first index is gone. -/
theorem updateNext_taken : ∃ s x t, Runs.exec (Db.step pairDb) (Db.init pairDb) insertTwo = .ok s ∧ s.txnMap 2 = some x ∧
    (s.setTransaction 2 x).updateNext pairDb 2 () (firstRid.map (·.val)) [setNum 9, setSecond 8] = .ok (t, some .uniqueCheck) ∧
    ¬Db.Same s (t.requestEnd pairDb 2) := by
  obtain ⟨s, x, t, hs, hx, hop, hbefore, hafter⟩ := insertTwo_eval
  refine ⟨s, x, t, hs, hx, hop, fun h => ?_⟩
  rw [h.ihs, hbefore] at hafter
  cases hafter

end Rmdb
