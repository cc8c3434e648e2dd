import Rmdb.Theorems.Txn.Rows
import Mathlib.Logic.Relation

/-! What a step of the server can do. A statement is a sequence of moves: it locks a row, fails at a row, or writes a row. -/

namespace Rmdb
open RmFile

namespace Db
variable {T I : Type} {db : Schema T I}

/-- What holds in every state: the table files are sound, write sets name slots of record pages, ids were given out, and a
    row is locked by one active transaction that knows of it. No active transaction has released locks. -/
structure Sane (db : Schema T I) (s : Db T I) : Prop where
  files : ∀ tab, Sound (db.recordSize tab) (s.fhs tab)
  slots : ∀ id, ∀ w ∈ s.writes id, ∀ row, w.tuple? = some row → db.IsSlot row.1 row.2
  ids : ∀ id, (s.txnMap id).isSome → 0 ≤ id ∧ id < s.nextTxnId
  next : 0 ≤ s.nextTxnId
  locks : ∀ row, s.lockTable row = [] ∨ ∃ id, s.lockTable row = [id] ∧ (s.txnMap id).isSome ∧ row ∈ s.lockSet id
  growing : ∀ id x, s.txnMap id = some x → x.state ≠ .shrinking

namespace Sane
variable {s t : Db T I} {id : Int}

theorem init : Sane db (Db.init db) where
  files tab := ⟨rfl, [], Heap.create (db.accepts tab)⟩
  slots _ _ hw := by cases hw
  ids _ h := by cases h
  next := Int.le_refl 0
  locks _ := Or.inl rfl
  growing _ _ h := by cases h

/-- Two holders of a lock are one. -/
theorem holder (h : Sane db s) {row : T × Rid} {j k : Int} (hj : j ∈ s.lockTable row) (hk : k ∈ s.lockTable row) : j = k := by
  rcases h.locks row with hnone | ⟨m, hm, -⟩
  · rw [hnone] at hj
    cases hj
  · rw [hm, List.mem_singleton] at hj hk
    rw [hj, hk]

theorem of_frame (h : Sane db s) (hframe : Frame id s t) (hfiles : ∀ tab, Sound (db.recordSize tab) (t.fhs tab))
    (hslots : ∀ w ∈ t.writes id, ∀ row, w.tuple? = some row → db.IsSlot row.1 row.2) : Sane db t where
  files := hfiles
  slots j w hw row hrow := by
    by_cases hj : j = id
    · subst hj
      exact hslots w hw row hrow
    · rw [hframe.writes_ne hj] at hw
      exact h.slots j w hw row hrow
  ids j hj := by
    rw [hframe.active j] at hj
    rw [hframe.nextTxnId]
    exact h.ids j hj
  next := by
    rw [hframe.nextTxnId]
    exact h.next
  locks row := by
    rcases hframe.locks row with heq | ⟨-, hid, hact, hset⟩
    · rw [heq]
      rcases h.locks row with hnone | ⟨j, hj, hact, hset⟩
      · exact Or.inl hnone
      · refine Or.inr ⟨j, hj, by rw [hframe.active j]; exact hact, ?_⟩
        by_cases hji : j = id
        · subst hji
          exact hframe.lockSet hset
        · rwa [lockSet_of_txnMap (hframe.others j hji)]
    · exact Or.inr ⟨id, hid, by rw [hframe.active id]; exact hact, hset⟩
  growing j x hx hstate := by
    by_cases hj : j = id
    · subst hj
      obtain ⟨y, hy, hstate⟩ := hframe.phase x hx hstate
      exact h.growing j y hy hstate
    · rw [hframe.others j hj] at hx
      exact h.growing j x hx hstate

variable [DecidableEq I]

theorem quiet {ws : List (WriteRecord T I)} (h : Sane db s) (hq : Quiet db id ws s t) : Sane db t := by
  refine h.of_frame hq.toFrame (fun tab => by rw [hq.fhs]; exact h.files tab) fun w hw row hrow => ?_
  rw [hq.gained.1, List.mem_append] at hw
  rcases hw with hw | hw
  · exact h.slots id w hw row hrow
  · rw [hq.onlyIx w hw] at hrow
    cases hrow

theorem wrote {row : T × Rid} {a b : List (WriteRecord T I)} {w : WriteRecord T I} (h : Sane db s)
    (hw : Wrote db id row a w b s t) : Sane db t := by
  refine h.of_frame hw.toFrame (fun tab => hw.files tab (h.files tab)) fun v hv r hr => ?_
  rw [hw.gained.1, List.mem_append, List.mem_append, List.mem_cons] at hv
  rcases hv with hv | hv | rfl | hv
  · exact h.slots id v hv r hr
  · rw [hw.before v hv] at hr
    cases hr
  · rw [hw.record] at hr
    cases hr
    exact hw.slot
  · rw [hw.behind v hv] at hr
    cases hr

end Sane

section Begin
variable {s : Db T I} {txnMode : Bool} {j : Int}

theorem txnMap_begin_ne (h : j ≠ s.nextTxnId) : (s.begin txnMode).txnMap j = s.txnMap j := Function.update_of_ne h _ _

theorem txnMap_begin_self :
    (s.begin txnMode).txnMap s.nextTxnId = some ⟨.growing, txnMode, s.nextTimestamp, [], [], false⟩ := Function.update_self _ _ _

/-- A new transaction has written nothing. -/
theorem writes_begin (h : Sane db s) : (s.begin txnMode).writes j = s.writes j := by
  by_cases hj : j = s.nextTxnId
  · subst hj
    have hold : s.txnMap s.nextTxnId = none := by
      rw [← Option.not_isSome_iff_eq_none]
      intro hact
      have := (h.ids _ hact).2
      omega
    rw [writes_some txnMap_begin_self, writes_none hold]
  · exact writes_of_txnMap (txnMap_begin_ne hj)

theorem Sane.begin (h : Sane db s) (txnMode : Bool) : Sane db (s.begin txnMode) where
  files := h.files
  slots j w hw row hrow := by
    rw [writes_begin h] at hw
    exact h.slots j w hw row hrow
  ids j hj := by
    have hlt : (s.begin txnMode).nextTxnId = s.nextTxnId + 1 := rfl
    have hnext := h.next
    by_cases hji : j = s.nextTxnId
    · omega
    · rw [txnMap_begin_ne hji] at hj
      have := h.ids j hj
      omega
  next := by
    have hlt : (s.begin txnMode).nextTxnId = s.nextTxnId + 1 := rfl
    have hnext := h.next
    omega
  locks row := by
    rcases h.locks row with hnone | ⟨j, hj, hact, hset⟩
    · exact Or.inl hnone
    · have hne : j ≠ s.nextTxnId := by
        have := (h.ids j hact).2
        omega
      refine Or.inr ⟨j, hj, ?_, ?_⟩
      · rw [txnMap_begin_ne hne]
        exact hact
      · rwa [lockSet_of_txnMap (txnMap_begin_ne hne)]
  growing j x hx := by
    by_cases hj : j = s.nextTxnId
    · subst hj
      rw [txnMap_begin_self] at hx
      cases hx
      simp
    · rw [txnMap_begin_ne hj] at hx
      exact h.growing j x hx

end Begin

/-! ### The rows of a statement -/

/-- The condition holds of every row that the loop comes to, in the state that it finds. -/
def RowsMeet (C : Db T I → Rid → Prop) (row : Db T I → Rid → Except RmError (Db T I × Option Raised)) :
    List Rid → Db T I → Prop
  | [], _ => True
  | rid :: rids, s => C s rid ∧ ∀ t, row s rid = .ok (t, none) → RowsMeet C row rids t

/-- What every row keeps is kept by the loop over the rows. -/
theorem forRows_rule {J : Db T I → Prop} {C : Db T I → Rid → Prop}
    {row : Db T I → Rid → Except RmError (Db T I × Option Raised)} {all rids : List Rid}
    (hrow : ∀ s rid, J s → rid ∈ all → C s rid → ∃ t e, row s rid = .ok (t, e) ∧ J t) (hsub : rids ⊆ all) {s : Db T I}
    (hs : J s) (hmeet : RowsMeet C row rids s) : ∃ t e, forRows row rids s = .ok (t, e) ∧ J t := by
  induction rids generalizing s with
  | nil => exact ⟨s, none, rfl, hs⟩
  | cons rid rids ih =>
    obtain ⟨hC, hmeet⟩ := hmeet
    obtain ⟨hrid, hsub⟩ := List.cons_subset.mp hsub
    obtain ⟨t, e, hop, ht⟩ := hrow s rid hs hrid hC
    cases e with
    | some e => exact ⟨t, some e, by simp only [forRows, hop, bind, Except.bind], ht⟩
    | none =>
      obtain ⟨u, e, hrest, hu⟩ := ih hsub ht (hmeet t hop)
      exact ⟨u, e, by simp only [forRows, hop, bind, Except.bind, hrest], hu⟩

theorem rowsMeet_of_forall {D : Db T I → Rid → Prop} (h : ∀ u rid, D u rid)
    {row : Db T I → Rid → Except RmError (Db T I × Option Raised)} (rids : List Rid) (s : Db T I) : RowsMeet D row rids s := by
  induction rids generalizing s with
  | nil => trivial
  | cons rid rids ih => exact ⟨h s rid, fun t _ => ih t⟩

/-! ### Moves -/

/-- A row that an UPDATE or a DELETE has locked and read: its record, the one that it gets (the same for a DELETE), and the
    indexes whose entries are removed next. -/
structure RowWork (T I : Type) where
  tab : T
  rid : Rid
  old : Bytes
  new : Bytes
  ixs : List I

/-- The row without its work. -/
def RowWork.row {T I : Type} (r : RowWork T I) : T × Rid := (r.tab, r.rid)

/-- A condition on the rows of the statements of a transaction. -/
abbrev RowCond (T I : Type) := Db T I → Int → RowWork T I → Prop

variable [DecidableEq I]

section
variable [DecidableEq T]

/-- The condition holds of every row that an UPDATE or a DELETE goes on with. -/
def StmtMeets (C : RowCond T I) : Act db → Db T I → Prop
  | .update id tab rids set, s =>
    RowsMeet (fun u rid => ∀ old new, Gets db u id tab rid old → applySet set old = .ok new →
      C u id ⟨tab, rid, old, new, removed db u rid old new (db.indexes tab)⟩) (updateRow db id tab set) (rids.map (·.val)) s
  | .delete id tab rids, s =>
    RowsMeet (fun u rid => ∀ rec, Gets db u id tab rid rec → C u id ⟨tab, rid, rec, rec, db.indexes tab⟩) (deleteRow db id tab)
      (rids.map (·.val)) s
  | .begin _, _ | .insert .., _ | .commit _, _ | .abort _, _ => True

end

/-- A move of a statement of transaction `id`, on a row with `C`. -/
inductive Move (C : RowCond T I) (id : Int) : Act db → Db T I → Db T I → Prop where
  | quiet {a : Act db} {s t : Db T I} : Quiet db id [] s t → Move C id a s t
  | insert {tab : T} {values : List (Except ExecError Bytes)} {s t : Db T I} (rid : Rid) (rec : Bytes) :
    (∀ i ∈ db.indexes tab, s.ihs (i, db.key i rec) = none) →
    Wrote db id (tab, rid) [] (.insertTuple tab rid rec) (insertions db rid rec (db.indexes tab)) s t →
    Move C id (.insert id tab values) s t
  | update {tab : T} {rids : List (db.SlotRid tab)} {set : List (SetClause (db.tab tab))} {s t : Db T I} (rid : Rid)
    (old new : Bytes) (e : Option Raised) : Reads db s id tab rid old → applySet set old = .ok new →
    C s id ⟨tab, rid, old, new, removed db s rid old new (db.indexes tab)⟩ → id ∈ t.lockTable (tab, rid) →
    UpdateOutcome db id tab rid old new s t e → Move C id (.update id tab rids set) s t
  | deleteFailed {tab : T} {rids : List (db.SlotRid tab)} {s t : Db T I} (rid : Rid) (rec : Bytes) :
    Reads db s id tab rid rec → C s id ⟨tab, rid, rec, rec, db.indexes tab⟩ → id ∈ t.lockTable (tab, rid) →
    Quiet db id (deletions db rid rec (db.indexes tab)) s t → Move C id (.delete id tab rids) s t
  | delete {tab : T} {rids : List (db.SlotRid tab)} {s t : Db T I} (rid : Rid) (rec : Bytes) :
    Reads db s id tab rid rec → C s id ⟨tab, rid, rec, rec, db.indexes tab⟩ →
    Wrote db id (tab, rid) (deletions db rid rec (db.indexes tab)) (.deleteTuple tab rid rec) [] s t →
    Move C id (.delete id tab rids) s t

/-- The moves of a statement. -/
abbrev Moves (C : RowCond T I) (id : Int) (a : Act db) : Db T I → Db T I → Prop := Relation.ReflTransGen (Move C id a)

section
variable {C : RowCond T I} {s t : Db T I} {id : Int} {a : Act db}

/-- A move locks rows and removes entries, or writes a row. -/
theorem Move.cases (h : Move C id a s t) :
    (∃ ws, Quiet db id ws s t) ∨ ∃ row a' w b, Wrote db id row a' w b s t ∧
      (∀ tab rid rec, w = .insertTuple tab rid rec → ∃ values, a = .insert id tab values) ∧
      (∀ tab rid old, w = .updateTuple tab rid old → ∃ rids set, a = .update id tab rids set) ∧
      ((∃ rec, w = .insertTuple row.1 row.2 rec) ∨ ∃ r, C s id r ∧ r.row = row) := by
  cases h with
  | quiet hq => exact Or.inl ⟨_, hq⟩
  | @insert tab values _ _ rid rec _ hw =>
    refine Or.inr ⟨_, _, _, _, hw, ?_, ?_, Or.inl ⟨rec, rfl⟩⟩
    · intro _ _ _ heq
      cases heq
      exact ⟨values, rfl⟩
    · intro _ _ _ heq
      cases heq
  | @update tab rids set _ _ rid old new e _ _ hC _ hout =>
    cases hout with
    | uniqueCheck _ _ _ _ _ _ hq => exact Or.inl ⟨_, hq⟩
    | abort _ hq => exact Or.inl ⟨_, hq⟩
    | done _ _ hw =>
      refine Or.inr ⟨_, _, _, _, hw, ?_, ?_, Or.inr ⟨_, hC, rfl⟩⟩
      · intro _ _ _ heq
        cases heq
      · intro _ _ _ heq
        cases heq
        exact ⟨rids, set, rfl⟩
  | deleteFailed _ _ _ _ _ hq => exact Or.inl ⟨_, hq⟩
  | delete _ _ _ hC hw =>
    refine Or.inr ⟨_, _, _, _, hw, ?_, ?_, Or.inr ⟨_, hC, rfl⟩⟩
    · intro _ _ _ heq
      cases heq
    · intro _ _ _ heq
      cases heq

theorem Move.frame (h : Move C id a s t) : Frame id s t := by
  rcases h.cases with ⟨ws, hq⟩ | ⟨_, _, _, _, hw, -⟩
  · exact hq.toFrame
  · exact hw.toFrame

theorem Sane.move (h : Sane db s) (hm : Move C id a s t) : Sane db t := by
  rcases hm.cases with ⟨ws, hq⟩ | ⟨_, _, _, _, hw, -⟩
  · exact h.quiet hq
  · exact h.wrote hw

theorem Sane.moves (h : Sane db s) (hm : Moves C id a s t) : Sane db t := by
  induction hm with
  | refl => exact h
  | tail _ hm ih => exact ih.move hm

theorem Moves.frame (h : Moves C id a s t) : Frame id s t := by
  induction h with
  | refl => exact Frame.refl id s
  | tail _ hm ih => exact ih.trans hm.frame

variable [DecidableEq T]

theorem insertNext_moves (h : Sane db s) (hact : (s.txnMap id).isSome) (tab : T) (values : List (Except ExecError Bytes)) :
    ∃ t e, s.insertNext db id tab values = .ok (t, e) ∧ Moves C id (.insert id tab values : Act db) s t := by
  rcases insertNext_spec hact (h.files tab) values with ⟨e, hop, -⟩ | ⟨t, rid, rec, hop, hw, hfree⟩
  · exact ⟨s, some e, hop, .refl⟩
  · exact ⟨t, none, hop, .single (.insert rid rec hfree hw)⟩

theorem updateNext_moves (h : Sane db s) (hact : (s.txnMap id).isSome) (tab : T) (rids : List (db.SlotRid tab))
    (set : List (SetClause (db.tab tab))) (hmeet : StmtMeets C (.update id tab rids set) s) :
    ∃ t e, s.updateNext db id tab (rids.map (·.val)) set = .ok (t, e) ∧ Moves C id (.update id tab rids set) s t := by
  refine forRows_rule ?_ (List.Subset.refl _) .refl hmeet
  intro u rid hu hrid hC
  obtain ⟨r, -, rfl⟩ := List.mem_map.mp hrid
  have hact' : (u.txnMap id).isSome := by
    rw [hu.frame.active]
    exact hact
  obtain ⟨v, e, hop, ⟨hq, -⟩ | ⟨old, new, hseen, hset, hlock, hout⟩⟩ :=
    updateRow_spec hact' ((h.moves hu).files tab) r.property set
  · exact ⟨v, e, hop, hu.tail (.quiet hq)⟩
  · have hread := gets_of_rowSeen hseen
    exact ⟨v, e, hop, hu.tail (.update r.val old new e hread.2 hset (hC old new hread hset) hlock hout)⟩

theorem deleteNext_moves (h : Sane db s) (hact : (s.txnMap id).isSome) (tab : T) (rids : List (db.SlotRid tab))
    (hmeet : StmtMeets C (.delete id tab rids) s) :
    ∃ t e, s.deleteNext db id tab (rids.map (·.val)) = .ok (t, e) ∧ Moves C id (.delete id tab rids) s t := by
  refine forRows_rule ?_ (List.Subset.refl _) .refl hmeet
  intro u rid hu hrid hC
  obtain ⟨r, -, rfl⟩ := List.mem_map.mp hrid
  have hact' : (u.txnMap id).isSome := by
    rw [hu.frame.active]
    exact hact
  obtain ⟨v, e, hop, -, hq | ⟨rec, hread, hlock, ⟨-, hq⟩ | ⟨-, hw⟩⟩⟩ :=
    deleteRow_spec hact' ((h.moves hu).files tab) r.property
  · exact ⟨v, e, hop, hu.tail (.quiet hq)⟩
  · exact ⟨v, e, hop, hu.tail (.deleteFailed r.val rec hread.2 (hC rec hread) hlock hq)⟩
  · exact ⟨v, e, hop, hu.tail (.delete r.val rec hread.2 (hC rec hread) hw)⟩

end

/-! ### Steps -/

/-- The transaction that makes a statement. -/
def stmtTxn? : Act db → Option Int
  | .insert id .. | .update id .. | .delete id .. => some id
  | .begin _ | .commit _ | .abort _ => none

theorem quiet_setTransaction (db : Schema T I) (s : Db T I) (id : Int) (x : Transaction T I) :
    Quiet db id [] s (s.setTransaction id x) := by
  unfold setTransaction
  split
  · have hclock : Quiet db id [] s { s with nextTimestamp := s.nextTimestamp + 1 } :=
      { Frame.of_eq rfl rfl rfl with
        fhs := rfl
        mvccMap := rfl
        chains := rfl
        gained := ⟨(List.append_nil _).symm, fun _ => rfl⟩
        onlyIx := by simp }
    exact hclock.trans (Quiet.modify _ _ (fun _ => rfl) (fun _ => rfl) fun _ h => h)
  · exact Quiet.refl id s

theorem quiet_afterStatement (db : Schema T I) (id : Int) (r : Db T I × Option Raised) :
    Quiet db id [] r.1 (afterStatement id r) := by
  unfold afterStatement
  split
  · exact Quiet.modify _ _ (fun _ => rfl) (fun _ => rfl) fun _ h => h
  · exact Quiet.refl id r.1

variable [DecidableEq T]

/-- The rows of the statement, if the step is one, meet the condition. -/
def StepMeets (C : RowCond T I) (s : Db T I) (a : Act db) : Prop :=
  ∀ id x, stmtTxn? a = some id → s.txnMap id = some x → x.mustAbort = false → StmtMeets C a (s.setTransaction id x)

theorem stepMeets_true (s : Db T I) (a : Act db) : StepMeets (fun _ _ _ => True) s a := by
  intro id x _ _ _
  cases a with
  | update id tab rids set => exact rowsMeet_of_forall (fun _ _ _ _ _ _ => trivial) _ _
  | delete id tab rids => exact rowsMeet_of_forall (fun _ _ _ _ => trivial) _ _
  | begin => trivial
  | insert => trivial
  | commit => trivial
  | abort => trivial

/-- Nothing happens: the transaction is not active, or it can only be aborted. -/
def Idles (s : Db T I) : Act db → Prop
  | .begin _ => False
  | .insert id .. | .update id .. | .delete id .. | .commit id => ∀ x, s.txnMap id = some x → x.mustAbort = true
  | .abort id => s.txnMap id = none

/-- What a step can do. -/
inductive Stepped (C : RowCond T I) (s : Db T I) : Act db → Db T I → Prop where
  | idle (a : Act db) : Idles s a → Stepped C s a s
  | begin (txnMode : Bool) : Stepped C s (.begin txnMode) (s.begin txnMode)
  | statement (a : Act db) (id : Int) (t : Db T I) : stmtTxn? a = some id → (s.txnMap id).isSome → Moves C id a s t →
    Stepped C s a t
  | commit (id : Int) (x : Transaction T I) : s.txnMap id = some x → x.mustAbort = false →
    Stepped C s (.commit id) (s.commitTxn db id x)
  | abort (id : Int) (x : Transaction T I) : s.txnMap id = some x → Stepped C s (.abort id) (s.abortTxn db id x)

section
variable {C : RowCond T I} {s t : Db T I} {id : Int} {a : Act db}

theorem statement_spec (h : Sane db s) (ha : stmtTxn? a = some id) (hmeet : StepMeets C s a)
    {next : Db T I → Except RmError (Db T I × Option Raised)}
    (hnext : ∀ u, Sane db u → (u.txnMap id).isSome → StmtMeets C a u → ∃ t e, next u = .ok (t, e) ∧ Moves C id a u t) :
    ∃ t, s.statement id next = .ok t ∧ Stepped C s a t := by
  have hidle : (∀ x, s.txnMap id = some x → x.mustAbort = true) → Idles s a := by
    intro h
    cases a with
    | insert => exact Option.some.inj ha ▸ h
    | update => exact Option.some.inj ha ▸ h
    | delete => exact Option.some.inj ha ▸ h
    | begin => cases ha
    | commit => cases ha
    | abort => cases ha
  cases hx : s.txnMap id with
  | none => exact ⟨s, by simp only [statement, withTxn, hx], .idle a (hidle (by simp [hx]))⟩
  | some x =>
    cases hmust : x.mustAbort with
    | true => exact ⟨s, by simp only [statement, withTxn, hx, hmust, if_true], .idle a (hidle (by simp [hx, hmust]))⟩
    | false =>
      have hact : (s.txnMap id).isSome := by rw [hx]; rfl
      have hq := quiet_setTransaction db s id x
      obtain ⟨t, e, hop, hm⟩ := hnext _ (h.quiet hq) (by rw [hq.active]; exact hact) (hmeet id x ha hx hmust)
      have hend := quiet_afterStatement db id (t, e)
      refine ⟨afterStatement id (t, e), ?_, .statement a id _ ha hact ?_⟩
      · simp only [statement, withTxn, hx, hmust, hop, Bool.false_eq_true, if_false]
      · exact (Relation.ReflTransGen.head (Move.quiet hq) hm).tail (Move.quiet hend)

/-- Every step is one of those, until a counter runs over. -/
theorem step_spec (h : Sane db s) (hfits : s.Fits) (hmeet : StepMeets C s a) : ∃ t, step db s a = .ok t ∧ Stepped C s a t := by
  cases a with
  | begin txnMode => exact ⟨s.begin txnMode, by simp only [step, if_pos hfits], .begin txnMode⟩
  | insert id tab values =>
    simp only [step, if_pos hfits]
    exact statement_spec h rfl hmeet fun u hu hact _ => insertNext_moves hu hact tab values
  | update id tab rids set =>
    simp only [step, if_pos hfits]
    exact statement_spec h rfl hmeet fun u hu hact => updateNext_moves hu hact tab rids set
  | delete id tab rids =>
    simp only [step, if_pos hfits]
    exact statement_spec h rfl hmeet fun u hu hact => deleteNext_moves hu hact tab rids
  | commit id =>
    simp only [step, if_pos hfits, withTxn]
    cases hx : s.txnMap id with
    | none => exact ⟨s, rfl, .idle _ fun x h => by rw [hx] at h; cases h⟩
    | some x =>
      cases hmust : x.mustAbort with
      | true => exact ⟨s, by simp only [hmust, if_true], .idle _ fun y h => by rw [hx] at h; cases h; exact hmust⟩
      | false => exact ⟨s.commitTxn db id x, by simp only [hmust, Bool.false_eq_true, if_false], .commit id x hx hmust⟩
  | abort id =>
    simp only [step, if_pos hfits, withTxn]
    cases hx : s.txnMap id with
    | none => exact ⟨s, rfl, .idle _ hx⟩
    | some x => exact ⟨s.abortTxn db id x, rfl, .abort id x hx⟩

theorem fits_of_step (h : step db s a = .ok t) : s.Fits := by
  by_contra hfits
  simp only [step, if_neg hfits] at h
  cases h

theorem fits_of_exec {as : List (Act db)} (h : Runs.exec (step db) s as = .ok t) :
    Runs.Throughout (step db) (fun s _ => s.Fits) s as :=
  (Runs.throughout_of_exec h).imp fun _ _ hu => fits_of_step hu.choose_spec

end

end Db
end Rmdb
