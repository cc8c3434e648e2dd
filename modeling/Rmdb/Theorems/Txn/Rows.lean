import Rmdb.Theorems.Txn.Effects
import Mathlib.Data.List.TakeWhile

/-! What INSERT, UPDATE and DELETE do to one row: either nothing but locks and index entries, or a write of the row with
its record in the write set. -/

namespace Rmdb
open RmFile

namespace Db
variable {T I : Type} {db : Schema T I}

/-- The rows of two slots with one mark are one row. -/
theorem slot_inj {tab : T} {r q : Rid} (hr : db.IsSlot tab r) (hq : db.IsSlot tab q) (h : db.slot tab r = db.slot tab q) :
    r = q := by
  obtain ⟨-, hr0, hr1⟩ := hr
  obtain ⟨-, hq0, hq1⟩ := hq
  have hn : (db.perPage tab : Int) ≠ 0 := by omega
  have hmod := congrArg (· % (db.perPage tab : Int)) h
  have hdiv := congrArg (· / (db.perPage tab : Int)) h
  simp only [Schema.slot, Int.add_comm (_ * _), Int.add_mul_ediv_right _ _ hn,
    Int.ediv_eq_zero_of_lt hr0 hr1, Int.ediv_eq_zero_of_lt hq0 hq1, Int.add_mul_emod_self_right, Int.emod_eq_of_lt hr0 hr1,
    Int.emod_eq_of_lt hq0 hq1, Int.zero_add] at hmod hdiv
  cases r
  cases q
  simp only at hmod hdiv
  rw [hmod, hdiv]

/-- The record of a row that the transaction sees. -/
def Reads (db : Schema T I) (s : Db T I) (id : Int) (tab : T) (rid : Rid) (rec : Bytes) : Prop :=
  visitRecord (s.mvccMap (tab, db.slot tab rid)) id = .success ∧ s.row tab rid = some rec

/-- `get_record_mvcc` on a table file. -/
theorem getRecordMvcc_spec {s : Db T I} {tab : T} (hfile : Sound (db.recordSize tab) (s.fhs tab)) {rid : Rid}
    (hslot : db.IsSlot tab rid) (id : Int) :
    (∃ rec, Reads db s id tab rid rec ∧ s.getRecordMvcc db id tab rid = .ok (some rec)) ∨
      (visitRecord (s.mvccMap (tab, db.slot tab rid)) id ≠ .success ∧ s.getRecordMvcc db id tab rid = .ok none) ∨
      (visitRecord (s.mvccMap (tab, db.slot tab rid)) id = .success ∧ s.row tab rid = none ∧
        ∃ n, s.getRecordMvcc db id tab rid = .error (.recordNotFound rid.pageNo n)) := by
  obtain ⟨hper, l, H⟩ := hfile
  by_cases hvisit : visitRecord (s.mvccMap (tab, db.slot tab rid)) id = .success
  · rw [getRecordMvcc, if_pos hvisit]
    rcases (H.getRecord hslot.1 (by rw [hper]; exact hslot.2)) with ⟨hnone, n, hget⟩ | ⟨rec, hsome, hget⟩
    · exact Or.inr (Or.inr ⟨hvisit, hnone, n, by rw [hget]; rfl⟩)
    · exact Or.inl ⟨rec, ⟨hvisit, hsome⟩, by rw [hget]; rfl⟩
  · rw [getRecordMvcc, if_neg hvisit]
    exact Or.inr (Or.inl ⟨hvisit, rfl⟩)

/-! ### SET clauses -/

theorem cell_memcpyAt {c d : ColMeta} (h : c.offset + c.len ≤ d.offset ∨ d.offset + d.len ≤ c.offset) {raw : Bytes}
    (hraw : raw.length = c.len) (rec : Bytes) : d.cell (memcpyAt rec c.offset raw) = d.cell rec := by
  refine List.ext_getElem? fun n => ?_
  simp only [ColMeta.cell, memcpyAt, List.getElem?_take, List.getElem?_drop, List.getElem?_mapIdx]
  split
  · next hn =>
    have hkeep : ∀ b : UInt8, (if c.offset ≤ d.offset + n then raw[d.offset + n - c.offset]?.getD b else b) = b := by
      intro b
      split
      · rw [List.getElem?_eq_none (by omega), Option.getD_none]
      · rfl
    simp [hkeep]
  · rfl

theorem applySet_keyBytes {tab : T} {set : List (SetClause (db.tab tab))} {old new : Bytes} (h : applySet set old = .ok new)
    {i : I} (hi : i ∈ db.indexes tab) (hset : ∀ sc ∈ set, ∀ c ∈ db.indexCols i, c.name ≠ sc.lhs.name) :
    db.keyBytes i old = db.keyBytes i new := by
  induction set generalizing old with
  | nil =>
    cases h
    rfl
  | cons sc set ih =>
    rw [applySet] at h
    obtain ⟨raw, -, h⟩ := Runs.ok_of_bind h
    obtain ⟨hsc, hset⟩ := List.forall_mem_cons.mp hset
    rw [← ih h hset]
    simp only [Schema.keyBytes]
    refine List.flatMap_congr fun c hc => ?_
    refine (cell_memcpyAt ?_ raw.property old).symm
    exact db.apart tab _ sc.mem c (db.sub tab i hi c hc) fun heq => hsc c hc heq.symm

theorem changed_of_not_need {tab : T} {set : List (SetClause (db.tab tab))} {old new : Bytes} (h : applySet set old = .ok new)
    (hneed : db.needUpdateIndex tab set = false) : changed db old new (db.indexes tab) = [] := by
  refine List.filter_eq_nil_iff.mpr fun i hi => ?_
  rw [Schema.needUpdateIndex, List.any_eq_false] at hneed
  have hkey : db.keyBytes i old = db.keyBytes i new := by
    refine applySet_keyBytes h hi fun sc hsc c hc heq => hneed i hi ?_
    exact List.any_eq_true.mpr ⟨sc, hsc, List.any_eq_true.mpr ⟨c, hc, by simpa using heq⟩⟩
  simpa using hkey

/-! ### Writes of a row -/

section
variable [DecidableEq T]

/-- A record is written into a table file, with the mark of the transaction. -/
structure HeapWrite (db : Schema T I) (id : Int) (row : T × Rid) (buf : Bytes) (s t : Db T I) : Prop where
  txnMap : t.txnMap = s.txnMap
  lockTable : t.lockTable = s.lockTable
  nextTxnId : t.nextTxnId = s.nextTxnId
  ihs : t.ihs = s.ihs
  chains : ∀ r, r ≠ row → t.versionChains r = s.versionChains r
  mvccMap : t.mvccMap = Function.update s.mvccMap (row.1, db.slot row.1 row.2) (some (insertMark id))
  files : ∀ tab, Sound (db.recordSize tab) (s.fhs tab) → Sound (db.recordSize tab) (t.fhs tab)
  rows : ∀ r : T × Rid, t.row r.1 r.2 = if r = row then some buf else s.row r.1 r.2

theorem HeapWrite.frame {id : Int} {row : T × Rid} {buf : Bytes} {s t : Db T I} (h : HeapWrite db id row buf s t) :
    Frame id s t := Frame.of_eq h.lockTable h.txnMap h.nextTxnId

/-- The rows of the tables after a record of one of them changed. -/
theorem rows_update {s t : Db T I} {tab : T} {f : RmFile} {rid : Rid} {v : Option Bytes}
    (hfhs : t.fhs = Function.update s.fhs tab f)
    (hget : ∀ r, f.lookup r = if r = rid then v else (s.fhs tab).lookup r) (r : T × Rid) :
    t.row r.1 r.2 = if r = (tab, rid) then v else s.row r.1 r.2 := by
  obtain ⟨tab', r⟩ := r
  rw [row, row, hfhs]
  by_cases htab : tab' = tab
  · subst htab
    simp [hget]
  · simp [htab]

theorem files_update {s t : Db T I} {tab : T} {f : RmFile} (hfhs : t.fhs = Function.update s.fhs tab f)
    (hf : Sound (db.recordSize tab) f) (tab' : T) (h : Sound (db.recordSize tab') (s.fhs tab')) :
    Sound (db.recordSize tab') (t.fhs tab') := by
  rw [hfhs]
  by_cases htab : tab' = tab
  · subst htab
    simpa using hf
  · simpa [htab] using h

theorem insertRecord_spec {s : Db T I} (id : Int) {tab : T} (hfile : Sound (db.recordSize tab) (s.fhs tab)) (buf : Bytes) :
    ∃ t rid, s.insertRecord db id tab buf = .ok (t, rid) ∧ db.IsSlot tab rid ∧ s.row tab rid = none ∧
      HeapWrite db id (tab, rid) buf s t := by
  obtain ⟨hper, l, H⟩ := hfile
  obtain ⟨f, rid, l', hop, H', hext, hin, hfresh, hget⟩ := H.insertRecord buf
  have hf : Sound (db.recordSize tab) f := ⟨hext.perPage.trans hper, l', H'⟩
  refine ⟨_, rid, by rw [insertRecord, hop]; rfl, ?_, hfresh, ?_⟩
  · obtain ⟨h0, h1, h2, -⟩ := hin
    rw [hf.1] at h1
    exact ⟨by omega, h0, h1⟩
  · exact {
      txnMap := rfl
      lockTable := rfl
      nextTxnId := rfl
      ihs := rfl
      chains := fun _ _ => rfl
      mvccMap := rfl
      files := files_update rfl hf
      rows := rows_update rfl hget }

theorem updateRecord_spec {s : Db T I} (id : Int) {tab : T} (hfile : Sound (db.recordSize tab) (s.fhs tab)) {rid : Rid}
    (hslot : db.IsSlot tab rid) {old : Bytes} (hrow : s.row tab rid = some old) (buf : Bytes) :
    ∃ t, s.updateRecord db id tab rid buf = .ok t ∧ HeapWrite db id (tab, rid) buf s t := by
  obtain ⟨hper, l, H⟩ := hfile
  have hslot' : 0 ≤ rid.slotNo ∧ rid.slotNo < (s.fhs tab).perPage := by rw [hper]; exact hslot.2
  have hlookup : (s.fhs tab).lookup rid = some old := hrow
  rcases H.getRecord hslot.1 hslot' with ⟨hnone, -⟩ | ⟨rec, -, hget⟩
  · rw [hlookup] at hnone
    cases hnone
  · rcases H.updateRecord hslot.1 hslot' buf with ⟨hnone, -⟩ | ⟨f, -, hop, H', hext, hall⟩
    · rw [hlookup] at hnone
      cases hnone
    · have hf : Sound (db.recordSize tab) f := ⟨hext.perPage.trans hper, l, H'⟩
      refine ⟨_, by rw [updateRecord, hget, hop]; rfl, ?_⟩
      exact {
        txnMap := rfl
        lockTable := rfl
        nextTxnId := rfl
        ihs := rfl
        chains := fun _ _ => rfl
        mvccMap := rfl
        files := files_update rfl hf
        rows := rows_update rfl hall }

/-- `update_record_mvcc` raises an exception and changes nothing, or writes the row. -/
theorem updateRecordMvcc_spec {s : Db T I} (id : Int) {tab : T} (hfile : Sound (db.recordSize tab) (s.fhs tab)) {rid : Rid}
    (hslot : db.IsSlot tab rid) {old : Bytes} (hrow : s.row tab rid = some old) (buf : Bytes) :
    s.updateRecordMvcc db id tab rid buf = .ok none ∨
      ∃ t, s.updateRecordMvcc db id tab rid buf = .ok (some t) ∧ HeapWrite db id (tab, rid) buf s t := by
  rw [updateRecordMvcc]
  split
  · exact Or.inl rfl
  · cases hchain : ((s.versionChains (tab, rid)).getD []).updateVersion buf id (s.readTs id) with
    | none => exact Or.inl rfl
    | some c =>
      obtain ⟨t, hop, H⟩ := updateRecord_spec (s := { s with
        versionChains := Function.update s.versionChains (tab, rid) (some c) }) id hfile hslot hrow buf
      refine Or.inr ⟨t, by simp only [hop, bind, Except.bind], ?_⟩
      exact {
        txnMap := H.txnMap
        lockTable := H.lockTable
        nextTxnId := H.nextTxnId
        ihs := H.ihs
        chains := fun r hr => (H.chains r hr).trans (Function.update_of_ne hr _ _)
        mvccMap := H.mvccMap
        files := H.files
        rows := H.rows }

theorem deleteRecordMvcc_spec {s t : Db T I} {id : Int} {tab : T} {rid : Rid} (h : s.deleteRecordMvcc id tab rid = some t) :
    ∃ c, t = { s with versionChains := Function.update s.versionChains (tab, rid) (some c) } := by
  rw [deleteRecordMvcc] at h
  obtain ⟨chain, -, h⟩ := Option.bind_eq_some_iff.mp h
  obtain ⟨c, -, h⟩ := Option.bind_eq_some_iff.mp h
  exact ⟨c, (Option.some.inj h).symm⟩

end

/-- The indexes whose entry an UPDATE of the row removes: those before the first new key that belongs to another row. -/
def removed (db : Schema T I) (s : Db T I) (rid : Rid) (old new : Bytes) (is : List I) : List I :=
  (changed db old new is).takeWhile fun i => !s.taken db i (db.keyBytes i new) rid

theorem removed_of_free {s : Db T I} {rid : Rid} {old new : Bytes} {is : List I}
    (h : ∀ k ∈ changed db old new is, s.taken db k (db.keyBytes k new) rid = false) :
    removed db s rid old new is = changed db old new is := by
  refine List.takeWhile_eq_self_iff.mpr fun k hk => ?_
  rw [h k hk]
  rfl

theorem removed_of_taken {s : Db T I} {rid : Rid} {old new : Bytes} {is pre post : List I} {i : I}
    (hsplit : changed db old new is = pre ++ i :: post) (htaken : s.taken db i (db.keyBytes i new) rid = true)
    (hpre : ∀ k ∈ pre, s.taken db k (db.keyBytes k new) rid = false) : removed db s rid old new is = pre := by
  rw [removed, hsplit, List.takeWhile_append_of_pos, List.takeWhile_cons_of_neg, List.append_nil]
  · simp [htaken]
  · intro k hk
    simp [hpre k hk]

variable [DecidableEq I]

theorem Quiet.reads {s t : Db T I} {id j : Int} {ws : List (WriteRecord T I)} (h : Quiet db id ws s t) {tab : T} {rid : Rid}
    {rec : Bytes} : Reads db t j tab rid rec ↔ Reads db s j tab rid rec := by
  rw [Reads, Reads, h.mvccMap, h.row]

theorem gained_append {s : Db T I} {id : Int} (hact : (s.txnMap id).isSome) {w : WriteRecord T I} {row : T × Rid}
    (hw : w.tuple? = some row) : Gained db id [w] s (s.appendWriteRecord id w) := by
  refine ⟨writes_append hact, fun p => ?_⟩
  cases w with
  | insertTuple => rfl
  | updateTuple => rfl
  | deleteTuple => rfl
  | ixInsertTuple => cases hw
  | ixDeleteTuple => cases hw

/-! ### A written row -/

/-- What a write record of a table says about its row before and after. -/
def RowEffect (db : Schema T I) (id : Int) (s t : Db T I) : WriteRecord T I → Prop
  | .insertTuple tab rid rec => s.row tab rid = none ∧ t.row tab rid = some rec ∧
      t.mvccMap (tab, db.slot tab rid) = some (insertMark id)
  | .updateTuple tab rid old => Reads db s id tab rid old ∧ (t.row tab rid).isSome ∧
      t.mvccMap (tab, db.slot tab rid) = some (insertMark id) ∧ id ∈ t.lockTable (tab, rid)
  | .deleteTuple tab rid rec => Reads db s id tab rid rec ∧ t.row tab rid = some rec ∧
      t.mvccMap (tab, db.slot tab rid) = s.mvccMap (tab, db.slot tab rid) ∧ id ∈ t.lockTable (tab, rid)
  | .ixInsertTuple .. | .ixDeleteTuple .. => False

/-- A row was written: the write set gained the record `w` of the row, and records of its entries before and behind it. -/
structure Wrote (db : Schema T I) (id : Int) (row : T × Rid) (a : List (WriteRecord T I)) (w : WriteRecord T I)
    (b : List (WriteRecord T I)) (s t : Db T I) : Prop extends Frame id s t where
  record : w.tuple? = some row
  slot : db.IsSlot row.1 row.2
  files : ∀ tab, Sound (db.recordSize tab) (s.fhs tab) → Sound (db.recordSize tab) (t.fhs tab)
  rows : ∀ r : T × Rid, r ≠ row → t.row r.1 r.2 = s.row r.1 r.2
  marks : ∀ m, m ≠ (row.1, db.slot row.1 row.2) → t.mvccMap m = s.mvccMap m
  chains : ∀ r, r ≠ row → t.versionChains r = s.versionChains r
  gained : Gained db id (a ++ w :: b) s t
  before : ∀ v ∈ a, v.tuple? = none
  behind : ∀ v ∈ b, v.tuple? = none
  effect : RowEffect db id s t w

/-- `UpdateExecutor::Next` on a row that is locked and read: the outcomes of its index and version checks. -/
inductive UpdateOutcome (db : Schema T I) (id : Int) (tab : T) (rid : Rid) (old new : Bytes) (s t : Db T I) :
    Option Raised → Prop where
  | uniqueCheck (pre post : List I) (i : I) : changed db old new (db.indexes tab) = pre ++ i :: post →
    s.taken db i (db.keyBytes i new) rid = true → (∀ k ∈ pre, s.taken db k (db.keyBytes k new) rid = false) →
    Quiet db id (deletions db rid old pre) s t → UpdateOutcome db id tab rid old new s t (some .uniqueCheck)
  | abort : (∀ k ∈ changed db old new (db.indexes tab), s.taken db k (db.keyBytes k new) rid = false) →
    Quiet db id (deletions db rid old (changed db old new (db.indexes tab))) s t →
    UpdateOutcome db id tab rid old new s t (some .transactionAbort)
  | done : (∀ k ∈ changed db old new (db.indexes tab), s.taken db k (db.keyBytes k new) rid = false) →
    t.row tab rid = some new →
    Wrote db id (tab, rid) (deletions db rid old (changed db old new (db.indexes tab)) ++
      insertions db rid new (changed db old new (db.indexes tab))) (.updateTuple tab rid old) [] s t →
    UpdateOutcome db id tab rid old new s t none

section
variable {s : Db T I} {id : Int}

theorem Quiet.ihs {l : Db T I} (h : Quiet db id [] s l) : l.ihs = s.ihs := funext fun p => h.gained.2 p

theorem Quiet.wrote {l t : Db T I} {row : T × Rid} {a b : List (WriteRecord T I)} {w : WriteRecord T I}
    (h : Quiet db id [] s l) (k : Wrote db id row a w b l t) : Wrote db id row a w b s t where
  toFrame := h.toFrame.trans k.toFrame
  record := k.record
  slot := k.slot
  files tab hf := k.files tab (by rw [h.fhs]; exact hf)
  rows r hr := (k.rows r hr).trans (h.row r.1 r.2)
  marks m hm := (k.marks m hm).trans (congrFun h.mvccMap m)
  chains r hr := (k.chains r hr).trans (congrFun h.chains r)
  gained := h.gained.trans k.gained
  before := k.before
  behind := k.behind
  effect := by
    have heff := k.effect
    cases w with
    | insertTuple tab rid rec => exact ⟨(h.row tab rid).symm.trans heff.1, heff.2⟩
    | updateTuple tab rid old => exact ⟨h.reads.mp heff.1, heff.2⟩
    | deleteTuple tab rid rec =>
      obtain ⟨hread, hrow, hmark, hlock⟩ := heff
      exact ⟨h.reads.mp hread, hrow, hmark.trans (congrFun h.mvccMap _), hlock⟩
    | ixInsertTuple => exact heff
    | ixDeleteTuple => exact heff

theorem Quiet.taken {l : Db T I} (h : Quiet db id [] s l) (i : I) (key : Bytes) (r : Rid) :
    l.taken db i key r = s.taken db i key r := by rw [Db.taken, Db.taken, isUnique, isUnique, h.ihs]

theorem Quiet.updateOutcome {tab : T} {rid : Rid} {l t : Db T I} {old new : Bytes} {e : Option Raised} (h : Quiet db id [] s l)
    (k : UpdateOutcome db id tab rid old new l t e) : UpdateOutcome db id tab rid old new s t e := by
  cases k with
  | uniqueCheck pre post i hsplit htaken hpre hquiet =>
    refine .uniqueCheck pre post i hsplit (h.taken .. ▸ htaken) (fun k hk => h.taken .. ▸ hpre k hk) (h.trans hquiet)
  | abort hfree hquiet => exact .abort (fun k hk => h.taken .. ▸ hfree k hk) (h.trans hquiet)
  | done hfree hrow hwrote => exact .done (fun k hk => h.taken .. ▸ hfree k hk) hrow (h.wrote hwrote)

end

/-! ### The entries of an update -/

theorem taken_ixWrite_ne {s : Db T I} {id : Int} {i k : I} {rid r : Rid} {key key' : Bytes} (h : k ≠ i) :
    (ixWrite db id s (.ixDeleteTuple i rid key)).taken db k key' r = s.taken db k key' r := by
  have hp : (k, db.norm k key') ≠ (i, db.norm i key) := fun heq => h (congrArg (·.1) heq)
  have hihs : (ixWrite db id s (.ixDeleteTuple i rid key)).ihs (k, db.norm k key') = s.ihs (k, db.norm k key') := if_neg hp
  rw [taken, taken, isUnique, isUnique, hihs]

/-- The loop that removes the old entries ends at the first changed index whose new key is taken, or removes all of
    them. -/
theorem removeOldKeys_spec (db : Schema T I) (id : Int) (rid : Rid) (old new : Bytes) {is : List I} (hnodup : is.Nodup) (s : Db T I) :
    (∃ pre i post, changed db old new is = pre ++ i :: post ∧
        removeOldKeys db id rid old new is s = (ixWrites db id (deletions db rid old pre) s, none) ∧
        s.taken db i (db.keyBytes i new) rid = true ∧ ∀ k ∈ pre, s.taken db k (db.keyBytes k new) rid = false) ∨
      (removeOldKeys db id rid old new is s = (ixWrites db id (deletions db rid old (changed db old new is)) s,
          some ((changed db old new is).map fun i => (i, db.keyBytes i new))) ∧
        ∀ k ∈ changed db old new is, s.taken db k (db.keyBytes k new) rid = false) := by
  induction is generalizing s with
  | nil => exact Or.inr ⟨rfl, by simp [changed]⟩
  | cons i is ih =>
    obtain ⟨hi, hnodup⟩ := List.nodup_cons.mp hnodup
    by_cases hkey : db.keyBytes i old = db.keyBytes i new
    · have hch : changed db old new (i :: is) = changed db old new is := List.filter_cons_of_neg (by simpa using hkey)
      rw [hch, removeOldKeys, if_pos hkey]
      exact ih hnodup s
    · have hch : changed db old new (i :: is) = i :: changed db old new is := List.filter_cons_of_pos (by simpa using hkey)
      rw [hch, removeOldKeys, if_neg hkey]
      by_cases htaken : s.taken db i (db.keyBytes i new) rid = true
      · rw [if_pos htaken]
        exact Or.inl ⟨[], i, changed db old new is, rfl, rfl, htaken, by simp⟩
      · rw [if_neg htaken, ixWrite_delete]
        have hne : ∀ k ∈ changed db old new is, k ≠ i := by
          rintro k hk rfl
          exact hi (List.mem_filter.mp hk).1
        obtain ⟨pre, k, post, hsplit, heq, hk, hpre⟩ | ⟨heq, hall⟩ :=
          ih hnodup (ixWrite db id s (.ixDeleteTuple i rid (db.keyBytes i old)))
        · refine Or.inl ⟨i :: pre, k, post, by rw [hsplit]; rfl, by rw [heq]; rfl, ?_, ?_⟩
          · rwa [taken_ixWrite_ne (hne k (by rw [hsplit]; simp))] at hk
          · refine List.forall_mem_cons.mpr ⟨Bool.eq_false_iff.mpr htaken, fun m hm => ?_⟩
            have := hpre m hm
            rwa [taken_ixWrite_ne (hne m (by rw [hsplit]; simp [hm]))] at this
        · refine Or.inr ⟨by rw [heq]; rfl, List.forall_mem_cons.mpr ⟨Bool.eq_false_iff.mpr htaken, fun m hm => ?_⟩⟩
          have := hall m hm
          rwa [taken_ixWrite_ne (hne m hm)] at this

variable [DecidableEq T]

/-! ### Locks -/

/-- The record of a row that the transaction locks and sees. -/
def Gets (db : Schema T I) (s : Db T I) (id : Int) (tab : T) (rid : Rid) (rec : Bytes) : Prop :=
  (s.lockExclusiveOnRecord id tab rid).2 = true ∧ Reads db s id tab rid rec

/-- What locking and reading a row gives; nothing if one of them raises an exception. -/
def rowSeen (db : Schema T I) (s : Db T I) (id : Int) (tab : T) (rid : Rid) : Option (Option Bytes) :=
  if (s.lockExclusiveOnRecord id tab rid).2 then
    if visitRecord (s.mvccMap (tab, db.slot tab rid)) id = .success then (s.row tab rid).map some else some none
  else none

omit [DecidableEq I] in
theorem gets_of_rowSeen {s : Db T I} {id : Int} {tab : T} {rid : Rid} {rec : Bytes} (h : rowSeen db s id tab rid = some (some rec)) :
    Gets db s id tab rid rec := by
  rw [rowSeen] at h
  split at h
  · next hlock =>
    split at h
    · next hvisit =>
      obtain ⟨rec', hrow, heq⟩ := Option.map_eq_some_iff.mp h
      cases heq
      exact ⟨hlock, hvisit, hrow⟩
    · cases h
  · cases h

theorem lock_spec (db : Schema T I) (s : Db T I) (id : Int) (tab : T) (rid : Rid) (hact : (s.txnMap id).isSome) :
    Quiet db id [] s (s.lockExclusiveOnRecord id tab rid).1 ∧
      ((s.lockExclusiveOnRecord id tab rid).2 = true →
        id ∈ (s.lockExclusiveOnRecord id tab rid).1.lockTable (tab, rid)) := by
  unfold lockExclusiveOnRecord
  split
  · exact ⟨Quiet.modify s _ (fun _ => rfl) (fun _ => rfl) (fun _ h => by cases h), fun h => by cases h⟩
  · split
    · next hmem => exact ⟨Quiet.refl id s, fun _ => hmem⟩
    · split
      · exact ⟨Quiet.modify s _ (fun _ => rfl) (fun _ => rfl) (fun _ h => by cases h), fun h => by cases h⟩
      · next hempty =>
        have hempty : s.lockTable (tab, rid) = [] := Classical.not_not.mp hempty
        refine ⟨?_, fun _ => by simp [modifyTxn]⟩
        obtain ⟨x, hx⟩ := Option.isSome_iff_exists.mp hact
        exact {
          nextTxnId := rfl
          active := fun _ => isSome_modifyTxn
          others := fun _ hj => txnMap_modifyTxn_ne hj
          locks := fun row => by
            by_cases hrow : row = (tab, rid)
            · subst hrow
              refine Or.inr ⟨hempty, by simp [modifyTxn], hact, ?_⟩
              simp [lockSet, modifyTxn, hx]
            · exact Or.inl (by simp [modifyTxn, hrow])
          lockSet := fun r hr => by
            simp only [lockSet, modifyTxn, Function.update_self, hx, Option.map_some, Option.getD_some] at hr ⊢
            exact List.mem_cons_of_mem _ hr
          phase := fun y hy hstate => by
            simp only [modifyTxn, Function.update_self, hx, Option.map_some, Option.some.injEq] at hy
            subst hy
            exact ⟨x, hx, hstate⟩
          fhs := rfl
          mvccMap := rfl
          chains := rfl
          gained := by
            refine ⟨?_, fun _ => rfl⟩
            rw [List.append_nil]
            exact writes_modifyTxn (g := fun x => { x with lockSet := (tab, rid) :: x.lockSet }) fun _ => rfl
          onlyIx := by simp }

/-- A row is locked and then read. -/
theorem lockRow_spec {s : Db T I} {id : Int} {tab : T} {rid : Rid} (hact : (s.txnMap id).isSome)
    (hfile : Sound (db.recordSize tab) (s.fhs tab)) (hslot : db.IsSlot tab rid) :
    ∃ l res, s.lockRow db id tab rid = .ok (l, res) ∧ Quiet db id [] s l ∧
      res.toOption = rowSeen db s id tab rid ∧ ∀ rec, res = .ok (some rec) → id ∈ l.lockTable (tab, rid) := by
  obtain ⟨hquiet, hlock⟩ := lock_spec db s id tab rid hact
  simp only [lockRow, rowSeen]
  generalize s.lockExclusiveOnRecord id tab rid = r at hquiet hlock ⊢
  obtain ⟨l, locked⟩ := r
  cases locked with
  | false => exact ⟨l, _, rfl, hquiet, rfl, fun _ h => by cases h⟩
  | true =>
    have hfile' : Sound (db.recordSize tab) (l.fhs tab) := by rw [hquiet.fhs]; exact hfile
    have hrow := hquiet.row tab rid
    rw [← hquiet.mvccMap, ← hrow]
    rcases getRecordMvcc_spec hfile' hslot id with ⟨rec, ⟨hvisit, hsome⟩, hget⟩ | ⟨hvisit, hget⟩ | ⟨hvisit, hnone, n, hget⟩
    · exact ⟨l, .ok (some rec), by simp [hget], hquiet, by simp [hvisit, hsome, Except.toOption], fun _ _ => hlock rfl⟩
    · exact ⟨l, .ok none, by simp [hget], hquiet, by simp [hvisit, Except.toOption], fun _ h => by cases h⟩
    · exact ⟨l, .error (.recordNotFound rid.pageNo n), by simp [hget], hquiet, by simp [hvisit, hnone, Except.toOption],
        fun _ h => by cases h⟩

/-! ### INSERT -/

theorem HeapWrite.gained {id : Int} {row : T × Rid} {buf : Bytes} {s t : Db T I} (h : HeapWrite db id row buf s t) :
    Gained db id [] s t := by
  refine ⟨?_, fun p => by rw [h.ihs]; rfl⟩
  rw [List.append_nil, writes_of_txnMap (congrFun h.txnMap id)]

/-- `InsertExecutor::Next`. -/
theorem insertNext_spec {s : Db T I} {id : Int} {tab : T} (hact : (s.txnMap id).isSome)
    (hfile : Sound (db.recordSize tab) (s.fhs tab)) (values : List (Except ExecError Bytes)) :
    (∃ e, s.insertNext db id tab values = .ok (s, some e) ∧ e ≠ .transactionAbort) ∨
      ∃ t rid rec, s.insertNext db id tab values = .ok (t, none) ∧
        Wrote db id (tab, rid) [] (.insertTuple tab rid rec) (insertions db rid rec (db.indexes tab)) s t ∧
        ∀ i ∈ db.indexes tab, s.ihs (i, db.key i rec) = none := by
  rw [insertNext]
  cases hbuild : buildRecord (db.tab tab).cols values (List.replicate (db.recordSize tab) 0) with
  | error e => exact Or.inl ⟨.exec e, rfl, by simp⟩
  | ok rec =>
    by_cases hdup : ((db.indexes tab).any fun i => (s.isUnique db i (db.keyBytes i rec)).isSome) = true
    · exact Or.inl ⟨.uniqueCheck, by simp only [if_pos hdup], by simp⟩
    · obtain ⟨u, rid, hop, hslot, hfresh, H⟩ := insertRecord_spec id hfile rec
      have hact' : (u.txnMap id).isSome := by rw [H.txnMap]; exact hact
      have hrec : (WriteRecord.insertTuple tab rid rec : WriteRecord T I).tuple? = some (tab, rid) := rfl
      have hact'' : ((u.appendWriteRecord id (.insertTuple tab rid rec)).txnMap id).isSome := by
        rw [isSome_append]
        exact hact'
      have hquiet : Quiet db id (insertions db rid rec (db.indexes tab)) _ _ := Quiet.ixWrites hact'' tuple?_insertions
      refine Or.inr ⟨ixWrites db id (insertions db rid rec (db.indexes tab)) (u.appendWriteRecord id (.insertTuple tab rid rec)),
        rid, rec, ?_, ?_, ?_⟩
      · simp only [if_neg hdup, hop, bind, Except.bind, insertKeys_eq]
      · exact {
          toFrame := (H.frame.trans (Frame.append u _)).trans hquiet.toFrame
          record := rfl
          slot := hslot
          files := fun tab' h => by
            rw [hquiet.fhs]
            exact H.files tab' h
          rows := fun r hr => by
            rw [hquiet.row]
            exact (H.rows r).trans (if_neg hr)
          marks := fun m hm => by
            rw [hquiet.mvccMap]
            exact (congrFun H.mvccMap m).trans (Function.update_of_ne hm _ _)
          chains := fun r hr => by
            rw [hquiet.chains]
            exact H.chains r hr
          gained := (H.gained.trans (gained_append hact' hrec)).trans hquiet.gained
          before := by simp
          behind := tuple?_insertions
          effect := by
            refine ⟨hfresh, ?_, ?_⟩
            · rw [hquiet.row]
              exact (H.rows (tab, rid)).trans (if_pos rfl)
            · rw [hquiet.mvccMap]
              exact (congrFun H.mvccMap _).trans (Function.update_self _ _ _) }
      · intro i hi
        rw [List.any_eq_true] at hdup
        by_contra hsome
        exact hdup ⟨i, hi, Option.isSome_iff_ne_none.mpr hsome⟩

/-! ### UPDATE and DELETE -/

section
variable {s : Db T I} {id : Int} {tab : T} {rid : Rid}

/-- A row with the entries of its old keys removed is written. -/
theorem HeapWrite.wrote {l t : Db T I} {old new : Bytes} {a b : List (WriteRecord T I)} (hslot : db.IsSlot tab rid)
    (hread : Reads db s id tab rid old) (hlock : id ∈ l.lockTable (tab, rid)) (hact : (s.txnMap id).isSome)
    (hl : Quiet db id a s l) (H : HeapWrite db id (tab, rid) new l t) (hb : ∀ w ∈ b, w.tuple? = none) :
    Wrote db id (tab, rid) (a ++ b) (.updateTuple tab rid old) [] s
        ((ixWrites db id b t).appendWriteRecord id (.updateTuple tab rid old)) ∧
      ((ixWrites db id b t).appendWriteRecord id (.updateTuple tab rid old)).row tab rid = some new := by
  have hact' : (t.txnMap id).isSome := by
    rw [H.txnMap, hl.active]
    exact hact
  have hquiet : Quiet db id b t (ixWrites db id b t) := Quiet.ixWrites hact' hb
  have hact'' : ((ixWrites db id b t).txnMap id).isSome := by
    rw [hquiet.active]
    exact hact'
  have hrow : (ixWrites db id b t).row tab rid = some new := by
    rw [hquiet.row]
    exact (H.rows (tab, rid)).trans (if_pos rfl)
  have hmark : (ixWrites db id b t).mvccMap (tab, db.slot tab rid) = some (insertMark id) := by
    rw [hquiet.mvccMap, H.mvccMap]
    exact Function.update_self _ _ _
  have hframe := ((hl.toFrame.trans H.frame).trans hquiet.toFrame).trans (Frame.append _ (.updateTuple tab rid old))
  refine ⟨?_, hrow⟩
  exact {
    toFrame := hframe
    record := rfl
    slot := hslot
    files := fun tab' h => by
      have hfile : Sound (db.recordSize tab') (l.fhs tab') := by
        rw [hl.fhs]
        exact h
      have := H.files tab' hfile
      rwa [← hquiet.fhs] at this
    rows := fun r hr => ((hquiet.row r.1 r.2).trans ((H.rows r).trans (if_neg hr))).trans (hl.row r.1 r.2)
    marks := fun m hm => by
      have h₁ := congrFun hquiet.mvccMap m
      have h₂ := congrFun H.mvccMap m
      rw [Function.update_of_ne hm] at h₂
      exact h₁.trans (h₂.trans (congrFun hl.mvccMap m))
    chains := fun r hr => ((congrFun hquiet.chains r).trans (H.chains r hr)).trans (congrFun hl.chains r)
    gained := by
      have h₁ := (hl.gained.trans H.gained).trans hquiet.gained
      rw [List.append_nil] at h₁
      exact h₁.trans (gained_append hact'' rfl)
    before := fun w hw => (List.mem_append.mp hw).elim (hl.onlyIx w) (hb w)
    behind := by simp
    effect := by
      refine ⟨hread, Option.isSome_iff_exists.mpr ⟨new, hrow⟩, hmark, ?_⟩
      exact ((H.frame.trans hquiet.toFrame).trans (Frame.append _ _)).locked hlock }

theorem updateTo_spec {old new : Bytes} {need : Bool} (hact : (s.txnMap id).isSome)
    (hfile : Sound (db.recordSize tab) (s.fhs tab)) (hslot : db.IsSlot tab rid) (hread : Reads db s id tab rid old)
    (hlock : id ∈ s.lockTable (tab, rid)) (hneed : need = false → changed db old new (db.indexes tab) = []) :
    ∃ t e, s.updateTo db id tab rid old new need = .ok (t, e) ∧ UpdateOutcome db id tab rid old new s t e := by
  have hkeys : (if need then removeOldKeys db id rid old new (db.indexes tab) s else (s, some [])) =
      removeOldKeys db id rid old new (db.indexes tab) s := by
    cases need with
    | true => rfl
    | false =>
      rcases removeOldKeys_spec db id rid old new (db.nodup tab) s with ⟨pre, i, post, hsplit, -⟩ | ⟨heq, -⟩
      · rw [hneed rfl] at hsplit
        exact absurd (congrArg List.length hsplit) (by simp)
      · rw [heq, hneed rfl]
        rfl
  rw [updateTo, hkeys]
  obtain ⟨pre, i, post, hsplit, heq, htaken, hpre⟩ | ⟨heq, hfree⟩ :=
    removeOldKeys_spec db id rid old new (db.nodup tab) s
  · rw [heq]
    exact ⟨_, _, rfl, .uniqueCheck pre post i hsplit htaken hpre (Quiet.ixWrites hact tuple?_deletions)⟩
  · rw [heq]
    have hquiet : Quiet db id (deletions db rid old (changed db old new (db.indexes tab))) s _ :=
      Quiet.ixWrites hact tuple?_deletions
    have hfile' : Sound (db.recordSize tab)
        ((ixWrites db id (deletions db rid old (changed db old new (db.indexes tab))) s).fhs tab) := by
      rw [hquiet.fhs]
      exact hfile
    rcases updateRecordMvcc_spec id hfile' hslot (hquiet.reads.mpr hread).2 new with hnone | ⟨t, hsome, H⟩
    · exact ⟨_, _, by simp only [hnone, bind, Except.bind], .abort hfree hquiet⟩
    · have hix : ∀ w ∈ insertions db rid new (changed db old new (db.indexes tab)), w.tuple? = none := tuple?_insertions
      obtain ⟨hwrote, hrow⟩ := H.wrote hslot hread (hquiet.toFrame.locked hlock) hact hquiet hix
      refine ⟨_, none, ?_, .done hfree hrow hwrote⟩
      simp only [hsome, bind, Except.bind, insertKeys_eq]

/-- `UpdateExecutor::Next` on a row: it stops before the indexes, or goes on with the record that it read. -/
theorem updateRow_spec (hact : (s.txnMap id).isSome) (hfile : Sound (db.recordSize tab) (s.fhs tab))
    (hslot : db.IsSlot tab rid) (set : List (SetClause (db.tab tab))) :
    ∃ t e, updateRow db id tab set s rid = .ok (t, e) ∧
      (Quiet db id [] s t ∧ (rowSeen db s id tab rid = some none ∧ e = none ∨
          (∀ old new, rowSeen db s id tab rid = some (some old) → applySet set old ≠ .ok new) ∧
            rowSeen db s id tab rid ≠ some none ∧ e ≠ none) ∨
        ∃ old new, rowSeen db s id tab rid = some (some old) ∧ applySet set old = .ok new ∧
          id ∈ t.lockTable (tab, rid) ∧ UpdateOutcome db id tab rid old new s t e) := by
  obtain ⟨l, res, hlockRow, hquiet, hseen, hlock⟩ := lockRow_spec hact hfile hslot
  have hfile' : Sound (db.recordSize tab) (l.fhs tab) := by
    rw [hquiet.fhs]
    exact hfile
  have hact' : (l.txnMap id).isSome := by
    rw [hquiet.active]
    exact hact
  simp only [updateRow, hlockRow, bind, Except.bind]
  match res, hseen, hlock with
  | .error e, hseen, _ => exact ⟨l, some e, rfl, Or.inl ⟨hquiet, Or.inr (by simp [← hseen, Except.toOption])⟩⟩
  | .ok none, hseen, _ => exact ⟨l, none, rfl, Or.inl ⟨hquiet, Or.inl ⟨hseen.symm, rfl⟩⟩⟩
  | .ok (some old), hseen, hlock =>
    have hlock := hlock old rfl
    have hread := gets_of_rowSeen hseen.symm
    cases hset : applySet set old with
    | error e =>
      refine ⟨l, some (.exec e), by simp only [hset], Or.inl ⟨hquiet, Or.inr ⟨fun old' new h hset' => ?_, ?_, by simp⟩⟩⟩
      · have heq : old = old' := Option.some.inj (Option.some.inj (hseen.trans h))
        rw [← heq, hset] at hset'
        cases hset'
      · simp [← hseen, Except.toOption]
    | ok new =>
      obtain ⟨t, e, hop, hout⟩ := updateTo_spec hact' hfile' hslot (hquiet.reads.mpr hread.2) hlock
        (changed_of_not_need hset)
      refine ⟨t, e, by simp only [hset, hop], Or.inr ⟨old, new, hseen.symm, hset, ?_, hquiet.updateOutcome hout⟩⟩
      cases hout with
      | uniqueCheck _ _ _ _ _ _ hq => exact hq.toFrame.locked hlock
      | abort _ hq => exact hq.toFrame.locked hlock
      | done _ _ hw => exact hw.toFrame.locked hlock

/-- `DeleteExecutor::Next` on a row. -/
theorem deleteRow_spec (hact : (s.txnMap id).isSome) (hfile : Sound (db.recordSize tab) (s.fhs tab))
    (hslot : db.IsSlot tab rid) :
    ∃ t e, deleteRow db id tab s rid = .ok (t, e) ∧ t.fhs = s.fhs ∧
      (Quiet db id [] s t ∨ ∃ rec, Gets db s id tab rid rec ∧ id ∈ t.lockTable (tab, rid) ∧
        (e = some .transactionAbort ∧ Quiet db id (deletions db rid rec (db.indexes tab)) s t ∨
          e = none ∧
            Wrote db id (tab, rid) (deletions db rid rec (db.indexes tab)) (.deleteTuple tab rid rec) [] s t)) := by
  obtain ⟨l, res, hlockRow, hquiet, hseen, hlock⟩ := lockRow_spec hact hfile hslot
  have hact' : (l.txnMap id).isSome := by
    rw [hquiet.active]
    exact hact
  simp only [deleteRow, hlockRow, bind, Except.bind]
  match res, hseen, hlock with
  | .error e, _, _ => exact ⟨l, some e, rfl, hquiet.fhs, Or.inl hquiet⟩
  | .ok none, _, _ => exact ⟨l, none, rfl, hquiet.fhs, Or.inl hquiet⟩
  | .ok (some rec), hseen, hlock =>
    have hlock := hlock rec rfl
    have hread := gets_of_rowSeen hseen.symm
    simp only [removeKeys_eq]
    have hix : Quiet db id (deletions db rid rec (db.indexes tab)) l
        (ixWrites db id (deletions db rid rec (db.indexes tab)) l) := Quiet.ixWrites hact' tuple?_deletions
    have hall := hquiet.trans hix
    cases hdel : (ixWrites db id (deletions db rid rec (db.indexes tab)) l).deleteRecordMvcc id tab rid with
    | none => exact ⟨_, _, rfl, hall.fhs, Or.inr ⟨rec, hread, hix.toFrame.locked hlock, Or.inl ⟨rfl, hall⟩⟩⟩
    | some v =>
      obtain ⟨c, rfl⟩ := deleteRecordMvcc_spec hdel
      refine ⟨_, _, rfl, hall.fhs, Or.inr ⟨rec, hread, hix.toFrame.locked hlock, Or.inr ⟨rfl, ?_⟩⟩⟩
      have hact'' : ((ixWrites db id (deletions db rid rec (db.indexes tab)) l).txnMap id).isSome := by
        rw [hix.active]
        exact hact'
      exact {
        toFrame := by
          have hchain : Frame id (ixWrites db id (deletions db rid rec (db.indexes tab)) l)
              { ixWrites db id (deletions db rid rec (db.indexes tab)) l with
                versionChains := Function.update
                  (ixWrites db id (deletions db rid rec (db.indexes tab)) l).versionChains (tab, rid) (some c) } :=
            Frame.of_eq rfl rfl rfl
          exact (hall.toFrame.trans hchain).trans (Frame.append _ _)
        record := rfl
        slot := hslot
        files := fun tab' h => by
          have : Sound (db.recordSize tab') ((ixWrites db id (deletions db rid rec (db.indexes tab)) l).fhs tab') := by
            rw [hall.fhs]
            exact h
          exact this
        rows := fun r _ => hall.row r.1 r.2
        marks := fun m _ => congrFun hall.mvccMap m
        chains := fun r hr => (Function.update_of_ne hr _ _).trans (congrFun hall.chains r)
        gained := hall.gained.trans (gained_append hact'' rfl)
        before := tuple?_deletions
        behind := by simp
        effect := ⟨hread.2, (hall.row tab rid).trans hread.2.2, congrFun hall.mvccMap _, hix.toFrame.locked hlock⟩ }

end

end Db
end Rmdb
