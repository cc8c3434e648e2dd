import Rmdb.Txn.Manager
import Rmdb.Theorems.Record.Refinement

/-! What the parts of a statement do to the state.

A transaction locks a row, removes and inserts index entries, and writes the row. `Quiet` is the effect of everything but
the last: no table, mark or version chain changes. `Wrote` is the effect of the whole on one row. Either way the write set
gains the records of what happened to the indexes. -/

namespace Rmdb
open RmFile

namespace Db
variable {T I : Type} {db : Schema T I}

/-- The rows that a transaction has locked. -/
def lockSet (s : Db T I) (id : Int) : List (T × Rid) := ((s.txnMap id).map (·.lockSet)).getD []

section Accessors
variable {s : Db T I} {id j : Int} {g : Transaction T I → Transaction T I} {w : WriteRecord T I}

theorem txnMap_modifyTxn : (s.modifyTxn id g).txnMap j = if j = id then (s.txnMap j).map g else s.txnMap j := by
  by_cases h : j = id
  · subst h
    simp [modifyTxn]
  · simp [modifyTxn, h]

theorem isSome_modifyTxn : ((s.modifyTxn id g).txnMap j).isSome = (s.txnMap j).isSome := by
  rw [txnMap_modifyTxn]
  split
  · rw [Option.isSome_map]
  · rfl

theorem txnMap_modifyTxn_ne (h : j ≠ id) : (s.modifyTxn id g).txnMap j = s.txnMap j := by
  rw [txnMap_modifyTxn, if_neg h]

theorem writes_of_txnMap {t : Db T I} (h : t.txnMap j = s.txnMap j) : t.writes j = s.writes j := by rw [writes, writes, h]

theorem lockSet_of_txnMap {t : Db T I} (h : t.txnMap j = s.txnMap j) : t.lockSet j = s.lockSet j := by
  rw [lockSet, lockSet, h]

theorem writes_none (h : s.txnMap j = none) : s.writes j = [] := by rw [writes, h]; rfl

theorem writes_some {x : Transaction T I} (h : s.txnMap j = some x) : s.writes j = x.writeSet := by rw [writes, h]; rfl

theorem lockSet_some {x : Transaction T I} (h : s.txnMap j = some x) : s.lockSet j = x.lockSet := by rw [lockSet, h]; rfl

theorem active_of_write (h : w ∈ s.writes j) : (s.txnMap j).isSome := by
  cases hx : s.txnMap j with
  | none =>
    rw [writes_none hx] at h
    cases h
  | some x => rfl

theorem writes_modifyTxn (hg : ∀ x, (g x).writeSet = x.writeSet) : (s.modifyTxn id g).writes j = s.writes j := by
  rw [writes, writes, txnMap_modifyTxn]
  split
  · cases s.txnMap j <;> simp [hg]
  · rfl

theorem lockSet_modifyTxn (hg : ∀ x, (g x).lockSet = x.lockSet) : (s.modifyTxn id g).lockSet j = s.lockSet j := by
  rw [lockSet, lockSet, txnMap_modifyTxn]
  split
  · cases s.txnMap j <;> simp [hg]
  · rfl

theorem writes_append (h : (s.txnMap id).isSome) : (s.appendWriteRecord id w).writes id = s.writes id ++ [w] := by
  obtain ⟨x, hx⟩ := Option.isSome_iff_exists.mp h
  rw [writes, writes, appendWriteRecord, txnMap_modifyTxn, if_pos rfl, hx]
  rfl

theorem isSome_append : ((s.appendWriteRecord id w).txnMap j).isSome = (s.txnMap j).isSome := isSome_modifyTxn

end Accessors

/-! ### Index writes -/

section IndexWrites
variable [DecidableEq I]

/-- What a write record says about a key of an index: the position there after the write. -/
def keyDo (db : Schema T I) (p : I × Bytes) (v : Option Rid) : WriteRecord T I → Option Rid
  | .ixInsertTuple i rid key => if p = (i, db.norm i key) then v.or (some rid) else v
  | .ixDeleteTuple i _ key => if p = (i, db.norm i key) then none else v
  | .insertTuple .. | .updateTuple .. | .deleteTuple .. => v

/-- The key that a record of an index names. -/
def keyOf (db : Schema T I) : WriteRecord T I → Option (I × Bytes)
  | .ixInsertTuple i _ key | .ixDeleteTuple i _ key => some (i, db.norm i key)
  | .insertTuple .. | .updateTuple .. | .deleteTuple .. => none

theorem keyDo_of_ne {p : I × Bytes} {w : WriteRecord T I} (h : keyOf db w ≠ some p) (v : Option Rid) : keyDo db p v w = v := by
  cases w with
  | ixInsertTuple i rid key => exact if_neg fun heq => h (congrArg some heq.symm)
  | ixDeleteTuple i rid key => exact if_neg fun heq => h (congrArg some heq.symm)
  | insertTuple => rfl
  | updateTuple => rfl
  | deleteTuple => rfl

/-- A key that no record names keeps its position. -/
theorem foldl_keyDo {p : I × Bytes} {ws : List (WriteRecord T I)} (h : ∀ w ∈ ws, keyOf db w ≠ some p) (v : Option Rid) :
    ws.foldl (keyDo db p) v = v := by
  induction ws generalizing v with
  | nil => rfl
  | cons w ws ih =>
    obtain ⟨hw, hws⟩ := List.forall_mem_cons.mp h
    rw [List.foldl_cons, keyDo_of_ne hw, ih hws]

/-- An index entry is inserted or removed, and the write set records it. -/
def ixWrite (db : Schema T I) (id : Int) (s : Db T I) (w : WriteRecord T I) : Db T I :=
  ({ s with ihs := fun p => keyDo db p (s.ihs p) w }).appendWriteRecord id w

/-- Several index entries, one after another. -/
def ixWrites (db : Schema T I) (id : Int) (ws : List (WriteRecord T I)) (s : Db T I) : Db T I := ws.foldl (ixWrite db id) s

theorem ixWrite_delete (s : Db T I) (id : Int) (i : I) (rid : Rid) (key : Bytes) :
    (s.deleteEntry db i key).appendWriteRecord id (.ixDeleteTuple i rid key) = ixWrite db id s (.ixDeleteTuple i rid key) := by
  have hihs : Function.update s.ihs (i, db.norm i key) none = fun p => keyDo db p (s.ihs p) (.ixDeleteTuple i rid key) := by
    funext p
    rw [keyDo, Function.update_apply]
  rw [ixWrite, ← hihs]
  rfl

theorem ixWrite_insert (s : Db T I) (id : Int) (i : I) (rid : Rid) (key : Bytes) :
    (s.insertEntry db i key rid).appendWriteRecord id (.ixInsertTuple i rid key) =
      ixWrite db id s (.ixInsertTuple i rid key) := by
  have hihs : Function.update s.ihs (i, db.norm i key) ((s.ihs (i, db.norm i key)).or (some rid)) =
      fun p => keyDo db p (s.ihs p) (.ixInsertTuple i rid key) := by
    funext p
    rw [keyDo, Function.update_apply]
    split
    · next h => rw [h]
    · rfl
  rw [ixWrite, ← hihs]
  rfl

/-- The records of the entries of a row that are removed. -/
def deletions (db : Schema T I) (rid : Rid) (rec : Bytes) (is : List I) : List (WriteRecord T I) :=
  is.map fun i => .ixDeleteTuple i rid (db.keyBytes i rec)

/-- The records of the entries of a row that are inserted. -/
def insertions (db : Schema T I) (rid : Rid) (rec : Bytes) (is : List I) : List (WriteRecord T I) :=
  is.map fun i => .ixInsertTuple i rid (db.keyBytes i rec)

/-- The indexes whose key an update changes. -/
def changed (db : Schema T I) (old new : Bytes) (is : List I) : List I :=
  is.filter fun i => db.keyBytes i old ≠ db.keyBytes i new

theorem removeKeys_eq (id : Int) (rid : Rid) (rec : Bytes) (is : List I) (s : Db T I) :
    removeKeys db id rid rec is s = ixWrites db id (deletions db rid rec is) s := by
  induction is generalizing s with
  | nil => rfl
  | cons i is ih =>
    rw [removeKeys, ih, ixWrite_delete]
    rfl

theorem insertKeys_eq (id : Int) (rid : Rid) (rec : Bytes) (is : List I) (s : Db T I) :
    insertKeys db id rid (is.map fun i => (i, db.keyBytes i rec)) s = ixWrites db id (insertions db rid rec is) s := by
  induction is generalizing s with
  | nil => rfl
  | cons i is ih =>
    rw [List.map_cons, insertKeys, ih, ixWrite_insert]
    rfl

end IndexWrites

/-! ### Quiet changes -/

/-- A transaction may have locked rows and changed its own flags and write set; the other transactions are as they were. -/
structure Frame (id : Int) (s t : Db T I) : Prop where
  nextTxnId : t.nextTxnId = s.nextTxnId
  active : ∀ j, (t.txnMap j).isSome = (s.txnMap j).isSome
  others : ∀ j, j ≠ id → t.txnMap j = s.txnMap j
  locks : ∀ row, t.lockTable row = s.lockTable row ∨
    s.lockTable row = [] ∧ t.lockTable row = [id] ∧ (s.txnMap id).isSome ∧ row ∈ t.lockSet id
  lockSet : s.lockSet id ⊆ t.lockSet id
  phase : ∀ x, t.txnMap id = some x → x.state = .shrinking → ∃ y, s.txnMap id = some y ∧ y.state = .shrinking

namespace Frame
variable {id : Int} {s t u : Db T I}

theorem refl (id : Int) (s : Db T I) : Frame id s s where
  nextTxnId := rfl
  active _ := rfl
  others _ _ := rfl
  locks _ := Or.inl rfl
  lockSet _ h := h
  phase x hx hstate := ⟨x, hx, hstate⟩

theorem trans (h : Frame id s t) (k : Frame id t u) : Frame id s u where
  nextTxnId := k.nextTxnId.trans h.nextTxnId
  active j := (k.active j).trans (h.active j)
  others j hj := (k.others j hj).trans (h.others j hj)
  locks row := by
    rcases k.locks row with hk | ⟨hempty, hid, hact, hset⟩
    · rcases h.locks row with hh | ⟨hempty, hid, hact, hset⟩
      · exact Or.inl (hk.trans hh)
      · exact Or.inr ⟨hempty, hk.trans hid, hact, k.lockSet hset⟩
    · rcases h.locks row with hh | ⟨hempty', hid', hact', hset'⟩
      · exact Or.inr ⟨hh ▸ hempty, hid, h.active id ▸ hact, hset⟩
      · exact Or.inr ⟨hempty', hid, hact', hset⟩
  lockSet := fun _ hx => k.lockSet (h.lockSet hx)
  phase x hx hstate := by
    obtain ⟨y, hy, hstate⟩ := k.phase x hx hstate
    exact h.phase y hy hstate

/-- A change of the transaction that keeps its locks. -/
theorem modify (s : Db T I) (g : Transaction T I → Transaction T I) (hl : ∀ x, (g x).lockSet = x.lockSet)
    (hg : ∀ x, (g x).state = .shrinking → x.state = .shrinking) : Frame id s (s.modifyTxn id g) where
  nextTxnId := rfl
  active _ := isSome_modifyTxn
  others _ hj := txnMap_modifyTxn_ne hj
  locks _ := Or.inl rfl
  lockSet := fun _ hx => by rwa [lockSet_modifyTxn hl]
  phase x hx hstate := by
    rw [txnMap_modifyTxn, if_pos rfl, Option.map_eq_some_iff] at hx
    obtain ⟨y, hy, rfl⟩ := hx
    exact ⟨y, hy, hg y hstate⟩

theorem append (s : Db T I) (w : WriteRecord T I) : Frame id s (s.appendWriteRecord id w) :=
  modify s _ (fun _ => rfl) fun _ h => h

/-- A change of anything else. -/
theorem of_eq (hl : t.lockTable = s.lockTable) (ht : t.txnMap = s.txnMap) (hn : t.nextTxnId = s.nextTxnId) : Frame id s t where
  nextTxnId := hn
  active _ := by rw [ht]
  others _ _ := by rw [ht]
  locks row := Or.inl (by rw [hl])
  lockSet := fun _ hx => by rwa [lockSet_of_txnMap (congrFun ht id)]
  phase x hx hstate := ⟨x, congrFun ht id ▸ hx, hstate⟩

theorem writes_ne (h : Frame id s t) {j : Int} (hj : j ≠ id) : t.writes j = s.writes j := writes_of_txnMap (h.others j hj)

/-- A lock that was held is held. -/
theorem locked (h : Frame id s t) {row : T × Rid} {j : Int} (hj : j ∈ s.lockTable row) : j ∈ t.lockTable row := by
  rcases h.locks row with heq | ⟨hempty, -⟩
  · rwa [heq]
  · rw [hempty] at hj
    cases hj

end Frame

/-- The write set gained the records `ws`, and the indexes changed as they say. -/
def Gained [DecidableEq I] (db : Schema T I) (id : Int) (ws : List (WriteRecord T I)) (s t : Db T I) : Prop :=
  t.writes id = s.writes id ++ ws ∧ ∀ p, t.ihs p = ws.foldl (keyDo db p) (s.ihs p)

theorem Gained.trans [DecidableEq I] {id : Int} {ws vs : List (WriteRecord T I)} {s t u : Db T I} (h : Gained db id ws s t)
    (k : Gained db id vs t u) : Gained db id (ws ++ vs) s u := by
  refine ⟨by rw [k.1, h.1, List.append_assoc], fun p => ?_⟩
  rw [k.2 p, h.2 p, List.foldl_append]

/-- No table, mark or version chain changed, and the write set gained records of indexes only. -/
structure Quiet [DecidableEq I] (db : Schema T I) (id : Int) (ws : List (WriteRecord T I)) (s t : Db T I) : Prop
    extends Frame id s t where
  fhs : t.fhs = s.fhs
  mvccMap : t.mvccMap = s.mvccMap
  chains : t.versionChains = s.versionChains
  gained : Gained db id ws s t
  onlyIx : ∀ w ∈ ws, w.tuple? = none

namespace Quiet
variable [DecidableEq I] {id : Int} {s t u : Db T I} {ws vs : List (WriteRecord T I)}

theorem refl (id : Int) (s : Db T I) : Quiet db id [] s s where
  toFrame := Frame.refl id s
  fhs := rfl
  mvccMap := rfl
  chains := rfl
  gained := ⟨(List.append_nil _).symm, fun _ => rfl⟩
  onlyIx := by simp

theorem trans (h : Quiet db id ws s t) (k : Quiet db id vs t u) : Quiet db id (ws ++ vs) s u where
  toFrame := h.toFrame.trans k.toFrame
  fhs := k.fhs.trans h.fhs
  mvccMap := k.mvccMap.trans h.mvccMap
  chains := k.chains.trans h.chains
  gained := h.gained.trans k.gained
  onlyIx w hw := (List.mem_append.mp hw).elim (h.onlyIx w) (k.onlyIx w)

/-- A change of the transaction that keeps its write set and its locks. -/
theorem modify (s : Db T I) (g : Transaction T I → Transaction T I) (hw : ∀ x, (g x).writeSet = x.writeSet)
    (hl : ∀ x, (g x).lockSet = x.lockSet) (hg : ∀ x, (g x).state = .shrinking → x.state = .shrinking) :
    Quiet db id [] s (s.modifyTxn id g) where
  toFrame := Frame.modify s g hl hg
  fhs := rfl
  mvccMap := rfl
  chains := rfl
  gained := ⟨by rw [writes_modifyTxn hw, List.append_nil], fun _ => rfl⟩
  onlyIx := by simp

theorem ixWrite (hact : (s.txnMap id).isSome) {w : WriteRecord T I} (hw : w.tuple? = none) :
    Quiet db id [w] s (ixWrite db id s w) where
  toFrame := by
    have hihs : Frame id s { s with ihs := fun p => keyDo db p (s.ihs p) w } := Frame.of_eq rfl rfl rfl
    exact hihs.trans (Frame.append _ w)
  fhs := rfl
  mvccMap := rfl
  chains := rfl
  gained := ⟨writes_append hact, fun _ => rfl⟩
  onlyIx := by simpa using hw

theorem ixWrites (hact : (s.txnMap id).isSome) (hws : ∀ w ∈ ws, w.tuple? = none) :
    Quiet db id ws s (ixWrites db id ws s) := by
  induction ws generalizing s with
  | nil => exact refl id s
  | cons w ws ih =>
    have hone : Quiet db id [w] s (Db.ixWrite db id s w) := ixWrite hact (hws w List.mem_cons_self)
    exact hone.trans (ih (by rw [hone.active]; exact hact) fun v hv => hws v (List.mem_cons_of_mem w hv))

theorem row (h : Quiet db id ws s t) (tab : T) (rid : Rid) : t.row tab rid = s.row tab rid := by rw [Db.row, Db.row, h.fhs]

end Quiet

theorem tuple?_deletions {rid : Rid} {rec : Bytes} {is : List I} : ∀ w ∈ deletions db rid rec is, w.tuple? = none := by
  intro w hw
  obtain ⟨i, -, rfl⟩ := List.mem_map.mp hw
  rfl

theorem tuple?_insertions {rid : Rid} {rec : Bytes} {is : List I} : ∀ w ∈ insertions db rid rec is, w.tuple? = none := by
  intro w hw
  obtain ⟨i, -, rfl⟩ := List.mem_map.mp hw
  rfl

theorem mem_deletions {w : WriteRecord T I} {rid : Rid} {rec : Bytes} {is : List I} (h : w ∈ deletions db rid rec is) :
    ∃ i ∈ is, w = .ixDeleteTuple i rid (db.keyBytes i rec) := by
  obtain ⟨i, hi, rfl⟩ := List.mem_map.mp h
  exact ⟨i, hi, rfl⟩

theorem mem_insertions {w : WriteRecord T I} {rid : Rid} {rec : Bytes} {is : List I} (h : w ∈ insertions db rid rec is) :
    ∃ i ∈ is, w = .ixInsertTuple i rid (db.keyBytes i rec) := by
  obtain ⟨i, hi, rfl⟩ := List.mem_map.mp h
  exact ⟨i, hi, rfl⟩

end Db
end Rmdb
