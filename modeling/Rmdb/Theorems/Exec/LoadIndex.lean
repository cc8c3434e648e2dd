import Rmdb.Theorems.Exec.Load

/-! What `LOAD` does to the indexes of the table.

`optimized_insert_entry` puts a key into the leaf that it found for an earlier one. Where that is the leaf of the key it does
what `insert_entry` does. -/

namespace Rmdb
open Ladder IxIndexHandle LoadExecutor

namespace IxIndexHandle
variable {K : Type} [DecidableEq K] {f : IxFormat K} {s t : IxIndexHandle K} {key : K} {value : Rid} {p q : Int}

/-- From the leaf of the key on, `optimized_insert_entry` does what `insert_entry` does. -/
theorem insertIntoLeaf_of_insertEntry (hp : s.findLeafPage f key = .ok p) (h : s.insertEntry f key value = .ok (t, q)) :
    (∃ leaf, s.fetchNode p = .ok leaf) ∧ ∃ cache, s.insertIntoLeaf f p key value = .ok (t, cache) := by
  rw [insertEntry, hp, ok_bind] at h
  obtain ⟨leaf, hleaf, h⟩ := Runs.ok_of_bind h
  obtain ⟨⟨leaf', pos⟩, hins, h⟩ := Runs.ok_of_bind h
  refine ⟨⟨leaf, hleaf⟩, ?_⟩
  rw [insertIntoLeaf, hleaf, ok_bind, hins, ok_bind]
  simp only at h ⊢
  split at h
  · next hsize =>
    cases h
    exact ⟨none, by rw [if_pos hsize]⟩
  · next hsize =>
    rw [if_neg hsize]
    by_cases hpos : pos = 0
    all_goals
      simp only [hpos, if_true, if_false] at h ⊢
      obtain ⟨s₁, hs₁, h⟩ := Runs.ok_of_bind h
      rw [hs₁, ok_bind, splitIfFull]
      obtain ⟨leaf₁, hleaf₁, h⟩ := Runs.ok_of_bind h
      rw [hleaf₁, ok_bind]
      split at h
      · next hfull =>
        rw [if_pos hfull]
        obtain ⟨⟨s₂, r⟩, hs₂, h⟩ := Runs.ok_of_bind h
        rw [hs₂, ok_bind]
        simp only at h ⊢
        obtain ⟨w, hw, h⟩ := Runs.ok_of_bind h
        rw [hw, ok_bind]
        obtain ⟨wKey, hwKey, h⟩ := Runs.ok_of_bind h
        rw [hwKey, ok_bind]
        obtain ⟨s₃, hs₃, h⟩ := Runs.ok_of_bind h
        rw [hs₃, ok_bind]
        obtain ⟨w', -, h⟩ := Runs.ok_of_bind h
        obtain ⟨found, -, h⟩ := Runs.ok_of_bind h
        cases h
        exact ⟨none, rfl⟩
      · next hfull =>
        cases h
        exact ⟨some p, by rw [if_neg hfull]⟩

/-- A cached leaf that is the leaf of the key does no harm. -/
theorem optimizedInsertEntry_eq {cache : Option Int} (hcache : ∀ p, cache = some p → s.findLeafPage f key = .ok p)
    (h : s.insertEntry f key value = .ok (t, q)) : ∃ cache', s.optimizedInsertEntry f cache key value = .ok (t, cache') := by
  obtain ⟨p, hp, -⟩ := Runs.ok_of_bind h
  obtain ⟨⟨leaf, hleaf⟩, cache', hinto⟩ := insertIntoLeaf_of_insertEntry hp h
  refine ⟨cache', ?_⟩
  have hleafPage : s.cachedLeaf f cache key = .ok p := by
    cases cache with
    | none => exact hp
    | some p' =>
      obtain rfl : p = p' := by
        have := hcache p' rfl
        rw [hp] at this
        exact Except.ok.inj this
      have hcan : ∃ b, s.canInsertToCachedNode f p key = .ok b := by
        rw [canInsertToCachedNode, hleaf, ok_bind]
        split
        · exact ⟨_, rfl⟩
        · split <;> exact ⟨_, rfl⟩
      obtain ⟨b, hb⟩ := hcan
      rw [cachedLeaf, hb, ok_bind]
      cases b with
      | true => rfl
      | false => exact hp
  rw [optimizedInsertEntry, hleafPage, ok_bind, hinto]

end IxIndexHandle

namespace LoadExecutor
variable {tab : TabMeta}

/-- The value that an open index has for the bytes of a key. -/
def OpenIndex.value (o : OpenIndex tab) (bs : Bytes) : Except IxError (Option Rid) := do
  let key ← ixKey o.1.ixCols bs
  o.2.getValue (ixFormat o.1.ixCols) key

/-- The index has the entry of a row. -/
def Contains (o : OpenIndex tab) (r : Loaded) : Prop := o.value (o.1.keyBytes r.2) = .ok (some r.1)

/-- `o'` is the same index with the entries of `o`, and perhaps more. -/
def Grows (o o' : OpenIndex tab) : Prop := o'.1 = o.1 ∧ ∀ bs rid, o.value bs = .ok (some rid) → o'.value bs = .ok (some rid)

/-- Every index has the entries of the rows besides those it had before. -/
structure Indexed (indexes : List (OpenIndex tab)) (loaded : List Loaded) (indexes' : List (OpenIndex tab)) : Prop where
  rows : ∀ o ∈ indexes', ∀ r ∈ loaded, Contains o r
  kept : List.Forall₂ Grows indexes indexes'

/-- A row as a step of `batch_insert_index`. -/
def feedRow (ix : IndexMeta tab) (s : IxIndexHandle (IxKey ix.ixCols) × Option Int) (r : Loaded) :
    Except IxError (IxIndexHandle (IxKey ix.ixCols) × Option Int) := do
  let key ← ixKey ix.ixCols (ix.keyBytes r.2)
  s.1.optimizedInsertEntry (ixFormat ix.ixCols) s.2 key r.1

/-- A cached leaf is the leaf of the row's key. -/
def CachedRight (ix : IndexMeta tab) (s : IxIndexHandle (IxKey ix.ixCols) × Option Int) (r : Loaded) : Prop :=
  ∀ key p, ixKey ix.ixCols (ix.keyBytes r.2) = .ok key → s.2 = some p → s.1.findLeafPage (ixFormat ix.ixCols) key = .ok p

/-- The keys of the rows are new to the index and differ from each other. -/
structure NewKeys (o : OpenIndex tab) (loaded : List Loaded) : Prop where
  absent : ∀ r ∈ loaded, o.value (o.1.keyBytes r.2) = .ok none
  distinct : loaded.Pairwise fun a b => ixCompare o.1.ixCols (o.1.keyBytes a.2) (o.1.keyBytes b.2) ≠ 0

section
variable {ix : IndexMeta tab} {s t : IxIndexHandle (IxKey ix.ixCols) × Option Int} {rows : List Loaded}

theorem batchInsertIndex_eq (rows : List Loaded) : batchInsertIndex ix s rows = Runs.exec (feedRow ix) s rows := by
  induction rows generalizing s with
  | nil => rfl
  | cons r rows ih =>
    rw [batchInsertIndex, Runs.exec, feedRow]
    cases hkey : ixKey ix.ixCols (ix.keyBytes r.2) with
    | error e => rfl
    | ok key =>
      rw [ok_bind, ok_bind]
      cases hins : s.1.optimizedInsertEntry (ixFormat ix.ixCols) s.2 key r.1 with
      | error e => rfl
      | ok u =>
        rw [ok_bind, ok_bind]
        exact ih

/-- Rows with new keys in a tree, each at its leaf. -/
theorem exec_feedRow (hf : (ixFormat ix.ixCols).Lawful) {L : IxLevel (IxKey ix.ixCols)} {Us : List (IxLevel (IxKey ix.ixCols))}
    (T : Tree (ixFormat ix.ixCols) s.1 L Us) (hrun : Runs.exec (feedRow ix) s rows = .ok t)
    (hcache : Runs.Throughout (feedRow ix) (CachedRight ix) s rows)
    (hnew : ∀ r ∈ rows, ∀ e ∈ flat L, ixCompare ix.ixCols e.1.val (ix.keyBytes r.2) ≠ 0)
    (hdis : rows.Pairwise fun a b => ixCompare ix.ixCols (ix.keyBytes a.2) (ix.keyBytes b.2) ≠ 0) :
    ∃ M Vs, Tree (ixFormat ix.ixCols) t.1 M Vs ∧
      (∀ e, e ∈ flat M ↔ e ∈ flat L ∨ ∃ r ∈ rows, e.1.val = ix.keyBytes r.2 ∧ e.2 = r.1) ∧
      ∀ r ∈ rows, ∃ key, ixKey ix.ixCols (ix.keyBytes r.2) = .ok key := by
  induction rows generalizing s L Us with
  | nil =>
    cases hrun
    exact ⟨L, Us, T, by simp, by simp⟩
  | cons r rows ih =>
    rw [List.forall_mem_cons] at hnew
    rw [List.pairwise_cons] at hdis
    obtain ⟨u, hu, hrest⟩ := Runs.ok_of_bind hrun
    have hu' := hu
    rw [feedRow] at hu
    obtain ⟨key, hkey, hins⟩ := Runs.ok_of_bind hu
    have hval : key.val = ix.keyBytes r.2 := by
      rw [ixKey] at hkey
      split at hkey
      · cases hkey
        rfl
      · cases hkey
    have habs : ∀ e ∈ flat L, ¬Same e.1 key := by
      intro e he hsame
      refine hnew.1 e he ?_
      rw [← hval]
      exact (hf.eq_iff e.1 key).mpr hsame
    obtain ⟨t₁, q, M₁, Vs₁, hentry, -, hinserted⟩ := insertEntry_absent hf T habs r.1
    obtain ⟨cache', hopt⟩ := optimizedInsertEntry_eq (fun p hp => hcache.1 key p hkey hp) hentry
    rw [hopt] at hins
    cases hins
    obtain ⟨E, F, hL, hM₁⟩ := hinserted.entries
    have hmem : ∀ e, e ∈ flat M₁ ↔ e = (key, r.1) ∨ e ∈ flat L := by
      intro e
      rw [hL, hM₁, List.mem_append, List.mem_cons, List.mem_append]
      exact or_left_comm
    obtain ⟨M, Vs, T', hentries, hkeys⟩ := ih (s := (t₁, cache')) hinserted.tree hrest (hcache.2 _ hu') (by
      intro r' hr' e he
      rcases (hmem e).mp he with rfl | he
      · rw [hval]
        exact hdis.1 r' hr'
      · exact hnew.2 r' hr' e he) hdis.2
    refine ⟨M, Vs, T', fun e => ?_, List.forall_mem_cons.mpr ⟨⟨key, hkey⟩, hkeys⟩⟩
    rw [hentries e, hmem e, List.exists_mem_cons_iff, or_assoc, or_left_comm]
    refine or_congr_right (or_congr_left ?_)
    rw [Prod.ext_iff, Subtype.ext_iff, hval]

end

/-! ### The executor -/

section
variable {parse : Bytes → Option Bytes} {batchSize fuel : Nat} {f g : RmFile} {lines : List Bytes} {loaded : List Loaded}

/-- The rows of all batches go through the index one after another. -/
theorem exec_of_loadBatches {ix : IndexMeta tab} {s t : IxIndexHandle (IxKey ix.ixCols) × Option Int}
    (h : loadBatches parse batchSize (batchInsertIndex ix) fuel f s lines = .ok (g, t, loaded)) :
    Runs.exec (feedRow ix) s loaded = .ok t := by
  induction fuel generalizing f s lines loaded with
  | zero => cases h
  | succ fuel ih =>
    by_cases hbatch : (lines.take batchSize).filterMap parse = []
    · rw [loadBatches, hbatch] at h
      cases h
      rfl
    · rcases loadBatches_step hbatch h with ⟨f₁, rids, s₁, -, hfeed, ⟨-, -, rfl, rfl⟩ | ⟨-, rest, hrest, rfl⟩⟩
      · rw [← batchInsertIndex_eq]
        exact hfeed
      · rw [batchInsertIndex_eq] at hfeed
        rw [Runs.exec_append hfeed]
        exact ih hrest

theorem loaded_nil {S : Type} {feed : S → List Loaded → Except IxError S} {s t : S} (hnone : lines.filterMap parse = [])
    (h : loadBatches parse batchSize feed fuel f s lines = .ok (g, t, loaded)) : loaded = [] := by
  cases fuel with
  | zero => cases h
  | succ fuel =>
    have htake : (lines.take batchSize).filterMap parse = [] := by
      rw [List.filterMap_eq_nil_iff] at hnone ⊢
      exact fun line hline => hnone line (List.mem_of_mem_take hline)
    rw [loadBatches, htake] at h
    cases h
    rfl

theorem Grows.refl (o : OpenIndex tab) : Grows o o := ⟨rfl, fun _ _ h => h⟩

theorem forall₂_grows_refl (os : List (OpenIndex tab)) : List.Forall₂ Grows os os := List.forall₂_same.mpr fun o _ => Grows.refl o

/-- An index that calls lead to. -/
def Reached (o : OpenIndex tab) : Prop :=
  IxAccepts o.1.ixCols ∧ ∃ cs h, (create : IxIndexHandle (IxKey o.1.ixCols)).run (ixFormat o.1.ixCols) cs = .ok (o.2, h)

theorem Reached.tree {o : OpenIndex tab} (h : Reached o) :
    (ixFormat o.1.ixCols).Lawful ∧ ∃ L Us, Tree (ixFormat o.1.ixCols) o.2 L Us := by
  obtain ⟨hacc, cs, hist, hrun⟩ := h
  have hf := ixFormat_lawful hacc
  obtain ⟨t, hist', L, Us, hrun', -, T, -⟩ := run_create hf cs
  rw [hrun] at hrun'
  cases hrun'
  exact ⟨hf, L, Us, T⟩

theorem value_eq {ix : IndexMeta tab} {s : IxIndexHandle (IxKey ix.ixCols)} (hf : (ixFormat ix.ixCols).Lawful) {L : IxLevel (IxKey ix.ixCols)}
    {Us : List (IxLevel (IxKey ix.ixCols))} (T : Tree (ixFormat ix.ixCols) s L Us) {bs : Bytes} {key : IxKey ix.ixCols}
    (hkey : ixKey ix.ixCols bs = .ok key) : OpenIndex.value ⟨ix, s⟩ bs = .ok (valueOf (ixFormat ix.ixCols) (flat L) key) := by
  rw [OpenIndex.value, hkey, ok_bind, getValue_eq hf T]

theorem ixKey_val {cols : List IxCol} {bs : Bytes} {key : IxKey cols} (h : ixKey cols bs = .ok key) : key.val = bs := by
  rw [ixKey] at h
  split at h
  · cases h
    rfl
  · cases h

/-- The index that `LOAD` feeds, when every row has a new key and goes to its leaf. -/
theorem fed_index {o : OpenIndex tab} (hreach : Reached o) {t : IxIndexHandle (IxKey o.1.ixCols) × Option Int}
    (hrun : Runs.exec (feedRow o.1) (o.2, none) loaded = .ok t) (hnew : NewKeys o loaded)
    (hcache : Runs.Throughout (feedRow o.1) (CachedRight o.1) (o.2, none) loaded) :
    (∀ r ∈ loaded, Contains ⟨o.1, t.1⟩ r) ∧ Grows o ⟨o.1, t.1⟩ := by
  obtain ⟨ix, s⟩ := o
  obtain ⟨hf, L, Us, T⟩ := hreach.tree
  have habsent : ∀ r ∈ loaded, ∀ e ∈ flat L, ixCompare ix.ixCols e.1.val (ix.keyBytes r.2) ≠ 0 := by
    intro r hr e he hzero
    have hval := hnew.absent r hr
    obtain ⟨key, hkey, -⟩ := Runs.ok_of_bind hval
    rw [value_eq hf T hkey] at hval
    refine (valueOf_eq_none hf).mp (Except.ok.inj hval) e he ((hf.eq_iff e.1 key).mp ?_)
    rw [← ixKey_val hkey] at hzero
    exact hzero
  obtain ⟨M, Vs, T', hmem, hkeys⟩ := exec_feedRow hf T hrun hcache habsent hnew.distinct
  constructor
  · intro r hr
    obtain ⟨key, hkey⟩ := hkeys r hr
    rw [Contains, value_eq hf T' hkey, (valueOf_eq_some hf T'.ascending).mpr]
    exact ⟨(key, r.1), (hmem _).mpr (Or.inr ⟨r, hr, ixKey_val hkey, rfl⟩), Same.refl key, rfl⟩
  · refine ⟨rfl, fun bs rid hval => ?_⟩
    obtain ⟨key, hkey, -⟩ := Runs.ok_of_bind hval
    rw [value_eq hf T hkey] at hval
    obtain ⟨e, he, hsame, hrid⟩ := (valueOf_eq_some hf T.ascending).mp (Except.ok.inj hval)
    rw [value_eq hf T' hkey, (valueOf_eq_some hf T'.ascending).mpr ⟨e, (hmem e).mpr (Or.inl he), hsame, hrid⟩]

end
end LoadExecutor

/-- For every table, every state of its file, indexes that calls lead to and every CSV file: when `LOAD` ends, every index has
    the entries of the loaded rows besides its old ones, if the table has at most one index, the keys are new and differ, and
    `optimized_insert_entry` never meets a cached leaf that is not the leaf of the key. -/
theorem load_indexed {n : Nat} {tab : TabMeta} (f : RmFile) (indexes : List (OpenIndex tab)) (hreach : ∀ o ∈ indexes, Reached o)
    (csv : List Bytes) (g : RmFile) (indexes' : List (OpenIndex tab)) (loaded : List Loaded)
    (hload : LoadExecutor.next n f indexes csv = .ok (g, indexes', loaded))
    (hone : indexes.length ≤ 1 ∨ csv.tail.filterMap (ultraFastParse tab n) = []) (hnew : ∀ o ∈ indexes, NewKeys o loaded)
    (hcache : ∀ o ∈ indexes, Runs.Throughout (feedRow o.1) (CachedRight o.1) (o.2, none) loaded) :
    Indexed indexes loaded indexes' := by
  rw [LoadExecutor.next.eq_def] at hload
  cases csv with
  | nil => cases hload
  | cons header lines =>
    cases indexes with
    | nil =>
      obtain ⟨r, -, hload⟩ := Runs.ok_of_bind hload
      cases hload
      exact ⟨by simp, .nil⟩
    | cons o rest =>
      obtain ⟨⟨g', s, loaded'⟩, hrun, hload⟩ := Runs.ok_of_bind hload
      cases hload
      obtain ⟨hrows, hgrows⟩ := fed_index (hreach o List.mem_cons_self) (exec_of_loadBatches hrun) (hnew o List.mem_cons_self)
        (hcache o List.mem_cons_self)
      refine ⟨?_, .cons hgrows (forall₂_grows_refl rest)⟩
      rcases hone with hlen | hnone
      · have hnil : rest = [] := by
          rw [List.length_cons] at hlen
          exact List.length_eq_zero_iff.mp (by omega)
        subst hnil
        exact List.forall_mem_cons.mpr ⟨hrows, by simp⟩
      · have hnil : loaded = [] := loaded_nil hnone hrun
        subst hnil
        simp

theorem load_indexed_one : ∃ g indexes loaded,
    LoadExecutor.next 4 (RmFile.create 4) [(⟨numIx, create⟩ : OpenIndex numTab)] [[0x61], [0x37]] = .ok (g, indexes, loaded) ∧
      Indexed [(⟨numIx, create⟩ : OpenIndex numTab)] loaded indexes := by
  obtain ⟨⟨g, indexes, loaded⟩, hload, hloaded⟩ := ok_of_eval
    (x := LoadExecutor.next 4 (RmFile.create 4) [(⟨numIx, create⟩ : OpenIndex numTab)] [[0x61], [0x37]])
    (h := fun r => r.2.2) (b := [(⟨1, 0⟩, [7, 0, 0, 0])]) (by decide)
  simp only at hloaded
  subst hloaded
  refine ⟨g, indexes, _, hload, load_indexed _ _ (fun o ho => ?_) _ g indexes _ hload (Or.inl (by decide)) (fun o ho => ?_) fun o ho => ?_⟩
  · obtain rfl := List.mem_singleton.mp ho
    exact ⟨by decide, [], [], rfl⟩
  · obtain rfl := List.mem_singleton.mp ho
    refine ⟨fun r hr => ?_, List.pairwise_singleton _ _⟩
    obtain rfl := List.mem_singleton.mp hr
    obtain ⟨v, hv, rfl⟩ := ok_of_eval (x := OpenIndex.value (⟨numIx, create⟩ : OpenIndex numTab) (numIx.keyBytes [7, 0, 0, 0])) (h := id)
      (b := none) (by decide)
    exact hv
  · obtain rfl := List.mem_singleton.mp ho
    refine ⟨fun key p _ hp => ?_, fun _ _ => trivial⟩
    cases hp

def secondCol : ColMeta := ⟨"b", .int, 4, 4, numCol_fixed⟩

/-- A table of two INT columns. -/
def pairTab : TabMeta := ⟨"t", [numCol, secondCol], by decide⟩

def firstIx : IndexMeta pairTab := ⟨[numCol], by decide⟩

def secondIx : IndexMeta pairTab := ⟨[secondCol], by decide⟩

/-- An index on each column of an empty table. -/
def pairIndexes : List (OpenIndex pairTab) := [⟨firstIx, create⟩, ⟨secondIx, create⟩]

/-- After the line `1,2` the second index has no entry. -/
theorem load_indexed_pair : ∃ g indexes loaded,
    LoadExecutor.next 8 (RmFile.create 8) pairIndexes [[0x61, 0x2c, 0x62], [0x31, 0x2c, 0x32]] = .ok (g, indexes, loaded) ∧
      ¬Indexed pairIndexes loaded indexes := by
  obtain ⟨⟨g, indexes, loaded⟩, hload, hview⟩ := ok_of_eval
    (x := LoadExecutor.next 8 (RmFile.create 8) pairIndexes [[0x61, 0x2c, 0x62], [0x31, 0x2c, 0x32]])
    (h := fun r => (r.2.2, r.2.1.map fun o => (o.value (o.1.keyBytes [1, 0, 0, 0, 2, 0, 0, 0])).toOption))
    (b := ([(⟨1, 0⟩, [1, 0, 0, 0, 2, 0, 0, 0])], [some (some ⟨1, 0⟩), some none])) (by decide)
  simp only [Prod.mk.injEq] at hview
  obtain ⟨hloaded, hvalues⟩ := hview
  refine ⟨g, indexes, loaded, hload, fun hix => ?_⟩
  have hsome : some none ∈ indexes.map fun o => (o.value (o.1.keyBytes [1, 0, 0, 0, 2, 0, 0, 0])).toOption := by
    rw [hvalues]
    simp
  obtain ⟨o, ho, hnone⟩ := List.mem_map.mp hsome
  have hrow := hix.rows o ho (⟨1, 0⟩, [1, 0, 0, 0, 2, 0, 0, 0]) (by rw [hloaded]; simp)
  rw [show o.value (o.1.keyBytes [1, 0, 0, 0, 2, 0, 0, 0]) = _ from hrow] at hnone
  cases hnone

end Rmdb
