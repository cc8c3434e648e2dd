import Rmdb.Storage.Pools
import Rmdb.Lib.Runs

/-! The budget and the latch of the pools.

The budget is kept by every call. The latch is left locked where a call returns or raises between `lock` and `unlock`. -/

namespace Rmdb.DiskBufferPool
variable {s t : DiskBufferPool} {env : PoolEnv} {name : String} {size old : UInt64}

/-- What the pools are to be after each call. -/
structure Settled (s : DiskBufferPool) : Prop where
  free : s.latch = false
  sum : s.useNum.toNat = s.total
  within : s.useNum ≤ s.totNum

/-! ### The sum of the sizes -/

theorem sum_kerase {l : List (Sigma fun _ : String => UInt64)} (h : l.NodupKeys) (hl : List.dlookup name l = some old) :
    (l.map (·.2.toNat)).sum = old.toNat + ((l.kerase name).map (·.2.toNat)).sum := by
  induction l with
  | nil => cases hl
  | cons e l ih =>
    obtain ⟨k, v⟩ := e
    obtain ⟨-, hnd⟩ := List.nodupKeys_cons.mp h
    by_cases hk : name = k
    · subst hk
      rw [List.dlookup_cons_eq] at hl
      cases hl
      have hker : List.kerase name ((⟨name, old⟩ : Sigma fun _ : String => UInt64) :: l) = l := List.kerase_cons_eq rfl
      rw [hker, List.map_cons, List.sum_cons]
    · rw [List.dlookup_cons_ne _ _ hk] at hl
      rw [List.kerase_cons_ne hk, List.map_cons, List.sum_cons, List.map_cons, List.sum_cons, ih hnd hl]
      omega

theorem total_erase (h : s.buffers.lookup name = some old) :
    s.total = old.toNat + { s with buffers := s.buffers.erase name }.total := sum_kerase s.buffers.nodupKeys h

theorem total_insert (h : s.buffers.lookup name = some old) :
    { s with buffers := s.buffers.insert name size }.total + old.toNat = s.total + size.toNat := by
  have herase := total_erase h
  simp only [total, AList.entries_insert, List.map_cons, List.sum_cons] at herase ⊢
  rw [show (s.buffers.erase name).entries = s.buffers.entries.kerase name from rfl] at herase
  omega

theorem total_new (h : s.buffers.lookup name = none) :
    { s with buffers := s.buffers.insert name size }.total = size.toNat + s.total := by
  rw [AList.lookup_eq_none] at h
  simp only [total, AList.entries_insert_of_notMem h, List.map_cons, List.sum_cons]

/-! ### The budget -/

@[simp] theorem clip_clip : s.clip (s.clip size) = s.clip size := by
  by_cases hover : s.useNum + size > s.totNum
  · have hclip : s.clip size = s.totNum - s.useNum := if_pos hover
    have hfull : s.useNum + (s.totNum - s.useNum) = s.totNum := by rw [UInt64.add_comm, UInt64.sub_add_cancel]
    rw [hclip, clip, hfull, if_neg (UInt64.lt_irrefl _)]
  · have hclip : s.clip size = size := if_neg hover
    rw [hclip, hclip]

/-- A size for which there is memory leaves the budget unexceeded. -/
theorem Settled.clip_within (h : Settled s) (hmem : s.allocates env (s.clip size)) :
    s.useNum.toNat + (s.clip size).toNat ≤ s.totNum.toNat := by
  have hwithin := UInt64.le_iff_toNat_le.mp h.within
  have hbound := hmem.1
  rw [← h.sum, pageSize] at hbound
  by_cases hover : s.useNum + size > s.totNum
  · rw [clip, if_pos hover, UInt64.toNat_sub_of_le _ _ h.within]
    omega
  · rw [clip, if_neg hover] at hbound ⊢
    have hle := UInt64.le_iff_toNat_le.mp (UInt64.not_lt.mp hover)
    rwa [UInt64.toNat_add, Nat.mod_eq_of_lt (by omega)] at hle

theorem Settled.insert_new (h : Settled s) (hl : s.buffers.lookup name = none) (hmem : s.allocates env (s.clip size)) :
    Settled { s with buffers := s.buffers.insert name (s.clip size), useNum := s.useNum + s.clip size, latch := false } := by
  have hwithin := h.clip_within hmem
  have hadd : (s.useNum + s.clip size).toNat = s.useNum.toNat + (s.clip size).toNat := by
    rw [UInt64.toNat_add, Nat.mod_eq_of_lt (lt_of_le_of_lt hwithin s.totNum.toNat_lt)]
  refine ⟨rfl, ?_, UInt64.le_iff_toNat_le.mpr (hadd ▸ hwithin)⟩
  rw [hadd, h.sum, Nat.add_comm]
  exact (total_new hl).symm

theorem Settled.insert_resized (h : Settled s) (hl : s.buffers.lookup name = some old) (hmem : s.allocates env (s.clip size)) :
    Settled { s with buffers := s.buffers.insert name (s.clip size), useNum := s.useNum - old + s.clip size, latch := false } := by
  have hwithin := h.clip_within hmem
  have hold : old.toNat ≤ s.useNum.toNat := by
    rw [h.sum, total_erase hl]
    exact Nat.le_add_right _ _
  have hsub : (s.useNum - old).toNat = s.useNum.toNat - old.toNat := UInt64.toNat_sub_of_le _ _ (UInt64.le_iff_toNat_le.mpr hold)
  have hadd : (s.useNum - old + s.clip size).toNat = s.useNum.toNat - old.toNat + (s.clip size).toNat := by
    have := s.totNum.toNat_lt
    rw [UInt64.toNat_add, hsub, Nat.mod_eq_of_lt (by omega)]
  have hsum : ({ s with buffers := s.buffers.insert name (s.clip size) } : DiskBufferPool).total + old.toNat =
      s.total + (s.clip size).toNat := total_insert hl
  have hs := h.sum
  refine ⟨rfl, ?_, UInt64.le_iff_toNat_le.mpr ?_⟩
  · rw [hadd]
    show _ = ({ s with buffers := s.buffers.insert name (s.clip size) } : DiskBufferPool).total
    omega
  · rw [hadd]
    show _ ≤ s.totNum.toNat
    omega

theorem Settled.erase (h : Settled s) (hl : s.buffers.lookup name = some old) :
    Settled { s with buffers := s.buffers.erase name, useNum := s.useNum - old } := by
  have hsum := total_erase hl
  have hs := h.sum
  have hold : old ≤ s.useNum := UInt64.le_iff_toNat_le.mpr (by omega)
  refine ⟨h.free, ?_, ?_⟩
  · rw [UInt64.toNat_sub_of_le _ _ hold]
    show _ = ({ s with buffers := s.buffers.erase name } : DiskBufferPool).total
    omega
  · have := UInt64.le_iff_toNat_le.mp h.within
    refine UInt64.le_iff_toNat_le.mpr ?_
    show (s.useNum - old).toNat ≤ s.totNum.toNat
    rw [UInt64.toNat_sub_of_le _ _ hold]
    omega

/-! ### The calls -/

/-- No pool has the name, and there is memory for a new one. -/
def Creates (s : DiskBufferPool) (env : PoolEnv) (name : String) (size : UInt64) : Prop :=
  s.buffers.lookup name = none ∧ s.allocates env size

/-- The pool of the name has another size, and a new pool can take its place. -/
def Resizes (s : DiskBufferPool) (env : PoolEnv) (name : String) (size : UInt64) : Prop :=
  ∃ old, s.buffers.lookup name = some old ∧ old ≠ size ∧ s.allocates env size ∧ env.flushes

/-- The call unlocks what it locks: there is nothing left of the budget, or a pool is created, or a pool is replaced. -/
def Releases (s : DiskBufferPool) : PoolCall → Prop
  | .getPool name size env => s.clip size = 0 ∨ s.Creates env name (s.clip size) ∨
      (s.Resizes env name (s.clip size) ∧ ∀ old, s.buffers.lookup name = some old → old < s.clip size)
  | .adjustPool name size env => s.clip size = 0 ∨ s.Creates env name (s.clip size) ∨ s.Resizes env name (s.clip size)
  | .fetchPool _ | .deletePool _ _ => True

variable (k : DiskBufferPool → String → UInt64 → DiskBufferPool × PoolReply) (env)

/-- `adjust_pool` on a pool that is there. -/
theorem adjustPoolWith_some (h : Settled s) (hl : s.buffers.lookup name = some old) (hne : s.clip size ≠ 0) :
    (s.Resizes env name (s.clip size) → Settled (s.adjustPoolWith k env name size).1) ∧
      (¬s.Resizes env name (s.clip size) → (s.adjustPoolWith k env name size).1.latch = true) := by
  have hiff : s.Resizes env name (s.clip size) ↔ old ≠ s.clip size ∧ s.allocates env (s.clip size) ∧ env.flushes := by
    simp only [Resizes, hl, Option.some.injEq, exists_eq_left']
  have halloc : ({ s with latch := true } : DiskBufferPool).allocates env (s.clip size) ↔ s.allocates env (s.clip size) := Iff.rfl
  rw [hiff]
  simp only [adjustPoolWith, if_neg hne, h.free, Bool.false_eq_true, if_false, hl, halloc]
  by_cases hold : old = s.clip size
  · simp [hold]
  · by_cases hmem : s.allocates env (s.clip size)
    · by_cases hflush : env.flushes = true
      · simp only [if_neg hold, if_pos hmem, if_pos hflush]
        exact ⟨fun _ => h.insert_resized hl hmem, fun hnot => absurd ⟨hold, hmem, hflush⟩ hnot⟩
      · simp [hold, hmem, hflush]
    · simp [hold, hmem]

/-- `get_pool` for a name without a pool. -/
theorem getPoolWith_none (h : Settled s) (hl : s.buffers.lookup name = none) (hne : s.clip size ≠ 0) :
    (s.Creates env name (s.clip size) → Settled (s.getPoolWith k env name size).1) ∧
      (¬s.Creates env name (s.clip size) → (s.getPoolWith k env name size).1.latch = true) := by
  have halloc : ({ s with latch := true } : DiskBufferPool).allocates env (s.clip size) ↔ s.allocates env (s.clip size) := Iff.rfl
  simp only [Creates, hl, true_and, getPoolWith, if_neg hne, h.free, Bool.false_eq_true, if_false, halloc]
  by_cases hmem : s.allocates env (s.clip size)
  · simp only [if_pos hmem]
    exact ⟨fun _ => h.insert_new hl hmem, fun hnot => absurd hmem hnot⟩
  · simp [hmem]

/-- A call within a call makes no third one. -/
theorem getPool_nested (h : Settled s) (hne : s.clip size ≠ 0) :
    s.getPool env name size = s.getPoolWith (fun s => s.adjustPoolWith k env) env name size := by
  simp only [getPool, getPoolWith, if_neg hne, h.free, Bool.false_eq_true, if_false]
  cases hl : s.buffers.lookup name with
  | none => rfl
  | some old =>
    have hclip : ({ s with latch := false } : DiskBufferPool).clip (s.clip size) = s.clip size := clip_clip
    simp only [adjustPoolWith, hclip, if_neg hne, Bool.false_eq_true, if_false, hl]

/-- From a settled state exactly the calls that release the latch lead to a settled one. -/
theorem call_spec (h : Settled s) (c : PoolCall) :
    (s.Releases c → Settled (s.call c).1) ∧ (¬s.Releases c → ¬Settled (s.call c).1) := by
  have hsame : ({ s with latch := false } : DiskBufferPool) = s := by rw [← h.free]
  have hlatched : ∀ {t : DiskBufferPool}, t.latch = true → ¬Settled t := by
    intro t ht hset
    rw [hset.free] at ht
    cases ht
  cases c with
  | getPool name size env =>
    by_cases hne : s.clip size = 0
    · have hcall : (s.getPool env name size).1 = s := by simp only [getPool, getPoolWith, if_pos hne]
      exact ⟨fun _ => hcall.symm ▸ h, fun hnot => absurd (Or.inl hne) hnot⟩
    · simp only [Releases, hne, false_or, call]
      cases hl : s.buffers.lookup name with
      | none =>
        have hresizes : ¬s.Resizes env name (s.clip size) := fun ⟨_, hold, _⟩ => by rw [hl] at hold; cases hold
        obtain ⟨hgood, hbad⟩ := getPoolWith_none env (fun s => s.adjustPoolWith noCall env) h hl hne
        simp only [hresizes, false_and, or_false]
        exact ⟨hgood, fun hnot => hlatched (hbad hnot)⟩
      | some old =>
        have hcreates : ¬s.Creates env name (s.clip size) := fun ⟨hnone, _⟩ => by rw [hl] at hnone; cases hnone
        simp only [hcreates, false_or, Option.some.injEq, forall_eq']
        by_cases hge : old ≥ s.clip size
        · have hcall : (s.getPool env name size).1 = { s with latch := true } := by
            simp only [getPool, getPoolWith, if_neg hne, h.free, Bool.false_eq_true, if_false, hl, if_pos hge]
          rw [hcall]
          exact ⟨fun hok => absurd hok.2 (UInt64.not_lt.mpr hge), fun _ => hlatched rfl⟩
        · have hcall : s.getPool env name size = s.adjustPoolWith noCall env name (s.clip size) := by
            simp only [getPool, getPoolWith, if_neg hne, h.free, Bool.false_eq_true, if_false, hl, if_neg hge]
            rw [hsame]
          have hne' : s.clip (s.clip size) ≠ 0 := clip_clip.symm ▸ hne
          have hspec := adjustPoolWith_some env noCall h hl hne'
          rw [clip_clip] at hspec
          rw [hcall]
          exact ⟨fun hok => hspec.1 hok.1, fun hnot => hlatched (hspec.2 fun hr => hnot ⟨hr, UInt64.not_le.mp hge⟩)⟩
  | fetchPool name =>
    refine ⟨fun _ => ?_, fun hnot => absurd trivial hnot⟩
    simp only [call, fetchPool, h.free, Bool.false_eq_true, if_false]
    split <;> exact h
  | adjustPool name size env =>
    by_cases hne : s.clip size = 0
    · have hcall : (s.adjustPool env name size).1 = s := by simp only [adjustPool, adjustPoolWith, if_pos hne]
      exact ⟨fun _ => hcall.symm ▸ h, fun hnot => absurd (Or.inl hne) hnot⟩
    · simp only [Releases, hne, false_or, call]
      cases hl : s.buffers.lookup name with
      | none =>
        have hresizes : ¬s.Resizes env name (s.clip size) := fun ⟨_, hold, _⟩ => by rw [hl] at hold; cases hold
        have hcall : s.adjustPool env name size = s.getPoolWith noCall env name (s.clip size) := by
          simp only [adjustPool, adjustPoolWith, if_neg hne, h.free, Bool.false_eq_true, if_false, hl]
          rw [hsame]
        have hne' : s.clip (s.clip size) ≠ 0 := clip_clip.symm ▸ hne
        have hspec := getPoolWith_none env noCall h hl hne'
        rw [clip_clip] at hspec
        rw [hcall]
        simp only [hresizes, or_false]
        exact ⟨hspec.1, fun hnot => hlatched (hspec.2 hnot)⟩
      | some old =>
        have hcreates : ¬s.Creates env name (s.clip size) := fun ⟨hnone, _⟩ => by rw [hl] at hnone; cases hnone
        obtain ⟨hgood, hbad⟩ := adjustPoolWith_some env (fun s => s.getPoolWith noCall env) h hl hne
        simp only [hcreates, false_or]
        exact ⟨hgood, fun hnot => hlatched (hbad hnot)⟩
  | deletePool name env =>
    refine ⟨fun _ => ?_, fun hnot => absurd trivial hnot⟩
    simp only [call, deletePool, h.free, Bool.false_eq_true, if_false]
    cases hl : s.buffers.lookup name with
    | none => exact h
    | some old =>
      by_cases hflush : env.flushes = true
      · simp only [if_pos hflush]
        exact h.free ▸ h.erase hl
      · simp only [if_neg hflush]
        exact h

theorem Settled.create (poolSize : UInt64) : Settled (create poolSize) := ⟨rfl, rfl, UInt64.zero_le⟩

/-- In every run of calls the latch is free and the budget right after each call exactly when each call releases the latch. -/
theorem settled_always_iff (poolSize : UInt64) (cs : List PoolCall) :
    Runs.Always step Settled (create poolSize) cs ↔ Runs.Throughout step Releases (create poolSize) cs := by
  refine Runs.always_iff_throughout (I := Settled) (D := fun _ _ => True) ?_ (fun _ h => h) (Settled.create poolSize)
    (Runs.throughout_of_forall fun _ _ => trivial)
  intro s c h _
  exact ⟨_, rfl, call_spec h c⟩

/-- The same pool is asked for twice. -/
def getTwice : List PoolCall := [.getPool "t" 1 ⟨true, true⟩, .getPool "t" 1 ⟨true, true⟩]

/-- The second call returns the pool and leaves the latch locked. -/
theorem settled_getTwice : ¬Runs.Always step Settled (create 4) getTwice := by
  rintro ⟨-, s, hs, -, t, ht, hsettled⟩
  cases hs
  cases ht
  exact absurd hsettled.free (by decide)

end Rmdb.DiskBufferPool
