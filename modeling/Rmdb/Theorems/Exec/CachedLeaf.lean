import Rmdb.Exec.Load
import Rmdb.Theorems.Index.InsertEntries
import Rmdb.Theorems.Index.Session
import Rmdb.Theorems.Index.Shape

/-! `optimized_insert_entry` takes the cached leaf for any key: the order of the leaves is lost with the first key that does
not belong there. Everything else about the tree is kept. -/

namespace Rmdb
open Ladder

namespace IxIndexHandle
variable {K : Type}

/-- The leaf on page `p` has the key. -/
def HasKey (f : IxFormat K) (s : IxIndexHandle K) (p : Int) (key : K) : Prop := ∃ e ∈ s.pairsOn p, f.compare e.1 key = 0

/-- The key lies above the entries of the leaves before page `p` and below those of the leaves behind it. -/
def Between (f : IxFormat K) (s : IxIndexHandle K) (p : Int) (key : K) : Prop :=
  ∀ e, InTree s e → e ∉ s.pairsOn p → ∀ d ∈ s.pairsOn p,
    (f.compare e.1 d.1 < 0 → f.compare e.1 key < 0) ∧ (f.compare d.1 e.1 < 0 → f.compare key e.1 < 0)

/-- A leaf that is cached has the key, or is the place for it. -/
def KeyFits (f : IxFormat K) (s : IxIndexHandle K × Option Int) (e : K × Rid) : Prop :=
  ∀ p, s.2 = some p → HasKey f s.1 p e.1 ∨ Between f s.1 p e.1

variable [Preorder K]

/-- A tree but for the order of the leaves. -/
structure Skeleton (f : IxFormat K) (s : IxIndexHandle K) (L : IxLevel K) (Us : List (IxLevel K)) : Prop where
  tower : Tower s true L Us
  filled : Filled f L
  filledUp : ∀ U ∈ Us, Filled f U
  sorted : ∀ b ∈ L, Ascending b.entries
  leaves : Leaves s L
  counters : Counters s

theorem Tree.skeleton {f : IxFormat K} {s : IxIndexHandle K} {L : IxLevel K} {Us : List (IxLevel K)} (T : Tree f s L Us) :
    Skeleton f s L Us :=
  ⟨T.tower, T.filled, T.filledUp, fun _ hb => T.ascending.block hb, T.leaves, T.counters⟩

section
variable {f : IxFormat K} {s : IxIndexHandle K} {L A B : IxLevel K} {n : Block Int K Rid} {Us : List (IxLevel K)} {key : K}

theorem Skeleton.tree (S : Skeleton f s L Us) (h : Ascending (flat L)) : Tree f s L Us :=
  ⟨S.tower, S.filled, S.filledUp, h, S.leaves, S.counters⟩

/-- The leaves of a well-formed index are in order. -/
theorem Skeleton.ascending (hf : f.Lawful) (S : Skeleton f s L Us) (h : WellFormed f s) : Ascending (flat L) := by
  obtain ⟨ps, hring, -, -, hsorted⟩ := h.ring
  have hhdr : ixLeafHeaderPage ∉ ids L := fun hmem => by
    have := (S.tower.bound _ (List.mem_append_left _ hmem)).1
    unfold ixLeafHeaderPage at this
    omega
  obtain ⟨qs, rfl⟩ := S.leaves.ring.initial hhdr hring
  have hflat : (ids L).flatMap s.pairsOn = flat L := by
    rw [ids, List.flatMap_map, flat]
    refine List.flatMap_congr fun b hb => ?_
    obtain ⟨n, hn, -, hpairs⟩ := content_eq_some.mp (S.tower.stored b hb)
    simp [pairsOn, hn, hpairs]
  rw [List.flatMap_append, List.pairwise_append, hflat] at hsorted
  exact hsorted.1.imp fun h => (hf.lt_iff _ _).mp h

/-! ### The descent -/

omit [Preorder K] in
/-- The children of the nodes above the leaves are nodes. -/
theorem Above.child_mem (h : Above s L Us) {U : IxLevel K} (hU : U ∈ Us) {e : K × Rid} (he : e ∈ flat U) :
    e.2.pageNo ∈ ids L ++ idsUp Us := by
  induction Us generalizing L with
  | nil => cases hU
  | cons V Us ih =>
    obtain ⟨hl, -, -, ha⟩ := h
    rcases List.mem_cons.mp hU with rfl | hU
    · exact List.mem_append_left _ (kids_flat hl he)
    · exact List.mem_append_right _ (ih ha hU)

omit [Preorder K] in
theorem Above.stored_up (h : Above s L Us) {U : IxLevel K} (hU : U ∈ Us) : Stored s false U := by
  induction Us generalizing L with
  | nil => cases hU
  | cons V Us ih =>
    obtain ⟨-, hst, -, ha⟩ := h
    rcases List.mem_cons.mp hU with rfl | hU
    · exact hst
    · exact ih ha hU

omit [Preorder K] in
/-- Wherever the descent ends, it is at a leaf. -/
theorem Tower.findLeafLoop_mem (T : Tower s true L Us) {fuel : Nat} {p q : Int} (hp : p ∈ ids L ++ idsUp Us)
    (h : findLeafLoop f s key fuel p = .ok q) : q ∈ ids L := by
  induction fuel generalizing p with
  | zero => cases h
  | succ fuel ih =>
    obtain ⟨m, hm, h⟩ := Runs.ok_of_bind h
    have hpage : s.pages p = some m := by
      rw [fetchNode] at hm
      cases hpm : s.pages p with
      | none => rw [hpm] at hm; cases hm
      | some m' => rw [hpm] at hm; cases hm; rfl
    rcases List.mem_append.mp hp with hp | hp
    · obtain ⟨b, hb, rfl⟩ := List.mem_map.mp hp
      obtain ⟨m', hm', hleaf, -⟩ := content_eq_some.mp (T.stored b hb)
      rw [hpage] at hm'
      cases hm'
      rw [if_pos hleaf] at h
      cases h
      exact mem_ids_of_mem hb
    · obtain ⟨U, hU, hp⟩ := List.mem_flatMap.mp hp
      obtain ⟨u, hu, rfl⟩ := List.mem_map.mp hp
      obtain ⟨m', hm', hleaf, hpairs⟩ := content_eq_some.mp (T.above.stored_up hU u hu)
      rw [hpage] at hm'
      cases hm'
      rw [if_neg (by simp [hleaf])] at h
      obtain ⟨c, hc, h⟩ := Runs.ok_of_bind h
      obtain ⟨e, he, rfl⟩ : ∃ e ∈ m.pairs, e.2.pageNo = c := by
        rw [IxNode.internalLookup] at hc
        split at hc
        all_goals
          rw [IxNode.valueAt, IxNode.pageAt] at hc
          split at hc
          · next e he =>
            cases hc
            exact ⟨e, List.mem_of_getElem? he, rfl⟩
          · cases hc
      exact ih (T.above.child_mem hU (mem_flat.mpr ⟨u, hu, hpairs ▸ he⟩)) h

omit [Preorder K] in
theorem Tower.findLeafPage_mem (T : Tower s true L Us) {q : Int} (h : s.findLeafPage f key = .ok q) : q ∈ ids L := by
  refine T.findLeafLoop_mem ?_ h
  have := T.above.root_mem
  simpa using this

end

/-! ### One key -/

section Insert
variable [DecidableEq K] {f : IxFormat K} (hf : f.Lawful) {s : IxIndexHandle K} {L A B : IxLevel K} {n : Block Int K Rid}
  {Us : List (IxLevel K)} {key : K} {value : Rid}

/-- What the insertion of a new key into leaf `n` has done: the key is on the leaf, or on one of its halves. -/
structure Placed (f : IxFormat K) (A : IxLevel K) (n : Block Int K Rid) (B : IxLevel K) (key : K) (value : Rid)
    (t : IxIndexHandle K × Option Int) (M : IxLevel K) (Vs : List (IxLevel K)) : Prop where
  skeleton : Skeleton f t.1 M Vs
  entries : ∃ E F, n.entries = E ++ F ∧ (∀ x ∈ E, x.1 < key) ∧ (∀ x ∈ F, key < x.1) ∧
    flat M = (flat A ++ E) ++ (key, value) :: (F ++ flat B)
  cached : ∀ p, t.2 = some p → p ∈ ids M

include hf

/-- A key that the leaf has is not inserted. -/
theorem Skeleton.insertIntoLeaf_present (S : Skeleton f s (A ++ n :: B) Us) (hk : ∃ e ∈ n.entries, Same e.1 key) :
    s.insertIntoLeaf f n.id key value = .ok (s, none) := by
  have := hf.total
  obtain ⟨m, hm, -, hpairs⟩ := content_eq_some.mp (S.tower.stored n (by simp))
  obtain ⟨E, F, hE, hF, hcut⟩ := (S.sorted n (by simp)).cut key
  rcases hcut with hcut | ⟨e, he, hcut⟩
  · obtain ⟨e, hmem, he⟩ := hk
    rw [hcut, List.mem_append] at hmem
    rcases hmem with hmem | hmem
    · exact absurd (hE e hmem) he.not_lt
    · exact absurd (hF e hmem) he.symm.not_lt
  · rw [insertIntoLeaf, fetchNode_ok hm, ok_bind]
    simp only [IxNode.insert_present hf hE hF he (hpairs.trans hcut), ok_bind, if_true]

/-- A key that the leaf does not have is inserted, wherever it belongs. -/
theorem Skeleton.insertIntoLeaf_absent (S : Skeleton f s (A ++ n :: B) Us) (value : Rid) (hk : ∀ e ∈ n.entries, ¬Same e.1 key) :
    ∃ t M Vs, s.insertIntoLeaf f n.id key value = .ok t ∧ Placed f A n B key value t M Vs := by
  have := hf.total
  obtain ⟨m, hm, -, hpairs⟩ := content_eq_some.mp (S.tower.stored n (by simp))
  obtain ⟨E, F, hE, hF, hcut⟩ := (S.sorted n (by simp)).cut key
  replace hcut : n.entries = E ++ F := hcut.resolve_right fun ⟨e, he, hw⟩ => hk e (by simp [hw]) he
  let v : Block Int K Rid := ⟨n.id, E ++ (key, value) :: F⟩
  obtain ⟨s₁, Ws, hrefresh, T₁, hshape, k₁, hd₁⟩ := S.tower.refresh (v := v) S.counters hm rfl
    (c := (E.length : Int) = 0) (fun _ => by simp [v]) (fun hc x hx => by
      cases E with
      | nil => exact absurd rfl hc
      | cons e E => exact ⟨x, by rw [hcut]; exact hx, rfl⟩)
  have hids : ids (A ++ v :: B) = ids (A ++ n :: B) := by simp [v]
  have hleaves₁ : Leaves s₁ (A ++ v :: B) := S.leaves.frame hids k₁ S.tower.header_notMem_refresh (fun _ _ hmem => hmem) hd₁.first hd₁.last
  have hfillW : ∀ W ∈ Ws, Filled f W := filled_of_shapes S.filledUp hshape
  have hc₁ : Counters s₁ := S.counters.of_hdr hd₁
  have hlen : v.entries.length = n.entries.length + 1 := by simp [v, hcut]; omega
  have hasc : Ascending v.entries := Ascending.insert (hcut ▸ S.sorted n (by simp)) hE hF
  have hblocks : ∀ b, b ∈ A ∨ b ∈ B → Ascending b.entries := fun b hb => S.sorted b (by rcases hb with hb | hb <;> simp [hb])
  have hstart : s.insertIntoLeaf f n.id key value = s₁.splitIfFull f n.id := by
    have hsize : ¬({ m with pairs := E ++ (key, value) :: F } : IxNode K).size = m.size := by
      simp [IxNode.size, hpairs, hcut]
    rw [insertIntoLeaf, fetchNode_ok hm, ok_bind]
    simp only [IxNode.insert_absent hf hE hF (hpairs.trans hcut), ok_bind, if_neg hsize]
    by_cases hz : (E.length : Int) = 0
    · rw [if_pos hz] at hrefresh ⊢
      show ((s.putNode n.id { m with pairs := v.entries }).maintainParent n.id >>= _) = _
      rw [hrefresh, ok_bind]
    · rw [if_neg hz] at hrefresh ⊢
      cases hrefresh
      rfl
  obtain ⟨m₁, hm₁, -, hmp₁⟩ := content_eq_some.mp (T₁.stored v (by simp))
  have hentries : ∀ M : IxLevel K, flat M = flat (A ++ v :: B) → ∃ E F, n.entries = E ++ F ∧ (∀ x ∈ E, x.1 < key) ∧
      (∀ x ∈ F, key < x.1) ∧ flat M = (flat A ++ E) ++ (key, value) :: (F ++ flat B) := fun M hM =>
    ⟨E, F, hcut, hE, hF, by rw [hM]; simp [v]⟩
  rw [hstart, splitIfFull, fetchNode_ok hm₁, ok_bind]
  by_cases hfull : v.entries.length = f.maxSize
  · obtain ⟨s₂, s₃, t, nl, nr, x, xs, Vs, hnl, hnr, hx, hsplit, hs₃, hcr, hrun, T₂, hfill₂, hleaves₂, hc₂, -⟩ :=
      T₁.split_and_adopt hf hleaves₁ hfillW hc₁ hfull
    obtain ⟨w₃, hw₃, -, hwp₃⟩ := content_eq_some.mp hcr
    have hkey : w₃.keyAt 0 = .ok x.1 := by simp [IxNode.keyAt, hwp₃, hx]
    have hflat₂ : flat (A ++ nl :: nr :: B) = flat (A ++ v :: B) := by
      simp only [flat_append, flat_cons, hnl, hnr]
      rw [← List.append_assoc (v.entries.take f.minSize), List.take_append_drop]
    refine ⟨(t, none), A ++ nl :: nr :: B, Vs, ?_, ⟨⟨T₂, ?_, hfill₂, ?_, hleaves₂, hc₂⟩, hentries _ hflat₂, fun p hp => (by cases hp)⟩⟩
    · rw [if_pos (by simpa [IxNode.isFull, IxNode.size, hmp₁] using hfull), show s₁.split f n.id = _ from hsplit, ok_bind]
      show ((if n.id = s₂.lastLeaf then { s₂ with lastLeaf := nr.id } else s₂).fetchNode nr.id >>= _) = _
      rw [← hs₃, fetchNode_ok hw₃, ok_bind, hkey, ok_bind, show insertIntoParent f _ s₃ n.id x.1 nr.id = _ from hrun, ok_bind]
    · rw [hnl, hnr]
      exact filled_halves hf S.filled hfull
    · intro b hb
      simp only [List.mem_append, List.mem_cons] at hb
      rcases hb with hb | rfl | rfl | hb
      · exact hblocks b (Or.inl hb)
      · rw [hnl]
        exact hasc.sublist (List.take_sublist _ _)
      · rw [hnr]
        exact hasc.sublist (List.drop_sublist _ _)
      · exact hblocks b (Or.inr hb)
  · refine ⟨(s₁, some n.id), A ++ v :: B, Ws, ?_, ⟨⟨T₁, S.filled.grow hlen hfull, hfillW, ?_, hleaves₁, hc₁⟩, hentries _ rfl, ?_⟩⟩
    · rw [if_neg]
      simpa [IxNode.isFull, IxNode.size, hmp₁] using hfull
    · intro b hb
      simp only [List.mem_append, List.mem_cons] at hb
      rcases hb with hb | rfl | hb
      · exact hblocks b (Or.inl hb)
      · exact hasc
      · exact hblocks b (Or.inr hb)
    · rintro p hp
      cases hp
      rw [hids]
      simp

omit [DecidableEq K] in
/-- A cached leaf is never turned down: it is not full. -/
theorem Skeleton.canInsertToCachedNode (S : Skeleton f s (A ++ n :: B) Us) : s.canInsertToCachedNode f n.id key = .ok true := by
  have := hf.total
  obtain ⟨m, hm, -, hpairs⟩ := content_eq_some.mp (S.tower.stored n (by simp))
  have hsize : ¬m.isFull f = true := by
    have := S.filled.most n (by simp)
    have hmax : f.maxSize = f.btreeOrder + 1 := rfl
    simp only [IxNode.isFull, IxNode.size, hpairs, beq_iff_eq]
    omega
  obtain ⟨E, F, hE, hF, hcut⟩ := (S.sorted n (by simp)).cut key
  have hlower : m.lowerBound f key ≤ m.size := by
    rcases hcut with hcut | ⟨e, he, hcut⟩
    · rw [IxNode.lowerBound_absent hf hE hF (hpairs.trans hcut), IxNode.size, hpairs, hcut, List.length_append]
      exact Nat.le_add_right _ _
    · rw [IxNode.lowerBound_present hf hE hF he (hpairs.trans hcut), IxNode.size, hpairs, hcut, List.length_append]
      exact Nat.le_add_right _ _
  rw [IxIndexHandle.canInsertToCachedNode, fetchNode_ok hm, ok_bind, if_neg hsize, decide_eq_true hlower]
  split <;> rfl

/-- With a cached leaf, the key goes there. -/
theorem Skeleton.loadStep_cached (S : Skeleton f s (A ++ n :: B) Us) :
    loadStep f (s, some n.id) (key, value) = s.insertIntoLeaf f n.id key value := by
  rw [loadStep, optimizedInsertEntry, cachedLeaf, S.canInsertToCachedNode hf, ok_bind, if_pos rfl, ok_bind]

omit [Preorder K] hf in
theorem loadStep_uncached {p : Int} (hp : s.findLeafPage f key = .ok p) :
    loadStep f (s, none) (key, value) = s.insertIntoLeaf f p key value := by
  rw [loadStep, optimizedInsertEntry, cachedLeaf, hp, ok_bind]

/-- A cached leaf is on the lowest level. -/
def Cached (s : IxIndexHandle K × Option Int) (L : IxLevel K) : Prop := ∀ p, s.2 = some p → p ∈ ids L

omit [Preorder K] [DecidableEq K] hf in
theorem exists_block {L : IxLevel K} {p : Int} (hp : p ∈ ids L) : ∃ A n B, L = A ++ n :: B ∧ n.id = p := by
  obtain ⟨n, hn, rfl⟩ := List.mem_map.mp hp
  obtain ⟨A, B, rfl⟩ := List.append_of_mem hn
  exact ⟨A, n, B, rfl, rfl⟩

/-- Whatever key goes to whatever leaf, only the order of the leaves can be lost, and no entry is. -/
theorem Skeleton.loadStep_keeps {s t : IxIndexHandle K × Option Int} {e : K × Rid} (S : Skeleton f s.1 L Us) (hc : Cached s L)
    (h : loadStep f s e = .ok t) : ∃ M Vs, Skeleton f t.1 M Vs ∧ Cached t M ∧ (flat L).Sublist (flat M) := by
  obtain ⟨p, hp, hinto⟩ : ∃ p ∈ ids L, s.1.insertIntoLeaf f p e.1 e.2 = .ok t := by
    obtain ⟨s, cache⟩ := s
    obtain ⟨key, value⟩ := e
    cases cache with
    | none =>
      obtain ⟨p, hp, -⟩ := Runs.ok_of_bind h
      exact ⟨p, S.tower.findLeafPage_mem hp, by rw [← h, loadStep_uncached hp]⟩
    | some p =>
      have hp := hc p rfl
      obtain ⟨A, n, B, rfl, rfl⟩ := exists_block hp
      exact ⟨n.id, hp, by rw [← h, S.loadStep_cached hf]⟩
  obtain ⟨A, n, B, rfl, rfl⟩ := exists_block hp
  by_cases hk : ∃ x ∈ n.entries, Same x.1 e.1
  · rw [S.insertIntoLeaf_present hf hk] at hinto
    cases hinto
    exact ⟨_, Us, S, fun p hp => (by cases hp), List.Sublist.refl _⟩
  · push Not at hk
    obtain ⟨t', M, Vs, hrun, P⟩ := S.insertIntoLeaf_absent hf e.2 hk
    rw [hrun] at hinto
    cases hinto
    obtain ⟨E, F, hn, -, -, hM⟩ := P.entries
    refine ⟨M, Vs, P.skeleton, P.cached, ?_⟩
    have hL : flat (A ++ n :: B) = (flat A ++ E) ++ (F ++ flat B) := by simp [hn]
    rw [hL, hM]
    exact (List.Sublist.refl _).append (List.sublist_cons_self _ _)

omit [DecidableEq K] in
/-- The place of a key: the entries of the leaves before the one that takes it are below it, those of the leaves behind it are
    above it. -/
theorem between_iff (T : Tree f s (A ++ n :: B) Us) :
    Between f s n.id key ↔ (∀ x ∈ flat A, x.1 < key) ∧ ∀ x ∈ flat B, key < x.1 := by
  have hon : s.pairsOn n.id = n.entries := by
    obtain ⟨m, hm, -, hpairs⟩ := content_eq_some.mp (T.tower.stored n (by simp))
    simp [pairsOn, hm, hpairs]
  have hmem := (T.entries hf).mem_iff
  have hasc := T.ascending
  rw [flat_append, flat_cons] at hasc
  obtain ⟨-, hright, hleft⟩ := Ascending.append.mp hasc
  obtain ⟨-, -, hmid⟩ := Ascending.append.mp hright
  have hbefore : ∀ x ∈ flat A, ∀ d ∈ n.entries, x.1 < d.1 := fun x hx d hd => hleft x hx d (List.mem_append_left _ hd)
  rw [Between, hon]
  constructor
  · intro h
    by_cases hnil : n.entries = []
    · obtain ⟨c, hc⟩ | hmin := T.filled.least
      · obtain ⟨rfl, rfl, -⟩ := alone hc
        exact ⟨fun _ hx => (by cases hx), fun _ hx => (by cases hx)⟩
      · have := hmin n (by simp)
        have := hf.two_le_minSize
        rw [hnil, List.length_nil] at *
        omega
    · obtain ⟨d, ds, hd⟩ := List.exists_cons_of_ne_nil hnil
      have hdn : d ∈ n.entries := by rw [hd]; exact List.mem_cons_self
      constructor
      · intro x hx
        have hxn : x ∉ n.entries := fun hxn => lt_irrefl _ (hbefore x hx x hxn)
        have := (h x ((hmem x).mp (by simp [hx])) hxn d hdn).1
        rw [hf.lt_iff, hf.lt_iff] at this
        exact this (hbefore x hx d hdn)
      · intro x hx
        have hxn : x ∉ n.entries := fun hxn => lt_irrefl _ (hmid x hxn x hx)
        have := (h x ((hmem x).mp (by simp [hx])) hxn d hdn).2
        rw [hf.lt_iff, hf.lt_iff] at this
        exact this (hmid d hdn x hx)
  · rintro ⟨hA, hB⟩ x hx hxn d hd
    rw [← hmem, flat_append, flat_cons, List.mem_append, List.mem_append] at hx
    rw [hf.lt_iff, hf.lt_iff, hf.lt_iff, hf.lt_iff]
    rcases hx with hx | hx | hx
    · exact ⟨fun _ => hA x hx, fun hlt => absurd hlt (hbefore x hx d hd).asymm⟩
    · exact absurd hx hxn
    · exact ⟨fun hlt => absurd hlt (hmid d hd x hx).asymm, fun _ => hB x hx⟩

omit [DecidableEq K] hf in
theorem hasKey_iff (hf : f.Lawful) (T : Tree f s (A ++ n :: B) Us) : HasKey f s n.id key ↔ ∃ x ∈ n.entries, Same x.1 key := by
  obtain ⟨m, hm, -, hpairs⟩ := content_eq_some.mp (T.tower.stored n (by simp))
  simp only [HasKey, pairsOn, hm, Option.map_some, Option.getD_some, hpairs, hf.eq_iff]

/-- The key goes to a leaf that has it or is the place for it. -/
theorem Tree.insertIntoLeaf_fits (T : Tree f s (A ++ n :: B) Us)
    (hfits : (∃ x ∈ n.entries, Same x.1 key) ∨ (∀ x ∈ flat A, x.1 < key) ∧ ∀ x ∈ flat B, key < x.1) :
    ∃ t M Vs, s.insertIntoLeaf f n.id key value = .ok t ∧ Tree f t.1 M Vs ∧ Cached t M ∧
      ∀ k, valueOf f (flat M) k = (valueOf f (flat (A ++ n :: B)) k).or (valueOf f [(key, value)] k) := by
  by_cases hk : ∃ x ∈ n.entries, Same x.1 key
  · obtain ⟨x, hx, hxk⟩ := hk
    refine ⟨(s, none), _, Us, T.skeleton.insertIntoLeaf_present hf ⟨x, hx, hxk⟩, T, fun p hp => (by cases hp), fun k => ?_⟩
    rw [valueOf_or_present hf ⟨x, by simp [hx], hxk⟩]
  · obtain ⟨hA, hB⟩ := hfits.resolve_left hk
    push Not at hk
    obtain ⟨t, M, Vs, hrun, P⟩ := T.skeleton.insertIntoLeaf_absent hf value hk
    obtain ⟨E, F, hn, hE, hF, hM⟩ := P.entries
    have hL : flat (A ++ n :: B) = (flat A ++ E) ++ (F ++ flat B) := by simp [hn]
    have hasc : Ascending (flat M) := by
      rw [hM]
      exact Ascending.insert (hL ▸ T.ascending) (List.forall_mem_append.mpr ⟨hA, hE⟩) (List.forall_mem_append.mpr ⟨hF, hB⟩)
    refine ⟨t, M, Vs, hrun, P.skeleton.tree hasc, P.cached, fun k => ?_⟩
    rw [hM, hL, valueOf_or_inserted hf (hM ▸ hasc)]

/-- A key that fits the cached leaf is inserted as by `insert_entry`. -/
theorem Tree.loadStep_fits {s : IxIndexHandle K × Option Int} {e : K × Rid} (T : Tree f s.1 L Us) (hc : Cached s L)
    (hfits : KeyFits f s e) :
    ∃ t M Vs, loadStep f s e = .ok t ∧ Tree f t.1 M Vs ∧ Cached t M ∧
      ∀ k, valueOf f (flat M) k = (valueOf f (flat L) k).or (valueOf f [e] k) := by
  obtain ⟨s, cache⟩ := s
  obtain ⟨key, value⟩ := e
  cases cache with
  | none =>
    obtain ⟨A, n, B, m, E, F, rfl, hfind, -, -, -, hE, hF, -⟩ := T.cut hf key
    rw [loadStep_uncached hfind]
    exact T.insertIntoLeaf_fits hf (Or.inr ⟨fun x hx => hE x (by simp [hx]), fun x hx => hF x (by simp [hx])⟩)
  | some p =>
    obtain ⟨A, n, B, rfl, rfl⟩ := exists_block (hc p rfl)
    rw [T.skeleton.loadStep_cached hf]
    refine T.insertIntoLeaf_fits hf ?_
    rw [← hasKey_iff hf T, ← between_iff hf T]
    exact hfits n.id rfl

/-- A key that does not fit the cached leaf breaks the order of the leaves. -/
theorem Tree.loadStep_unfit {s t : IxIndexHandle K × Option Int} {e : K × Rid} (T : Tree f s.1 L Us) (hc : Cached s L)
    (hunfit : ¬KeyFits f s e) (h : loadStep f s e = .ok t) :
    ∃ M Vs, Skeleton f t.1 M Vs ∧ Cached t M ∧ ¬Ascending (flat M) := by
  obtain ⟨s, cache⟩ := s
  obtain ⟨key, value⟩ := e
  simp only [KeyFits] at hunfit
  push Not at hunfit
  obtain ⟨p, rfl, hno, hnot⟩ := hunfit
  obtain ⟨A, n, B, rfl, rfl⟩ := exists_block (hc p rfl)
  rw [T.skeleton.loadStep_cached hf] at h
  rw [hasKey_iff hf T] at hno
  rw [between_iff hf T] at hnot
  push Not at hno
  obtain ⟨t', M, Vs, hrun, P⟩ := T.skeleton.insertIntoLeaf_absent hf value hno
  rw [hrun] at h
  cases h
  obtain ⟨E, F, -, -, -, hM⟩ := P.entries
  refine ⟨M, Vs, P.skeleton, P.cached, fun hasc => hnot ?_⟩
  rw [hM] at hasc
  obtain ⟨-, hright, hleft⟩ := Ascending.append.mp hasc
  refine ⟨fun x hx => hleft x (List.mem_append_left _ hx) _ List.mem_cons_self, fun x hx => ?_⟩
  exact (Ascending.cons.mp hright).1 x (List.mem_append_right _ hx)

/-! ### Runs -/

/-- Keys that fit, one after another. -/
theorem Tree.load_spec {s : IxIndexHandle K × Option Int} (T : Tree f s.1 L Us) (hc : Cached s L) {es : List (K × Rid)}
    (hfits : Runs.Throughout (loadStep f) (KeyFits f) s es) :
    ∃ t M Vs, Runs.exec (loadStep f) s es = .ok t ∧ Tree f t.1 M Vs ∧
      ∀ k, valueOf f (flat M) k = (valueOf f (flat L) k).or (valueOf f es k) := by
  induction es generalizing s L Us with
  | nil => exact ⟨s, L, Us, rfl, T, fun k => by rw [valueOf.eq_1 f [], List.find?_nil, Option.map_none, Option.or_none]⟩
  | cons e es ih =>
    obtain ⟨u, M, Vs, hstep, T', hc', hval⟩ := T.loadStep_fits hf hc hfits.1
    obtain ⟨t, N, Ws, hrun, T'', hval'⟩ := ih T' hc' (hfits.2 u hstep)
    refine ⟨t, N, Ws, by rw [Runs.exec, hstep, ok_bind, hrun], T'', fun k => ?_⟩
    rw [hval', hval, Option.or_assoc, ← valueOf_cons_or]

/-- Once the order is lost it stays lost. -/
theorem Skeleton.load_disordered {s t : IxIndexHandle K × Option Int} (S : Skeleton f s.1 L Us) (hc : Cached s L)
    (hno : ¬Ascending (flat L)) {es : List (K × Rid)} (h : Runs.exec (loadStep f) s es = .ok t) : ¬WellFormed f t.1 := by
  induction es generalizing s L Us with
  | nil =>
    cases h
    exact fun hwell => hno (S.ascending hf hwell)
  | cons e es ih =>
    obtain ⟨u, hstep, hrest⟩ := Runs.ok_of_bind h
    obtain ⟨M, Vs, S', hc', hsub⟩ := S.loadStep_keeps hf hc hstep
    exact ih S' hc' (fun hasc => hno (hasc.sublist hsub)) hrest

/-- A load that leaves a well-formed index has met only keys that fit. -/
theorem Tree.fits_of_wellFormed {s t : IxIndexHandle K × Option Int} (T : Tree f s.1 L Us) (hc : Cached s L) {es : List (K × Rid)}
    (h : Runs.exec (loadStep f) s es = .ok t) (hwell : WellFormed f t.1) : Runs.Throughout (loadStep f) (KeyFits f) s es := by
  induction es generalizing s L Us with
  | nil => trivial
  | cons e es ih =>
    obtain ⟨u, hstep, hrest⟩ := Runs.ok_of_bind h
    by_cases hfits : KeyFits f s e
    · refine ⟨hfits, fun u' hu' => ?_⟩
      obtain ⟨v, M, Vs, hstep', T', hc', -⟩ := T.loadStep_fits hf hc hfits
      rw [hstep] at hu' hstep'
      cases hu'
      cases hstep'
      exact ih T' hc' hrest
    · obtain ⟨M, Vs, S, hc', hno⟩ := T.loadStep_unfit hf hc hfits hstep
      exact absurd hwell (S.load_disordered hf hc' hno hrest)

end Insert

/-- Loading the pairs leaves a well-formed index with the values that `insert_entry` gives them. -/
def LoadsAs [DecidableEq K] (f : IxFormat K) (s : IxIndexHandle K) (es : List (K × Rid)) : Prop :=
  ∃ t u, Runs.exec (loadStep f) (s, none) es = .ok t ∧ s.insertEach f es = .ok u ∧ WellFormed f t.1 ∧
    ∀ key, t.1.getValue f key = u.getValue f key

end IxIndexHandle

open IxIndexHandle

/-- For every index that calls lead to and every list of pairs: `optimized_insert_entry` for one pair after another leaves a
    well-formed index with the map that `insert_entry` makes exactly when each key fits the leaf that is cached for it. -/
theorem optimizedInsertEntry_same_iff {cols : List IxCol} (hacc : IxAccepts cols) {cs : List (IxCall (IxKey cols))}
    {s : IxIndexHandle (IxKey cols)} {h : IxHistory (IxKey cols)} (hrun : (create : IxIndexHandle (IxKey cols)).run (ixFormat cols) cs = .ok (s, h))
    (es : List (IxKey cols × Rid)) :
    LoadsAs (ixFormat cols) s es ↔ Runs.Throughout (loadStep (ixFormat cols)) (KeyFits (ixFormat cols)) (s, none) es := by
  have hf := ixFormat_lawful hacc
  obtain ⟨s', h', L, Us, hrun', -, T, -⟩ := run_create hf cs
  rw [hrun] at hrun'
  cases hrun'
  have hcached : Cached (s, none) L := fun p hp => (by cases hp)
  constructor
  · rintro ⟨t, -, ht, -, hwell, -⟩
    exact Tree.fits_of_wellFormed hf (s := (s, none)) T hcached ht hwell
  · intro hfits
    obtain ⟨t, M, Vs, ht, T', hval⟩ := Tree.load_spec hf (s := (s, none)) T hcached hfits
    obtain ⟨u, -, -, hu, -, huval⟩ := insertEach_spec hf T es
    refine ⟨t, u, ht, hu, T'.wellFormed hf, fun key => ?_⟩
    rw [getValue_eq hf T', huval, hval]

theorem optimizedInsertEntry_same_iff_one : LoadsAs (ixFormat [IxCol.int]) create [(intKey 1 0 0 0, ⟨1, 0⟩)] :=
  (@optimizedInsertEntry_same_iff [IxCol.int] (by decide) [] create [] rfl _).mpr
    ⟨fun p hp => (by cases hp), fun _ _ => trivial⟩

/-- Eight keys in order, and then a smaller one. -/
def smallKeyLast : List (IxKey [IxCol.char 512] × Rid) := [2, 3, 4, 5, 6, 7, 8, 9, 1].map fun n => (charKey n, ⟨1, n.toNat⟩)

/-- What `get_value` finds for a key, if it succeeds. -/
def found (s : IxIndexHandle (IxKey [IxCol.char 512])) (n : UInt8) : Option (Option Rid) :=
  (s.getValue (ixFormat [IxCol.char 512]) (charKey n)).toOption

set_option maxRecDepth 10000 in
/-- The last key goes to the last leaf, and then the keys of the first one are no longer found. -/
theorem optimizedInsertEntry_keyLost : ¬LoadsAs (ixFormat [IxCol.char 512]) create smallKeyLast := by
  rintro ⟨t, u, ht, hu, -, hval⟩
  have htwo : (Runs.exec (loadStep (ixFormat [IxCol.char 512])) (create, none) smallKeyLast).toOption.map (fun t => found t.1 2) =
      some (some none) := by decide
  have hone : ((create : IxIndexHandle (IxKey [IxCol.char 512])).insertEach (ixFormat [IxCol.char 512]) smallKeyLast).toOption.map
      (fun u => found u 2) = some (some (some ⟨1, 2⟩)) := by decide
  rw [ht, Except.toOption, Option.map_some, found, hval] at htwo
  rw [hu, Except.toOption, Option.map_some, found] at hone
  rw [hone] at htwo
  cases htwo

end Rmdb
