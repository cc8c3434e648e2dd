import Rmdb.Theorems.Index.Repair

/-! The invariant of a whole index (`Tree`), and that `insert_entry` keeps it. -/

namespace Rmdb
open Ladder

namespace IxIndexHandle
variable {K : Type} [Preorder K]

/-- The index on the pages: the levels from the leaves `L` up to the root, with the entries in order. -/
structure Tree (f : IxFormat K) (s : IxIndexHandle K) (L : IxLevel K) (Us : List (IxLevel K)) : Prop where
  tower : Tower s true L Us
  filled : Filled f L
  filledUp : ∀ U ∈ Us, Filled f U
  ascending : Ascending (flat L)
  leaves : Leaves s L
  counters : Counters s

/-- The index that `create_index` makes. -/
theorem Tree.create (f : IxFormat K) : Tree f (IxIndexHandle.create : IxIndexHandle K) [⟨ixInitRootPage, []⟩] [] where
  tower := {
    stored := by simp [Stored, content, IxIndexHandle.create, ixInitRootPage, ixLeafHeaderPage]
    above := ⟨_, rfl, by simp [parentOf, IxIndexHandle.create, ixInitRootPage, ixLeafHeaderPage], rfl⟩
    nodup := by simp
    bound := by simp [IxIndexHandle.create, ixInitRootPage, ixInitNumPages]
    nonempty := by simp }
  filled := ⟨Or.inl ⟨_, rfl⟩, by simp⟩
  filledUp := by simp
  ascending := by simp [Ascending]
  leaves := ⟨by simp [Ring.Chain, nextOf, prevOf, IxIndexHandle.create, ixInitRootPage, ixLeafHeaderPage], rfl,
    Or.inl ⟨rfl, rfl⟩, by simp [content, IxIndexHandle.create]⟩
  counters := ⟨le_rfl, le_rfl⟩

/-! ### New pairs on a node -/

section Refresh
omit [Preorder K]
variable [DecidableEq K] {s : IxIndexHandle K} {leaf : Bool} {A B : IxLevel K} {n v : Block Int K Rid} {m : IxNode K}
  {Us : List (IxLevel K)}

/-- A node gets new pairs, and `maintain_parent` runs if the first key may have changed. -/
theorem Tower.refresh (T : Tower s leaf (A ++ n :: B) Us) (hc : Counters s) (hm : s.pages n.id = some m) (hid : v.id = n.id)
    {c : Prop} [Decidable c] (hyes : c → v.entries ≠ [])
    (hno : ¬c → ∀ x ∈ v.entries.head?, ∃ y ∈ n.entries.head?, x.1 = y.1) :
    ∃ t Vs, (if c then (s.putNode n.id { m with pairs := v.entries }).maintainParent n.id
        else .ok (s.putNode n.id { m with pairs := v.entries })) = .ok t ∧
      Tower t leaf (A ++ v :: B) Vs ∧ Vs.map shape = Us.map shape ∧ Keeps s t {p | p = n.id ∨ p ∈ idsUp Us} ∅ ∅ ∧
      Hdr s t := by
  have hleaf : m.isLeaf = leaf := by
    obtain ⟨m', hm', hleaf, -⟩ := content_eq_some.mp (T.stored n (by simp))
    rw [hm] at hm'
    cases hm'
    exact hleaf
  let s₁ := s.putNode n.id { m with pairs := v.entries }
  have k₁ : Keeps s s₁ {n.id} ∅ ∅ := Keeps.put_pairs hm rfl rfl rfl
  have hids : ids (A ++ v :: B) = ids (A ++ n :: B) := by simp [hid]
  have hnUs : n.id ∉ idsUp Us := fun hmem => (List.nodup_append.mp T.nodup).2.2 n.id (by simp) _ hmem rfl
  have hst₁ : Stored s₁ leaf (A ++ v :: B) :=
    T.stored.replace (List.nodup_append.mp T.nodup).1 k₁ (fun p hp => Or.inl hp) hid (by simp [s₁, hleaf])
  have habove : Above s₁ (A ++ n :: B) Us := T.above.frame k₁ (fun p hp hpc => hnUs (Set.mem_singleton_iff.mp hpc ▸ hp))
    (fun _ _ hmem => hmem) rfl
  by_cases h : c
  · obtain ⟨t, Vs, hrun, hab, hshape, k₂, hd₂⟩ := maintainParentLoop_spec
      (habove.replace_but hid) (hst₁ v (by simp)) (hyes h) (by rw [hids]; exact T.nodup)
      (fun p hp => (T.bound p (List.mem_append_right _ hp)).1) (by
        have h1 := T.height
        have h2 := hc.file
        show Us.length < s.filePages + 1
        omega)
    have hidsUp := idsUp_of_shape hshape
    refine ⟨t, Vs, ?_, ⟨?_, hab, ?_, ?_, by simp⟩, hshape, ?_, (Hdr.put _ _ _).trans hd₂⟩
    · rw [if_pos h, maintainParent, fetchNode_ok (pages_putNode_self _ _ _), ok_bind, if_neg, ← hid]
      · rw [hid] at hrun ⊢
        exact hrun
      · simpa [IxNode.size] using hyes h
    · refine hst₁.frame k₂ fun p hp hmem => ?_
      rw [hids] at hp
      exact (List.nodup_append.mp T.nodup).2.2 p hp p hmem rfl
    · rw [hids, hidsUp]
      exact T.nodup
    · rw [hids, hidsUp, hd₂.fd]
      exact T.bound
    · exact (k₁.mono (fun p hp => Or.inl hp) subset_rfl subset_rfl).trans (k₂.mono (fun p hp => Or.inr hp) subset_rfl subset_rfl)
  · refine ⟨s₁, Us, by rw [if_neg h], ⟨hst₁, habove.replace hid (hno h), ?_, ?_, by simp⟩, rfl,
      k₁.mono (fun p hp => Or.inl hp) subset_rfl subset_rfl, Hdr.put _ _ _⟩
    · rw [hids]
      exact T.nodup
    · rw [hids]
      exact T.bound

end Refresh

section SplitLeaf
variable {f : IxFormat K} (hf : f.Lawful) {s : IxIndexHandle K} {A B : IxLevel K} {n : Block Int K Rid} {Us : List (IxLevel K)}
include hf

/-- A full leaf is split: the new leaf is in the ring, and not in its parent yet. -/
theorem Tower.split_leaf (T : Tower s true (A ++ n :: B) Us)
    (hring : Ring.Chain s.nextOf s.prevOf ixLeafHeaderPage (ids (A ++ n :: B)) ixLeafHeaderPage)
    (hfull : n.entries.length = f.maxSize) :
    ∃ t nl nr, nl = Block.mk n.id (n.entries.take f.minSize) ∧ nr = Block.mk s.fd2pageno (n.entries.drop f.minSize) ∧
      s.split f n.id = .ok (t, nr.id) ∧ Halved t true A nl nr B Us ∧
      Ring.Chain t.nextOf t.prevOf ixLeafHeaderPage (ids (A ++ nl :: nr :: B)) ixLeafHeaderPage ∧
      Keeps s t {n.id, s.fd2pageno} {s.fd2pageno} Set.univ ∧ Allocated s t := by
  have hfresh : s.fd2pageno ∉ ids (A ++ n :: B) ++ idsUp Us := fun hp => by
    have := (T.bound _ hp).2
    omega
  have hnfd : n.id ≠ s.fd2pageno := fun heq => hfresh (heq ▸ by simp)
  have hfdhdr : s.fd2pageno ≠ ixLeafHeaderPage := by
    have := T.bound n.id (by simp)
    unfold ixLeafHeaderPage
    omega
  obtain ⟨hdL, -, -⟩ := List.nodup_append.mp T.nodup
  obtain ⟨r, hpn⟩ := T.above.exists_parentOf (b := n) (by simp)
  have hhdr : ixLeafHeaderPage ∉ ids (A ++ n :: B) := fun hmem => by
    have := (T.bound _ (List.mem_append_left _ hmem)).1
    unfold ixLeafHeaderPage at this
    omega
  -- what is behind `n` in the ring: the next leaf, or the leaf header page
  obtain ⟨nx, hnx⟩ : ∃ nx, nx = (ids B ++ [ixLeafHeaderPage]).head (by simp) := ⟨_, rfl⟩
  have hring' := hring
  rw [ids_append, ids_cons, Ring.chain_append] at hring'
  have hnext := hring'.2.next_first
  have hprev := hring'.2.prev_first
  rw [← hnx] at hnext hprev
  have hxn : nx ≠ n.id := by
    rw [hnx]
    rw [ids_append, ids_cons] at hdL hhdr
    exact Ring.head_ne_of_nodup (List.nodup_append.mp hdL).2.1 fun heq => hhdr (by simp [heq])
  have hxq : nx ≠ s.fd2pageno := by
    intro heq
    have hmem : s.fd2pageno ∈ ids B ++ [ixLeafHeaderPage] := heq ▸ hnx ▸ List.head_mem _
    simp only [List.mem_append, List.mem_singleton] at hmem
    rcases hmem with hmem | hmem
    · exact hfresh (by simp [hmem])
    · exact hfdhdr hmem
  obtain ⟨t, hrun, hcl, hcr, hpr, k, hal, hnl, hnr, hpvr, hpvx, hnextK, hprevK⟩ := IxIndexHandle.split_leaf (f := f)
    (T.stored n (by simp)) hpn hnext ⟨_, hprev⟩ hnfd hxn hxq
  refine ⟨t, _, _, rfl, rfl, hrun, Halved.of_split hf T hfull hcl hcr (hpr.trans hpn.symm) k
    (fun p hp hmem => hfresh (Set.mem_singleton_iff.mp hmem ▸ hp)) hal, ?_, k, hal⟩
  simp only [ids_append, ids_cons] at hring hhdr hdL hfresh ⊢
  refine hring.insert (List.nodup_cons.mpr ⟨hhdr, hdL⟩) ?_ hnl (hnr.trans hnext.symm) hpvr ?_ hnextK ?_
  · rw [List.mem_cons, not_or]
    exact ⟨hfdhdr, fun hmem => hfresh (List.mem_append_left _ hmem)⟩
  · intro x hx
    rw [hnext] at hx
    cases hx
    exact hpvx
  · intro x hxq hx
    refine hprevK x hxq fun heq => hx ?_
    rw [heq, hnext]

end SplitLeaf

/-! ### Lookups -/

section Lookup
variable {f : IxFormat K} (hf : f.Lawful) {s : IxIndexHandle K} {L : IxLevel K} {Us : List (IxLevel K)}
include hf

/-- Where a key is or would be: `find_leaf_page` finds leaf `n`, the entries left of `E` and right of `F` are below
    and above the key. -/
theorem Tree.cut (T : Tree f s L Us) (key : K) :
    ∃ A n B m E F, L = A ++ n :: B ∧ s.findLeafPage f key = .ok n.id ∧ s.pages n.id = some m ∧ m.isLeaf = true ∧
      m.pairs = n.entries ∧ (∀ x ∈ flat A ++ E, x.1 < key) ∧ (∀ x ∈ F ++ flat B, key < x.1) ∧
      (n.entries = E ++ F ∨ ∃ e, Same e.1 key ∧ n.entries = E ++ e :: F) := by
  have := hf.total
  have hdense := T.filled.dense hf
  obtain ⟨A, n, B, rfl, hr, hfind⟩ := findLeafPage_spec hf key T.tower T.counters T.filledUp hdense T.ascending
  obtain ⟨m, hm, hleaf, hpairs⟩ := content_eq_some.mp (T.tower.stored n (by simp))
  obtain ⟨hA, hB⟩ := hr.bounds hdense T.ascending
  obtain ⟨E, F, hE, hF, hcut⟩ := (T.ascending.block (b := n) (by simp)).cut key
  refine ⟨A, n, B, m, E, F, rfl, hfind, hm, hleaf, hpairs, ?_, ?_, hcut⟩
  · exact List.forall_mem_append.mpr ⟨hA, hE⟩
  · exact List.forall_mem_append.mpr ⟨hF, hB⟩

/-- The value of a key in a list of entries. -/
def valueOf (f : IxFormat K) (es : List (K × Rid)) (key : K) : Option Rid :=
  (es.find? fun e => f.compare e.1 key = 0).map (·.2)

theorem valueOf_absent {X Y : List (K × Rid)} {key : K} (hX : ∀ x ∈ X, x.1 < key) (hY : ∀ x ∈ Y, key < x.1) :
    valueOf f (X ++ Y) key = none := by
  rw [valueOf, Option.map_eq_none_iff, List.find?_eq_none]
  intro x hx
  rw [decide_eq_true_eq, hf.eq_iff]
  intro hs
  rcases List.mem_append.mp hx with hx | hx
  · exact hs.not_lt (hX x hx)
  · exact hs.symm.not_lt (hY x hx)

theorem valueOf_present {X Y : List (K × Rid)} {key : K} {e : K × Rid} (he : Same e.1 key) (hX : ∀ x ∈ X, x.1 < key) :
    valueOf f (X ++ e :: Y) key = some e.2 := by
  have hnone : X.find? (fun e => f.compare e.1 key = 0) = none := List.find?_eq_none.mpr fun x hx => by
    rw [decide_eq_true_eq, hf.eq_iff]
    exact fun hs => hs.not_lt (hX x hx)
  simp [valueOf, List.find?_append, hnone, (hf.eq_iff e.1 key).mpr he]

/-- `get_value` finds the value of the key in the leaves. -/
theorem getValue_eq (T : Tree f s L Us) (key : K) : s.getValue f key = .ok (valueOf f (flat L) key) := by
  obtain ⟨A, n, B, m, E, F, rfl, hfind, hm, hleaf, hpairs, hE, hF, hcut⟩ := T.cut hf key
  have hE' : ∀ x ∈ E, x.1 < key := fun x hx => hE x (List.mem_append_right _ hx)
  have hF' : ∀ x ∈ F, key < x.1 := fun x hx => hF x (List.mem_append_left _ hx)
  rw [getValue, hfind, ok_bind, fetchNode_ok hm, ok_bind]
  rcases hcut with hcut | ⟨e, he, hcut⟩
  · rw [IxNode.leafLookup_absent hf hE' hF' (hpairs.trans hcut)]
    have := valueOf_absent hf hE hF
    simp_all
  · rw [IxNode.leafLookup_present hf hE' hF' he (hpairs.trans hcut)]
    have := valueOf_present hf (Y := F ++ flat B) he hE
    simp_all

/-- `is_unique` finds the same. -/
theorem isUnique_eq (T : Tree f s L Us) (key : K) :
    s.isUnique f key = .ok ((valueOf f (flat L) key).isNone, valueOf f (flat L) key) := by
  obtain ⟨A, n, B, m, E, F, rfl, hfind, hm, hleaf, hpairs, hE, hF, hcut⟩ := T.cut hf key
  have hE' : ∀ x ∈ E, x.1 < key := fun x hx => hE x (List.mem_append_right _ hx)
  have hF' : ∀ x ∈ F, key < x.1 := fun x hx => hF x (List.mem_append_left _ hx)
  rw [isUnique, hfind, ok_bind, fetchNode_ok hm, ok_bind]
  rcases hcut with hcut | ⟨e, he, hcut⟩
  · have hnone : valueOf f (flat (A ++ n :: B)) key = none := by
      have := valueOf_absent hf hE hF
      simp_all
    rw [hnone]
    split
    · rename_i e he
      rw [if_pos (IxNode.slot_absent hf hE' hF' (hpairs.trans hcut) he)]
      rfl
    · rfl
  · have hsome : valueOf f (flat (A ++ n :: B)) key = some e.2 := by
      have := valueOf_present hf (Y := F ++ flat B) he hE
      simp_all
    rw [hsome, IxNode.slot_present hf hE' hF' he (hpairs.trans hcut)]
    simp [(hf.eq_iff key e.1).mpr he.symm]

omit hf in
theorem Tree.cut_present {A B : IxLevel K} {n : Block Int K Rid} {E F : List (K × Rid)} {e : K × Rid} {key : K}
    (hk : e ∈ flat (A ++ n :: B)) (he : Same e.1 key) (hE : ∀ x ∈ flat A ++ E, x.1 < key) (hF : ∀ x ∈ F ++ flat B, key < x.1)
    (hcut : n.entries = E ++ F ∨ ∃ e, Same e.1 key ∧ n.entries = E ++ e :: F) : n.entries = E ++ e :: F := by
  have hnot : e ∉ flat A ++ E ∧ e ∉ F ++ flat B :=
    ⟨fun hmem => he.not_lt (hE e hmem), fun hmem => he.symm.not_lt (hF e hmem)⟩
  simp only [List.mem_append, not_or] at hnot
  rcases hcut with hcut | ⟨e', -, hcut⟩
  · simp only [flat_append, flat_cons, hcut, List.mem_append] at hk
    tauto
  · simp only [flat_append, flat_cons, hcut, List.mem_append, List.mem_cons] at hk
    obtain rfl : e = e' := by tauto
    exact hcut

omit hf in
theorem Tree.cut_absent {A B : IxLevel K} {n : Block Int K Rid} {E F : List (K × Rid)} {key : K}
    (hk : ∀ e ∈ flat (A ++ n :: B), ¬Same e.1 key) (hcut : n.entries = E ++ F ∨ ∃ e, Same e.1 key ∧ n.entries = E ++ e :: F) :
    n.entries = E ++ F := by
  refine hcut.resolve_right ?_
  rintro ⟨e, he, hw⟩
  exact hk e (by simp [hw]) he

end Lookup

/-! ### `insert_entry` -/

/-- What a successful `insert_entry` has done. -/
structure Inserted (f : IxFormat K) (s : IxIndexHandle K) (L : IxLevel K) (Us : List (IxLevel K)) (key : K) (value : Rid)
    (t : IxIndexHandle K) (M : IxLevel K) (Vs : List (IxLevel K)) : Prop where
  tree : Tree f t M Vs
  entries : ∃ E F, flat L = E ++ F ∧ flat M = E ++ (key, value) :: F
  first : t.firstLeaf = s.firstLeaf
  fd : s.fd2pageno ≤ t.fd2pageno
  wide : Wide L Us → Wide M Vs

omit [Preorder K] in
/-- The ends of the leaf level after a split. -/
theorem Ends.split {s t : IxIndexHandle K} {A B : IxLevel K} {n nl nr : Block Int K Rid} (h : Ends s (A ++ n :: B))
    (hd : (ids (A ++ n :: B)).Nodup) (hn : 2 ≤ n.id) (hid : nl.id = n.id) (hfirst : t.firstLeaf = s.firstLeaf)
    (hlast : t.lastLeaf = if n.id = s.lastLeaf then nr.id else s.lastLeaf) : Ends t (A ++ nl :: nr :: B) := by
  rcases h with ⟨h1, h2⟩ | ⟨h1, h2⟩
  · refine Or.inl ⟨hfirst.trans h1, ?_⟩
    rcases List.eq_nil_or_concat B with rfl | ⟨B, b, rfl⟩
    · simp only [ids_append, ids_cons, ids_nil, List.getLast?_append, List.getLast?_singleton, Option.some_or,
        Option.some.injEq] at h2
      rw [hlast, if_pos h2]
      simp
    · have hold : ids (A ++ n :: B.concat b) = (ids A ++ n.id :: ids B) ++ [b.id] := by simp
      have hnew : ids (A ++ nl :: nr :: B.concat b) = (ids A ++ nl.id :: nr.id :: ids B) ++ [b.id] := by simp
      rw [hold, List.getLast?_concat, Option.some.injEq] at h2
      rw [hold] at hd
      have hne : n.id ≠ s.lastLeaf := h2 ▸ (List.nodup_append.mp hd).2.2 n.id (by simp) b.id (by simp)
      rw [hnew, List.getLast?_concat, hlast, if_neg hne, h2]
  · refine Or.inr ⟨hfirst.trans h1, ?_⟩
    rw [hlast, if_neg, h2]
    rw [h2]
    unfold ixNoPage
    omega

omit [Preorder K] in
/-- The header has no part in what `Halved` says, the root apart. -/
theorem Halved.of_pages {s t : IxIndexHandle K} {leaf : Bool} {A B : IxLevel K} {o w : Block Int K Rid} {Us : List (IxLevel K)}
    (h : Halved s leaf A o w B Us) (hpages : t.pages = s.pages) (hroot : t.rootPage = s.rootPage)
    (hfd : t.fd2pageno = s.fd2pageno) : Halved t leaf A o w B Us := by
  have k : Keeps s t ∅ ∅ ∅ := Keeps.of_pages hpages
  refine ⟨h.stored.frame k fun _ _ hmem => hmem, h.above.frame k (fun _ _ hmem => hmem) (fun _ _ hmem => hmem) hroot, h.nodup,
    ?_, h.left, h.right, ?_⟩
  · rw [hfd]
    exact h.bound
  · rw [k.parent _ (Set.notMem_empty _), k.parent _ (Set.notMem_empty _)]
    exact h.parent

/-- The last part of `insert_entry`, for a full leaf: it is split and the new leaf gets into the tree. -/
theorem Tower.split_and_adopt {f : IxFormat K} (hf : f.Lawful) {s : IxIndexHandle K} {A B : IxLevel K} {n : Block Int K Rid}
    {Us : List (IxLevel K)} (T : Tower s true (A ++ n :: B) Us) (hleaves : Leaves s (A ++ n :: B))
    (hfill : ∀ U ∈ Us, Filled f U) (hc : Counters s) (hfull : n.entries.length = f.maxSize) :
    ∃ s₂ s₃ t nl nr x xs Vs, nl = Block.mk n.id (n.entries.take f.minSize) ∧
      nr = Block.mk s.fd2pageno (n.entries.drop f.minSize) ∧ nr.entries = x :: xs ∧ s.split f n.id = .ok (s₂, nr.id) ∧
      s₃ = (if n.id = s₂.lastLeaf then { s₂ with lastLeaf := nr.id } else s₂) ∧
      s₃.content nr.id = some (true, nr.entries) ∧ insertIntoParent f (s₃.filePages + 1) s₃ n.id x.1 nr.id = .ok t ∧
      Tower t true (A ++ nl :: nr :: B) Vs ∧ (∀ V ∈ Vs, Filled f V) ∧ Leaves t (A ++ nl :: nr :: B) ∧ Counters t ∧ t.firstLeaf = s.firstLeaf ∧ s.fd2pageno ≤ t.fd2pageno ∧
      (Wide (A ++ n :: B) Us → Wide (A ++ nl :: nr :: B) Vs) := by
  obtain ⟨s₂, nl, nr, hnl, hnr, hsplit, hhalf, hring₂, k₂, hal⟩ := T.split_leaf hf hleaves.ring hfull
  obtain ⟨s₃, hs₃⟩ : ∃ s₃, s₃ = (if n.id = s₂.lastLeaf then { s₂ with lastLeaf := nr.id } else s₂) := ⟨_, rfl⟩
  have hpages : s₃.pages = s₂.pages := by rw [hs₃]; split <;> rfl
  have hroot : s₃.rootPage = s₂.rootPage := by rw [hs₃]; split <;> rfl
  have hfd : s₃.fd2pageno = s₂.fd2pageno := by rw [hs₃]; split <;> rfl
  have hfile : s₃.filePages = s₂.filePages := by rw [hs₃]; split <;> rfl
  have hnum : s₃.numPages = s₂.numPages := by rw [hs₃]; split <;> rfl
  have hfirst : s₃.firstLeaf = s₂.firstLeaf := by rw [hs₃]; split <;> rfl
  have hlast : s₃.lastLeaf = if n.id = s.lastLeaf then nr.id else s.lastLeaf := by
    rw [hs₃, hal.last]
    split
    · rfl
    · exact hal.last
  have hhalf₃ := hhalf.of_pages hpages hroot hfd
  have hc₃ : Counters s₃ := by
    have := hal.counters hc
    exact ⟨by rw [hnum, hfd]; exact this.num, by rw [hfd, hfile]; exact this.file⟩
  obtain ⟨x, xs, hx⟩ := List.exists_cons_of_ne_nil hhalf.right
  have hnid : nl.id = n.id := by rw [hnl]
  have hheight : Us.length < s₃.filePages + 1 := by
    have h1 := T.height
    have h2 := hc₃.file
    have h3 := hal.fd
    omega
  obtain ⟨t, Vs, hrun, had⟩ := insertIntoParent_spec hf hhalf₃ hx hfill hheight
  rw [hnid] at hrun
  have hleaves₃ : Leaves s₃ (A ++ nl :: nr :: B) := by
    refine ⟨?_, ?_, hleaves.ends.split (List.nodup_append.mp T.nodup).1 (T.bound n.id (by simp)).1 hnid
      (hfirst.trans hal.first) hlast, ?_⟩
    · exact hring₂.congr (fun p _ => by rw [nextOf, hpages, nextOf]) (fun p _ => by rw [prevOf, hpages, prevOf])
    · have := hleaves.leftmost
      rw [hnl]
      cases A <;> simpa using this
    · rw [content, hpages]
      refine (k₂.content _ ?_).trans hleaves.header
      have hn2 := (T.bound n.id (by simp)).1
      have hfd2 := (T.bound n.id (by simp)).2
      rintro (heq | heq)
      · rw [← heq, ixLeafHeaderPage] at hn2
        omega
      · rw [← Set.mem_singleton_iff.mp heq, ixLeafHeaderPage] at hfd2
        omega
  refine ⟨s₂, s₃, t, nl, nr, x, xs, Vs, hnl, hnr, hx, hsplit, hs₃, hhalf₃.stored nr (by simp), hrun, had.tower, had.filled, ?_,
    had.grows.counters hc₃, ?_, ?_, fun hw => had.wide (hw.mono (by simp))⟩
  · -- the pages of the ring are not new
    have hhdr := hhalf₃.bound nr.id (by simp)
    refine hleaves₃.frame rfl had.keeps ?_ ?_ had.grows.first had.grows.last
    · rintro (hmem | hle)
      · exact T.header_notMem (List.mem_append_right _ hmem)
      · simp only [ixLeafHeaderPage] at hle
        omega
    rintro p (rfl | hp) hle
    · have := hhalf₃.bound nr.id (by simp)
      simp only [Set.mem_ofPred_eq, ixLeafHeaderPage] at hle
      omega
    · have := hhalf₃.bound p (List.mem_append_left _ hp)
      simp only [Set.mem_ofPred_eq] at hle
      omega
  · rw [had.grows.first, hfirst, hal.first]
  · have := had.grows.fd
    have := hal.fd
    omega

section Insert
variable [DecidableEq K] {f : IxFormat K} (hf : f.Lawful) {s : IxIndexHandle K} {L : IxLevel K} {Us : List (IxLevel K)}
  {key : K}
include hf

/-- `insert_entry` of a key that is there changes nothing. -/
theorem insertEntry_present (T : Tree f s L Us) {e : K × Rid} (hk : e ∈ flat L) (he : Same e.1 key) (value : Rid) :
    s.insertEntry f key value = .ok (s, ixNoPage) := by
  obtain ⟨A, n, B, m, E, F, rfl, hfind, hm, hleaf, hpairs, hE, hF, hcut⟩ := T.cut hf key
  have hE' : ∀ x ∈ E, x.1 < key := fun x hx => hE x (List.mem_append_right _ hx)
  have hF' : ∀ x ∈ F, key < x.1 := fun x hx => hF x (List.mem_append_left _ hx)
  have hcut := Tree.cut_present hk he hE hF hcut
  rw [insertEntry, hfind, ok_bind, fetchNode_ok hm, ok_bind]
  simp only [IxNode.insert_present hf hE' hF' he (hpairs.trans hcut), ok_bind, if_true]

omit [DecidableEq K] in
/-- After the split, `lower_bound` of the key in the new leaf is one of its slots. -/
theorem keyAt_lowerBound (key : K) {w : IxNode K} {es : List (K × Rid)} {i : Nat} {v : Rid} (hw : w.pairs = es.drop i) (hne : w.pairs ≠ [])
    (hasc : Ascending es) (hkey : (key, v) ∈ es) : ∃ k', w.keyAt (w.lowerBound f key) = .ok k' := by
  rw [← List.take_append_drop i es] at hasc hkey
  obtain ⟨-, hright, hlt⟩ := Ascending.append.mp hasc
  have := hf.total
  obtain ⟨E, F, hE, hF, hcut⟩ := hright.cut key
  rcases hcut with hcut | ⟨e, he, hcut⟩
  · rcases List.mem_append.mp hkey with hk | hk
    · -- the key went to the left half, so the right one starts above it
      have hEnil : E = [] := by
        cases E with
        | nil => rfl
        | cons x E =>
          have h1 := hlt _ hk x (by simp [hcut])
          exact absurd (hE x (by simp)) h1.asymm
      subst hEnil
      obtain ⟨x, xs, hx⟩ := List.exists_cons_of_ne_nil hne
      refine ⟨x.1, ?_⟩
      rw [IxNode.lowerBound_absent hf hE hF (hw.trans hcut)]
      simp [IxNode.keyAt, hx]
    · rw [hcut] at hk
      rcases List.mem_append.mp hk with hk | hk
      · exact absurd (hE _ hk) (lt_irrefl key)
      · exact absurd (hF _ hk) (lt_irrefl key)
  · refine ⟨e.1, ?_⟩
    rw [IxNode.lowerBound_present hf hE hF he (hw.trans hcut), IxNode.keyAt, hw, hcut]
    simp

/-- `insert_entry` of a new key puts it into the leaves. -/
theorem insertEntry_absent (T : Tree f s L Us) (hk : ∀ e ∈ flat L, ¬Same e.1 key) (value : Rid) :
    ∃ t q M Vs, s.insertEntry f key value = .ok (t, q) ∧ q ≠ ixNoPage ∧ Inserted f s L Us key value t M Vs := by
  obtain ⟨A, n, B, m, E, F, rfl, hfind, hm, hleaf, hpairs, hE, hF, hcut⟩ := T.cut hf key
  have hE' : ∀ x ∈ E, x.1 < key := fun x hx => hE x (List.mem_append_right _ hx)
  have hF' : ∀ x ∈ F, key < x.1 := fun x hx => hF x (List.mem_append_left _ hx)
  have hcut := Tree.cut_absent hk hcut
  let v : Block Int K Rid := ⟨n.id, E ++ (key, value) :: F⟩
  obtain ⟨s₁, Ws, hrefresh, T₁, hshape, k₁, hd₁⟩ := T.tower.refresh (v := v) T.counters hm rfl
    (c := (E.length : Int) = 0) (fun _ => by simp [v]) (fun hc x hx => by
      cases E with
      | nil => exact absurd rfl hc
      | cons e E => exact ⟨x, by rw [hcut]; exact hx, rfl⟩)
  have hasc : Ascending (flat (A ++ v :: B)) := by
    have := T.ascending
    simp only [flat_append, flat_cons, hcut] at this ⊢
    have := Ascending.insert (E := flat A ++ E) (F := F ++ flat B) (v := value) (by simpa using this) hE hF
    simpa [v] using this
  have hids : ids (A ++ v :: B) = ids (A ++ n :: B) := by simp [v]
  have hleaves₁ : Leaves s₁ (A ++ v :: B) := T.leaves.frame hids k₁ T.tower.header_notMem_refresh (fun _ _ hmem => hmem) hd₁.first hd₁.last
  have hfillW : ∀ W ∈ Ws, Filled f W := filled_of_shapes T.filledUp hshape
  have hc₁ : Counters s₁ := T.counters.of_hdr hd₁
  have hflat : ∃ X Y, flat (A ++ n :: B) = X ++ Y ∧ flat (A ++ v :: B) = X ++ (key, value) :: Y :=
    ⟨flat A ++ E, F ++ flat B, by simp [hcut], by simp [v]⟩
  have hlen : v.entries.length = n.entries.length + 1 := by simp [v, hcut]; omega
  have hstart : s.insertEntry f key value = (do
      let leaf ← s₁.fetchNode n.id
      if leaf.isFull f then
        s₁.split f n.id >>= fun r => do
          let s := if n.id = r.1.lastLeaf then { r.1 with lastLeaf := r.2 } else r.1
          let w ← s.fetchNode r.2
          let wKey ← w.keyAt 0
          let s ← insertIntoParent f (s.filePages + 1) s n.id wKey r.2
          let w ← s.fetchNode r.2
          let found ← w.keyAt (w.lowerBound f key)
          .ok (s, if f.compare found key = 0 then r.2 else n.id)
      else .ok (s₁, n.id)) := by
    have hsize : ¬({ m with pairs := E ++ (key, value) :: F } : IxNode K).size = m.size := by
      simp [IxNode.size, hpairs, hcut]
    rw [insertEntry, hfind, ok_bind, fetchNode_ok hm, ok_bind]
    simp only [IxNode.insert_absent hf hE' hF' (hpairs.trans hcut), ok_bind, if_neg hsize]
    by_cases hz : (E.length : Int) = 0
    · rw [if_pos hz] at hrefresh ⊢
      show ((s.putNode n.id { m with pairs := v.entries }).maintainParent n.id >>= _) = _
      rw [hrefresh, ok_bind]
    · rw [if_neg hz] at hrefresh ⊢
      cases hrefresh
      rfl
  obtain ⟨m₁, hm₁, -, hmp₁⟩ := content_eq_some.mp (T₁.stored v (by simp))
  rw [hstart, fetchNode_ok hm₁, ok_bind]
  have hn2 := (T.tower.bound n.id (by simp)).1
  have hnot : n.id ≠ ixNoPage := by
    unfold ixNoPage
    omega
  by_cases hfull : v.entries.length = f.maxSize
  · obtain ⟨s₂, s₃, t, nl, nr, x, xs, Vs, hnl, hnr, hx, hsplit, hs₃, hcr, hrun, T₂, hfill₂, hleaves₂, hc₂, hfirst₂, hfd₂,
      hwide₂⟩ := T₁.split_and_adopt hf hleaves₁ hfillW hc₁ hfull
    obtain ⟨w₃, hw₃, -, hwp₃⟩ := content_eq_some.mp hcr
    obtain ⟨w, hw, -, hwp⟩ := content_eq_some.mp (T₂.stored nr (by simp))
    have hkey : w₃.keyAt 0 = .ok x.1 := by simp [IxNode.keyAt, hwp₃, hx]
    obtain ⟨k', hfound⟩ := keyAt_lowerBound hf key (w := w) (i := f.minSize) (v := value) (hwp.trans (by rw [hnr]))
      (by rw [hwp, hx]; simp) (hasc.block (b := v) (by simp)) (by simp [v])
    have hr2 := (T₂.bound nr.id (by simp)).1
    have hflat₂ : flat (A ++ nl :: nr :: B) = flat (A ++ v :: B) := by
      simp only [flat_append, flat_cons, hnl, hnr]
      rw [← List.append_assoc (v.entries.take f.minSize), List.take_append_drop]
    refine ⟨t, if f.compare k' key = 0 then nr.id else n.id, A ++ nl :: nr :: B, Vs, ?_, ?_, ⟨⟨T₂, ?_, hfill₂, ?_, hleaves₂, hc₂⟩,
      ?_, ?_, ?_, fun hw => hwide₂ (hw.of_shape (by simp) hshape)⟩⟩
    · rw [if_pos (by simpa [IxNode.isFull, IxNode.size, hmp₁] using hfull), show s₁.split f n.id = _ from hsplit, ok_bind]
      show ((if n.id = s₂.lastLeaf then { s₂ with lastLeaf := nr.id } else s₂).fetchNode nr.id >>= _) = _
      rw [← hs₃, fetchNode_ok hw₃, ok_bind, hkey, ok_bind, show insertIntoParent f _ s₃ n.id x.1 nr.id = _ from hrun, ok_bind,
        fetchNode_ok hw, ok_bind, hfound, ok_bind]
    · split
      · unfold ixNoPage
        omega
      · exact hnot
    · rw [hnl, hnr]
      exact filled_halves hf T.filled hfull
    · rw [hflat₂]
      exact hasc
    · rw [hflat₂]
      exact hflat
    · rw [hfirst₂, hd₁.first]
    · exact hd₁.fd.ge.trans hfd₂
  · refine ⟨s₁, n.id, A ++ v :: B, Ws, ?_, hnot, ⟨⟨T₁, T.filled.grow hlen hfull, hfillW, hasc, hleaves₁, hc₁⟩, hflat, hd₁.first,
      hd₁.fd.ge, fun hw => hw.of_shape (by simp) hshape⟩⟩
    rw [if_neg]
    simpa [IxNode.isFull, IxNode.size, hmp₁] using hfull

end Insert

/-! ### `delete_entry` -/

/-- What a successful `delete_entry` has done. -/
structure Deleted (f : IxFormat K) (s : IxIndexHandle K) (L : IxLevel K) (key : K) (t : IxIndexHandle K) (M : IxLevel K)
    (Vs : List (IxLevel K)) : Prop where
  tree : Tree f t M Vs
  entries : ∃ E e F, Same e.1 key ∧ flat L = E ++ e :: F ∧ flat M = E ++ F
  first : t.firstLeaf = s.firstLeaf ∨ (t.firstLeaf = ixNoPage ∧ flat M = [])
  fd : t.fd2pageno = s.fd2pageno

section Delete
variable [DecidableEq K] {f : IxFormat K} (hf : f.Lawful) {s : IxIndexHandle K} {L : IxLevel K} {Us : List (IxLevel K)}
  {key : K}

omit [DecidableEq K] in
theorem Tree.root_ne (T : Tree f s L Us) : s.rootPage ≠ ixNoPage := by
  have := (T.tower.bound _ T.tower.above.root_mem).1
  unfold ixNoPage
  omega

omit [Preorder K] [DecidableEq K] in
theorem adjustRoot_leaf {n : Block Int K Rid} (hc : s.content n.id = some (true, n.entries)) :
    ∃ t d, s.adjustRoot n.id = .ok (t, d) ∧
      t = if n.entries = [] then { s with rootPage := ixInitRootPage, firstLeaf := ixNoPage, lastLeaf := ixNoPage } else s := by
  obtain ⟨m, hm, hleaf, hpairs⟩ := content_eq_some.mp hc
  by_cases hnil : n.entries = []
  · refine ⟨_, true, ?_, rfl⟩
    rw [if_pos hnil, adjustRoot, fetchNode_ok hm, ok_bind]
    simp [hleaf, IxNode.size, hpairs, hnil]
  · refine ⟨_, false, ?_, rfl⟩
    rw [if_neg hnil, adjustRoot, fetchNode_ok hm, ok_bind]
    simp [hleaf, IxNode.size, hpairs, hnil]

include hf

/-- `delete_entry` of a key that is not there changes nothing. -/
theorem deleteEntry_absent (T : Tree f s L Us) (hk : ∀ e ∈ flat L, ¬Same e.1 key) : s.deleteEntry f key = .ok (s, false) := by
  obtain ⟨A, n, B, m, E, F, rfl, hfind, hm, hleaf, hpairs, hE, hF, hcut⟩ := T.cut hf key
  have hE' : ∀ x ∈ E, x.1 < key := fun x hx => hE x (List.mem_append_right _ hx)
  have hF' : ∀ x ∈ F, key < x.1 := fun x hx => hF x (List.mem_append_left _ hx)
  have hcut := Tree.cut_absent hk hcut
  rw [deleteEntry, if_neg T.root_ne, hfind, ok_bind, fetchNode_ok hm, ok_bind]
  simp only [IxNode.remove_absent hf hE' hF' (hpairs.trans hcut), ok_bind, if_true]

omit [DecidableEq K] hf in
theorem Tree.reset {n : Block Int K Rid} (T : Tower s true [n] []) (hn : n.entries = []) (hleaves : Leaves s [n])
    (hc : Counters s) : Tree f { s with rootPage := ixInitRootPage, firstLeaf := ixNoPage, lastLeaf := ixNoPage } [n] [] := by
  have hid : n.id = ixInitRootPage := by simpa using hleaves.leftmost
  obtain ⟨r, hr, hp, -⟩ := T.above
  obtain rfl : n = r := by simpa using hr
  exact {
    tower := ⟨T.stored, ⟨n, rfl, hp, hid.symm⟩, T.nodup, T.bound, T.nonempty⟩
    filled := ⟨Or.inl ⟨n, rfl⟩, by simp [hn]⟩
    filledUp := by simp
    ascending := by simp [hn, Ascending]
    leaves := ⟨hleaves.ring, hleaves.leftmost, Or.inr ⟨rfl, rfl⟩, hleaves.header⟩
    counters := ⟨hc.num, hc.file⟩ }

omit [Preorder K] [DecidableEq K] hf in
/-- A leaf that lost an entry. -/
theorem short_of_erase {A B : IxLevel K} {n v : Block Int K Rid} (h : Filled f (A ++ n :: B))
    (hlen : v.entries.length + 1 = n.entries.length) : Short f A v B := by
  refine ⟨?_, fun b hb => ?_⟩
  · rcases h.least with ⟨c, hc⟩ | hmin
    · obtain ⟨rfl, rfl, -⟩ := alone hc
      exact Or.inl ⟨rfl, rfl⟩
    · refine Or.inr ⟨fun b hb => hmin b (by rcases hb with hb | hb <;> simp [hb]), ?_⟩
      have := hmin n (by simp)
      omega
  · simp only [List.mem_append, List.mem_cons] at hb
    rcases hb with hb | rfl | hb
    · exact h.most b (by simp [hb])
    · have := h.most n (by simp)
      omega
    · exact h.most b (by simp [hb])

/-- `delete_entry` of a key that is there takes it out of the leaves. `A`, `v` and `B` are the leaves without the key,
    before the nodes are repaired. -/
theorem deleteEntry_present (T : Tree f s L Us) {e : K × Rid} (hk : e ∈ flat L) (he : Same e.1 key) :
    ∃ t M Vs, s.deleteEntry f key = .ok (t, true) ∧ Deleted f s L key t M Vs ∧
      ∃ A n v B Ws, L = A ++ n :: B ∧ s.findLeafPage f key = .ok n.id ∧ v.id = n.id ∧
        v.entries.length + 1 = n.entries.length ∧ Ws.map shape = Us.map shape ∧
        (Wide L Us → ¬MergesUp f A v B Ws → Wide M Vs) := by
  obtain ⟨A, n, B, m, E, F, rfl, hfind, hm, hleaf, hpairs, hE, hF, hcut⟩ := T.cut hf key
  have hE' : ∀ x ∈ E, x.1 < key := fun x hx => hE x (List.mem_append_right _ hx)
  have hF' : ∀ x ∈ F, key < x.1 := fun x hx => hF x (List.mem_append_left _ hx)
  have hcut := Tree.cut_present hk he hE hF hcut
  let v : Block Int K Rid := ⟨n.id, E ++ F⟩
  have hlen : v.entries.length + 1 = n.entries.length := by simp [v, hcut]; omega
  obtain ⟨s₁, Ws, hrefresh, T₁, hshape, k₁, hd₁⟩ := T.tower.refresh (v := v) T.counters hm rfl
    (c := E.length = 0 ∧ (E ++ F).length > 0) (fun hc => List.ne_nil_of_length_pos hc.2) (fun hc x hx => by
      cases E with
      | nil =>
        cases F with
        | nil => cases hx
        | cons y F => exact absurd ⟨rfl, by simp⟩ hc
      | cons e E => exact ⟨x, by rw [hcut]; exact hx, rfl⟩)
  have hids : ids (A ++ v :: B) = ids (A ++ n :: B) := by simp [v]
  have hleaves₁ : Leaves s₁ (A ++ v :: B) := T.leaves.frame hids k₁ T.tower.header_notMem_refresh (fun _ _ hmem => hmem) hd₁.first hd₁.last
  have hfillW : ∀ W ∈ Ws, Filled f W := filled_of_shapes T.filledUp hshape
  have hc₁ : Counters s₁ := T.counters.of_hdr hd₁
  have hflat : ∃ X y Y, Same y.1 key ∧ flat (A ++ n :: B) = X ++ y :: Y ∧ flat (A ++ v :: B) = X ++ Y :=
    ⟨flat A ++ E, e, F ++ flat B, he, by simp [hcut], by simp [v]⟩
  have hasc : Ascending (flat (A ++ v :: B)) := by
    obtain ⟨X, y, Y, -, h1, h2⟩ := hflat
    rw [h2]
    exact Ascending.erase (h1 ▸ T.ascending)
  have hshort : Short f A v B := short_of_erase T.filled hlen
  have hstart : s.deleteEntry f key =
      (coalesceOrRedistribute f (s₁.filePages + 1) s₁ n.id >>= fun r => .ok (r.1, true)) := by
    have hsize : ¬({ m with pairs := E ++ F } : IxNode K).size = m.size := by
      simp only [IxNode.size, hpairs]
      have : (E ++ F).length + 1 = n.entries.length := hlen
      omega
    rw [deleteEntry, if_neg T.root_ne, hfind, ok_bind, fetchNode_ok hm, ok_bind]
    simp only [IxNode.remove_present hf hE' hF' he (hpairs.trans hcut), ok_bind, if_neg hsize]
    by_cases hz : E.length = 0 ∧ (E ++ F).length > 0
    · rw [if_pos hz] at hrefresh
      rw [if_pos (show E.length = 0 ∧ ({ m with pairs := E ++ F } : IxNode K).size > 0 from hz)]
      show ((s.putNode n.id { m with pairs := v.entries }).maintainParent n.id >>= _) = _
      rw [hrefresh, ok_bind]
    · rw [if_neg hz] at hrefresh
      rw [if_neg (show ¬(E.length = 0 ∧ ({ m with pairs := E ++ F } : IxNode K).size > 0) from hz)]
      cases hrefresh
      rfl
  have hheight : Ws.length < s₁.filePages + 1 := by
    have h1 := T₁.height
    have h2 := hc₁.file
    omega
  cases Ws with
  | nil =>
    -- the leaf is the root
    obtain ⟨r, hr, hp, hroot⟩ := T₁.above
    obtain ⟨rfl, rfl, rfl⟩ := alone hr
    obtain ⟨t, d, hadj, ht⟩ := adjustRoot_leaf (T₁.stored v (by simp))
    obtain ⟨c, hc, -, -, hcp⟩ := exists_node (T₁.stored v (by simp)) hp
    have hisroot : c.isRootPage = true := by simp [IxNode.isRootPage, hcp]
    have hrun : s.deleteEntry f key = .ok (t, true) := by
      rw [hstart, coalesceOrRedistribute, fetchNode_ok hc, ok_bind, if_pos hisroot, show s₁.adjustRoot n.id = _ from hadj]
      rfl
    refine ⟨t, [v], [], hrun, ?_, [], n, v, [], [], rfl, hfind, rfl, hlen, hshape, fun _ _ => trivial⟩
    by_cases hnil : v.entries = []
    · rw [if_pos hnil] at ht
      rw [ht]
      exact ⟨Tree.reset T₁ hnil hleaves₁ hc₁, hflat, Or.inr ⟨rfl, by simp [hnil]⟩, hd₁.fd⟩
    · rw [if_neg hnil] at ht
      rw [ht]
      exact ⟨⟨T₁, hshort.filled (Or.inl ⟨rfl, rfl⟩), hfillW, hasc, hleaves₁, hc₁⟩, hflat, Or.inl hd₁.first, hd₁.fd⟩
  | cons W Ws =>
    obtain ⟨t, M, Vs, d, hrun, R, hw⟩ := repairs hf (U := W)
      (show Ws.length < s₁.filePages + 1 by simp only [List.length_cons] at hheight; omega) s₁ true A v B T₁ (Grounded.leaves _ _ _) hshort hfillW
      (fun _ => hleaves₁)
    refine ⟨t, M, Vs, ?_, ⟨⟨R.tower, R.filled, R.filledUp, ?_, R.leaves rfl, R.counters hc₁⟩, ?_, ?_, ?_⟩, A, n, v, B, W :: Ws, rfl,
      hfind, rfl, hlen, hshape, fun hW hno => hw (hW.of_shape (by simp) hshape) hno⟩
    · rw [hstart, show coalesceOrRedistribute f _ s₁ n.id = _ from hrun]
      rfl
    · rw [R.entries]
      exact hasc
    · rw [R.entries]
      exact hflat
    · exact Or.inl (R.first.trans hd₁.first)
    · exact R.fd.trans hd₁.fd

end Delete

end IxIndexHandle
end Rmdb
