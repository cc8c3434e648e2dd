import Rmdb.Theorems.Index.Memory
import Mathlib.Data.Int.Interval
import Mathlib.Data.Finset.Card

/-! The nodes of an index as levels of blocks: which pages hold them (`Stored`), which parents they have
(`Parented`), and how a level is linked to the levels above it up to the root (`Above`). -/

namespace Rmdb
open Ladder

/-- A level of nodes: page numbers with the pairs on them. -/
abbrev IxLevel (K : Type) := Level Int K Rid

namespace IxIndexHandle
variable {K : Type}

/-- The pages of a level hold its blocks. -/
def Stored (s : IxIndexHandle K) (leaf : Bool) (L : IxLevel K) : Prop :=
  ∀ b ∈ L, s.content b.id = some (leaf, b.entries)

/-- The children of a level have their blocks as parents. -/
def Parented (s : IxIndexHandle K) (U : IxLevel K) : Prop :=
  ∀ u ∈ U, ∀ e ∈ u.entries, s.parentOf e.2.pageNo = some u.id

/-- `Us` are the levels above `L`, from the one next to it to the root. -/
def Above (s : IxIndexHandle K) : IxLevel K → List (IxLevel K) → Prop
  | L, [] => ∃ r, L = [r] ∧ s.parentOf r.id = some ixNoPage ∧ s.rootPage = r.id
  | L, U :: Us => Linked Rid.pageNo L U ∧ Stored s false U ∧ Parented s U ∧ Above s U Us

/-- As `Above`, except that the key of block `i` of `L` may be out of date. -/
def AboveBut (s : IxIndexHandle K) (i : Int) : IxLevel K → List (IxLevel K) → Prop
  | L, [] => Above s L []
  | L, U :: Us => LinkedBut Rid.pageNo i L U ∧ Stored s false U ∧ Parented s U ∧ Above s U Us

/-- All pages of some levels. -/
def idsUp (Us : List (IxLevel K)) : List Int := Us.flatMap ids

@[simp] theorem idsUp_nil : idsUp ([] : List (IxLevel K)) = [] := rfl

@[simp] theorem idsUp_cons (U : IxLevel K) (Us : List (IxLevel K)) : idsUp (U :: Us) = ids U ++ idsUp Us := rfl

/-- The children of a level are the blocks of the level below. -/
theorem kids_flat {L U : IxLevel K} (h : Linked Rid.pageNo L U) {e : K × Rid} (he : e ∈ flat U) : e.2.pageNo ∈ ids L := by
  rw [← values_eq_ids (names_but 0 h)]
  exact List.mem_map_of_mem he

theorem kids_block {L U : IxLevel K} (h : Linked Rid.pageNo L U) {u : Block Int K Rid} (hu : u ∈ U) {e : K × Rid}
    (he : e ∈ u.entries) : e.2.pageNo ∈ ids L :=
  kids_flat h (mem_flat.mpr ⟨u, hu, he⟩)

theorem stored_append {s : IxIndexHandle K} {leaf : Bool} {L M : IxLevel K} :
    Stored s leaf (L ++ M) ↔ Stored s leaf L ∧ Stored s leaf M := List.forall_mem_append

theorem stored_cons {s : IxIndexHandle K} {leaf : Bool} {b : Block Int K Rid} {L : IxLevel K} :
    Stored s leaf (b :: L) ↔ s.content b.id = some (leaf, b.entries) ∧ Stored s leaf L := List.forall_mem_cons

theorem parented_append {s : IxIndexHandle K} {U V : IxLevel K} : Parented s (U ++ V) ↔ Parented s U ∧ Parented s V :=
  List.forall_mem_append

theorem parented_cons {s : IxIndexHandle K} {u : Block Int K Rid} {U : IxLevel K} :
    Parented s (u :: U) ↔ (∀ e ∈ u.entries, s.parentOf e.2.pageNo = some u.id) ∧ Parented s U := List.forall_mem_cons

/-! ### Frames -/

section Frames
variable {s t : IxIndexHandle K} {C Q N : Set Int}

theorem Stored.frame {leaf : Bool} {L : IxLevel K} (h : Stored s leaf L) (k : Keeps s t C Q N) (hC : ∀ p ∈ ids L, p ∉ C) :
    Stored t leaf L := fun b hb => by
  rw [k.content _ (hC _ (mem_ids_of_mem hb))]
  exact h b hb

/-- One page of a level gets new pairs. -/
theorem Stored.replace {leaf : Bool} {A B : IxLevel K} {u v : Block Int K Rid} (h : Stored s leaf (A ++ u :: B))
    (hd : (ids (A ++ u :: B)).Nodup) (k : Keeps s t C Q N) (hC : ∀ p ∈ C, p = u.id ∨ p ∉ ids (A ++ u :: B))
    (hid : v.id = u.id) (hv : t.content u.id = some (leaf, v.entries)) : Stored t leaf (A ++ v :: B) := by
  simp only [ids_append, ids_cons, List.nodup_append, List.nodup_cons, List.mem_cons] at hd
  obtain ⟨-, ⟨huB, -⟩, hAu⟩ := hd
  have keep : ∀ b, b ∈ A ∨ b ∈ B → t.content b.id = some (leaf, b.entries) := by
    intro b hb
    have hmem : b ∈ A ++ u :: B := by
      rcases hb with hb | hb <;> simp [hb]
    have hne : b.id ≠ u.id := by
      rcases hb with hb | hb
      · exact hAu _ (mem_ids_of_mem hb) _ (Or.inl rfl)
      · exact fun heq => huB (heq ▸ mem_ids_of_mem hb)
    rw [k.content _ fun hbC => (hC _ hbC).elim hne fun hn => hn (mem_ids_of_mem hmem)]
    exact h b hmem
  intro b hb
  rcases List.mem_append.mp hb with hb | hb
  · exact keep b (Or.inl hb)
  · rcases List.mem_cons.mp hb with rfl | hb
    · rw [hid]; exact hv
    · exact keep b (Or.inr hb)

theorem Parented.frame {U : IxLevel K} (h : Parented s U) (k : Keeps s t C Q N)
    (hQ : ∀ e ∈ flat U, e.2.pageNo ∉ Q) : Parented t U := fun u hu e he => by
  rw [k.parent _ (hQ e (mem_flat.mpr ⟨u, hu, he⟩))]
  exact h u hu e he

/-- What is above a level is not touched by writes to other pages. -/
theorem Above.frame {L : IxLevel K} {Us : List (IxLevel K)} (h : Above s L Us) (k : Keeps s t C Q N)
    (hC : ∀ p ∈ idsUp Us, p ∉ C) (hQ : ∀ p ∈ ids L ++ idsUp Us, p ∉ Q) (hroot : t.rootPage = s.rootPage) : Above t L Us := by
  induction Us generalizing L with
  | nil =>
    obtain ⟨r, rfl, hp, hr⟩ := h
    refine ⟨r, rfl, ?_, hroot.trans hr⟩
    rw [k.parent _ (hQ _ (by simp))]
    exact hp
  | cons U Us ih =>
    obtain ⟨hl, hs, hp, ha⟩ := h
    simp only [idsUp_cons, List.mem_append] at hC hQ
    exact ⟨hl, hs.frame k fun p hp => hC p (Or.inl hp), hp.frame k fun e he => hQ _ (Or.inl (kids_flat hl he)),
      ih ha (fun p hp => hC p (Or.inr hp)) fun p hp => hQ p (Or.inr (List.mem_append.mp hp))⟩

/-- A lone block among others is alone. -/
theorem alone {A B : IxLevel K} {u r : Block Int K Rid} (h : A ++ u :: B = [r]) : A = [] ∧ B = [] ∧ u = r := by
  rcases List.append_eq_singleton_iff.mp h with ⟨rfl, h⟩ | ⟨-, h⟩
  · cases h
    exact ⟨rfl, rfl, rfl⟩
  · cases h

/-- A block with the same first key can take the place of another one. -/
theorem Above.replace {A B : IxLevel K} {u v : Block Int K Rid} {Us : List (IxLevel K)} (h : Above s (A ++ u :: B) Us)
    (hid : v.id = u.id) (hhead : ∀ x ∈ v.entries.head?, ∃ y ∈ u.entries.head?, x.1 = y.1) : Above s (A ++ v :: B) Us := by
  cases Us with
  | nil =>
    obtain ⟨r, hr, hp, hroot⟩ := h
    obtain ⟨rfl, rfl, rfl⟩ := alone hr
    exact ⟨v, rfl, hid ▸ hp, hid ▸ hroot⟩
  | cons U Us =>
    obtain ⟨hl, hst, hpar, ha⟩ := h
    exact ⟨hl.replace hid hhead, hst, hpar, ha⟩

/-- A block with any pairs can take the place of another one, its key in the level above apart. -/
theorem Above.replace_but {A B : IxLevel K} {u v : Block Int K Rid} {Us : List (IxLevel K)} (h : Above s (A ++ u :: B) Us)
    (hid : v.id = u.id) : AboveBut s v.id (A ++ v :: B) Us := by
  cases Us with
  | nil =>
    obtain ⟨r, hr, hp, hroot⟩ := h
    obtain ⟨rfl, rfl, rfl⟩ := alone hr
    exact ⟨v, rfl, hid ▸ hp, hid ▸ hroot⟩
  | cons U Us =>
    obtain ⟨hl, hst, hpar, ha⟩ := h
    exact ⟨hid ▸ LinkedBut.replace hid hl, hst, hpar, ha⟩

end Frames

/-! ### Shapes -/

/-- A level without its keys. -/
def shape (L : IxLevel K) : List (Int × List Rid) := L.map fun b => (b.id, b.entries.map (·.2))

theorem ids_of_shape {L M : IxLevel K} (h : shape M = shape L) : ids M = ids L := by
  have := congrArg (List.map Prod.fst) h
  simpa [shape, ids, Function.comp_def] using this

theorem idsUp_of_shape {Us Vs : List (IxLevel K)} (h : Vs.map shape = Us.map shape) : idsUp Vs = idsUp Us := by
  induction Us generalizing Vs with
  | nil =>
    rw [List.map_nil, List.map_eq_nil_iff] at h
    rw [h]
  | cons U Us ih =>
    cases Vs with
    | nil => cases h
    | cons V Vs =>
      simp only [List.map_cons, List.cons.injEq] at h
      rw [idsUp_cons, idsUp_cons, ih h.2, ids_of_shape h.1]

/-! ### Fill -/

/-- The sizes of a level: only a lone node may have fewer than `get_min_size()` pairs, and none is full. -/
structure Filled (f : IxFormat K) (L : IxLevel K) : Prop where
  least : (∃ b, L = [b]) ∨ ∀ b ∈ L, f.minSize ≤ b.entries.length
  most : ∀ b ∈ L, b.entries.length ≤ f.btreeOrder

theorem shape_sizes {L M : IxLevel K} (h : shape M = shape L) :
    M.map (fun b => b.entries.length) = L.map (fun b => b.entries.length) := by
  have := congrArg (List.map fun x => x.2.length) h
  simpa [shape, Function.comp_def] using this

theorem Filled.of_shape {f : IxFormat K} {L M : IxLevel K} (h : Filled f L) (hs : shape M = shape L) : Filled f M := by
  have hsize := shape_sizes hs
  have hall : ∀ (P : Nat → Prop), (∀ b ∈ L, P b.entries.length) → ∀ b ∈ M, P b.entries.length := by
    intro P hP b hb
    have : b.entries.length ∈ L.map (fun b => b.entries.length) := hsize ▸ List.mem_map_of_mem hb
    obtain ⟨c, hc, hcb⟩ := List.mem_map.mp this
    exact hcb ▸ hP c hc
  refine ⟨?_, hall (· ≤ f.btreeOrder) h.most⟩
  rcases h.least with ⟨b, rfl⟩ | hmin
  · refine Or.inl (List.length_eq_one_iff.mp ?_)
    simpa [shape] using congrArg List.length hs
  · exact Or.inr (hall (f.minSize ≤ ·) hmin)

theorem filled_of_shapes {f : IxFormat K} {Us Vs : List (IxLevel K)} (h : ∀ U ∈ Us, Filled f U)
    (hs : Vs.map shape = Us.map shape) : ∀ V ∈ Vs, Filled f V := by
  intro V hV
  have hmem : shape V ∈ Us.map shape := hs ▸ List.mem_map_of_mem hV
  obtain ⟨U, hU, hUV⟩ := List.mem_map.mp hmem
  exact (h U hU).of_shape hUV.symm

theorem Filled.dense [Preorder K] {f : IxFormat K} (hf : f.Lawful) {L : IxLevel K} (h : Filled f L) : Dense L := by
  rcases h.least with h | h
  · exact Or.inl h
  · refine Or.inr fun b hb hnil => ?_
    have := h b hb
    have := hf.two_le_minSize
    simp only [hnil, List.length_nil] at *
    omega

/-! ### Towers -/

/-- The levels from `L` up to the root, on distinct pages that have been allocated. -/
structure Tower (s : IxIndexHandle K) (leaf : Bool) (L : IxLevel K) (Us : List (IxLevel K)) : Prop where
  stored : Stored s leaf L
  above : Above s L Us
  nodup : (ids L ++ idsUp Us).Nodup
  bound : ∀ p ∈ ids L ++ idsUp Us, 2 ≤ p ∧ p < s.fd2pageno
  nonempty : L ≠ []

/-- A level on a tower, linked to its lowest level. -/
theorem Tower.raise {s : IxIndexHandle K} {leaf : Bool} {L U : IxLevel K} {Us : List (IxLevel K)} (T : Tower s false U Us)
    (hst : Stored s leaf L) (hl : Linked Rid.pageNo L U) (hpar : Parented s U) (hL : L ≠ []) (hd : (ids L).Nodup)
    (hb : ∀ p ∈ ids L, 2 ≤ p ∧ p < s.fd2pageno) (hdisj : ∀ p ∈ ids L, p ∉ ids U ++ idsUp Us) : Tower s leaf L (U :: Us) where
  stored := hst
  above := ⟨hl, T.stored, hpar, T.above⟩
  nodup := by
    rw [idsUp_cons, List.nodup_append]
    exact ⟨hd, T.nodup, fun p hp q hq hpq => hdisj p hp (hpq ▸ hq)⟩
  bound p hp := by
    rcases List.mem_append.mp hp with hp | hp
    · exact hb p hp
    · exact T.bound p hp
  nonempty := hL

theorem Above.nonempty {s : IxIndexHandle K} {L : IxLevel K} {Us : List (IxLevel K)} (h : Above s L Us) (hne : L ≠ []) :
    ∀ U ∈ Us, U ≠ [] := by
  induction Us generalizing L with
  | nil => simp
  | cons U Us ih =>
    obtain ⟨hl, -, -, ha⟩ := h
    have hU : U ≠ [] := by
      rintro rfl
      exact hne (List.forall₂_nil_right_iff.mp hl)
    intro V hV
    rcases List.mem_cons.mp hV with rfl | hV
    · exact hU
    · exact ih ha hU V hV

/-- The tower without its lowest level. -/
theorem Tower.upper {s : IxIndexHandle K} {leaf : Bool} {L U : IxLevel K} {Us : List (IxLevel K)} (T : Tower s leaf L (U :: Us)) :
    Tower s false U Us where
  stored := T.above.2.1
  above := T.above.2.2.2
  nodup := (List.nodup_append.mp T.nodup).2.1
  bound p hp := T.bound p (List.mem_append_right _ hp)
  nonempty := T.above.nonempty T.nonempty U List.mem_cons_self

theorem length_le_idsUp {Us : List (IxLevel K)} (h : ∀ U ∈ Us, U ≠ []) : Us.length ≤ (idsUp Us).length := by
  induction Us with
  | nil => simp
  | cons U Us ih =>
    have hU : 1 ≤ (ids U).length := by
      rw [ids, List.length_map]
      exact List.length_pos_of_ne_nil (h U List.mem_cons_self)
    have := ih fun V hV => h V (List.mem_cons_of_mem _ hV)
    simp only [idsUp_cons, List.length_append, List.length_cons]
    omega

theorem length_le_of_nodup {l : List Int} {m : Int} (hd : l.Nodup) (hb : ∀ p ∈ l, 2 ≤ p ∧ p < m) : l.length ≤ (m - 2).toNat := by
  have hsub : l.toFinset ⊆ Finset.Ico 2 m := fun p hp => Finset.mem_Ico.mpr (hb p (List.mem_toFinset.mp hp))
  have := Finset.card_le_card hsub
  rwa [List.toFinset_card_of_nodup hd, Int.card_Ico] at this

/-- A tower is not higher than pages are allocated. -/
theorem Tower.height {s : IxIndexHandle K} {leaf : Bool} {L : IxLevel K} {Us : List (IxLevel K)}
    (T : Tower s leaf L Us) : (Us.length : Int) + 1 < s.fd2pageno := by
  have h1 := length_le_of_nodup T.nodup T.bound
  have h2 := length_le_idsUp (T.above.nonempty T.nonempty)
  have h3 : 1 ≤ (ids L).length := by
    rw [ids, List.length_map]
    exact List.length_pos_of_ne_nil T.nonempty
  rw [List.length_append] at h1
  omega

/-- The leaf header page is no node of the tree. -/
theorem Tower.header_notMem {s : IxIndexHandle K} {leaf : Bool} {L : IxLevel K} {Us : List (IxLevel K)} (T : Tower s leaf L Us) :
    ixLeafHeaderPage ∉ ids L ++ idsUp Us := fun hmem => by
  have := (T.bound _ hmem).1
  unfold ixLeafHeaderPage at this
  omega

theorem Tower.header_notMem_refresh {s : IxIndexHandle K} {leaf : Bool} {A B : IxLevel K} {n : Block Int K Rid} {Us : List (IxLevel K)}
    (T : Tower s leaf (A ++ n :: B) Us) : ixLeafHeaderPage ∉ {p | p = n.id ∨ p ∈ idsUp Us} := fun hmem =>
  T.header_notMem (by rcases hmem with heq | hmem <;> simp [*])

/-! ### The leaf level -/

/-- The leaves that the file header names: both ends of the leaf level, or none at all. -/
def Ends (s : IxIndexHandle K) (L : IxLevel K) : Prop :=
  (s.firstLeaf = ixInitRootPage ∧ (ids L).getLast? = some s.lastLeaf) ∨ (s.firstLeaf = ixNoPage ∧ s.lastLeaf = ixNoPage)

/-- The leaves are in a ring with the leaf header page, which has no pairs, and page 2 is the leftmost leaf. -/
structure Leaves (s : IxIndexHandle K) (L : IxLevel K) : Prop where
  ring : Ring.Chain s.nextOf s.prevOf ixLeafHeaderPage (ids L) ixLeafHeaderPage
  leftmost : (ids L).head? = some ixInitRootPage
  ends : Ends s L
  header : s.content ixLeafHeaderPage = some (true, [])

theorem Leaves.frame {s t : IxIndexHandle K} {L M : IxLevel K} {C Q N : Set Int} (h : Leaves s L) (hids : ids M = ids L)
    (k : Keeps s t C Q N) (hC : ixLeafHeaderPage ∉ C) (hN : ∀ p, p = ixLeafHeaderPage ∨ p ∈ ids L → p ∉ N)
    (hfirst : t.firstLeaf = s.firstLeaf) (hlast : t.lastLeaf = s.lastLeaf) : Leaves t M := by
  refine ⟨?_, hids ▸ h.leftmost, ?_, (k.content _ hC).trans h.header⟩
  · rw [hids]
    refine h.ring.congr (fun p hp => k.next p (hN p (List.mem_cons.mp hp))) fun p hp => k.prev p (hN p ?_)
    exact (List.mem_append.mp hp).symm.imp_left List.mem_singleton.mp
  · unfold Ends
    rw [hids, hfirst, hlast]
    exact h.ends

/-! ### The descent of `find_leaf_page` -/

section Descent
variable [Preorder K] {f : IxFormat K} (hf : f.Lawful) {s : IxIndexHandle K} (key : K)
include hf

/-- From the root the loop comes to the node for `key` of every level. -/
theorem findLeafLoop_above {L : IxLevel K} {Us : List (IxLevel K)} (h : Above s L Us) (hne : L ≠ [])
    (hd : ∀ U ∈ L :: Us, Dense U) (hasc : Ascending (flat L)) :
    ∃ A n B, L = A ++ n :: B ∧ Routed key A n B ∧
      ∀ fuel, findLeafLoop f s key (Us.length + fuel) s.rootPage = findLeafLoop f s key fuel n.id := by
  induction Us generalizing L with
  | nil =>
    obtain ⟨r, rfl, -, hr⟩ := h
    exact ⟨[], r, [], rfl, Routed.single key r, fun fuel => by rw [hr, List.length_nil, Nat.zero_add]⟩
  | cons U Us ih =>
    obtain ⟨hl, hst, -, ha⟩ := h
    have hasc' : Ascending (flat U) := hl.ascending (hd L List.mem_cons_self) hasc
    have hU : U ≠ [] := by
      rintro rfl
      exact hne (List.forall₂_nil_right_iff.mp hl)
    obtain ⟨C, u, D, rfl, hr, hloop⟩ := ih ha hU (fun V hV => hd V (List.mem_cons_of_mem _ hV)) hasc'
    have hune : u.entries ≠ [] := by
      refine Dense.entries_ne_nil (hd (C ++ u :: D) (by simp)) (fun hflat => hne ?_) (by simp)
      unfold Linked at hl
      rw [hflat] at hl
      exact List.forall₂_nil_right_iff.mp hl
    obtain ⟨n, hn, hleaf, hpairs⟩ := content_eq_some.mp (hst u (by simp))
    obtain ⟨E, e, F, hsplit, hlookup, hF, hE⟩ :=
      IxNode.internalLookup_spec hf (n := n) (hpairs ▸ hasc'.block (by simp)) (hpairs ▸ hune) key
    obtain ⟨A, m, B, rfl, hm, hr'⟩ := hr.descend hl hasc' (hpairs ▸ hsplit) hF hE
    refine ⟨A, m, B, rfl, hr', fun fuel => ?_⟩
    have := hloop (fuel + 1)
    rw [List.length_cons, Nat.add_assoc, Nat.add_comm 1 fuel, this, findLeafLoop, fetchNode_ok hn, ok_bind]
    simp only [hleaf, Bool.false_eq_true, if_false, hlookup, ok_bind, hm]

/-- `find_leaf_page` finds the leaf for the key. -/
theorem findLeafPage_spec {L : IxLevel K} {Us : List (IxLevel K)} (T : Tower s true L Us) (hc : Counters s)
    (hfill : ∀ U ∈ Us, Filled f U) (hL : Dense L) (hasc : Ascending (flat L)) :
    ∃ A n B, L = A ++ n :: B ∧ Routed key A n B ∧ s.findLeafPage f key = .ok n.id := by
  obtain ⟨A, n, B, rfl, hr, hloop⟩ := findLeafLoop_above hf key T.above T.nonempty (fun U hU => by
    rcases List.mem_cons.mp hU with rfl | hU
    · exact hL
    · exact (hfill U hU).dense hf) hasc
  refine ⟨A, n, B, rfl, hr, ?_⟩
  obtain ⟨m, hm⟩ : ∃ m, s.filePages = Us.length + (m + 1) := by
    have h1 := T.height
    have h2 := hc.file
    exact ⟨s.filePages - Us.length - 1, by omega⟩
  obtain ⟨x, hx, hleaf, -⟩ := content_eq_some.mp (T.stored n (by simp))
  rw [findLeafPage, hm, hloop, findLeafLoop, fetchNode_ok hx, ok_bind, hleaf]
  rfl

end Descent

/-! ### `maintain_parent` -/

theorem findIdx_child {E F : List (K × Rid)} {e : K × Rid} (hE : ∀ x ∈ E, x.2.pageNo ≠ e.2.pageNo) :
    (E ++ e :: F).findIdx (fun x => x.2.pageNo == e.2.pageNo) = E.length := by
  rw [List.findIdx_append, List.findIdx_eq_length_of_false fun x hx => by simpa using hE x hx]
  simp [List.findIdx_cons]

/-- `find_child` finds the slot of a child that is not named before it. -/
theorem findChild_eq {u : IxNode K} {E F : List (K × Rid)} {e : K × Rid} (h : u.pairs = E ++ e :: F)
    (hE : ∀ x ∈ E, x.2.pageNo ≠ e.2.pageNo) : u.findChild e.2.pageNo = .ok E.length := by
  have hlt : E.length < u.size := by simp [IxNode.size, h]
  simp only [IxNode.findChild, h, findIdx_child hE, hlt, if_true]

/-- The parent of a block, as `locate` finds it, and what its page holds. -/
theorem exists_parent {s : IxIndexHandle K} {U C D : IxLevel K} {u : Block Int K Rid} {E F : List (K × Rid)} {e : K × Rid}
    (hst : Stored s false U) (hp : Parented s U) (hU : U = C ++ u :: D) (hu : u.entries = E ++ e :: F) :
    s.parentOf e.2.pageNo = some u.id ∧ ∃ m, s.pages u.id = some m ∧ m.isLeaf = false ∧ m.pairs = E ++ e :: F := by
  have hmem : u ∈ U := by simp [hU]
  refine ⟨hp u hmem e (by simp [hu]), ?_⟩
  obtain ⟨m, hm, hleaf, hpairs⟩ := content_eq_some.mp (hst u hmem)
  exact ⟨m, hm, hleaf, hpairs.trans hu⟩

/-- In a linked level no slot left of the slot of a block names the same page. -/
theorem slots_ne {i : Int} {A C : IxLevel K} {E : List (K × Rid)} {p : Int}
    (hA : List.Forall₂ (NamesBut Rid.pageNo i) A (flat C ++ E)) (hp : p ∉ ids A) : ∀ x ∈ E, x.2.pageNo ≠ p := by
  intro x hx heq
  refine hp ?_
  rw [← values_eq_ids hA, ← heq]
  exact List.mem_map_of_mem (List.mem_append_right _ hx)

/-- The parent of a block on record: none for the root, else a node of the level above. -/
theorem Above.parentOf_eq {s : IxIndexHandle K} {L : IxLevel K} {Us : List (IxLevel K)} (h : Above s L Us)
    {b : Block Int K Rid} (hb : b ∈ L) :
    (Us = [] ∧ s.parentOf b.id = some ixNoPage) ∨ ∃ r ∈ idsUp Us, s.parentOf b.id = some r := by
  cases Us with
  | nil =>
    obtain ⟨r, rfl, hp, -⟩ := h
    rw [List.mem_singleton] at hb
    exact Or.inl ⟨rfl, hb ▸ hp⟩
  | cons U Us =>
    obtain ⟨hl, hst, hpar, -⟩ := h
    obtain ⟨A, B, rfl⟩ := List.append_of_mem hb
    obtain ⟨C, u, D, E, e, F, hU, hu, hn, -, -⟩ := hl.locate
    exact Or.inr ⟨u.id, by simp [hU], hn.1 ▸ (exists_parent hst hpar hU hu).1⟩

/-- The root is one of the nodes. -/
theorem Above.root_mem {s : IxIndexHandle K} {L : IxLevel K} {Us : List (IxLevel K)} (h : Above s L Us) :
    s.rootPage ∈ ids L ++ idsUp Us := by
  induction Us generalizing L with
  | nil =>
    obtain ⟨r, rfl, -, hr⟩ := h
    simp [hr]
  | cons U Us ih =>
    rw [idsUp_cons]
    exact List.mem_append_right _ (ih h.2.2.2)

theorem Above.exists_parentOf {s : IxIndexHandle K} {L : IxLevel K} {Us : List (IxLevel K)} (h : Above s L Us)
    {b : Block Int K Rid} (hb : b ∈ L) : ∃ r, s.parentOf b.id = some r :=
  (h.parentOf_eq hb).elim (fun h => ⟨_, h.2⟩) fun h => h.imp fun _ hr => hr.2

variable [DecidableEq K]

/-- `maintain_parent` writes the first key of a block into the level above, and from there on upwards.
    Nothing but keys of the levels above changes. -/
theorem maintainParentLoop_spec {Us : List (IxLevel K)} :
    ∀ {s : IxIndexHandle K} {A B : IxLevel K} {n : Block Int K Rid} {leaf : Bool} {fuel : Nat},
      AboveBut s n.id (A ++ n :: B) Us → s.content n.id = some (leaf, n.entries) → n.entries ≠ [] →
      (ids (A ++ n :: B) ++ idsUp Us).Nodup → (∀ p ∈ idsUp Us, 2 ≤ p) → Us.length < fuel →
      ∃ t Vs, s.maintainParentLoop fuel n.id = .ok t ∧ Above t (A ++ n :: B) Vs ∧ Vs.map shape = Us.map shape ∧
        Keeps s t {p | p ∈ idsUp Us} ∅ ∅ ∧ Hdr s t := by
  induction Us with
  | nil =>
    intro s A B n leaf fuel h hc hne hd hb hfuel
    obtain ⟨fuel, rfl⟩ : ∃ m, fuel = m + 1 := ⟨fuel - 1, by simp at hfuel; omega⟩
    refine ⟨s, [], ?_, h, rfl, Keeps.refl s, Hdr.refl s⟩
    obtain ⟨r, hr, hp, -⟩ := h
    have hn : n = r := by
      have : n ∈ [r] := hr ▸ by simp
      exact List.mem_singleton.mp this
    subst hn
    obtain ⟨m, hm, -, -, hmp⟩ := exists_node hc hp
    rw [maintainParentLoop, fetchNode_ok hm, ok_bind, if_pos hmp]
  | cons U Us ih =>
    intro s A B n leaf fuel h hc hne hd hb hfuel
    obtain ⟨fuel, rfl⟩ : ∃ m, fuel = m + 1 := ⟨fuel - 1, by simp at hfuel; omega⟩
    obtain ⟨hl, hst, hpar, habove⟩ := h
    obtain ⟨C, u, D, E, e, F, hU, hu, hn, hA, hB⟩ := hl.locate
    obtain ⟨hpn, m, hm, hmleaf, hmpairs⟩ := exists_parent hst hpar hU hu
    rw [hn.1] at hpn
    obtain ⟨c, hcn, -, hcpairs, hcp⟩ := exists_node hc hpn
    obtain ⟨x, xs, hx⟩ := List.exists_cons_of_ne_nil hne
    -- the pages of `L`, of `U` and of the levels above are apart
    simp only [ids_append, ids_cons, idsUp_cons, List.nodup_append, List.nodup_cons, List.mem_append,
      List.mem_cons] at hd
    obtain ⟨⟨hdA, ⟨hnB, hdB⟩, hAB⟩, ⟨hdU, hdUs, hUUs⟩, hLU⟩ := hd
    have hnA : n.id ∉ ids A := fun h => hAB _ h _ (Or.inl rfl) rfl
    have huid : u.id ∈ ids U := by simp [hU]
    have hu2 : 2 ≤ u.id := hb _ (by simp [huid])
    have hune : u.id ≠ ixNoPage := by
      unfold ixNoPage
      omega
    have huUs : u.id ∉ idsUp Us := fun h => hUUs _ huid _ h rfl
    have hrank : m.findChild n.id = .ok E.length := by
      rw [← hn.1]
      exact findChild_eq hmpairs (slots_ne hA (hn.1 ▸ hnA))
    have hkey : m.keyAt E.length = .ok e.1 := by simp [IxNode.keyAt, hmpairs]
    have hfirst : c.keyAt 0 = .ok x.1 := by simp [IxNode.keyAt, hcpairs, hx]
    have hcu : ¬c.parent = ixNoPage := hcp ▸ hune
    by_cases hex : e.1 = x.1
    · -- the parent has the key: the levels are linked already
      refine ⟨s, U :: Us, ?_, ⟨?_, hst, hpar, habove⟩, rfl, Keeps.refl s, Hdr.refl s⟩
      · rw [maintainParentLoop, fetchNode_ok hcn, ok_bind, if_neg hcu, hcp, fetchNode_ok hm, ok_bind, hrank, ok_bind,
          hkey, ok_bind, hfirst, ok_bind, if_pos hex]
      · unfold Linked
        rw [hU, flat_append, flat_cons, hu]
        have hnames : Names Rid.pageNo n e := ⟨hn.1, fun y hy => by
          rw [hx] at hy
          cases hy
          exact hex.symm⟩
        simpa using forall₂_join (names_of_namesBut hA hnA) hnames (names_of_namesBut hB hnB)
    · -- write the key and go up to the parent
      let v : Block Int K Rid := ⟨u.id, E ++ (x.1, e.2) :: F⟩
      have hset := IxNode.setKey_pairs hmpairs x.1
      let s₁ := s.putNode u.id { m with pairs := E ++ (x.1, e.2) :: F }
      have k₁ : Keeps s s₁ {u.id} ∅ ∅ := Keeps.put_pairs hm rfl rfl rfl
      have hst₁ : Stored s₁ false (C ++ v :: D) := by
        rw [hU] at hst hdU
        exact hst.replace hdU k₁ (fun p hp => Or.inl hp) rfl (by simp [s₁, v, hmleaf])
      have hids : ids (C ++ v :: D) = ids U := by simp [hU, v]
      have habove₁ : AboveBut s₁ v.id (C ++ v :: D) Us := by
        have hfr : Above s₁ U Us := habove.frame k₁ (fun p hp hpu => huUs (hpu ▸ hp)) (fun _ _ h => h) rfl
        rw [hU] at hfr
        exact hfr.replace_but rfl
      obtain ⟨t, Vs, hrun, hab, hshape, k₂, hd₂⟩ := ih (s := s₁) (A := C) (B := D) (n := v)
        habove₁ (hst₁ v (by simp)) (by simp [v]) (by
          rw [hids, List.nodup_append]
          exact ⟨hdU, hdUs, hUUs⟩) (fun p hp => hb p (by simp [hp]))
        (show Us.length < fuel by simpa using hfuel)
      refine ⟨t, (C ++ v :: D) :: Vs, ?_, ⟨?_, ?_, ?_, hab⟩, ?_, ?_, (Hdr.put _ _ _).trans hd₂⟩
      · rw [maintainParentLoop, fetchNode_ok hcn, ok_bind, if_neg hcu, hcp, fetchNode_ok hm, ok_bind, hrank, ok_bind,
          hkey, ok_bind, hfirst, ok_bind, if_neg hex, hset]
        exact hrun
      · unfold Linked
        rw [flat_append, flat_cons]
        have hnames : Names Rid.pageNo n (x.1, e.2) := ⟨hn.1, fun y hy => by
          rw [hx] at hy
          cases hy
          rfl⟩
        simpa [v] using forall₂_join (names_of_namesBut hA hnA) hnames (names_of_namesBut hB hnB)
      · exact hst₁.frame k₂ fun p hp h => by
          rw [hids] at hp
          exact hUUs p hp p h rfl
      · intro b hb' e' he'
        have hpar' : s.parentOf e'.2.pageNo = some b.id := by
          simp only [List.mem_append, List.mem_cons] at hb'
          rcases hb' with hb' | rfl | hb'
          · exact hpar b (by simp [hU, hb']) e' he'
          · simp only [v, List.mem_append, List.mem_cons] at he'
            rcases he' with he' | rfl | he'
            · exact hpar u (by simp [hU]) e' (by simp [hu, he'])
            · exact hpar u (by simp [hU]) e (by simp [hu])
            · exact hpar u (by simp [hU]) e' (by simp [hu, he'])
          · exact hpar b (by simp [hU, hb']) e' he'
        rw [k₂.parent _ (Set.notMem_empty _), k₁.parent _ (Set.notMem_empty _)]
        exact hpar'
      · simp [hshape, shape, hU, v, hu]
      · exact (k₁.mono (by rintro p rfl; simp [huid]) subset_rfl subset_rfl).trans
          (k₂.mono (by intro p hp; simp only [Set.mem_ofPred_eq, idsUp_cons, List.mem_append] at hp ⊢; exact Or.inr hp)
            subset_rfl subset_rfl)

end IxIndexHandle
end Rmdb
