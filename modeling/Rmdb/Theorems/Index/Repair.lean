import Rmdb.Theorems.Index.Merge

/-! `coalesce_or_redistribute` keeps the levels of the index: the entries stay as they are, and every level is filled
again. -/

namespace Rmdb
open Ladder

namespace IxIndexHandle
variable {K : Type}

/-- What stands below an internal level: its children have it as parents, are distinct, and are apart from the levels
    above them. -/
structure Grounded (s : IxIndexHandle K) (leaf : Bool) (L : IxLevel K) (Us : List (IxLevel K)) : Prop where
  parented : leaf = false → Parented s L
  apart : leaf = false → ∀ e ∈ flat L, e.2.pageNo ∉ ids L ++ idsUp Us
  distinct : leaf = false → ((flat L).map (·.2.pageNo)).Nodup

/-- Leaves have nothing below them. -/
theorem Grounded.leaves (s : IxIndexHandle K) (L : IxLevel K) (Us : List (IxLevel K)) : Grounded s true L Us :=
  ⟨by simp, by simp, by simp⟩

theorem Tower.grounded {s : IxIndexHandle K} {leaf : Bool} {L U : IxLevel K} {Us : List (IxLevel K)} (T : Tower s leaf L (U :: Us)) :
    Grounded s false U Us where
  parented _ := T.above.2.2.1
  apart _ e he hmem := (List.nodup_append.mp T.nodup).2.2 _ (kids_flat T.above.1 he) _ hmem rfl
  distinct _ := by
    rw [values_eq_ids (names_but 0 T.above.1)]
    exact (List.nodup_append.mp T.nodup).1

/-- Two neighbouring blocks `l` and `r` with the same parent `u`, and the two pairs of `u` that name them. -/
structure Siblings (X : IxLevel K) (l r : Block Int K Rid) (Y C : IxLevel K) (u : Block Int K Rid) (D : IxLevel K)
    (G : List (K × Rid)) (el er : K × Rid) (H : List (K × Rid)) : Prop where
  entries : u.entries = G ++ el :: er :: H
  left : Names Rid.pageNo l el
  right : Names Rid.pageNo r er
  before : List.Forall₂ (Names Rid.pageNo) X (flat C ++ G)
  after : List.Forall₂ (Names Rid.pageNo) Y (H ++ flat D)

section Siblings
variable {s t : IxIndexHandle K} {leaf : Bool} {X Y C D : IxLevel K} {l r u : Block Int K Rid} {G H : List (K × Rid)}
  {el er : K × Rid} {Us : List (IxLevel K)}

theorem Tower.siblings_ne (T : Tower s leaf (X ++ l :: r :: Y) ((C ++ u :: D) :: Us)) :
    l.id ≠ r.id ∧ l.id ≠ u.id ∧ r.id ≠ u.id := by
  obtain ⟨hdL, -, hdisj⟩ := List.nodup_append.mp T.nodup
  refine ⟨?_, hdisj l.id (by simp) u.id (by simp), hdisj r.id (by simp) u.id (by simp)⟩
  rw [ids_append, ids_cons, ids_cons] at hdL
  have := (List.nodup_append.mp hdL).2.1
  rw [List.nodup_cons] at this
  exact fun heq => this.1 (by simp [heq])

theorem Tower.others_notMem (T : Tower s leaf (X ++ l :: r :: Y) ((C ++ u :: D) :: Us)) {p : Int} (hp : p ∈ ids X ∨ p ∈ ids Y) :
    p ∉ ({l.id, r.id, u.id} : Set Int) := by
  obtain ⟨hdL, -, hdisj⟩ := List.nodup_append.mp T.nodup
  simp only [ids_append, ids_cons, List.nodup_append, List.nodup_cons, List.mem_cons, not_or] at hdL
  obtain ⟨-, ⟨⟨-, hlY⟩, hrY, -⟩, hX⟩ := hdL
  rintro (rfl | rfl | rfl)
  · exact hp.elim (fun h => hX _ h _ (Or.inl rfl) rfl) hlY
  · exact hp.elim (fun h => hX _ h _ (Or.inr (Or.inl rfl)) rfl) hrY
  · refine hdisj u.id ?_ u.id (by simp) rfl
    rcases hp with hp | hp <;> simp [hp]

/-- The levels from the parent up, when its pairs change behind the first one. -/
theorem Tower.above_parent (T : Tower s leaf (X ++ l :: r :: Y) ((C ++ u :: D) :: Us)) {Q N : Set Int} {v : Block Int K Rid}
    (k : Keeps s t {l.id, r.id, u.id} Q N) (hQ : ∀ p ∈ ids (X ++ l :: r :: Y) ++ idsUp ((C ++ u :: D) :: Us), p ∉ Q)
    (hroot : t.rootPage = s.rootPage) (hfd : t.fd2pageno = s.fd2pageno) (hid : v.id = u.id)
    (hhead : ∀ x ∈ v.entries.head?, ∃ y ∈ u.entries.head?, x.1 = y.1) (hkids : ∀ e ∈ v.entries, ∃ d ∈ u.entries, e.2 = d.2)
    (hv : t.content u.id = some (false, v.entries)) : Tower t false (C ++ v :: D) Us ∧ Parented t (C ++ v :: D) := by
  obtain ⟨-, hdU, hdisj⟩ := List.nodup_append.mp T.nodup
  rw [idsUp_cons] at hdU hdisj hQ
  obtain ⟨hdC, -, hUUs⟩ := List.nodup_append.mp hdU
  have hids : ids (C ++ v :: D) = ids (C ++ u :: D) := by simp [hid]
  have hpar : Parented t (C ++ u :: D) :=
    T.above.2.2.1.frame k fun e he => hQ _ (List.mem_append_left _ (kids_flat T.above.1 he))
  refine ⟨⟨?_, ?_, ?_, ?_, by simp⟩, ?_⟩
  · refine T.above.2.1.replace hdC k (fun p hp => ?_) hid hv
    rcases hp with rfl | rfl | rfl
    · exact Or.inr fun hmem => hdisj l.id (by simp) _ (List.mem_append_left _ hmem) rfl
    · exact Or.inr fun hmem => hdisj r.id (by simp) _ (List.mem_append_left _ hmem) rfl
    · exact Or.inl rfl
  · refine (T.above.2.2.2.frame k (fun p hp => ?_) (fun p hp => hQ p (List.mem_append_right _ hp)) hroot).replace hid hhead
    rintro (rfl | rfl | rfl)
    · exact hdisj l.id (by simp) _ (List.mem_append_right _ hp) rfl
    · exact hdisj r.id (by simp) _ (List.mem_append_right _ hp) rfl
    · exact hUUs u.id (by simp) _ hp rfl
  · rw [hids]
    exact hdU
  · rw [hids, hfd]
    exact T.upper.bound
  · rw [parented_append, parented_cons] at hpar ⊢
    refine ⟨hpar.1, fun e he => ?_, hpar.2.2⟩
    obtain ⟨d, hd, hed⟩ := hkids e he
    rw [hid, hed]
    exact hpar.2.1 d hd

theorem Grounded.kids_notMem (hg : Grounded s leaf (X ++ l :: r :: Y) Us) {e : K × Rid} (he : e ∈ flat X ∨ e ∈ flat Y) :
    e.2.pageNo ∉ below leaf (l.entries ++ r.entries) := by
  rintro ⟨hleaf, d, hd, heq⟩
  have hdist := hg.distinct hleaf
  simp only [flat_append, flat_cons, List.map_append, List.nodup_append, List.mem_append, List.mem_map] at hdist
  obtain ⟨-, ⟨-, ⟨-, -, hrY⟩, hlY⟩, hX⟩ := hdist
  rcases List.mem_append.mp hd with hd | hd <;> rcases he with he | he
  · exact hX _ ⟨e, he, rfl⟩ _ (Or.inl ⟨d, hd, rfl⟩) heq.symm
  · exact hlY _ ⟨d, hd, rfl⟩ _ (Or.inr ⟨e, he, rfl⟩) heq
  · exact hX _ ⟨e, he, rfl⟩ _ (Or.inr (Or.inl ⟨d, hd, rfl⟩)) heq.symm
  · exact hrY _ ⟨d, hd, rfl⟩ _ ⟨e, he, rfl⟩ heq

theorem Grounded.below_notMem (hg : Grounded s leaf (X ++ l :: r :: Y) Us) {p : Int}
    (hp : p ∈ ids (X ++ l :: r :: Y) ++ idsUp Us) : p ∉ below leaf (l.entries ++ r.entries) := by
  rintro ⟨hleaf, d, hd, rfl⟩
  refine hg.apart hleaf d ?_ hp
  rcases List.mem_append.mp hd with hd | hd <;> simp [hd]

/-- The levels after `redistribute`. -/
theorem Tower.share (T : Tower s leaf (X ++ l :: r :: Y) ((C ++ u :: D) :: Us)) (S : Siblings X l r Y C u D G el er H)
    (hg : Grounded s leaf (X ++ l :: r :: Y) ((C ++ u :: D) :: Us)) {es fs : List (K × Rid)}
    (h : Shared s t leaf l.id r.id u.id l.entries r.entries es fs G H el er)
    (hhead : ∀ x ∈ es.head?, ∃ y ∈ l.entries.head?, x.1 = y.1) :
    ∃ v, v.id = u.id ∧ v.entries.length = u.entries.length ∧
      Tower t leaf (X ++ ⟨l.id, es⟩ :: ⟨r.id, fs⟩ :: Y) ((C ++ v :: D) :: Us) ∧
      (leaf = false → Parented t (X ++ ⟨l.id, es⟩ :: ⟨r.id, fs⟩ :: Y)) := by
  obtain ⟨y, ys, hy, hcu⟩ := h.parent
  have hids : ids (X ++ ⟨l.id, es⟩ :: ⟨r.id, fs⟩ :: Y) = ids (X ++ l :: r :: Y) := by simp
  refine ⟨⟨u.id, G ++ el :: (y.1, er.2) :: H⟩, rfl, by simp [S.entries], ?_, fun hleaf => ?_⟩
  · obtain ⟨Tu, hpar⟩ := T.above_parent h.keeps (fun p hp => hg.below_notMem hp) h.hdr.root h.hdr.fd
      (v := ⟨u.id, G ++ el :: (y.1, er.2) :: H⟩) rfl (fun x hx => ⟨x, by
        rw [S.entries]
        cases G <;> exact hx, rfl⟩) (fun e he => by
        simp only [List.mem_append, List.mem_cons] at he
        rcases he with he | rfl | rfl | he
        · exact ⟨e, by simp [S.entries, he], rfl⟩
        · exact ⟨e, by simp [S.entries], rfl⟩
        · exact ⟨er, by simp [S.entries], rfl⟩
        · exact ⟨e, by simp [S.entries, he], rfl⟩) hcu
    refine Tu.raise ?_ ?_ hpar (by simp) ?_ ?_ ?_
    · have hst := T.stored
      rw [stored_append, stored_cons, stored_cons] at hst ⊢
      exact ⟨hst.1.frame h.keeps fun p hp => T.others_notMem (Or.inl hp), h.left, h.right,
        hst.2.2.2.frame h.keeps fun p hp => T.others_notMem (Or.inr hp)⟩
    · have hnl : Names Rid.pageNo (⟨l.id, es⟩ : Block Int K Rid) el := ⟨S.left.1, fun x hx => by
        obtain ⟨z, hz, hxz⟩ := hhead x hx
        exact hxz.trans (S.left.2 z hz)⟩
      have hnr : Names Rid.pageNo (⟨r.id, fs⟩ : Block Int K Rid) (y.1, er.2) := ⟨S.right.1, fun x hx => by
        rw [hy] at hx
        cases hx
        rfl⟩
      unfold Linked
      simpa using forall₂_join S.before hnl (.cons hnr S.after)
    · rw [hids]
      exact (List.nodup_append.mp T.nodup).1
    · rw [hids, h.hdr.fd]
      exact fun p hp => T.bound p (List.mem_append_left _ hp)
    · intro p hp hmem
      rw [hids] at hp
      refine (List.nodup_append.mp T.nodup).2.2 p hp p ?_ rfl
      simpa using hmem
  · have hpar := hg.parented hleaf
    rw [parented_append, parented_cons, parented_cons] at hpar ⊢
    exact ⟨hpar.1.frame h.keeps fun e he => hg.kids_notMem (Or.inl he), h.kidsLeft hleaf, h.kidsRight hleaf,
      hpar.2.2.2.frame h.keeps fun e he => hg.kids_notMem (Or.inr he)⟩

/-- The levels after the first part of `coalesce`. -/
theorem Tower.join (T : Tower s leaf (X ++ l :: r :: Y) ((C ++ u :: D) :: Us)) (S : Siblings X l r Y C u D G el er H)
    (hg : Grounded s leaf (X ++ l :: r :: Y) ((C ++ u :: D) :: Us))
    (h : Joined s t leaf l.id r.id u.id l.entries r.entries G H el) (hl : l.entries ≠ []) :
    Tower t leaf (X ++ ⟨l.id, l.entries ++ r.entries⟩ :: Y) ((C ++ ⟨u.id, G ++ el :: H⟩ :: D) :: Us) ∧
      (leaf = false → Parented t (X ++ ⟨l.id, l.entries ++ r.entries⟩ :: Y)) := by
  have hsub : ids (X ++ ⟨l.id, l.entries ++ r.entries⟩ :: Y) ⊆ ids (X ++ l :: r :: Y) := by
    intro p hp
    simp only [ids_append, ids_cons, List.mem_append, List.mem_cons] at hp ⊢
    tauto
  have hb : below leaf r.entries ⊆ below leaf (l.entries ++ r.entries) := below_mono (by simp_all)
  have k : Keeps s t {l.id, r.id, u.id} _ _ := h.keeps.mono (by rintro p (rfl | rfl) <;> simp) hb subset_rfl
  refine ⟨?_, fun hleaf => ?_⟩
  · obtain ⟨Tu, hpar⟩ := T.above_parent k (fun p hp => hg.below_notMem hp) h.root h.fd (v := ⟨u.id, G ++ el :: H⟩) rfl
      (fun x hx => ⟨x, by
        rw [S.entries]
        cases G <;> exact hx, rfl⟩) (fun e he => ⟨e, by
        rw [S.entries]
        simp only [List.mem_append, List.mem_cons] at he ⊢
        tauto, rfl⟩) h.parent
    refine Tu.raise ?_ ?_ hpar (by simp) ?_ ?_ ?_
    · have hst := T.stored
      rw [stored_append, stored_cons, stored_cons] at hst
      rw [stored_append, stored_cons]
      exact ⟨hst.1.frame k fun p hp => T.others_notMem (Or.inl hp), h.left,
        hst.2.2.2.frame k fun p hp => T.others_notMem (Or.inr hp)⟩
    · have hnl : Names Rid.pageNo (⟨l.id, l.entries ++ r.entries⟩ : Block Int K Rid) el := ⟨S.left.1, fun x hx => by
        obtain ⟨z, zs, hz⟩ := List.exists_cons_of_ne_nil hl
        refine S.left.2 x ?_
        rw [hz] at hx ⊢
        exact hx⟩
      unfold Linked
      simpa using forall₂_join S.before hnl S.after
    · have := (List.nodup_append.mp T.nodup).1
      refine this.sublist ?_
      simp only [ids_append, ids_cons]
      exact List.Sublist.append (List.Sublist.refl _) (List.Sublist.cons_cons _ (List.sublist_cons_self _ _))
    · rw [h.fd]
      exact fun p hp => T.bound p (List.mem_append_left _ (hsub hp))
    · intro p hp hmem
      refine (List.nodup_append.mp T.nodup).2.2 p (hsub hp) p ?_ rfl
      simpa using hmem
  · have hpar := hg.parented hleaf
    rw [parented_append, parented_cons, parented_cons] at hpar
    rw [parented_append, parented_cons]
    refine ⟨hpar.1.frame k fun e he => hg.kids_notMem (Or.inl he), fun e he => ?_,
      hpar.2.2.2.frame k fun e he => hg.kids_notMem (Or.inr he)⟩
    rcases List.mem_append.mp he with he | he
    · -- the left node's own children are none of the right node's
      rw [h.keeps.parent]
      · exact hpar.2.1 e he
      · rintro ⟨-, d, hd, heq⟩
        have hdist := hg.distinct hleaf
        simp only [flat_append, flat_cons, List.map_append, List.nodup_append, List.mem_append, List.mem_map] at hdist
        exact hdist.2.1.2.2 _ ⟨e, he, rfl⟩ _ (Or.inl ⟨d, hd, rfl⟩) heq.symm
    · exact h.kids hleaf e he

end Siblings

/-! ### The leaf ring after a merge -/

section Ring
variable {s t : IxIndexHandle K} {X Y : IxLevel K} {l r : Block Int K Rid}

/-- Two neighbouring leaves in the ring. -/
theorem Leaves.ringAt (h : Leaves s (X ++ l :: r :: Y)) (hd : (ids (X ++ l :: r :: Y)).Nodup)
    (hb : ∀ p ∈ ids (X ++ l :: r :: Y), 2 ≤ p) : RingAt s l.id r.id := by
  have hring := h.ring
  rw [ids_append, ids_cons, ids_cons, Ring.chain_append] at hring
  obtain ⟨-, hln, hrp, hrY⟩ := hring
  obtain ⟨x, hx⟩ : ∃ x, x = (ids Y ++ [ixLeafHeaderPage]).head (by simp) := ⟨_, rfl⟩
  have hnext := hrY.next_first
  have hprev := hrY.prev_first
  rw [← hx] at hnext hprev
  have hmem : x ∈ ids Y ++ [ixLeafHeaderPage] := hx ▸ List.head_mem _
  have hl2 := hb l.id (by simp)
  simp only [List.mem_append, List.mem_singleton] at hmem
  refine ⟨hrp, ⟨_, hln⟩, x, hnext, fun heq => ?_, ?_, ⟨_, hprev⟩⟩
  · rcases hmem with hmem | hmem
    · rw [ids_append, ids_cons, ids_cons] at hd
      have := (List.nodup_append.mp hd).2.1
      rw [List.nodup_cons] at this
      exact this.1 (List.mem_cons_of_mem _ (heq ▸ hmem))
    · rw [hmem, ixLeafHeaderPage] at heq
      omega
  · rcases hmem with hmem | rfl
    · have := hb x (by simp [hmem])
      unfold ixNoPage
      omega
    · simp [ixLeafHeaderPage, ixNoPage]

/-- The leaf level after `coalesce` of two leaves. -/
theorem Leaves.join {u : Int} {G H : List (K × Rid)} {el : K × Rid} {v : Block Int K Rid} (h : Leaves s (X ++ l :: r :: Y))
    (J : Joined s t true l.id r.id u l.entries r.entries G H el) (hd : (ids (X ++ l :: r :: Y)).Nodup)
    (hb : ∀ p ∈ ids (X ++ l :: r :: Y), 2 ≤ p) (hu : 2 ≤ u) (hid : v.id = l.id) : Leaves t (X ++ v :: Y) := by
  have hhdr : ixLeafHeaderPage ∉ ids (X ++ l :: r :: Y) := fun hmem => by
    have := hb _ hmem
    unfold ixLeafHeaderPage at this
    omega
  refine ⟨?_, ?_, ?_, (J.keeps.content _ ?_).trans h.header⟩
  · have hring := h.ring
    simp only [ids_append, ids_cons, hid] at hring hd hhdr ⊢
    exact hring.erase (List.nodup_cons.mpr ⟨hhdr, hd⟩) (J.next rfl).1 (J.prev rfl).1 (J.next rfl).2 (J.prev rfl).2
  · have := h.leftmost
    cases X <;> simpa [hid] using this
  · have hlast := J.last
    rcases h.ends with ⟨h1, h2⟩ | ⟨h1, h2⟩
    · refine Or.inl ⟨J.first.trans h1, ?_⟩
      rcases List.eq_nil_or_concat Y with rfl | ⟨Y, b, rfl⟩
      · have hold : ids (X ++ [l, r]) = ids X ++ [l.id] ++ [r.id] := by simp
        rw [hold, List.getLast?_concat, Option.some.injEq] at h2
        rw [hlast, if_pos ⟨rfl, h2⟩]
        simp [hid]
      · have hold : ids (X ++ l :: r :: Y.concat b) = (ids X ++ l.id :: r.id :: ids Y) ++ [b.id] := by simp
        have hnew : ids (X ++ v :: Y.concat b) = (ids X ++ v.id :: ids Y) ++ [b.id] := by simp
        rw [hold, List.getLast?_concat, Option.some.injEq] at h2
        rw [hold] at hd
        have hne : r.id ≠ s.lastLeaf := h2 ▸ (List.nodup_append.mp hd).2.2 r.id (by simp) b.id (by simp)
        rw [hnew, List.getLast?_concat, hlast, if_neg (fun hc => hne hc.2), h2]
    · refine Or.inr ⟨J.first.trans h1, ?_⟩
      have := hb r.id (by simp)
      rw [hlast, if_neg, h2]
      rintro ⟨-, heq⟩
      rw [heq, h2, ixNoPage] at this
      omega
  · have hl := hb l.id (by simp)
    rintro (heq | heq)
    · rw [← heq, ixLeafHeaderPage] at hl
      omega
    · rw [← Set.mem_singleton_iff.mp heq, ixLeafHeaderPage] at hu
      omega

end Ring

/-! ### The repair of a node -/

/-- Node `n` may have lost a pair, everything else is filled. -/
structure Short (f : IxFormat K) (A : IxLevel K) (n : Block Int K Rid) (B : IxLevel K) : Prop where
  least : (A = [] ∧ B = []) ∨ ((∀ b, b ∈ A ∨ b ∈ B → f.minSize ≤ b.entries.length) ∧ f.minSize ≤ n.entries.length + 1)
  most : ∀ b ∈ A ++ n :: B, b.entries.length ≤ f.btreeOrder

/-- The node that lost a pair, and its ancestors below the root, are merged with their siblings one after the other, and
    the root is left with one child. -/
def MergesUp (f : IxFormat K) : IxLevel K → Block Int K Rid → IxLevel K → List (IxLevel K) → Prop
  | _, _, _, [] => False
  | A, n, B, U :: Us =>
    n.entries.length + 1 = f.minSize ∧ ∃ C u D E e F, U = C ++ u :: D ∧ u.entries = E ++ e :: F ∧ e.2.pageNo = n.id ∧
      (∃ m, m.entries.length = f.minSize ∧ (E = [] ∧ B.head? = some m ∨ E ≠ [] ∧ A.getLast? = some m)) ∧
      (Us = [] ∧ u.entries.length = 2 ∨
        ∃ u', u'.id = u.id ∧ u'.entries.length + 1 = u.entries.length ∧ MergesUp f C u' D Us)

/-- What `coalesce_or_redistribute` has done to the levels from `L` up. -/
structure Repaired (f : IxFormat K) (s : IxIndexHandle K) (leaf : Bool) (L : IxLevel K) (Us : List (IxLevel K))
    (t : IxIndexHandle K) (M : IxLevel K) (Vs : List (IxLevel K)) : Prop where
  tower : Tower t leaf M Vs
  filled : Filled f M
  filledUp : ∀ V ∈ Vs, Filled f V
  entries : flat M = flat L
  parented : leaf = false → Parented t M
  keeps : Keeps s t {p | p ∈ ids L ++ idsUp Us} {p | p ∈ ids L ++ idsUp Us ∨ p ∈ below leaf (flat L)} {_p | leaf = true}
  pages : ∀ p ∈ ids M ++ idsUp Vs, p ∈ ids L ++ idsUp Us
  first : t.firstLeaf = s.firstLeaf
  last : leaf = false → t.lastLeaf = s.lastLeaf
  fd : t.fd2pageno = s.fd2pageno
  counters : Counters s → Counters t
  leaves : leaf = true → Leaves t M

/-- `coalesce_or_redistribute` repairs a node below the levels `Us`. -/
def Repairs (f : IxFormat K) (fuel : Nat) (Us : List (IxLevel K)) : Prop :=
  ∀ (s : IxIndexHandle K) (leaf : Bool) (A : IxLevel K) (n : Block Int K Rid) (B : IxLevel K),
    Tower s leaf (A ++ n :: B) Us → Grounded s leaf (A ++ n :: B) Us → Short f A n B → (∀ U ∈ Us, Filled f U) →
    (leaf = true → Leaves s (A ++ n :: B)) →
    ∃ t M Vs d, coalesceOrRedistribute f fuel s n.id = .ok (t, d) ∧ Repaired f s leaf (A ++ n :: B) Us t M Vs ∧
      (Wide (A ++ n :: B) Us → ¬MergesUp f A n B Us → Wide M Vs)

/-- Nothing is to be done. -/
theorem Repaired.refl {f : IxFormat K} {s : IxIndexHandle K} {leaf : Bool} {L : IxLevel K} {Us : List (IxLevel K)}
    (T : Tower s leaf L Us) (hg : Grounded s leaf L Us) (hfill : Filled f L) (hfillUp : ∀ U ∈ Us, Filled f U)
    (hleaves : leaf = true → Leaves s L) : Repaired f s leaf L Us s L Us :=
  ⟨T, hfill, hfillUp, rfl, hg.parented, Keeps.refl s, fun _ hp => hp, rfl, fun _ => rfl, rfl, id, hleaves⟩

theorem Short.filled {f : IxFormat K} {A B : IxLevel K} {n : Block Int K Rid} (h : Short f A n B)
    (hn : (A = [] ∧ B = []) ∨ f.minSize ≤ n.entries.length) : Filled f (A ++ n :: B) := by
  refine ⟨?_, h.most⟩
  rcases hn with ⟨rfl, rfl⟩ | hn
  · exact Or.inl ⟨n, rfl⟩
  · rcases h.least with ⟨rfl, rfl⟩ | ⟨hmin, -⟩
    · exact Or.inl ⟨n, rfl⟩
    · refine Or.inr fun b hb => ?_
      simp only [List.mem_append, List.mem_cons] at hb
      rcases hb with hb | rfl | hb
      · exact hmin b (Or.inl hb)
      · exact hn
      · exact hmin b (Or.inr hb)

section Step
variable {f : IxFormat K} {s t : IxIndexHandle K} {leaf : Bool} {X Y C D : IxLevel K} {l r u : Block Int K Rid}
  {G H : List (K × Rid)} {el er : K × Rid} {Us : List (IxLevel K)}

/-- The case of `redistribute`. -/
theorem Repaired.share (T : Tower s leaf (X ++ l :: r :: Y) ((C ++ u :: D) :: Us)) (S : Siblings X l r Y C u D G el er H)
    (hg : Grounded s leaf (X ++ l :: r :: Y) ((C ++ u :: D) :: Us)) {es fs : List (K × Rid)}
    (h : Shared s t leaf l.id r.id u.id l.entries r.entries es fs G H el er)
    (hhead : ∀ x ∈ es.head?, ∃ y ∈ l.entries.head?, x.1 = y.1) (hfillUp : ∀ V ∈ (C ++ u :: D) :: Us, Filled f V)
    (hfill : Filled f (X ++ ⟨l.id, es⟩ :: ⟨r.id, fs⟩ :: Y)) (hleaves : leaf = true → Leaves s (X ++ l :: r :: Y)) :
    ∃ M Vs, Repaired f s leaf (X ++ l :: r :: Y) ((C ++ u :: D) :: Us) t M Vs ∧
      (Wide (X ++ l :: r :: Y) ((C ++ u :: D) :: Us) → Wide M Vs) := by
  obtain ⟨v, hvid, hvlen, T', hpar⟩ := T.share S hg h hhead
  have hids : ids (X ++ ⟨l.id, es⟩ :: ⟨r.id, fs⟩ :: Y) = ids (X ++ l :: r :: Y) := by simp
  have hidsU : ids (C ++ v :: D) = ids (C ++ u :: D) := by simp [hvid]
  have hhdr : ixLeafHeaderPage ∉ ({l.id, r.id, u.id} : Set Int) := fun hmem => T.header_notMem (by
    rcases hmem with heq | heq | heq <;> rw [heq] <;> simp)
  refine ⟨_, _, ⟨T', hfill, ?_, ?_, hpar, ?_, ?_, h.hdr.first, fun _ => h.hdr.last, h.hdr.fd, fun hc => hc.of_hdr h.hdr,
    fun hl => ?_⟩, fun hw => ⟨hw.1.trans (by simp), hw.2.mono (by simp)⟩⟩
  · obtain ⟨hU, hUs⟩ := List.forall_mem_cons.mp hfillUp
    refine List.forall_mem_cons.mpr ⟨⟨?_, fun b hb => ?_⟩, hUs⟩
    · rcases hU.least with ⟨c, hc⟩ | hmin
      · obtain ⟨rfl, rfl, -⟩ := alone hc
        exact Or.inl ⟨v, rfl⟩
      · refine Or.inr fun b hb => ?_
        simp only [List.mem_append, List.mem_cons] at hb
        rcases hb with hb | rfl | hb
        · exact hmin b (by simp [hb])
        · rw [hvlen]
          exact hmin u (by simp)
        · exact hmin b (by simp [hb])
    · simp only [List.mem_append, List.mem_cons] at hb
      rcases hb with hb | rfl | hb
      · exact hU.most b (by simp [hb])
      · rw [hvlen]
        exact hU.most u (by simp)
      · exact hU.most b (by simp [hb])
  · simp only [flat_append, flat_cons]
    rw [← List.append_assoc es, h.entries, List.append_assoc]
  · refine h.keeps.mono ?_ ?_ (by simp)
    · rintro p (rfl | rfl | rfl) <;> simp
    · intro p hp
      refine Or.inr (below_mono (fun e he => ?_) hp)
      rcases List.mem_append.mp he with he | he <;> simp [he]
  · intro p hp
    rw [idsUp_cons, hids, hidsU, ← idsUp_cons] at hp
    exact hp
  · exact (hleaves hl).frame hids h.keeps hhdr (fun _ _ hmem => hmem) h.hdr.first h.hdr.last

/-- The case of `coalesce`, with what is done to the levels above. -/
theorem Repaired.join {t' : IxIndexHandle K} {M : IxLevel K} {Vs : List (IxLevel K)}
    (T : Tower s leaf (X ++ l :: r :: Y) ((C ++ u :: D) :: Us)) (S : Siblings X l r Y C u D G el er H)
    (hg : Grounded s leaf (X ++ l :: r :: Y) ((C ++ u :: D) :: Us))
    (J : Joined s t leaf l.id r.id u.id l.entries r.entries G H el) (hl : l.entries ≠ [])
    (hfill : Filled f (X ++ ⟨l.id, l.entries ++ r.entries⟩ :: Y)) (hleaves : leaf = true → Leaves s (X ++ l :: r :: Y))
    (R : Repaired f t false (C ++ ⟨u.id, G ++ el :: H⟩ :: D) Us t' M Vs) :
    Repaired f s leaf (X ++ l :: r :: Y) ((C ++ u :: D) :: Us) t' (X ++ ⟨l.id, l.entries ++ r.entries⟩ :: Y) (M :: Vs) := by
  obtain ⟨T', hpar⟩ := T.join S hg J hl
  obtain ⟨L', hL'⟩ : ∃ L', L' = X ++ (⟨l.id, l.entries ++ r.entries⟩ : Block Int K Rid) :: Y := ⟨_, rfl⟩
  obtain ⟨U', hU'⟩ : ∃ U', U' = C ++ (⟨u.id, G ++ el :: H⟩ : Block Int K Rid) :: D := ⟨_, rfl⟩
  have hflat : flat L' = flat (X ++ l :: r :: Y) := by simp [hL']
  have hsub : ids L' ⊆ ids (X ++ l :: r :: Y) := by
    intro p hp
    simp only [hL', ids_append, ids_cons, List.mem_append, List.mem_cons] at hp ⊢
    tauto
  have hidsU : ids U' = ids (C ++ u :: D) := by simp [hU']
  rw [← hL'] at T' hpar hfill ⊢
  rw [← hU'] at T' R
  obtain ⟨hdL, -, hdisj⟩ := List.nodup_append.mp T.nodup
  rw [idsUp_cons] at hdisj
  have hLU : ∀ p ∈ ids L', p ∉ ids U' ++ idsUp Us := fun p hp hmem => by
    rw [hidsU] at hmem
    exact hdisj p (hsub hp) p hmem rfl
  have hkidsU : ∀ p, p ∈ below false (flat U') → p ∈ ids L' := by
    rintro p ⟨-, e, he, rfl⟩
    exact kids_flat T'.above.1 he
  refine ⟨?_, hfill, List.forall_mem_cons.mpr ⟨R.filled, R.filledUp⟩, hflat, fun hleaf => ?_, ?_, ?_, R.first.trans J.first,
    fun hleaf => ?_, R.fd.trans J.fd, fun hc => R.counters (J.counters hc), fun hleaf => ?_⟩
  · refine R.tower.raise ?_ ?_ (R.parented rfl) T'.nonempty (List.nodup_append.mp T'.nodup).1 ?_ ?_
    · exact T'.stored.frame R.keeps hLU
    · unfold Linked
      rw [R.entries]
      exact T'.above.1
    · rw [R.fd]
      exact fun p hp => T'.bound p (List.mem_append_left _ hp)
    · exact fun p hp hmem => hLU p hp (R.pages p hmem)
  · refine (hpar hleaf).frame R.keeps fun e he => ?_
    rw [hflat] at he
    have hap := hg.apart hleaf e he
    rintro (hmem | hmem)
    · rw [hidsU] at hmem
      exact hap (List.mem_append_right _ hmem)
    · exact hap (List.mem_append_left _ (hsub (hkidsU _ hmem)))
  · refine (J.keeps.mono ?_ ?_ subset_rfl).trans (R.keeps.mono ?_ ?_ (by simp))
    · rintro p (rfl | rfl) <;> simp
    · intro p hp
      exact Or.inr (below_mono (fun e he => by simp [he]) hp)
    · intro p hp
      simp only [Set.mem_ofPred_eq, hidsU] at hp
      exact List.mem_append_right _ hp
    · rintro p (hp | hp)
      · rw [hidsU] at hp
        exact Or.inl (List.mem_append_right _ hp)
      · exact Or.inl (List.mem_append_left _ (hsub (hkidsU _ hp)))
  · intro p hp
    rw [idsUp_cons] at hp ⊢
    rcases List.mem_append.mp hp with hp | hp
    · exact List.mem_append_left _ (hsub hp)
    · have := R.pages p hp
      rw [hidsU] at this
      exact List.mem_append_right _ this
  · rw [R.last rfl, J.last, if_neg]
    simp [hleaf]
  · subst hleaf
    have hb : ∀ p ∈ ids (X ++ l :: r :: Y), 2 ≤ p := fun p hp => (T.bound p (List.mem_append_left _ hp)).1
    have hjoin : Leaves t L' := hL' ▸ (hleaves rfl).join J hdL hb (T.bound u.id (by simp)).1 rfl
    exact hjoin.frame rfl R.keeps T'.upper.header_notMem (by simp) R.first (R.last rfl)

theorem length_flat_le {U : IxLevel K} {k : Nat} (h : ∀ b ∈ U, k ≤ b.entries.length) : k * U.length ≤ (flat U).length := by
  induction U with
  | nil => simp
  | cons u U ih =>
    obtain ⟨hu, hU⟩ := List.forall_mem_cons.mp h
    have := ih hU
    rw [flat_cons, List.length_append, List.length_cons, Nat.mul_add, Nat.mul_one]
    omega

variable [Preorder K] (hf : f.Lawful)
include hf

/-- `coalesce` of two siblings, whichever of them lost a pair. -/
theorem coalesce_repairs (fuel : Nat) (neighbor node : Int) (index : Nat)
    (T : Tower s leaf (X ++ l :: r :: Y) ((C ++ u :: D) :: Us)) (S : Siblings X l r Y C u D G el er H)
    (hg : Grounded s leaf (X ++ l :: r :: Y) ((C ++ u :: D) :: Us)) (hag : Us ≠ [] → Repairs f fuel Us)
    (hl : l.entries ≠ []) (hfill : Filled f (X ++ ⟨l.id, l.entries ++ r.entries⟩ :: Y))
    (hfillUp : ∀ V ∈ (C ++ u :: D) :: Us, Filled f V) (hleaves : leaf = true → Leaves s (X ++ l :: r :: Y))
    (horient : (if index = 0 then (node, neighbor, index + 1) else (neighbor, node, index)) = (l.id, r.id, G.length + 1)) :
    ∃ t M Vs d, s.coalesce f (coalesceOrRedistribute f fuel) neighbor node u.id index = .ok (t, d) ∧
      Repaired f s leaf (X ++ l :: r :: Y) ((C ++ u :: D) :: Us) t M Vs ∧
      (Wide (X ++ l :: r :: Y) ((C ++ u :: D) :: Us) → ¬(Us = [] ∧ u.entries.length = 2) →
        (¬∃ v, v.id = u.id ∧ v.entries.length + 1 = u.entries.length ∧ MergesUp f C v D Us) → Wide M Vs) := by
  obtain ⟨hlr, hlu, -⟩ := T.siblings_ne
  obtain ⟨hU, hUs⟩ := List.forall_mem_cons.mp hfillUp
  have hl2 := (T.bound l.id (by simp)).1
  have hul : u.entries.length = (G ++ el :: H).length + 1 := by
    simp only [S.entries, List.length_append, List.length_cons]
    omega
  have hcount : (X ++ l :: r :: Y).length = (flat (C ++ u :: D)).length := List.Forall₂.length_eq T.above.1
  obtain ⟨q, hq⟩ := T.upper.above.exists_parentOf (b := u) (by simp)
  obtain ⟨t, J, hrun⟩ := coalesce_spec f (coalesceOrRedistribute f fuel) neighbor node index (T.stored l (by simp)) (T.stored r (by simp)) (S.entries ▸ T.upper.stored u (by simp)) hq hlr hlu
    (by unfold ixNoPage; omega) (fun hleaf hmem => by
      refine hg.below_notMem (p := u.id) (by simp) ⟨hleaf, kids_subset ?_ hmem⟩
      simp_all) (fun hleaf e he => ⟨r.id, hg.parented hleaf r (by simp) e he⟩)
    (fun hleaf => (hleaves hleaf).ringAt (List.nodup_append.mp T.nodup).1 fun p hp => (T.bound p (List.mem_append_left _ hp)).1)
    horient
  obtain ⟨T', -⟩ := T.join S hg J hl
  have hmost : ∀ b ∈ C ++ (⟨u.id, G ++ el :: H⟩ : Block Int K Rid) :: D, b.entries.length ≤ f.btreeOrder := by
    intro b hb
    simp only [List.mem_append, List.mem_cons] at hb
    rcases hb with hb | rfl | hb
    · exact hU.most b (by simp [hb])
    · have := hU.most u (by simp)
      show (G ++ el :: H).length ≤ _
      omega
    · exact hU.most b (by simp [hb])
  have hshort : Short f C ⟨u.id, G ++ el :: H⟩ D := by
    refine ⟨?_, hmost⟩
    rcases hU.least with ⟨c, hc⟩ | hmin
    · obtain ⟨rfl, rfl, -⟩ := alone hc
      exact Or.inl ⟨rfl, rfl⟩
    · refine Or.inr ⟨fun b hb => hmin b (by rcases hb with hb | hb <;> simp [hb]), ?_⟩
      have := hmin u (by simp)
      show f.minSize ≤ (G ++ el :: H).length + 1
      omega
  by_cases hroot : Us = []
  · -- the parent is the root
    subst hroot
    obtain ⟨c, hc, hqc, -⟩ := T.upper.above
    obtain ⟨rfl, rfl, rfl⟩ := alone hc
    rw [hq, Option.some.injEq] at hqc
    refine ⟨t, _, _, false, ?_, Repaired.join T S hg J hl hfill hleaves (Repaired.refl T'.upper T'.grounded
      (hshort.filled (Or.inl ⟨rfl, rfl⟩)) hUs (by simp)), ?_⟩
    · rw [hrun, if_neg]
      exact fun h => h.2 hqc
    · intro hw hne _
      have hw1 : 2 ≤ (X ++ l :: r :: Y).length := hw.1
      have hne2 : u.entries.length ≠ 2 := fun h => hne ⟨rfl, h⟩
      refine ⟨?_, trivial⟩
      simp only [List.nil_append, flat_cons, flat_nil, List.append_nil, List.length_append, List.length_cons] at hcount ⊢
      omega
  · have hq2 : q ≠ ixNoPage := by
      rcases T.upper.above.parentOf_eq (b := u) (by simp) with ⟨h, -⟩ | ⟨q', hmem, hq'⟩
      · exact absurd h hroot
      · rw [hq, Option.some.injEq] at hq'
        have := (T.bound q' (by simp [hmem])).1
        rw [hq', ixNoPage]
        omega
    have hlen : Wide (C ++ u :: D) Us → 4 ≤ (X ++ l :: r :: Y).length := by
      intro hw
      obtain ⟨V, Vs, rfl⟩ := List.exists_cons_of_ne_nil hroot
      have h2 : 2 ≤ (C ++ u :: D).length := hw.1
      have hmin : ∀ b ∈ C ++ u :: D, 2 ≤ b.entries.length := by
        rcases hU.least with ⟨c, hc⟩ | hmin
        · rw [hc] at h2
          simp at h2
        · exact fun b hb => hf.two_le_minSize.trans (hmin b hb)
      have := length_flat_le hmin
      omega
    have hwide : Wide (X ++ l :: r :: Y) ((C ++ u :: D) :: Us) →
        2 ≤ (X ++ (⟨l.id, l.entries ++ r.entries⟩ : Block Int K Rid) :: Y).length := by
      intro hw
      have := hlen hw.2
      simp only [List.length_append, List.length_cons] at this ⊢
      omega
    by_cases hsmall : (G ++ el :: H).length < f.minSize
    · obtain ⟨t', M, Vs, d, hrun', R, hw'⟩ := hag hroot t false C ⟨u.id, G ++ el :: H⟩ D T'.upper T'.grounded hshort hUs (by simp)
      refine ⟨t', _, _, d, ?_, Repaired.join T S hg J hl hfill hleaves R, fun hw _ hno => ⟨hwide hw, ?_⟩⟩
      · rw [hrun, if_pos ⟨hsmall, hq2⟩]
        exact hrun'
      · exact hw' (hw.2.mono (by simp)) fun hm => hno ⟨⟨u.id, G ++ el :: H⟩, rfl, hul.symm, hm⟩
    · refine ⟨t, _, _, false, ?_, Repaired.join T S hg J hl hfill hleaves (Repaired.refl T'.upper T'.grounded
        (hshort.filled (Or.inr (by simpa using hsmall))) hUs (by simp)), fun hw _ _ => ⟨hwide hw, hw.2.mono (by simp)⟩⟩
      rw [hrun, if_neg]
      exact fun h => hsmall h.1

/-- The sizes after a merge of a short node with a sibling that has little. -/
theorem filled_join (hlr : l.entries.length + r.entries.length < f.minSize * 2) (hge : f.minSize ≤ l.entries.length + r.entries.length)
    (hrest : ∀ b, b ∈ X ∨ b ∈ Y → f.minSize ≤ b.entries.length ∧ b.entries.length ≤ f.btreeOrder) :
    Filled f (X ++ ⟨l.id, l.entries ++ r.entries⟩ :: Y) := by
  have h2 := hf.minSize_two_le
  have hlen : (l.entries ++ r.entries).length = l.entries.length + r.entries.length := List.length_append
  refine ⟨Or.inr fun b hb => ?_, fun b hb => ?_⟩ <;> simp only [List.mem_append, List.mem_cons] at hb <;>
    rcases hb with hb | rfl | hb
  · exact (hrest b (Or.inl hb)).1
  · show f.minSize ≤ (l.entries ++ r.entries).length
    omega
  · exact (hrest b (Or.inr hb)).1
  · exact (hrest b (Or.inl hb)).2
  · show (l.entries ++ r.entries).length ≤ f.btreeOrder
    omega
  · exact (hrest b (Or.inr hb)).2

omit [Preorder K] hf in
theorem filled_share {es fs : List (K × Rid)} (hes : f.minSize ≤ es.length ∧ es.length ≤ f.btreeOrder)
    (hfs : f.minSize ≤ fs.length ∧ fs.length ≤ f.btreeOrder)
    (hrest : ∀ b, b ∈ X ∨ b ∈ Y → f.minSize ≤ b.entries.length ∧ b.entries.length ≤ f.btreeOrder) :
    Filled f (X ++ ⟨l.id, es⟩ :: ⟨r.id, fs⟩ :: Y) := by
  refine ⟨Or.inr fun b hb => ?_, fun b hb => ?_⟩ <;> simp only [List.mem_append, List.mem_cons] at hb <;>
    rcases hb with hb | rfl | rfl | hb
  · exact (hrest b (Or.inl hb)).1
  · exact hes.1
  · exact hfs.1
  · exact (hrest b (Or.inr hb)).1
  · exact (hrest b (Or.inl hb)).2
  · exact hes.2
  · exact hfs.2
  · exact (hrest b (Or.inr hb)).2

omit [Preorder K] hf in
/-- `coalesce_or_redistribute` of a node below its parent, up to the choice of the sibling. -/
theorem coalesceOrRedistribute_start (fuel : Nat) {A B : IxLevel K} {n : Block Int K Rid} {E F : List (K × Rid)} {e : K × Rid}
    (T : Tower s leaf (A ++ n :: B) ((C ++ u :: D) :: Us)) (hu : u.entries = E ++ e :: F) (hn : Names Rid.pageNo n e)
    (hA : List.Forall₂ (Names Rid.pageNo) A (flat C ++ E)) (hsmall : n.entries.length < f.minSize) :
    coalesceOrRedistribute f (fuel + 1) s n.id =
      (let neighborIndex := if E.length = 0 then 1 else E.length - 1
      if neighborIndex ≥ u.entries.length then .ok (s, false)
      else do
        let neighbor ← IxNode.pageAt u.entries neighborIndex
        let m ← s.fetchNode neighbor
        if n.entries.length + m.size ≥ f.minSize * 2 then do
          let s ← s.redistribute neighbor n.id u.id E.length
          .ok (s, false)
        else s.coalesce f (coalesceOrRedistribute f fuel) neighbor n.id u.id E.length >>= fun r => .ok (r.1, true)) := by
  obtain ⟨hpn, w, hw, -, hwe⟩ := exists_parent T.above.2.1 T.above.2.2.1 rfl hu
  rw [hn.1] at hpn
  obtain ⟨c, hc, -, hce, hcp⟩ := exists_node (T.stored n (by simp)) hpn
  have hu2 := (T.bound u.id (by simp)).1
  have hnotroot : ¬c.isRootPage = true := by
    simp only [IxNode.isRootPage, hcp, beq_iff_eq, ixNoPage]
    omega
  have hnA : n.id ∉ ids A := fun hmem => by
    have := (List.nodup_append.mp T.nodup).1
    rw [ids_append] at this
    exact (List.nodup_append.mp this).2.2 _ hmem _ (by simp) rfl
  have hrank : w.findChild n.id = .ok E.length := by
    rw [← hn.1]
    exact findChild_eq hwe (slots_ne (names_but 0 hA) (hn.1 ▸ hnA))
  rw [coalesceOrRedistribute, fetchNode_ok hc, ok_bind, if_neg hnotroot, if_neg (by rw [IxNode.size, hce]; omega), hcp]
  show (s.fetchNode u.id >>= _) = _
  rw [fetchNode_ok hw, ok_bind, hrank, ok_bind, hu]
  simp only [IxNode.valueAt, IxNode.size, hwe, hce]
  rfl

omit [Preorder K] hf in
theorem Grounded.distinct_pair (hg : Grounded s leaf (X ++ l :: r :: Y) Us) (hleaf : leaf = false) :
    ((l.entries ++ r.entries).map (·.2.pageNo)).Nodup := by
  have := hg.distinct hleaf
  rw [flat_append, flat_cons, flat_cons, ← List.append_assoc l.entries, List.map_append, List.map_append] at this
  exact (List.nodup_append.mp (List.nodup_append.mp this).2.1).1

/-- A short node that is the first child of its parent: its sibling is the one right of it. -/
theorem repairs_first {fuel : Nat} (T : Tower s leaf (X ++ l :: r :: Y) ((C ++ u :: D) :: Us))
    (S : Siblings X l r Y C u D [] el er H) (hg : Grounded s leaf (X ++ l :: r :: Y) ((C ++ u :: D) :: Us))
    (hshort : Short f X l (r :: Y)) (hfillUp : ∀ V ∈ (C ++ u :: D) :: Us, Filled f V)
    (hleaves : leaf = true → Leaves s (X ++ l :: r :: Y)) (hag : Us ≠ [] → Repairs f fuel Us)
    (hX : List.Forall₂ (Names Rid.pageNo) X (flat C)) (hsmall : l.entries.length < f.minSize) :
    ∃ t M Vs d, coalesceOrRedistribute f (fuel + 1) s l.id = .ok (t, d) ∧
      Repaired f s leaf (X ++ l :: r :: Y) ((C ++ u :: D) :: Us) t M Vs ∧
      (Wide (X ++ l :: r :: Y) ((C ++ u :: D) :: Us) → ¬MergesUp f X l (r :: Y) ((C ++ u :: D) :: Us) → Wide M Vs) := by
  have h2 := hf.minSize_two_le
  have h3 := hf.two_le_minSize
  obtain ⟨hrest, hl1⟩ := hshort.least.resolve_left (by simp)
  have hr1 := hrest r (Or.inr (by simp))
  have hr2 := hshort.most r (by simp)
  have hrest' : ∀ b, b ∈ X ∨ b ∈ Y → f.minSize ≤ b.entries.length ∧ b.entries.length ≤ f.btreeOrder := fun b hb =>
    ⟨hrest b (hb.imp_right (List.mem_cons_of_mem _)), hshort.most b (by rcases hb with hb | hb <;> simp [hb])⟩
  have hlne : l.entries ≠ [] := by
    intro hnil
    rw [hnil] at hl1
    simp only [List.length_nil] at hl1
    omega
  obtain ⟨m, hm, -, hme⟩ := content_eq_some.mp (T.stored r (by simp))
  have hmsize : m.size = r.entries.length := by rw [IxNode.size, hme]
  have hstart := coalesceOrRedistribute_start fuel T (E := []) (e := el) (F := er :: H) S.entries S.left (by simpa using hX)
    hsmall
  have hpage : IxNode.pageAt (el :: er :: H) 1 = .ok r.id := by rw [← S.right.1]; rfl
  simp only [List.length_nil, if_true, S.entries, List.nil_append, hpage, ok_bind, fetchNode_ok hm, hmsize] at hstart
  obtain ⟨hlr, hlu, hru⟩ := T.siblings_ne
  by_cases hsum : l.entries.length + r.entries.length ≥ f.minSize * 2
  · rw [if_pos hsum] at hstart
    obtain ⟨x, y, fs, hxy⟩ : ∃ x y fs, r.entries = x :: y :: fs := by
      obtain ⟨x, rs, hre⟩ := List.exists_cons_of_length_pos (l := r.entries) (by omega)
      obtain ⟨y, fs, rfl⟩ := List.exists_cons_of_length_pos (l := rs) (by
        rw [hre, List.length_cons] at hr1
        omega)
      exact ⟨x, y, fs, hre⟩
    obtain ⟨t, hrun, hsh⟩ := redistribute_first (T.stored l (by simp)) (hxy ▸ T.stored r (by simp))
      (S.entries ▸ T.upper.stored u (by simp)) hlr hlu hru (fun hleaf => hg.parented hleaf l (by simp))
      (fun hleaf => hxy ▸ hg.parented hleaf r (by simp)) (fun hleaf => hxy ▸ hg.distinct_pair hleaf)
    rw [← hxy] at hsh
    have hlen : r.entries.length = fs.length + 2 := by simp [hxy]
    obtain ⟨M, Vs, R, hw⟩ := Repaired.share T S hg hsh (fun z hz => ⟨z, by
      obtain ⟨a, as, ha⟩ := List.exists_cons_of_ne_nil hlne
      rw [ha] at hz ⊢
      exact hz, rfl⟩) hfillUp (filled_share
        ⟨by simp only [List.length_append, List.length_singleton]; omega,
          by simp only [List.length_append, List.length_singleton]; omega⟩
        ⟨by simp only [List.length_cons]; omega, by simp only [List.length_cons]; omega⟩ hrest') hleaves
    refine ⟨t, M, Vs, false, ?_, R, fun hW _ => hw hW⟩
    rw [hstart, hrun]
    rfl
  · rw [if_neg hsum] at hstart
    obtain ⟨t, M, Vs, d, hrun, R, hw⟩ := coalesce_repairs hf fuel r.id l.id 0 T S hg hag
      hlne (filled_join hf (by omega) (by omega) hrest') hfillUp hleaves (by simp)
    refine ⟨t, M, Vs, true, ?_, R, fun hW hno => hw hW (fun h => hno ?_) (fun h => hno ?_)⟩
    · rw [hstart, hrun]
      rfl
    all_goals
      refine ⟨by omega, C, u, D, [], el, er :: H, rfl, S.entries, S.left.1, ⟨r, by omega, Or.inl ⟨rfl, rfl⟩⟩, ?_⟩
    · exact Or.inl h
    · exact Or.inr h

/-- A short node that is a later child of its parent: its sibling is the one left of it. -/
theorem repairs_later {fuel : Nat} (T : Tower s leaf (X ++ l :: r :: Y) ((C ++ u :: D) :: Us))
    (S : Siblings X l r Y C u D G el er H) (hg : Grounded s leaf (X ++ l :: r :: Y) ((C ++ u :: D) :: Us))
    (hshort : Short f (X ++ [l]) r Y) (hfillUp : ∀ V ∈ (C ++ u :: D) :: Us, Filled f V)
    (hleaves : leaf = true → Leaves s (X ++ l :: r :: Y)) (hag : Us ≠ [] → Repairs f fuel Us)
    (hsmall : r.entries.length < f.minSize) :
    ∃ t M Vs d, coalesceOrRedistribute f (fuel + 1) s r.id = .ok (t, d) ∧
      Repaired f s leaf (X ++ l :: r :: Y) ((C ++ u :: D) :: Us) t M Vs ∧
      (Wide (X ++ l :: r :: Y) ((C ++ u :: D) :: Us) → ¬MergesUp f (X ++ [l]) r Y ((C ++ u :: D) :: Us) → Wide M Vs) := by
  have h2 := hf.minSize_two_le
  have h3 := hf.two_le_minSize
  obtain ⟨hrest, hr1⟩ := hshort.least.resolve_left (by simp)
  have hl1 := hrest l (Or.inl (by simp))
  have hl2 := hshort.most l (by simp)
  have hrest' : ∀ b, b ∈ X ∨ b ∈ Y → f.minSize ≤ b.entries.length ∧ b.entries.length ≤ f.btreeOrder := fun b hb =>
    ⟨hrest b (hb.imp_left (List.mem_append_left _)), hshort.most b (by rcases hb with hb | hb <;> simp [hb])⟩
  have hlne : l.entries ≠ [] := by
    intro hnil
    rw [hnil] at hl1
    simp only [List.length_nil] at hl1
    omega
  obtain ⟨m, hm, -, hme⟩ := content_eq_some.mp (T.stored l (by simp))
  have hmsize : m.size = l.entries.length := by rw [IxNode.size, hme]
  have hentries : u.entries = (G ++ [el]) ++ er :: H := by simp [S.entries]
  have hbefore : List.Forall₂ (Names Rid.pageNo) (X ++ [l]) (flat C ++ (G ++ [el])) := by
    rw [← List.append_assoc]
    exact List.rel_append S.before (.cons S.left .nil)
  have T₂ : Tower s leaf ((X ++ [l]) ++ r :: Y) ((C ++ u :: D) :: Us) := by simpa using T
  have hstart := coalesceOrRedistribute_start fuel T₂ hentries S.right hbefore hsmall
  have hidx : (if (G ++ [el]).length = 0 then 1 else (G ++ [el]).length - 1) = G.length := by simp
  have hpage : IxNode.pageAt u.entries G.length = .ok l.id := by simp [IxNode.pageAt, S.entries, S.left.1]
  have hsize : ¬G.length ≥ u.entries.length := by simp [S.entries]
  simp only [hidx, if_neg hsize, hpage, ok_bind, fetchNode_ok hm, hmsize] at hstart
  rw [List.length_append, List.length_singleton] at hstart
  obtain ⟨hlr, hlu, hru⟩ := T.siblings_ne
  by_cases hsum : r.entries.length + l.entries.length ≥ f.minSize * 2
  · rw [if_pos hsum] at hstart
    obtain ⟨es, x, hx⟩ : ∃ es x, l.entries = es ++ [x] :=
      ⟨l.entries.dropLast, l.entries.getLast hlne, (List.dropLast_append_getLast hlne).symm⟩
    obtain ⟨t, hrun, hsh⟩ := redistribute_later (hx ▸ T.stored l (by simp)) (T.stored r (by simp))
      (S.entries ▸ T.upper.stored u (by simp)) hlr hlu hru (fun hleaf => hx ▸ hg.parented hleaf l (by simp))
      (fun hleaf => hg.parented hleaf r (by simp)) (fun hleaf => hx ▸ hg.distinct_pair hleaf)
    rw [← hx] at hsh
    have hlen : l.entries.length = es.length + 1 := by simp [hx]
    obtain ⟨M, Vs, R, hw⟩ := Repaired.share T S hg hsh (fun z hz => ⟨z, by
      rw [hx]
      cases es with
      | nil => cases hz
      | cons a es => exact hz, rfl⟩) hfillUp (filled_share ⟨by omega, by omega⟩
        ⟨by simp only [List.length_cons]; omega, by simp only [List.length_cons]; omega⟩ hrest') hleaves
    refine ⟨t, M, Vs, false, ?_, R, fun hW _ => hw hW⟩
    rw [hstart, hrun]
    rfl
  · rw [if_neg hsum] at hstart
    obtain ⟨t, M, Vs, d, hrun, R, hw⟩ := coalesce_repairs hf fuel l.id r.id (G.length + 1) T S hg hag hlne (filled_join hf (by omega) (by omega) hrest') hfillUp hleaves (by simp)
    refine ⟨t, M, Vs, true, ?_, R, fun hW hno => hw hW (fun h => hno ?_) (fun h => hno ?_)⟩
    · rw [hstart, hrun]
      rfl
    all_goals
      refine ⟨by omega, C, u, D, G ++ [el], er, H, rfl, hentries, S.right.1, ⟨l, by omega, Or.inr ⟨by simp, by simp⟩⟩, ?_⟩
    · exact Or.inl h
    · exact Or.inr h

/-- One level of `coalesce_or_redistribute`. -/
theorem repairs_step {fuel : Nat} {U : IxLevel K} (hag : Us ≠ [] → Repairs f fuel Us) : Repairs f (fuel + 1) (U :: Us) := by
  intro s leaf A n B T hg hshort hfillUp hleaves
  obtain ⟨C, u, D, E, e, F, rfl, hu, hn, hA, hB⟩ := T.above.1.locate
  by_cases hsmall : n.entries.length < f.minSize
  · rcases List.eq_nil_or_concat E with rfl | ⟨E, e₀, rfl⟩
    · cases F with
      | nil =>
        -- an only child has no sibling; its parent is then alone in its level, and so is it
        have hlone : A = [] ∧ B = [] := by
          rcases (hfillUp (C ++ u :: D) List.mem_cons_self).least with ⟨c, hc⟩ | hmin
          · obtain ⟨rfl, rfl, -⟩ := alone hc
            cases hA
            cases hB
            exact ⟨rfl, rfl⟩
          · have h1 := hmin u (by simp)
            have h2 := hf.two_le_minSize
            simp only [hu, List.nil_append, List.length_singleton] at h1
            omega
        refine ⟨s, _, _, false, ?_, Repaired.refl T hg (hshort.filled (Or.inl hlone)) hfillUp hleaves, fun hw _ => hw⟩
        rw [coalesceOrRedistribute_start _ T hu hn hA hsmall]
        simp [hu]
      | cons e₂ F =>
        cases hB with
        | cons hm hB =>
          exact repairs_first hf T ⟨hu, hn, hm, hA, hB⟩ hg hshort hfillUp hleaves hag (by simpa using hA) hsmall
    · rw [List.concat_eq_append, ← List.append_assoc] at hA
      obtain ⟨A, M, rfl, hA', hM⟩ := forall₂_append_right hA
      obtain ⟨m, rfl, hm⟩ : ∃ m, M = [m] ∧ Names Rid.pageNo m e₀ := by
        cases hM with
        | cons hm hnil =>
          cases hnil
          exact ⟨_, rfl, hm⟩
      have hassoc : A ++ [m] ++ n :: B = A ++ m :: n :: B := by simp
      rw [hassoc] at T hg hleaves ⊢
      exact repairs_later hf T ⟨by simpa using hu, hm, hn, hA', hB⟩ hg hshort hfillUp hleaves hag hsmall
  · refine ⟨s, _, _, false, ?_, Repaired.refl T hg (hshort.filled (Or.inr (by omega))) hfillUp hleaves, fun hw _ => hw⟩
    obtain ⟨hpn, -⟩ := exists_parent T.above.2.1 T.above.2.2.1 rfl hu
    rw [hn.1] at hpn
    obtain ⟨c, hc, -, hce, hcp⟩ := exists_node (T.stored n (by simp)) hpn
    have hu2 := (T.bound u.id (by simp)).1
    have hnotroot : ¬c.isRootPage = true := by
      simp only [IxNode.isRootPage, hcp, beq_iff_eq, ixNoPage]
      omega
    rw [coalesceOrRedistribute, fetchNode_ok hc, ok_bind, if_neg hnotroot, if_pos (by rw [IxNode.size, hce]; omega)]

/-- `coalesce_or_redistribute` repairs every node but the root. -/
theorem repairs {fuel : Nat} {U : IxLevel K} (h : Us.length < fuel) : Repairs f fuel (U :: Us) := by
  induction Us generalizing fuel U with
  | nil =>
    obtain ⟨fuel, rfl⟩ : ∃ m, fuel = m + 1 := ⟨fuel - 1, by simp at h; omega⟩
    exact repairs_step hf fun h => absurd rfl h
  | cons V Vs ih =>
    obtain ⟨fuel, rfl⟩ : ∃ m, fuel = m + 1 := ⟨fuel - 1, by simp at h; omega⟩
    exact repairs_step hf fun _ => ih (by simpa using h)

end Step

end IxIndexHandle
end Rmdb
