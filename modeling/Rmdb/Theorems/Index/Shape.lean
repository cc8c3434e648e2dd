import Rmdb.Index.Shape
import Rmdb.Theorems.Index.Run

/-! What the invariant on levels says about the pages of the tree: `Tree` gives `WellFormed`. -/

namespace Rmdb
open Ladder

namespace IxIndexHandle
variable {K : Type}

theorem Below.from_child {s : IxIndexHandle K} {p q : Int} {d : Nat} {n : IxNode K} {e : K × Rid} (hn : s.pages p = some n)
    (hleaf : n.isLeaf = false) (he : e ∈ n.pairs) (h : Below s e.2.pageNo q d) : Below s p q (d + 1) := by
  induction h with
  | refl => exact .child .refl hn hleaf he
  | child _ hm hmleaf he' ih => exact .child ih hm hmleaf he'

/-! ### Levels of the tree -/

section Levels
variable {s : IxIndexHandle K} {L : IxLevel K} {Us : List (IxLevel K)}

/-- Two levels next to each other. -/
theorem Above.next {pre post : List (IxLevel K)} {W V : IxLevel K} (h : Above s L Us) (hsplit : L :: Us = pre ++ W :: V :: post) :
    Linked Rid.pageNo W V ∧ Stored s false V ∧ Parented s V := by
  induction Us generalizing L pre with
  | nil =>
    have := congrArg List.length hsplit
    simp at this
    omega
  | cons U Us ih =>
    obtain ⟨hl, hst, hpar, ha⟩ := h
    cases pre with
    | nil =>
      obtain ⟨rfl, rfl, -⟩ : L = W ∧ U = V ∧ Us = post := by simpa using hsplit
      exact ⟨hl, hst, hpar⟩
    | cons P pre => exact ih ha (List.cons.inj hsplit).2

/-- The root is alone on the top level. -/
theorem Above.top (h : Above s L Us) : ∃ pre r, L :: Us = pre ++ [[r]] ∧ r.id = s.rootPage := by
  induction Us generalizing L with
  | nil =>
    obtain ⟨r, rfl, -, hr⟩ := h
    exact ⟨[], r, rfl, hr.symm⟩
  | cons U Us ih =>
    obtain ⟨pre, r, hpre, hr⟩ := ih h.2.2.2
    exact ⟨L :: pre, r, by rw [hpre]; rfl, hr⟩

/-- Every block is below the root. -/
theorem Above.below (h : Above s L Us) {b : Block Int K Rid} (hb : b ∈ L) : Below s s.rootPage b.id Us.length := by
  induction Us generalizing L b with
  | nil =>
    obtain ⟨r, rfl, -, hr⟩ := h
    rw [List.mem_singleton.mp hb, ← hr]
    exact .refl
  | cons U Us ih =>
    obtain ⟨hl, hst, -, ha⟩ := h
    obtain ⟨A, B, rfl⟩ := List.append_of_mem hb
    obtain ⟨C, u, D, E, e, F, rfl, hu, hn, -, -⟩ := hl.locate
    obtain ⟨m, hm, hleaf, hpairs⟩ := content_eq_some.mp (hst u (by simp))
    have hbelow := Below.child (ih ha (b := u) (by simp)) hm hleaf (e := e) (by simp [hpairs, hu])
    rwa [hn.1] at hbelow

theorem Above.below_up (h : Above s L Us) {p : Int} (hp : p ∈ idsUp Us) : ∃ d, Below s s.rootPage p d := by
  induction Us generalizing L with
  | nil => cases hp
  | cons U Us ih =>
    rw [idsUp_cons, List.mem_append] at hp
    rcases hp with hp | hp
    · obtain ⟨u, hu, rfl⟩ := List.mem_map.mp hp
      exact ⟨_, h.2.2.2.below hu⟩
    · exact ih h.2.2.2 hp

end Levels

section Shape
variable [Preorder K] {f : IxFormat K} (hf : f.Lawful) {s : IxIndexHandle K} {L : IxLevel K} {Us : List (IxLevel K)}
  (T : Tree f s L Us)

include T in
/-- The leaves are stored as such, the other nodes as internal ones. -/
theorem Tree.stored_at {pre post : List (IxLevel K)} {V : IxLevel K} (hsplit : L :: Us = pre ++ V :: post) :
    Stored s pre.isEmpty V := by
  rcases List.eq_nil_or_concat pre with rfl | ⟨pre, W, rfl⟩
  · obtain ⟨rfl, -⟩ := List.cons.inj hsplit
    exact T.tower.stored
  · have := (T.tower.above.next (show L :: Us = pre ++ W :: V :: post by simpa using hsplit)).2.1
    cases pre <;> exact this

include T in
theorem Tree.filled_at {pre post : List (IxLevel K)} {V : IxLevel K} (hsplit : L :: Us = pre ++ V :: post) : Filled f V := by
  have hmem : V ∈ L :: Us := by rw [hsplit]; simp
  rcases List.mem_cons.mp hmem with rfl | hmem
  · exact T.filled
  · exact T.filledUp V hmem

include T in
theorem Tree.nodup_at {pre post : List (IxLevel K)} {V : IxLevel K} (hsplit : L :: Us = pre ++ V :: post) :
    (ids V).Nodup ∧ ∀ p ∈ ids V, p ∈ ids L ++ idsUp Us := by
  have hall : ids L ++ idsUp Us = idsUp (L :: Us) := rfl
  have hV : idsUp (pre ++ V :: post) = idsUp pre ++ (ids V ++ idsUp post) := by simp [idsUp]
  have hd := T.tower.nodup
  rw [hall, hsplit, hV] at hd ⊢
  exact ⟨(List.nodup_append.mp (List.nodup_append.mp hd).2.1).1, fun p hp => by simp [hp]⟩

include hf T

theorem Tree.ascending_at {pre post : List (IxLevel K)} {V : IxLevel K} (hsplit : L :: Us = pre ++ V :: post) :
    Ascending (flat V) := by
  induction pre using List.reverseRecOn generalizing V post with
  | nil =>
    obtain ⟨rfl, -⟩ := List.cons.inj hsplit
    exact T.ascending
  | append_singleton pre W ih =>
    have hsplit' : L :: Us = pre ++ W :: V :: post := by simpa using hsplit
    exact (T.tower.above.next hsplit').1.ascending ((T.filled_at hsplit').dense hf) (ih hsplit')

/-- What is below a block of a level is on the levels below it, with the block's bounds. -/
theorem Tree.below_at {p q : Int} {d : Nat} (h : Below s p q d) {pre post : List (IxLevel K)} {A B : IxLevel K}
    {b : Block Int K Rid} {lo hi : Set K} (hsplit : L :: Us = pre ++ (A ++ b :: B) :: post) (hid : b.id = p)
    (hspan : Spans lo hi b B) :
    ∃ pre' post' A' c B', L :: Us = pre' ++ (A' ++ c :: B') :: post' ∧ post'.length = post.length + d ∧ c.id = q ∧
      Spans lo hi c B' := by
  induction h with
  | refl => exact ⟨pre, post, A, b, B, hsplit, rfl, hid, hspan⟩
  | @child q d n e _ hn hleaf he ih =>
    obtain ⟨pre, post', C, c, D, hsplit', hlen, rfl, hspan'⟩ := ih
    have hst := T.stored_at hsplit' c (by simp)
    obtain ⟨m, hm, hmleaf, hpairs⟩ := content_eq_some.mp hst
    rw [hn] at hm
    cases hm
    -- an internal node is above another level
    rcases List.eq_nil_or_concat pre with rfl | ⟨pre, W, rfl⟩
    · simp [hleaf] at hmleaf
    · have hsplit'' : L :: Us = pre ++ W :: (C ++ c :: D) :: post' := by simpa using hsplit'
      rw [hpairs] at he
      obtain ⟨E, F, hc⟩ := List.append_of_mem he
      obtain ⟨A', b', B', rfl, hname, hs'⟩ := hspan'.descend (T.tower.above.next hsplit'').1
        ((T.filled_at hsplit'').dense hf) (T.ascending_at hf hsplit'') hc
      exact ⟨pre, _, A', b', B', hsplit'', by simp [hlen]; omega, hname.1.symm, hs'⟩

/-- The block of a page of the tree. -/
theorem Tree.block_at {p : Int} {d : Nat} (h : Below s s.rootPage p d) :
    ∃ pre post A b B, L :: Us = pre ++ (A ++ b :: B) :: post ∧ post.length = d ∧ b.id = p := by
  obtain ⟨pre, r, hsplit, hr⟩ := T.tower.above.top
  obtain ⟨pre', post', A, c, B, hsplit', hlen, hid, -⟩ := T.below_at hf h (A := []) (B := []) hsplit hr
    (show Spans ∅ ∅ r [] from ⟨by simp, by simp⟩)
  exact ⟨pre', post', A, c, B, hsplit', by simpa using hlen, hid⟩

/-- The pages in use are those of the levels and the leaf header page. -/
theorem Tree.live_iff (p : Int) : Live s p ↔ p = ixLeafHeaderPage ∨ p ∈ ids L ++ idsUp Us := by
  refine or_congr_right ⟨?_, fun hp => ?_⟩
  · rintro ⟨d, h⟩
    obtain ⟨pre, post, A, b, B, hsplit, -, rfl⟩ := T.block_at hf h
    exact (T.nodup_at hsplit).2 _ (by simp)
  · rcases List.mem_append.mp hp with hp | hp
    · obtain ⟨b, hb, rfl⟩ := List.mem_map.mp hp
      exact ⟨_, T.tower.above.below hb⟩
    · exact T.tower.above.below_up hp

/-- The first key of a block of a level with several blocks is the key of an entry in a leaf below it. -/
theorem Tree.entry_below {pre post : List (IxLevel K)} {V : IxLevel K} {b : Block Int K Rid} {x : K × Rid}
    (hsplit : L :: Us = pre ++ V :: post) (hb : b ∈ V) (htwo : 2 ≤ V.length) (hx : x ∈ b.entries.head?) :
    EntryBelow s b.id x.1 := by
  induction pre using List.reverseRecOn generalizing V post b x with
  | nil =>
    obtain ⟨m, hm, hleaf, hpairs⟩ := content_eq_some.mp (T.stored_at hsplit b hb)
    exact ⟨b.id, 0, m, x, .refl, hm, hleaf, hpairs ▸ List.mem_of_mem_head? hx, rfl⟩
  | append_singleton pre W ih =>
    have hsplit' : L :: Us = pre ++ W :: V :: post := by simpa using hsplit
    obtain ⟨hl, hst, -⟩ := T.tower.above.next hsplit'
    obtain ⟨m, hm, hleaf, hpairs⟩ := content_eq_some.mp (hst b hb)
    obtain ⟨xs, hbx⟩ : ∃ xs, b.entries = x :: xs := by
      cases hbe : b.entries with
      | nil => simp [hbe] at hx
      | cons y ys =>
        rw [hbe] at hx
        exact ⟨ys, by rw [Option.mem_some.mp hx]⟩
    obtain ⟨C, D, rfl⟩ := List.append_of_mem hb
    obtain ⟨A, c, B, rfl, hname, hA, hB⟩ := hl.named (E := []) (by simpa using hbx)
    -- the other block of the level has entries, and they name other blocks of the level below
    have hother : A ≠ [] ∨ B ≠ [] := by
      have hall : ∀ v ∈ C ++ b :: D, v.entries ≠ [] := ((T.filled_at hsplit).dense hf).all_of_ne (by
        by_contra hno
        rw [not_or, not_not, not_not] at hno
        simp [hno.1, hno.2] at htwo)
      by_contra hno
      rw [not_or, not_not, not_not] at hno
      obtain ⟨rfl, rfl⟩ := hno
      have hC : flat C = [] := by simpa using List.forall₂_nil_left_iff.mp hA
      have hD : flat D = [] := by
        have := List.forall₂_nil_left_iff.mp hB
        exact (List.append_eq_nil_iff.mp this).2
      cases C with
      | nil =>
        cases D with
        | nil => simp at htwo
        | cons v D => exact hall v (by simp) (List.append_eq_nil_iff.mp hD).1
      | cons v C => exact hall v (by simp) (List.append_eq_nil_iff.mp hC).1
    obtain ⟨y, ys, hy⟩ := List.exists_cons_of_ne_nil (((T.filled_at hsplit').dense hf).all_of_ne hother c (by simp))
    have hyx : y.1 = x.1 := hname.2 y (by simp [hy])
    obtain ⟨q, d, n, e, hbelow, hn, hnleaf, he, hek⟩ := ih (V := A ++ c :: B) (b := c) (x := y) hsplit' (by simp) (by
      rcases hother with h | h
      · have := List.length_pos_of_ne_nil h
        simp
        omega
      · have := List.length_pos_of_ne_nil h
        simp
        omega) (by simp [hy])
    refine ⟨q, d + 1, n, e, ?_, hn, hnleaf, he, hek.trans hyx⟩
    exact Below.from_child hm hleaf (by simp [hpairs, hbx]) (hname.1 ▸ hbelow)

/-- A child of an internal node: it is a block `b` of the next level, and the slots left and right of its slot name the
    blocks left and right of it. -/
theorem Tree.child_at {p : Int} {d : Nat} {n : IxNode K} (h : NodeAt s p d n) (hleaf : n.isLeaf = false)
    {E F : List (K × Rid)} {e : K × Rid} (hpairs : n.pairs = E ++ e :: F) :
    ∃ pre post C u D A b B, L :: Us = pre ++ (A ++ b :: B) :: (C ++ u :: D) :: post ∧ u.id = p ∧ Names Rid.pageNo b e ∧
      List.Forall₂ (Names Rid.pageNo) A (flat C ++ E) ∧ List.Forall₂ (Names Rid.pageNo) B (F ++ flat D) ∧
      s.parentOf e.2.pageNo = some p := by
  obtain ⟨pre, post, C, u, D, hsplit, -, rfl⟩ := T.block_at hf h.1
  obtain ⟨m, hm, hmleaf, hmpairs⟩ := content_eq_some.mp (T.stored_at hsplit u (by simp))
  rw [h.2] at hm
  cases hm
  rcases List.eq_nil_or_concat pre with rfl | ⟨pre, W, rfl⟩
  · simp [hleaf] at hmleaf
  · have hsplit' : L :: Us = pre ++ W :: (C ++ u :: D) :: post := by simpa using hsplit
    obtain ⟨hl, -, hpar⟩ := T.tower.above.next hsplit'
    have hu : u.entries = E ++ e :: F := hmpairs.symm.trans hpairs
    obtain ⟨A, b, B, rfl, hname, hA, hB⟩ := hl.named hu
    exact ⟨pre, post, C, u, D, A, b, B, hsplit', rfl, hname, hA, hB, hpar u (by simp) e (by simp [hu])⟩

/-- The keys below a child are between its key and the next one. -/
theorem Tree.separated {p : Int} {d : Nat} {n : IxNode K} (h : NodeAt s p d n) (hleaf : n.isLeaf = false)
    {E F : List (K × Rid)} {e : K × Rid} (hpairs : n.pairs = E ++ e :: F) {k : K} (hk : KeyBelow s e.2.pageNo k) :
    e.1 ≤ k ∧ ∀ e' ∈ F.head?, k < e'.1 := by
  obtain ⟨pre, post, C, u, D, A, b, B, hsplit, -, hname, -, hB, -⟩ := T.child_at hf h hleaf hpairs
  have hasc := T.ascending_at hf hsplit
  have hspan : Spans {e.1} {k | ∃ e' ∈ F.head?, e'.1 = k} b B := by
    refine ⟨?_, ?_⟩
    · rintro _ rfl x hx
      obtain ⟨y, ys, hy⟩ := List.exists_cons_of_ne_nil (List.ne_nil_of_mem hx)
      rw [← hname.2 y (by simp [hy])]
      exact (hasc.block (b := b) (by simp)).head_le (by simp [hy]) hx
    · rintro _ ⟨e', he', rfl⟩
      have hmem : e' ∈ F ++ flat D := List.mem_append_left _ (List.mem_of_mem_head? he')
      have hBne : B ≠ [] := by
        rintro rfl
        exact List.ne_nil_of_mem hmem (List.forall₂_nil_left_iff.mp hB)
      have hne := ((T.filled_at hsplit).dense hf).all_of_ne (Or.inr hBne)
      exact exists_key_of_names hB (fun c hc => hne c (by simp [hc])) hmem
  obtain ⟨q, dq, m, x, hbelow, hm, hx, rfl⟩ := hk
  obtain ⟨pre', post', A', c, B', hsplit', -, rfl, hspan'⟩ := T.below_at hf hbelow hsplit hname.1.symm hspan
  obtain ⟨m', hm', -, hmp⟩ := content_eq_some.mp (T.stored_at hsplit' c (by simp))
  rw [hm] at hm'
  cases hm'
  rw [hmp] at hx
  exact ⟨hspan'.lower _ rfl x hx, fun e' he' => hspan'.lt (T.ascending_at hf hsplit') ⟨e', he', rfl⟩ hx⟩

theorem Tree.isLeaf_iff {p : Int} {d : Nat} {n : IxNode K} (h : NodeAt s p d n) : n.isLeaf = true ↔ d = Us.length := by
  obtain ⟨pre, post, A, b, B, hsplit, rfl, rfl⟩ := T.block_at hf h.1
  obtain ⟨m, hm, hmleaf, -⟩ := content_eq_some.mp (T.stored_at hsplit b (by simp))
  rw [h.2] at hm
  cases hm
  have hlen := congrArg List.length hsplit
  simp only [List.length_cons, List.length_append] at hlen
  rw [hmleaf, List.isEmpty_iff, ← List.length_eq_zero_iff]
  omega

theorem Tree.mem_leaves (p : Int) : p ∈ ids L ↔ ∃ d n, NodeAt s p d n ∧ n.isLeaf = true := by
  constructor
  · intro hp
    obtain ⟨b, hb, rfl⟩ := List.mem_map.mp hp
    obtain ⟨n, hn, hleaf, -⟩ := content_eq_some.mp (T.tower.stored b hb)
    exact ⟨_, n, ⟨T.tower.above.below hb, hn⟩, hleaf⟩
  · rintro ⟨d, n, h, hleaf⟩
    obtain rfl := (T.isLeaf_iff hf h).mp hleaf
    obtain ⟨pre, post, A, b, B, hsplit, hlen, rfl⟩ := T.block_at hf h.1
    have hlen' := congrArg List.length hsplit
    simp only [List.length_cons, List.length_append, hlen] at hlen'
    obtain rfl : pre = [] := List.length_eq_zero_iff.mp (by omega)
    obtain ⟨rfl, -⟩ := List.cons.inj hsplit
    simp

omit hf in
theorem Tree.flatMap_pairsOn : (ids L).flatMap s.pairsOn = flat L := by
  rw [ids, List.flatMap_map, flat]
  refine List.flatMap_congr fun b hb => ?_
  obtain ⟨n, hn, -, hpairs⟩ := content_eq_some.mp (T.tower.stored b hb)
  simp [pairsOn, hn, hpairs]

/-- The entries of the tree are those of the leaf level. -/
theorem Tree.entries : Entries f s (flat L) where
  sorted := T.ascending.imp fun h => (hf.lt_iff _ _).mpr h
  mem_iff e := by
    rw [← T.flatMap_pairsOn, List.mem_flatMap]
    constructor
    · rintro ⟨p, hp, he⟩
      obtain ⟨d, n, hat, hleaf⟩ := (T.mem_leaves hf p).mp hp
      refine ⟨p, d, n, hat, hleaf, ?_⟩
      simpa [pairsOn, hat.2] using he
    · rintro ⟨p, d, n, hat, hleaf, he⟩
      refine ⟨p, (T.mem_leaves hf p).mpr ⟨d, n, hat, hleaf⟩, ?_⟩
      simpa [pairsOn, hat.2] using he

/-- A tree is well formed. -/
theorem Tree.wellFormed : WellFormed f s where
  sorted p d h := by
    obtain ⟨pre, post, A, b, B, hsplit, -, rfl⟩ := T.block_at hf h
    obtain ⟨n, hn, -, hpairs⟩ := content_eq_some.mp (T.stored_at hsplit b (by simp))
    refine ⟨n, hn, hpairs ▸ ((T.ascending_at hf hsplit).block (b := b) (by simp)).imp fun h => ?_⟩
    exact (hf.lt_iff _ _).mpr h
  separated p d n hat hleaf i e hi k hk := by
    obtain ⟨hle, hnext⟩ := T.separated hf hat hleaf (eq_take_cons_drop hi) hk
    refine ⟨(hf.le_iff _ _).mpr hle, fun e' he' => (hf.lt_iff _ _).mpr (hnext e' ?_)⟩
    rw [List.head?_drop]
    exact he'
  attained p d n hat hleaf i e h1 hi := by
    have hlt := (List.getElem?_eq_some_iff.mp hi).1
    obtain ⟨pre, post, C, u, D, A, b, B, hsplit, -, hname, hA, -, -⟩ := T.child_at hf hat hleaf (eq_take_cons_drop hi)
    have hAne : A ≠ [] := by
      rintro rfl
      have := congrArg List.length (List.forall₂_nil_left_iff.mp hA)
      simp only [List.length_append, List.length_take, List.length_nil] at this
      omega
    obtain ⟨x, xs, hx⟩ := List.exists_cons_of_ne_nil (((T.filled_at hsplit).dense hf).all_of_ne (Or.inl hAne) b (by simp))
    have htwo : 2 ≤ (A ++ b :: B).length := by
      have := List.length_pos_of_ne_nil hAne
      simp only [List.length_append, List.length_cons]
      omega
    refine ⟨x.1, hname.1 ▸ T.entry_below hf hsplit (b := b) (by simp) htwo (by simp [hx]), ?_⟩
    rw [hname.2 x (by simp [hx]), hf.eq_iff]
    exact Same.refl _
  parents p d n hat hleaf e he := by
    obtain ⟨E, F, hpairs⟩ := List.append_of_mem he
    obtain ⟨-, -, -, -, -, -, -, -, -, -, -, -, -, hparent⟩ := T.child_at hf hat hleaf hpairs
    exact parentOf_eq_some.mp hparent
  depth := ⟨Us.length, fun p d n hat => T.isLeaf_iff hf hat⟩
  ring := by
    refine ⟨ids L, T.leaves.ring, (List.nodup_append.mp T.tower.nodup).1, T.mem_leaves hf, ?_⟩
    rw [T.flatMap_pairsOn]
    exact T.ascending.imp fun h => (hf.lt_iff _ _).mpr h

end Shape
end IxIndexHandle

open IxIndexHandle

/-- After every run of calls on a new index the tree has its whole structure. -/
theorem ixIndex_wellFormed (cols : List IxCol) (hacc : IxAccepts cols) (cs : List (IxCall (IxKey cols))) :
    ∃ s h, (create : IxIndexHandle (IxKey cols)).run (ixFormat cols) cs = .ok (s, h) ∧ WellFormed (ixFormat cols) s := by
  have hf := ixFormat_lawful hacc
  obtain ⟨s, h, L, Us, hrun, -, T, -⟩ := run_create hf cs
  exact ⟨s, h, hrun, T.wellFormed hf⟩

theorem ixIndex_wellFormed_int : IxAccepts [IxCol.int] ∧
    ∃ s h, (create : IxIndexHandle (IxKey [IxCol.int])).run (ixFormat [IxCol.int]) [.insertEntry (intKey 1 0 0 0) ⟨1, 0⟩] =
      .ok (s, h) ∧ WellFormed (ixFormat [IxCol.int]) s :=
  ⟨by decide, ixIndex_wellFormed [IxCol.int] (by decide) _⟩

end Rmdb
