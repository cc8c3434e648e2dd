import Rmdb.Theorems.Index.Split

/-! `redistribute` and `coalesce` on the pages of two siblings and their parent. -/

namespace Rmdb
open Ladder

namespace IxIndexHandle
variable {K : Type}

/-- The children of internal nodes with these pairs. -/
def below (leaf : Bool) (es : List (K × Rid)) : Set Int := {p | leaf = false ∧ p ∈ kids es}

theorem below_mono {leaf : Bool} {es fs : List (K × Rid)} (h : ∀ e ∈ es, e ∈ fs) : below leaf es ⊆ below leaf fs :=
  fun _ hp => ⟨hp.1, kids_subset h hp.2⟩

/-- Writes of the pairs of three pages. -/
theorem put_three {s : IxIndexHandle K} {a b c : Int} {la lb lc : Bool} {ea eb ec : List (K × Rid)} {na nb nc : IxNode K}
    (ha : s.pages a = some na) (hb : s.pages b = some nb) (hc : s.pages c = some nc) (hla : na.isLeaf = la)
    (hlb : nb.isLeaf = lb) (hlc : nc.isLeaf = lc) (hab : a ≠ b) (hac : a ≠ c) (hbc : b ≠ c) (t : IxIndexHandle K)
    (ht : t = ((s.putNode a { na with pairs := ea }).putNode b { nb with pairs := eb }).putNode c { nc with pairs := ec }) :
    t.content a = some (la, ea) ∧ t.content b = some (lb, eb) ∧ t.content c = some (lc, ec) ∧ Keeps s t {a, b, c} ∅ ∅ ∧
      Hdr s t := by
  subst ht
  have hb₁ : (s.putNode a { na with pairs := ea }).pages b = some nb := by rw [pages_putNode_ne _ _ hab.symm, hb]
  have hc₂ : ((s.putNode a { na with pairs := ea }).putNode b { nb with pairs := eb }).pages c = some nc := by
    rw [pages_putNode_ne _ _ hbc.symm, pages_putNode_ne _ _ hac.symm, hc]
  refine ⟨?_, ?_, ?_, ?_, ((Hdr.put _ _ _).trans (Hdr.put _ _ _)).trans (Hdr.put _ _ _)⟩
  · simp only [content, pages_putNode_ne _ _ hac, pages_putNode_ne _ _ hab, pages_putNode_self, Option.map_some, hla]
  · simp only [content, pages_putNode_ne _ _ hbc, pages_putNode_self, Option.map_some, hlb]
  · simp only [content, pages_putNode_self, Option.map_some, hlc]
  · have k₁ : Keeps s _ {a} ∅ ∅ := Keeps.put_pairs (m := { na with pairs := ea }) ha rfl rfl rfl
    have k₂ : Keeps _ _ {b} ∅ ∅ := Keeps.put_pairs (m := { nb with pairs := eb }) hb₁ rfl rfl rfl
    have k₃ : Keeps _ _ {c} ∅ ∅ := Keeps.put_pairs (m := { nc with pairs := ec }) hc₂ rfl rfl rfl
    exact ((k₁.mono (by simp) subset_rfl subset_rfl).trans (k₂.mono (by simp) subset_rfl subset_rfl)).trans
      (k₃.mono (by simp) subset_rfl subset_rfl)

theorem maintainChild_any {s : IxIndexHandle K} {p : Int} {leaf : Bool} {es : List (K × Rid)} {i : Nat} {e : K × Rid}
    (hc : s.content p = some (leaf, es)) (he : es[i]? = some e) (hq : leaf = false → ∃ q, s.parentOf e.2.pageNo = some q) :
    ∃ t, s.maintainChild p i = .ok t ∧ Keeps s t ∅ (below leaf [e]) ∅ ∧ (leaf = false → t.parentOf e.2.pageNo = some p) ∧
      Hdr s t := by
  cases leaf with
  | true => exact ⟨s, maintainChild_leaf hc, Keeps.refl s, by simp, Hdr.refl s⟩
  | false =>
    obtain ⟨q, hq⟩ := hq rfl
    obtain ⟨t, ht, k, hp, hd⟩ := maintainChild_spec hc he hq
    refine ⟨t, ht, k.mono subset_rfl ?_ subset_rfl, fun _ => hp, hd⟩
    rintro x rfl
    exact ⟨rfl, mem_kids (by simp)⟩

/-- Two neighbouring nodes share out their pairs again: `es` and `fs` become `es'` and `fs'`, the parent gets the new
    first key of the right node. -/
structure Shared (s t : IxIndexHandle K) (leaf : Bool) (l r u : Int) (es fs es' fs' : List (K × Rid))
    (G H : List (K × Rid)) (el er : K × Rid) : Prop where
  entries : es' ++ fs' = es ++ fs
  left : t.content l = some (leaf, es')
  right : t.content r = some (leaf, fs')
  parent : ∃ y ys, fs' = y :: ys ∧ t.content u = some (false, G ++ el :: (y.1, er.2) :: H)
  keeps : Keeps s t {l, r, u} (below leaf (es ++ fs)) ∅
  hdr : Hdr s t
  kidsLeft : leaf = false → ∀ e ∈ es', t.parentOf e.2.pageNo = some l
  kidsRight : leaf = false → ∀ e ∈ fs', t.parentOf e.2.pageNo = some r

section Redistribute
variable {s : IxIndexHandle K} {leaf : Bool} {l r u : Int} {G H : List (K × Rid)} {el er : K × Rid}

/-- `redistribute` to the first child of the parent: it gets the first pair of the node right of it. -/
theorem redistribute_first {es fs : List (K × Rid)} {x y : K × Rid} (hl : s.content l = some (leaf, es))
    (hr : s.content r = some (leaf, x :: y :: fs)) (hu : s.content u = some (false, el :: er :: H)) (hlr : l ≠ r)
    (hlu : l ≠ u) (hru : r ≠ u) (hel : leaf = false → ∀ e ∈ es, s.parentOf e.2.pageNo = some l)
    (her : leaf = false → ∀ e ∈ x :: y :: fs, s.parentOf e.2.pageNo = some r)
    (hd : leaf = false → ((es ++ x :: y :: fs).map (·.2.pageNo)).Nodup) :
    ∃ t, s.redistribute r l u 0 = .ok t ∧ Shared s t leaf l r u es (x :: y :: fs) (es ++ [x]) (y :: fs) [] H el er := by
  obtain ⟨n, hn, hnl, hne⟩ := content_eq_some.mp hl
  obtain ⟨m, hm, hml, hme⟩ := content_eq_some.mp hr
  obtain ⟨w, hw, hwl, hwe⟩ := content_eq_some.mp hu
  obtain ⟨s₁, hs₁⟩ : ∃ s₁, s₁ = ((s.putNode l { n with pairs := es ++ [x] }).putNode r { m with pairs := y :: fs }).putNode u
    { w with pairs := el :: (y.1, er.2) :: H } := ⟨_, rfl⟩
  obtain ⟨hl₁, hr₁, hu₁, k₁, hd₁⟩ := put_three hn hm hw hnl hml hwl hlr hlu hru s₁ hs₁
  obtain ⟨t, ht, k₂, hpx, hd₂⟩ := maintainChild_any hl₁ (i := es.length) (e := x) (by simp) (fun hleaf =>
    ⟨r, by rw [k₁.parent _ (Set.notMem_empty _)]; exact her hleaf x (by simp)⟩)
  have hkeep : ∀ p, p ∉ below leaf [x] → t.parentOf p = s.parentOf p := fun p hp => by
    rw [k₂.parent _ hp, k₁.parent _ (Set.notMem_empty _)]
  refine ⟨t, ?_, by simp, ?_, ?_, ⟨y, fs, rfl, ?_⟩, ?_, hd₁.trans hd₂, fun hleaf e he => ?_, fun hleaf e he => ?_⟩
  · have hins : n.insertPairs n.size (m.pairs.take 1) = .ok { n with pairs := es ++ [x] } := by
      simp [IxNode.insertPairs, IxNode.size, hne, hme]
    have herase : m.erasePair 0 = .ok { m with pairs := y :: fs } := by
      simp [IxNode.erasePair, IxNode.size, hme]
    have hset : w.setKey 1 y.1 = { w with pairs := el :: (y.1, er.2) :: H } := by
      rw [show 1 = [el].length from rfl, IxNode.setKey_pairs (F := H) (e := er) (by simpa using hwe)]
      rfl
    rw [redistribute, fetchNode_ok hm, ok_bind, fetchNode_ok hn, ok_bind, fetchNode_ok hw, ok_bind, if_pos rfl, hins, ok_bind,
      herase, ok_bind]
    show (if n.isLeaf then
        .ok (((s.putNode l { n with pairs := es ++ [x] }).putNode r { m with pairs := y :: fs }).putNode u (w.setKey 1 y.1))
      else IxIndexHandle.maintainChild (((s.putNode l { n with pairs := es ++ [x] }).putNode r
        { m with pairs := y :: fs }).putNode u (w.setKey 1 y.1)) l ((es ++ [x]).length - 1)) = Except.ok t
    rw [hset, ← hs₁, hnl, List.length_append, List.length_singleton, Nat.add_sub_cancel]
    cases leaf with
    | true =>
      rw [maintainChild_leaf hl₁] at ht
      exact ht
    | false => exact ht
  · rw [k₂.content _ (Set.notMem_empty _), hl₁]
  · rw [k₂.content _ (Set.notMem_empty _), hr₁]
  · rw [k₂.content _ (Set.notMem_empty _), hu₁]
    rfl
  · exact (k₁.mono subset_rfl (Set.empty_subset _) subset_rfl).trans
      (k₂.mono (Set.empty_subset _) (below_mono (by simp)) subset_rfl)
  · rcases List.mem_append.mp he with h | h
    · rw [hkeep, hel hleaf e h]
      rintro ⟨-, e', he', heq⟩
      rw [List.mem_singleton] at he'
      subst he'
      have := hd hleaf
      rw [List.map_append, List.nodup_append] at this
      exact this.2.2 _ (List.mem_map_of_mem h) e'.2.pageNo (by simp) heq.symm
    · rw [List.mem_singleton] at h
      rw [h]
      exact hpx hleaf
  · rw [hkeep, her hleaf e (List.mem_cons_of_mem _ he)]
    rintro ⟨-, e', he', heq⟩
    rw [List.mem_singleton] at he'
    subst he'
    have := hd hleaf
    rw [List.map_append, List.nodup_append, List.map_cons, List.nodup_cons] at this
    exact this.2.1.1 (heq ▸ List.mem_map_of_mem he)

/-- `redistribute` to a later child of the parent: it gets the last pair of the node left of it. -/
theorem redistribute_later {es fs : List (K × Rid)} {x : K × Rid} (hl : s.content l = some (leaf, es ++ [x]))
    (hr : s.content r = some (leaf, fs)) (hu : s.content u = some (false, G ++ el :: er :: H)) (hlr : l ≠ r)
    (hlu : l ≠ u) (hru : r ≠ u) (hel : leaf = false → ∀ e ∈ es ++ [x], s.parentOf e.2.pageNo = some l)
    (her : leaf = false → ∀ e ∈ fs, s.parentOf e.2.pageNo = some r)
    (hd : leaf = false → ((es ++ [x] ++ fs).map (·.2.pageNo)).Nodup) :
    ∃ t, s.redistribute l r u (G.length + 1) = .ok t ∧
      Shared s t leaf l r u (es ++ [x]) fs es (x :: fs) G H el er := by
  obtain ⟨m, hm, hml, hme⟩ := content_eq_some.mp hl
  obtain ⟨n, hn, hnl, hne⟩ := content_eq_some.mp hr
  obtain ⟨w, hw, hwl, hwe⟩ := content_eq_some.mp hu
  obtain ⟨s₁, hs₁⟩ : ∃ s₁, s₁ = ((s.putNode r { n with pairs := x :: fs }).putNode l { m with pairs := es }).putNode u
    { w with pairs := G ++ el :: (x.1, er.2) :: H } := ⟨_, rfl⟩
  obtain ⟨hr₁, hl₁, hu₁, k₁, hd₁⟩ := put_three hn hm hw hnl hml hwl hlr.symm hru hlu s₁ hs₁
  obtain ⟨t, ht, k₂, hpx, hd₂⟩ := maintainChild_any hr₁ (i := 0) (e := x) (by simp) (fun hleaf =>
    ⟨l, by rw [k₁.parent _ (Set.notMem_empty _)]; exact hel hleaf x (by simp)⟩)
  have hkeep : ∀ p, p ∉ below leaf [x] → t.parentOf p = s.parentOf p := fun p hp => by
    rw [k₂.parent _ hp, k₁.parent _ (Set.notMem_empty _)]
  refine ⟨t, ?_, by simp, ?_, ?_, ⟨x, fs, rfl, ?_⟩, ?_, hd₁.trans hd₂, fun hleaf e he => ?_, fun hleaf e he => ?_⟩
  · have hins : n.insertPairs 0 (m.pairs.drop (m.size - 1)) = .ok { n with pairs := x :: fs } := by
      simp [IxNode.insertPairs, IxNode.size, hne, hme]
    have herase : m.erasePair (m.size - 1) = .ok { m with pairs := es } := by
      simp [IxNode.erasePair, IxNode.size, hme, List.eraseIdx_append_of_length_le]
    have hset : w.setKey (G.length + 1) x.1 = { w with pairs := G ++ el :: (x.1, er.2) :: H } := by
      rw [show G.length + 1 = (G ++ [el]).length by simp, IxNode.setKey_pairs (F := H) (e := er) (by simpa using hwe)]
      simp
    rw [redistribute, fetchNode_ok hm, ok_bind, fetchNode_ok hn, ok_bind, fetchNode_ok hw, ok_bind, if_neg (by omega), hins,
      ok_bind, herase, ok_bind]
    show (((s.putNode r { n with pairs := x :: fs }).putNode l { m with pairs := es }).putNode u
      (w.setKey (G.length + 1) x.1)).maintainChild r 0 = Except.ok t
    rw [hset, ← hs₁]
    exact ht
  · rw [k₂.content _ (Set.notMem_empty _), hl₁]
  · rw [k₂.content _ (Set.notMem_empty _), hr₁]
  · rw [k₂.content _ (Set.notMem_empty _), hu₁]
  · refine (k₁.mono ?_ (Set.empty_subset _) subset_rfl).trans
      (k₂.mono (Set.empty_subset _) (below_mono (by simp)) subset_rfl)
    rw [Set.insert_comm]
  · rw [hkeep, hel hleaf e (List.mem_append_left _ he)]
    rintro ⟨-, e', he', heq⟩
    rw [List.mem_singleton] at he'
    subst he'
    have := hd hleaf
    rw [List.append_assoc, List.map_append, List.nodup_append] at this
    exact this.2.2 _ (List.mem_map_of_mem he) e'.2.pageNo (by simp) heq.symm
  · rcases List.mem_cons.mp he with rfl | h
    · exact hpx hleaf
    · rw [hkeep, her hleaf e h]
      rintro ⟨-, e', he', heq⟩
      rw [List.mem_singleton] at he'
      subst he'
      have := hd hleaf
      rw [List.map_append, List.nodup_append] at this
      exact this.2.2 e'.2.pageNo (by simp) _ (List.mem_map_of_mem h) heq

end Redistribute

/-! ### `coalesce` -/

/-- `erase_leaf` takes leaf `r` out of the ring: only `next` of the leaf before it and `prev` of the leaf behind it
    change. -/
theorem eraseLeaf_spec {s : IxIndexHandle K} {l r x : Int} {fs : List (K × Rid)} (hr : s.content r = some (true, fs))
    (hprev : s.prevOf r = some l) (hnext : s.nextOf r = some x) (hl : ∃ y, s.nextOf l = some y) (hx : ∃ y, s.prevOf x = some y)
    (hlr : l ≠ r) (hxl : x ≠ l) (hl2 : l ≠ ixNoPage) (hx2 : x ≠ ixNoPage) :
    ∃ t, s.eraseLeaf r = .ok t ∧ Keeps s t ∅ ∅ Set.univ ∧ Hdr s t ∧ t.nextOf l = some x ∧ t.prevOf x = some l ∧
      (∀ y, y ≠ l → t.nextOf y = s.nextOf y) ∧ (∀ y, y ≠ x → t.prevOf y = s.prevOf y) := by
  obtain ⟨n, hn, hleaf, -⟩ := content_eq_some.mp hr
  have hnp : n.prevLeaf = l := by simpa [prevOf, hn] using hprev
  have hnn : n.nextLeaf = x := by simpa [nextOf, hn] using hnext
  obtain ⟨y, hy⟩ := hl
  obtain ⟨a, ha, -⟩ := nextOf_eq_some.mp hy
  obtain ⟨z, hz⟩ := hx
  obtain ⟨b, hb, -⟩ := prevOf_eq_some.mp hz
  let s₁ := s.putNode l { a with nextLeaf := x }
  have hn₁ : s₁.pages r = some n := by rw [pages_putNode_ne _ _ hlr.symm, hn]
  have hb₁ : s₁.pages x = some b := by rw [pages_putNode_ne _ _ hxl, hb]
  let t := s₁.putNode x { b with prevLeaf := l }
  have htl : t.pages l = some { a with nextLeaf := x } := by rw [pages_putNode_ne _ _ hxl.symm, pages_putNode_self]
  have k₁ : Keeps s s₁ ∅ ∅ {l} := Keeps.put_links ha a.prevLeaf x
  have k₂ : Keeps s₁ t ∅ ∅ {x} := Keeps.put_links hb₁ l b.nextLeaf
  refine ⟨t, ?_, (k₁.mono subset_rfl subset_rfl (Set.subset_univ _)).trans (k₂.mono subset_rfl subset_rfl (Set.subset_univ _)),
    (Hdr.put _ _ _).trans (Hdr.put _ _ _), by simp [nextOf, htl], by simp [t], fun y hy => ?_, fun y hy => ?_⟩
  · rw [eraseLeaf, fetchNode_ok hn, ok_bind, hleaf]
    simp only [Bool.not_true, Bool.false_eq_true, if_false, hnp, hnn, ne_eq, hl2, not_false_eq_true, if_true,
      modifyNode_ok ha, ok_bind]
    show (s₁.fetchNode r >>= _) = _
    rw [fetchNode_ok hn₁, ok_bind]
    simp only [hnn, hnp, hx2, not_false_eq_true, if_true]
    exact modifyNode_ok hb₁
  · by_cases hyx : y = x
    · subst hyx
      have : t.nextOf y = some b.nextLeaf := by simp [t]
      rw [this]
      simp [nextOf, hb]
    · rw [k₂.next _ hyx, k₁.next _ hy]
  · rw [k₂.prev _ hy]
    by_cases hyl : y = l
    · subst hyl
      have : s₁.prevOf y = some a.prevLeaf := by simp [s₁]
      rw [this]
      simp [prevOf, ha]
    · exact k₁.prev _ hyl

/-- The right one of two neighbouring nodes is merged into the left one: `fs` goes behind `es`, the parent loses the
    pair of the right node. -/
structure Joined (s t : IxIndexHandle K) (leaf : Bool) (l r u : Int) (es fs G H : List (K × Rid)) (el : K × Rid) : Prop where
  left : t.content l = some (leaf, es ++ fs)
  parent : t.content u = some (false, G ++ el :: H)
  keeps : Keeps s t {l, u} (below leaf fs) {_p | leaf = true}
  kids : leaf = false → ∀ e ∈ fs, t.parentOf e.2.pageNo = some l
  root : t.rootPage = s.rootPage
  first : t.firstLeaf = s.firstLeaf
  last : t.lastLeaf = if leaf = true ∧ r = s.lastLeaf then l else s.lastLeaf
  fd : t.fd2pageno = s.fd2pageno
  counters : Counters s → Counters t
  next : leaf = true → t.nextOf l = s.nextOf r ∧ ∀ y, y ≠ l → t.nextOf y = s.nextOf y
  prev : leaf = true → (∀ x, s.nextOf r = some x → t.prevOf x = some l) ∧ ∀ y, s.nextOf r ≠ some y → t.prevOf y = s.prevOf y

/-- What `coalesce` needs of the leaf ring. -/
def RingAt (s : IxIndexHandle K) (l r : Int) : Prop :=
  s.prevOf r = some l ∧ (∃ y, s.nextOf l = some y) ∧ ∃ x, s.nextOf r = some x ∧ x ≠ l ∧ x ≠ ixNoPage ∧ ∃ y, s.prevOf x = some y

section Coalesce
variable {s : IxIndexHandle K} {leaf : Bool} {l r u : Int} {es fs G H : List (K × Rid)} {el er : K × Rid}

/-- The pages after the first part of `coalesce`: the right node's pairs are in the left node. -/
theorem mergePairs_spec (hl : s.content l = some (leaf, es)) (hr : s.content r = some (leaf, fs)) (hlr : l ≠ r)
    (hl2 : l ≠ ixNoPage) (hfs : leaf = false → ∀ e ∈ fs, ∃ q, s.parentOf e.2.pageNo = some q) (hring : leaf = true → RingAt s l r) :
    ∃ n m t, s.pages l = some n ∧ n.pairs = es ∧ s.pages r = some m ∧ m.pairs = fs ∧ m.isLeaf = leaf ∧
      (if !m.isLeaf then (s.putNode l { n with pairs := es ++ fs }).maintainChildren l es.length fs.length
        else do
          let s ← (s.putNode l { n with pairs := es ++ fs }).eraseLeaf r
          .ok (if r = s.lastLeaf then { s with lastLeaf := l } else s)) = .ok t ∧
      t.content l = some (leaf, es ++ fs) ∧ Keeps s t {l} (below leaf fs) {_p | leaf = true} ∧
      (leaf = false → ∀ e ∈ fs, t.parentOf e.2.pageNo = some l) ∧ t.rootPage = s.rootPage ∧ t.firstLeaf = s.firstLeaf ∧
      t.lastLeaf = (if leaf = true ∧ r = s.lastLeaf then l else s.lastLeaf) ∧ t.fd2pageno = s.fd2pageno ∧
      t.filePages = s.filePages ∧ t.numPages = s.numPages ∧
      (leaf = true → t.nextOf l = s.nextOf r ∧ ∀ y, y ≠ l → t.nextOf y = s.nextOf y) ∧
      (leaf = true → (∀ x, s.nextOf r = some x → t.prevOf x = some l) ∧ ∀ y, s.nextOf r ≠ some y → t.prevOf y = s.prevOf y) := by
  obtain ⟨n, hn, hnl, hne⟩ := content_eq_some.mp hl
  obtain ⟨m, hm, hml, hme⟩ := content_eq_some.mp hr
  let s₁ := s.putNode l { n with pairs := es ++ fs }
  have k₁ : Keeps s s₁ {l} ∅ ∅ := Keeps.put_pairs hn rfl rfl rfl
  have hc₁ : s₁.content l = some (leaf, es ++ fs) := by simp [s₁, hnl]
  cases leaf with
  | false =>
    obtain ⟨t, ht, k₂, hpar, hd⟩ := maintainChildren_spec (s := s₁) (p := l) (X := es) (Y := fs) (Z := [])
      (by simpa using hc₁) (fun e he => by
        obtain ⟨q, hq⟩ := hfs rfl e he
        exact ⟨q, by rw [k₁.parent _ (Set.notMem_empty _), hq]⟩)
    refine ⟨n, m, t, hn, hne, hm, hme, hml, ?_, ?_, ?_, fun _ => hpar, hd.root, hd.first, (by rw [if_neg (by simp)]; exact hd.last), hd.fd, hd.file,
      hd.num, by simp, by simp⟩
    · simpa [hml] using ht
    · rw [k₂.content _ (Set.notMem_empty _), hc₁]
    · refine (k₁.mono subset_rfl (Set.empty_subset _) (Set.empty_subset _)).trans
        (k₂.mono (Set.empty_subset _) (fun p hp => ⟨rfl, hp⟩) (Set.empty_subset _))
  | true =>
    obtain ⟨hprev, ⟨y, hy⟩, x, hx, hxl, hx2, z, hz⟩ := hring rfl
    have hr₁ : s₁.content r = some (true, fs) := by rw [k₁.content _ hlr.symm, hr]
    obtain ⟨s₂, he, k₂, hd, hnl₂, hpx₂, hnext, hprevk⟩ := eraseLeaf_spec hr₁
      (by rw [k₁.prev _ (Set.notMem_empty _), hprev]) (by rw [k₁.next _ (Set.notMem_empty _), hx])
      ⟨y, by rw [k₁.next _ (Set.notMem_empty _), hy]⟩ ⟨z, by rw [k₁.prev _ (Set.notMem_empty _), hz]⟩ hlr hxl hl2 hx2
    obtain ⟨t, ht⟩ : ∃ t, t = if r = s₂.lastLeaf then { s₂ with lastLeaf := l } else s₂ := ⟨_, rfl⟩
    have hpages : t.pages = s₂.pages := by rw [ht]; split <;> rfl
    have k₃ : Keeps s₂ t ∅ ∅ ∅ := Keeps.of_pages hpages
    have hlast : s₂.lastLeaf = s.lastLeaf := hd.last
    refine ⟨n, m, t, hn, hne, hm, hme, hml, ?_, ?_, ?_, by simp, ?_, ?_, ?_, ?_, ?_, ?_, ?_, ?_⟩
    · rw [hml]
      simp only [Bool.not_true, Bool.false_eq_true, if_false]
      rw [show (s.putNode l { n with pairs := es ++ fs }).eraseLeaf r = _ from he, ok_bind, ht]
    · rw [k₃.content _ (Set.notMem_empty _), k₂.content _ (Set.notMem_empty _), hc₁]
    · have huniv : {_p : Int | true = true} = Set.univ := by simp
      rw [huniv]
      exact ((k₁.mono subset_rfl (Set.empty_subset _) (Set.subset_univ _)).trans
        (k₂.mono (Set.empty_subset _) (Set.empty_subset _) subset_rfl)).trans
        (k₃.mono (Set.empty_subset _) (Set.empty_subset _) (Set.empty_subset _))
    · rw [ht]
      split <;> exact hd.root
    · rw [ht]
      split <;> exact hd.first
    · rw [ht, hlast]
      by_cases h : r = s.lastLeaf
      · simp [h]
      · simp [h, hlast]
    · rw [ht]
      split <;> exact hd.fd
    · rw [ht]
      split <;> exact hd.file
    · rw [ht]
      split <;> exact hd.num
    · refine fun _ => ⟨?_, fun y hy => ?_⟩
      · rw [k₃.next _ (Set.notMem_empty _), hnl₂, hx]
      · rw [k₃.next _ (Set.notMem_empty _), hnext y hy, k₁.next _ (Set.notMem_empty _)]
    · refine fun _ => ⟨fun w hw => ?_, fun w hw => ?_⟩
      · rw [hx] at hw
        cases hw
        rw [k₃.prev _ (Set.notMem_empty _), hpx₂]
      · have hwx : w ≠ x := fun heq => hw (heq ▸ hx)
        rw [k₃.prev _ (Set.notMem_empty _), hprevk w hwx, k₁.prev _ (Set.notMem_empty _)]

/-- `coalesce` joins the two nodes; a parent that is not the root and became too small is repaired next. -/
theorem coalesce_spec (f : IxFormat K) (again : IxIndexHandle K → Int → Except IxError (IxIndexHandle K × Bool))
    (neighbor node : Int) (index : Nat) {q : Int} (hl : s.content l = some (leaf, es)) (hr : s.content r = some (leaf, fs))
    (hu : s.content u = some (false, G ++ el :: er :: H)) (hq : s.parentOf u = some q) (hlr : l ≠ r) (hlu : l ≠ u)
    (hl2 : l ≠ ixNoPage) (huf : leaf = false → u ∉ kids fs)
    (hfs : leaf = false → ∀ e ∈ fs, ∃ q, s.parentOf e.2.pageNo = some q) (hring : leaf = true → RingAt s l r)
    (horient : (if index = 0 then (node, neighbor, index + 1) else (neighbor, node, index)) = (l, r, G.length + 1)) :
    ∃ t, Joined s t leaf l r u es fs G H el ∧ s.coalesce f again neighbor node u index =
      if (G ++ el :: H).length < f.minSize ∧ q ≠ ixNoPage then again t u else .ok (t, false) := by
  obtain ⟨n, m, s₁, hn, hne, hm, hme, hml, hrun, hcl, k₁, hkids, hroot, hfirst, hlast, hfd, hfile, hnum, hnext, hprev⟩ :=
    mergePairs_spec hl hr hlr hl2 hfs hring
  let s₂ := s₁.releaseNodeHandle
  have hu₂ : s₂.content u = some (false, G ++ el :: er :: H) := by
    show s₁.content u = _
    rw [k₁.content _ (fun h => hlu (Set.mem_singleton_iff.mp h).symm), hu]
  have hq₂ : s₂.parentOf u = some q := by
    show s₁.parentOf u = _
    rw [k₁.parent _ (fun h => huf h.1 h.2), hq]
  obtain ⟨w, hw, hwl, hwe, hwq⟩ := exists_node hu₂ hq₂
  let t := s₂.putNode u { w with pairs := G ++ el :: H }
  have k₂ : Keeps s₁ t {u} ∅ ∅ :=
    (Keeps.of_pages rfl : Keeps s₁ s₂ {u} ∅ ∅).trans (Keeps.put_pairs hw rfl rfl rfl)
  refine ⟨t, ⟨?_, by simp [t, hwl], ?_, fun hleaf e he => ?_, hroot, hfirst, hlast, hfd, fun hc => ⟨?_, ?_⟩, fun hleaf => ?_,
    fun hleaf => ?_⟩, ?_⟩
  · rw [k₂.content _ hlu]
    exact hcl
  · exact (k₁.mono (by simp) subset_rfl subset_rfl).trans (k₂.mono (by simp) (Set.empty_subset _) (Set.empty_subset _))
  · rw [k₂.parent _ (Set.notMem_empty _)]
    exact hkids hleaf e he
  · have := hc.num
    show s₁.numPages - 1 ≤ s₁.fd2pageno
    omega
  · have := hc.file
    show s₁.fd2pageno ≤ s₁.filePages
    omega
  · refine ⟨?_, fun y hy => ?_⟩
    · rw [k₂.next _ (Set.notMem_empty _)]
      exact (hnext hleaf).1
    · rw [k₂.next _ (Set.notMem_empty _)]
      exact (hnext hleaf).2 y hy
  · refine ⟨fun x hx => ?_, fun y hy => ?_⟩
    · rw [k₂.prev _ (Set.notMem_empty _)]
      exact (hprev hleaf).1 x hx
    · rw [k₂.prev _ (Set.notMem_empty _)]
      exact (hprev hleaf).2 y hy
  · have hins : n.insertPairs n.size m.pairs = .ok { n with pairs := es ++ fs } := by
      simp [IxNode.insertPairs, IxNode.size, hne, hme]
    have herase : w.erasePair (G.length + 1) = .ok { w with pairs := G ++ el :: H } := by
      have : G ++ el :: er :: H = (G ++ [el]) ++ er :: H := by simp
      have hlen : G.length + 1 = (G ++ [el]).length := by simp
      simp only [IxNode.erasePair, IxNode.size, hwe, this, hlen]
      simp [List.eraseIdx_append_of_length_le]
    have hsize : ({ n with pairs := es ++ fs } : IxNode K).size - n.size = fs.length := by simp [IxNode.size, hne]
    have hnsize : n.size = es.length := by rw [IxNode.size, hne]
    have hpos : ¬((({ w with pairs := G ++ el :: H } : IxNode K).size = 0 &&
        ({ w with pairs := G ++ el :: H } : IxNode K).isRootPage) = true) := by
      simp [IxNode.size]
    have hcond : (({ w with pairs := G ++ el :: H } : IxNode K).size < f.minSize &&
        !({ w with pairs := G ++ el :: H } : IxNode K).isRootPage) = true ↔ (G ++ el :: H).length < f.minSize ∧ q ≠ ixNoPage := by
      simp [IxNode.size, IxNode.isRootPage, hwq]
    simp only [coalesce, horient, fetchNode_ok hm, fetchNode_ok hn, ok_bind, hins, hsize]
    simp only [hnsize]
    by_cases hb : (!m.isLeaf) = true
    · rw [if_pos hb] at hrun ⊢
      rw [hrun, ok_bind]
      show (s₂.fetchNode u >>= _) = _
      rw [fetchNode_ok hw, ok_bind, herase, ok_bind]
      simp only [if_neg hpos, hcond]
      rfl
    · rw [if_neg hb] at hrun ⊢
      cases he : (s.putNode l { n with pairs := es ++ fs }).eraseLeaf r with
      | error err =>
        rw [he] at hrun
        cases hrun
      | ok s' =>
        rw [he, ok_bind, Except.ok.injEq] at hrun
        rw [ok_bind, hrun]
        show (s₂.fetchNode u >>= _) = _
        rw [fetchNode_ok hw, ok_bind, herase, ok_bind]
        simp only [if_neg hpos, hcond]
        rfl

end Coalesce

end IxIndexHandle
end Rmdb
