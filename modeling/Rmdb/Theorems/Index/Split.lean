import Rmdb.Theorems.Index.Levels

/-! `split` and `insert_into_parent`: what they do to the pages, and that the levels stay linked. -/

namespace Rmdb
open Ladder

namespace IxIndexHandle
variable {K : Type}

/-- `t` has the header of `s`, and one page more is allocated. -/
structure Allocated (s t : IxIndexHandle K) : Prop where
  root : t.rootPage = s.rootPage
  first : t.firstLeaf = s.firstLeaf
  last : t.lastLeaf = s.lastLeaf
  fd : t.fd2pageno = s.fd2pageno + 1
  counters : Counters s → Counters t

theorem Allocated.create (s : IxIndexHandle K) : Allocated s s.createNode.1 := ⟨rfl, rfl, rfl, rfl, Counters.create⟩

theorem Allocated.hdr {s t u : IxIndexHandle K} (h : Allocated s t) (k : Hdr t u) : Allocated s u :=
  ⟨k.root.trans h.root, k.first.trans h.first, k.last.trans h.last, k.fd.trans h.fd, fun hc => (h.counters hc).of_hdr k⟩

/-- The pages after the leaf part of `split`. -/
theorem linkLeaf_spec {s : IxIndexHandle K} {p q nx : Int} {n w x : IxNode K} (hn : s.pages p = some n)
    (hw : s.pages q = some w) (hx : s.pages nx = some x) (hnx : n.nextLeaf = nx) (hpq : p ≠ q) (hxp : nx ≠ p)
    (hxq : nx ≠ q) : ∃ t, s.linkLeaf p q = .ok t ∧ t.pages p = some { n with nextLeaf := q } ∧
      t.pages q = some { w with prevLeaf := p, nextLeaf := nx } ∧ t.pages nx = some { x with prevLeaf := q } ∧
      (∀ y, y ≠ p → y ≠ q → y ≠ nx → t.pages y = s.pages y) ∧ Hdr s t := by
  let s₁ := s.putNode q { w with prevLeaf := p, nextLeaf := nx }
  have h₁ : s₁.pages p = some n := by rw [pages_putNode_ne _ _ hpq, hn]
  let s₂ := s₁.putNode p { n with nextLeaf := q }
  have h₂ : s₂.pages q = some { w with prevLeaf := p, nextLeaf := nx } := by
    rw [pages_putNode_ne _ _ hpq.symm, pages_putNode_self]
  have h₃ : s₂.pages nx = some x := by rw [pages_putNode_ne _ _ hxp, pages_putNode_ne _ _ hxq, hx]
  refine ⟨s₂.putNode nx { x with prevLeaf := q }, ?_, ?_, ?_, ?_, ?_, ?_⟩
  · rw [linkLeaf, fetchNode_ok hn, ok_bind, modifyNode_ok hw, ok_bind, hnx, modifyNode_ok h₁, ok_bind, fetchNode_ok h₂,
      ok_bind]
    exact modifyNode_ok h₃
  · rw [pages_putNode_ne _ _ hxp.symm, pages_putNode_self]
  · rw [pages_putNode_ne _ _ hxq.symm]
    exact h₂
  · rw [pages_putNode_self]
  · intro y hyp hyq hyx
    rw [pages_putNode_ne _ _ hyx, pages_putNode_ne _ _ hyp, pages_putNode_ne _ _ hyq]
  · exact ((Hdr.put _ _ _).trans (Hdr.put _ _ _)).trans (Hdr.put _ _ _)

section Split
variable {f : IxFormat K} {s : IxIndexHandle K} {p r : Int} {es : List (K × Rid)}

/-- `split` of a leaf: the pairs are shared out, and the new leaf goes into the ring behind the old one. -/
theorem split_leaf {nx : Int} (hc : s.content p = some (true, es)) (hp : s.parentOf p = some r) (hnx : s.nextOf p = some nx)
    (hx : ∃ y, s.prevOf nx = some y) (hpq : p ≠ s.fd2pageno) (hxp : nx ≠ p) (hxq : nx ≠ s.fd2pageno) :
    ∃ t, s.split f p = .ok (t, s.fd2pageno) ∧ t.content p = some (true, es.take f.minSize) ∧
      t.content s.fd2pageno = some (true, es.drop f.minSize) ∧ t.parentOf s.fd2pageno = some r ∧
      Keeps s t {p, s.fd2pageno} {s.fd2pageno} Set.univ ∧ Allocated s t ∧
      t.nextOf p = some s.fd2pageno ∧ t.nextOf s.fd2pageno = some nx ∧ t.prevOf s.fd2pageno = some p ∧
      t.prevOf nx = some s.fd2pageno ∧ (∀ y, y ≠ p → y ≠ s.fd2pageno → t.nextOf y = s.nextOf y) ∧
      (∀ y, y ≠ s.fd2pageno → y ≠ nx → t.prevOf y = s.prevOf y) := by
  obtain ⟨n, hn, hleaf, rfl, rfl⟩ := exists_node hc hp
  obtain ⟨n', hn', hnext⟩ := nextOf_eq_some.mp hnx
  rw [hn] at hn'
  cases hn'
  obtain ⟨y, hy⟩ := hx
  obtain ⟨x, hx, -⟩ := prevOf_eq_some.mp hy
  have hc₀ := createNode_keeps s
  generalize hq : s.fd2pageno = q at *
  let s₀ := s.createNode.1
  have hpages₀ : s₀.pages = (s.putNode q zeroNode).pages := by rw [← hq]; rfl
  have hn₀ : s₀.pages p = some n := by rw [hpages₀, pages_putNode_ne _ _ hpq, hn]
  have hw₀ : s₀.pages q = some zeroNode := by rw [hpages₀, pages_putNode_self]
  have hx₀ : s₀.pages nx = some x := by rw [hpages₀, pages_putNode_ne _ _ hxq, hx]
  obtain ⟨s₁, hlink, hp₁, hq₁, hx₁, hrest₁, hd₁⟩ := linkLeaf_spec hn₀ hw₀ hx₀ hnext hpq hxp hxq
  -- the new leaf takes the header fields and the right half
  let w : IxNode K := { parent := n.parent, isLeaf := true, prevLeaf := p, nextLeaf := nx, pairs := n.pairs.drop f.minSize }
  let s₂ := s₁.putNode q { w with pairs := [] }
  let s₃ := s₂.putNode q w
  let n₃ : IxNode K := { n with nextLeaf := q, pairs := n.pairs.take f.minSize }
  have hp₃ : s₃.pages p = some { n with nextLeaf := q } := by
    rw [pages_putNode_ne _ _ hpq, pages_putNode_ne _ _ hpq, hp₁]
  let t := s₃.putNode p n₃
  have htp : t.pages p = some n₃ := pages_putNode_self _ _ _
  have htq : t.pages q = some w := by rw [pages_putNode_ne _ _ hpq.symm, pages_putNode_self]
  have htx : t.pages nx = some { x with prevLeaf := q } := by
    rw [pages_putNode_ne _ _ hxp, pages_putNode_ne _ _ hxq, pages_putNode_ne _ _ hxq, hx₁]
  have hty : ∀ y, y ≠ p → y ≠ q → y ≠ nx → t.pages y = s.pages y := by
    intro y hyp hyq hyx
    rw [pages_putNode_ne _ _ hyp, pages_putNode_ne _ _ hyq, pages_putNode_ne _ _ hyq, hrest₁ y hyp hyq hyx, hpages₀,
      pages_putNode_ne _ _ hyq]
  refine ⟨t, ?_, ?_, ?_, ?_, ⟨fun y hy => ?_, fun y hy => ?_, fun y hy => absurd (Set.mem_univ y) hy,
    fun y hy => absurd (Set.mem_univ y) hy⟩, ?_, ?_, ?_, ?_, ?_, fun y hyp hyq => ?_, fun y hyq hyx => ?_⟩
  · have hcreate : s.createNode = (s₀, q) := by rw [← hq]; rfl
    simp only [split, hcreate, fetchNode_ok hn₀, ok_bind, hleaf, if_true, hlink, modifyNode_ok hq₁]
    have hw₂ : s₂.pages q = some { w with pairs := [] } := pages_putNode_self _ _ _
    have hins : IxNode.insertPairs { w with pairs := [] } 0 (n.pairs.drop f.minSize) = .ok w := by
      simp [IxNode.insertPairs, w]
    show (s₂.fetchNode q >>= _) = _
    simp only [fetchNode_ok hw₂, ok_bind, hins]
    show ((s₃.modifyNode p _) >>= _) = _
    rw [modifyNode_ok hp₃]
    rfl
  · simp [content, htp, n₃, hleaf]
  · simp [content, htq, w]
  · simp [parentOf, htq, w]
  · simp only [Set.mem_insert_iff, Set.mem_singleton_iff, not_or] at hy
    by_cases hyx : y = nx
    · subst hyx; simp [content, htx, hx]
    · simp only [content, hty y hy.1 hy.2 hyx]
  · by_cases hyx : y = nx
    · subst hyx; simp [parentOf, htx, hx]
    · by_cases hyp : y = p
      · subst hyp; simp [parentOf, htp, n₃, hn]
      · simp only [parentOf, hty y hyp hy hyx]
  · exact (Allocated.create s).hdr (((hd₁.trans (Hdr.put _ _ _)).trans (Hdr.put _ _ _)).trans (Hdr.put _ _ _))
  · simp [nextOf, htp, n₃]
  · simp [nextOf, htq, w]
  · simp [prevOf, htq, w]
  · simp [prevOf, htx]
  · by_cases hyx : y = nx
    · subst hyx; simp [nextOf, htx, hx]
    · simp only [nextOf, hty y hyp hyq hyx]
  · by_cases hyp : y = p
    · subst hyp; simp [prevOf, htp, n₃, hn]
    · simp only [prevOf, hty y hyp hyq hyx]

/-- `split` of an internal node: the pairs are shared out, and the children of the right half get the new
    node as their parent. -/
theorem split_internal (hc : s.content p = some (false, es)) (hp : s.parentOf p = some r) (hpq : p ≠ s.fd2pageno)
    (hkids : ∀ e ∈ es, e.2.pageNo ≠ s.fd2pageno ∧ ∃ y, s.parentOf e.2.pageNo = some y) :
    ∃ t, s.split f p = .ok (t, s.fd2pageno) ∧ t.content p = some (false, es.take f.minSize) ∧
      t.content s.fd2pageno = some (false, es.drop f.minSize) ∧ t.parentOf s.fd2pageno = some r ∧
      (∀ e ∈ es.drop f.minSize, t.parentOf e.2.pageNo = some s.fd2pageno) ∧
      Keeps s t {p, s.fd2pageno} ({s.fd2pageno} ∪ kids (es.drop f.minSize)) {s.fd2pageno} ∧ Allocated s t := by
  obtain ⟨n, hn, hleaf, rfl, rfl⟩ := exists_node hc hp
  have k₀ := createNode_keeps s
  generalize hq : s.fd2pageno = q at *
  let s₀ := s.createNode.1
  have hpages₀ : s₀.pages = (s.putNode q zeroNode).pages := by rw [← hq]; rfl
  have hn₀ : s₀.pages p = some n := by rw [hpages₀, pages_putNode_ne _ _ hpq, hn]
  have hw₀ : s₀.pages q = some zeroNode := by rw [hpages₀, pages_putNode_self]
  let w₁ : IxNode K := { parent := n.parent, isLeaf := false, prevLeaf := 0, nextLeaf := 0, pairs := [] }
  let w : IxNode K := { w₁ with pairs := n.pairs.drop f.minSize }
  let s₁ := s₀.putNode q w₁
  have hw₁ : s₁.pages q = some w₁ := pages_putNode_self _ _ _
  let s₂ := s₁.putNode q w
  have hp₂ : s₂.pages p = some n := by rw [pages_putNode_ne _ _ hpq, pages_putNode_ne _ _ hpq, hn₀]
  let n₃ : IxNode K := { n with pairs := n.pairs.take f.minSize }
  let s₃ := s₂.putNode p n₃
  have hq₃ : s₃.pages q = some w := by rw [pages_putNode_ne _ _ hpq.symm, pages_putNode_self]
  have hp₃ : s₃.pages p = some n₃ := pages_putNode_self _ _ _
  have k₃ : Keeps s s₃ {p, q} {q} {q} := by
    have j₁ : Keeps s₀ s₁ {q} {q} ∅ := Keeps.put hw₀ rfl rfl
    have j₂ : Keeps s₁ s₂ {q} {q} ∅ := Keeps.put hw₁ rfl rfl
    have j₃ : Keeps s₂ s₃ {p} ∅ ∅ := Keeps.put_pairs hp₂ rfl rfl rfl
    exact (((k₀.mono (by simp) subset_rfl subset_rfl).trans (j₁.mono (by simp) subset_rfl (by simp))).trans
      (j₂.mono (by simp) subset_rfl (by simp))).trans (j₃.mono (by simp) (by simp) (by simp))
  have hchildren : ∀ e ∈ n.pairs.drop f.minSize, ∃ y, s₃.parentOf e.2.pageNo = some y := by
    intro e he
    obtain ⟨hne, y, hy⟩ := hkids e (List.mem_of_mem_drop he)
    exact ⟨y, by rw [k₃.parent _ hne, hy]⟩
  obtain ⟨t, hmaint, k₄, hpar, hd₄⟩ := maintainChildren_spec (p := q) (X := []) (Z := []) (Y := n.pairs.drop f.minSize)
    (s := s₃) (by simp [content, hq₃, w, w₁]) hchildren
  refine ⟨t, ?_, ?_, ?_, ?_, hpar, ?_, ?_⟩
  · have hcreate : s.createNode = (s₀, q) := by rw [← hq]; rfl
    simp only [split, hcreate, fetchNode_ok hn₀, ok_bind, hleaf, Bool.false_eq_true, if_false, modifyNode_ok hw₀]
    have hins : IxNode.insertPairs w₁ 0 (n.pairs.drop f.minSize) = .ok w := by simp [IxNode.insertPairs, w, w₁]
    show (s₁.fetchNode q >>= _) = _
    simp only [fetchNode_ok hw₁, ok_bind, hins]
    show ((s₂.modifyNode p _) >>= _) = _
    rw [modifyNode_ok hp₂, ok_bind]
    show (s₃.maintainChildren q 0 (n.pairs.drop f.minSize).length >>= _) = _
    rw [show s₃.maintainChildren q 0 (n.pairs.drop f.minSize).length = .ok t from hmaint]
    rfl
  · rw [k₄.content _ (Set.notMem_empty _)]
    simp [content, hp₃, n₃, hleaf]
  · rw [k₄.content _ (Set.notMem_empty _)]
    simp [content, hq₃, w, w₁]
  · have hqk : q ∉ kids (n.pairs.drop f.minSize) := by
      rintro ⟨e, he, heq⟩
      exact (hkids e (List.mem_of_mem_drop he)).1 heq
    rw [k₄.parent _ hqk]
    simp [parentOf, hq₃, w, w₁]
  · exact (k₃.mono subset_rfl (by simp) subset_rfl).trans (k₄.mono (by simp) (by simp) (by simp))
  · exact (Allocated.create s).hdr ((((Hdr.put _ _ _).trans (Hdr.put _ _ _)).trans (Hdr.put _ _ _)).trans hd₄)

end Split

/-! ### `insert_into_parent` -/

/-- The root case: a new root above the old one and its new sibling. -/
theorem newRoot_spec {s : IxIndexHandle K} {old new ro rn : Int} {leaf : Bool} {x : K × Rid} {xs : List (K × Rid)} (key : K)
    (hc : s.content old = some (leaf, x :: xs)) (ho : s.parentOf old = some ro) (hn : s.parentOf new = some rn)
    (hold : old ≠ s.fd2pageno) (hnew : new ≠ s.fd2pageno) (hne : old ≠ new) :
    ∃ t, s.newRoot old key new = .ok t ∧ t.content s.fd2pageno = some (false, [(x.1, ⟨old, -1⟩), (key, ⟨new, -1⟩)]) ∧
      t.parentOf s.fd2pageno = some ixNoPage ∧ t.parentOf old = some s.fd2pageno ∧ t.parentOf new = some s.fd2pageno ∧
      Keeps s t {s.fd2pageno} {s.fd2pageno, old, new} {s.fd2pageno} ∧ t.rootPage = s.fd2pageno ∧
      t.firstLeaf = s.firstLeaf ∧ t.lastLeaf = s.lastLeaf ∧ t.fd2pageno = s.fd2pageno + 1 ∧ (Counters s → Counters t) := by
  obtain ⟨o, hon, -, hopairs, -⟩ := exists_node hc ho
  obtain ⟨w, hwn, -⟩ := parentOf_eq_some.mp hn
  have k₀ := createNode_keeps s
  have a₀ := Allocated.create s
  generalize hq : s.fd2pageno = q at *
  let s₀ := s.createNode.1
  have hpages₀ : s₀.pages = (s.putNode q zeroNode).pages := by rw [← hq]; rfl
  have ho₀ : s₀.pages old = some o := by rw [hpages₀, pages_putNode_ne _ _ hold, hon]
  have hw₀ : s₀.pages new = some w := by rw [hpages₀, pages_putNode_ne _ _ hnew, hwn]
  let root : IxNode K := { parent := ixNoPage, isLeaf := false, prevLeaf := ixNoPage, nextLeaf := ixNoPage,
                           pairs := [(x.1, ⟨old, -1⟩), (key, ⟨new, -1⟩)] }
  let s₁ := s₀.putNode q root
  have ho₁ : s₁.pages old = some o := by rw [pages_putNode_ne _ _ hold, ho₀]
  let s₂ := s₁.putNode old { o with parent := q }
  have hw₂ : s₂.pages new = some w := by rw [pages_putNode_ne _ _ hne.symm, pages_putNode_ne _ _ hnew, hw₀]
  let s₃ := s₂.putNode new { w with parent := q }
  have hq₃ : s₃.pages q = some root := by
    rw [pages_putNode_ne _ _ hnew.symm, pages_putNode_ne _ _ hold.symm, pages_putNode_self]
  have j₁ : Keeps s s₁ {q} {q} {q} := by
    refine k₀.trans ⟨fun y hy => ?_, fun y hy => ?_, fun y hy => ?_, fun y hy => ?_⟩
    · simp only [content, pages_putNode_ne _ _ hy, s₁, s₀]
    · simp only [parentOf, pages_putNode_ne _ _ hy, s₁, s₀]
    · simp only [nextOf, pages_putNode_ne _ _ hy, s₁, s₀]
    · simp only [prevOf, pages_putNode_ne _ _ hy, s₁, s₀]
  have j₂ : Keeps s₁ s₂ ∅ {old} ∅ := Keeps.put_parent ho₁ q
  have j₃ : Keeps s₂ s₃ ∅ {new} ∅ := Keeps.put_parent hw₂ q
  refine ⟨{ s₃ with rootPage := q }, ?_, ?_, ?_, ?_, ?_, ?_, rfl, rfl, rfl, a₀.fd.trans (by rw [hq]), ?_⟩
  · have hcreate : s.createNode = (s₀, q) := by rw [← hq]; rfl
    have hkey : o.keyAt 0 = .ok x.1 := by simp [IxNode.keyAt, hopairs]
    simp only [newRoot, hcreate, fetchNode_ok ho₀, ok_bind, hkey, IxNode.insertPairs, IxNode.size]
    show ((s₁.modifyNode old _) >>= _) = _
    rw [modifyNode_ok ho₁, ok_bind]
    show ((s₂.modifyNode new _) >>= _) = _
    rw [modifyNode_ok hw₂, ok_bind]
  · show s₃.content q = _
    simp [content, hq₃, root]
  · show s₃.parentOf q = _
    simp [parentOf, hq₃, root]
  · show s₃.parentOf old = _
    rw [j₃.parent _ hne]
    simp [s₂]
  · show s₃.parentOf new = _
    simp [s₃]
  · refine Keeps.trans (t := s₃) ?_ (Keeps.of_pages rfl)
    exact ((j₁.mono subset_rfl (by simp) subset_rfl).trans (j₂.mono (by simp) (by simp) (by simp))).trans
      (j₃.mono (by simp) (by simp) (by simp))
  · intro h
    have h₃ := (a₀.counters h).of_hdr (((Hdr.put _ _ _).trans (Hdr.put _ _ _)).trans (Hdr.put _ _ _) : Hdr s₀ s₃)
    exact ⟨h₃.num, h₃.file⟩

/-- Every level but the root's has at least two nodes. -/
def Wide : IxLevel K → List (IxLevel K) → Prop
  | _, [] => True
  | L, U :: Us => 2 ≤ L.length ∧ Wide U Us

theorem Wide.mono {L M : IxLevel K} {Us : List (IxLevel K)} (h : Wide L Us) (hlen : L.length ≤ M.length) : Wide M Us := by
  cases Us with
  | nil => trivial
  | cons U Us => exact ⟨h.1.trans hlen, h.2⟩

theorem length_of_shape {L M : IxLevel K} (h : shape M = shape L) : M.length = L.length := by
  simpa [shape] using congrArg List.length h

theorem Wide.of_shape {L M : IxLevel K} {Us Vs : List (IxLevel K)} (h : Wide L Us) (hL : L.length ≤ M.length)
    (hs : Vs.map shape = Us.map shape) : Wide M Vs := by
  induction Us generalizing L M Vs with
  | nil =>
    rw [List.map_nil, List.map_eq_nil_iff] at hs
    rw [hs]
    trivial
  | cons U Us ih =>
    cases Vs with
    | nil => cases hs
    | cons V Vs =>
      simp only [List.map_cons, List.cons.injEq] at hs
      exact ⟨h.1.trans hL, ih h.2 (length_of_shape hs.1).ge hs.2⟩

/-- `t` has the leaves of the header of `s`, and pages were only allocated. -/
structure Grows (s t : IxIndexHandle K) : Prop where
  first : t.firstLeaf = s.firstLeaf
  last : t.lastLeaf = s.lastLeaf
  fd : s.fd2pageno ≤ t.fd2pageno
  counters : Counters s → Counters t

theorem Grows.trans {s t u : IxIndexHandle K} (h : Grows s t) (k : Grows t u) : Grows s u :=
  ⟨k.first.trans h.first, k.last.trans h.last, h.fd.trans k.fd, fun hc => k.counters (h.counters hc)⟩

theorem Hdr.grows {s t : IxIndexHandle K} (h : Hdr s t) : Grows s t :=
  ⟨h.first, h.last, h.fd.ge, fun hc => hc.of_hdr h⟩

theorem Allocated.grows {s t : IxIndexHandle K} (h : Allocated s t) : Grows s t :=
  ⟨h.first, h.last, by rw [h.fd]; omega, h.counters⟩

theorem ids_perm (A B : IxLevel K) (o w : Block Int K Rid) (M : List Int) :
    (ids (A ++ o :: w :: B) ++ M).Perm (w.id :: (ids (A ++ o :: B) ++ M)) := by
  have := @List.perm_middle _ w.id (ids A ++ [o.id]) (ids B ++ M)
  simpa using this

/-- A level in which block `w` has been split off block `o` and is not in the parent yet. -/
structure Halved (s : IxIndexHandle K) (leaf : Bool) (A : IxLevel K) (o w : Block Int K Rid) (B : IxLevel K)
    (Us : List (IxLevel K)) : Prop where
  stored : Stored s leaf (A ++ o :: w :: B)
  above : Above s (A ++ o :: B) Us
  nodup : (ids (A ++ o :: w :: B) ++ idsUp Us).Nodup
  bound : ∀ p ∈ ids (A ++ o :: w :: B) ++ idsUp Us, 2 ≤ p ∧ p < s.fd2pageno
  left : o.entries ≠ []
  right : w.entries ≠ []
  parent : s.parentOf w.id = s.parentOf o.id

/-- What `insert_into_parent` has done: the new block is in its level, and only the levels above it and new
    pages were written. -/
structure Adopted (f : IxFormat K) (s : IxIndexHandle K) (leaf : Bool) (A : IxLevel K) (o w : Block Int K Rid)
    (B : IxLevel K) (Us : List (IxLevel K)) (t : IxIndexHandle K) (Vs : List (IxLevel K)) : Prop where
  tower : Tower t leaf (A ++ o :: w :: B) Vs
  filled : ∀ V ∈ Vs, Filled f V
  fresh : ∀ p ∈ idsUp Vs, p ∈ idsUp Us ∨ s.fd2pageno ≤ p
  keeps : Keeps s t {p | p ∈ idsUp Us ∨ s.fd2pageno ≤ p}
    {p | p ∈ ids (A ++ o :: w :: B) ∨ p ∈ idsUp Us ∨ s.fd2pageno ≤ p} {p | s.fd2pageno ≤ p}
  grows : Grows s t
  wide : Wide (A ++ o :: B) Us → Wide (A ++ o :: w :: B) Vs

section Adopt
variable {f : IxFormat K} {s : IxIndexHandle K} {leaf : Bool} {A B : IxLevel K} {o w : Block Int K Rid} {x : K × Rid}
  {xs : List (K × Rid)}

/-- The parent gets a pair for `w` behind the pair of `o`: the levels are linked again. -/
theorem Halved.enter {U : IxLevel K} {Us : List (IxLevel K)} (h : Halved s leaf A o w B (U :: Us)) (hw : w.entries = x :: xs) :
    ∃ C u D E e F m, U = C ++ u :: D ∧ u.entries = E ++ e :: F ∧ s.parentOf o.id = some u.id ∧ s.pages u.id = some m ∧
      m.isLeaf = false ∧ m.pairs = E ++ e :: F ∧ m.findChild o.id = .ok E.length ∧
      ∀ s₁ u', s₁ = s.putNode u.id { m with pairs := E ++ e :: (x.1, ⟨w.id, -1⟩) :: F } →
        u' = Block.mk u.id (E ++ e :: (x.1, ⟨w.id, -1⟩) :: F) →
        Tower s₁ leaf (A ++ o :: w :: B) ((C ++ u' :: D) :: Us) ∧ Keeps s s₁ {u.id} ∅ ∅ := by
  obtain ⟨hl, hst, hpar, habove⟩ := h.above
  obtain ⟨C, u, D, E, e, F, hU, hu, hn, hA, hB⟩ := hl.locate
  obtain ⟨hpo, m, hm, hmleaf, hmpairs⟩ := exists_parent hst hpar hU hu
  rw [hn.1] at hpo
  have hd := h.nodup
  simp only [idsUp_cons] at hd
  have hdU : (ids U).Nodup := (List.nodup_append.mp (List.nodup_append.mp hd).2.1).1
  have huid : u.id ∈ ids U := by simp [hU]
  have huL : u.id ∉ ids (A ++ o :: w :: B) := fun hmem =>
    (List.nodup_append.mp hd).2.2 _ hmem _ (List.mem_append_left _ huid) rfl
  have huUs : u.id ∉ idsUp Us := fun hmem => (List.nodup_append.mp (List.nodup_append.mp hd).2.1).2.2 _ huid _ hmem rfl
  have hoA : o.id ∉ ids A := fun hmem => by
    have := (List.nodup_append.mp hd).1
    rw [ids_append] at this
    exact (List.nodup_append.mp this).2.2 _ hmem _ (by simp) rfl
  refine ⟨C, u, D, E, e, F, m, hU, hu, hpo, hm, hmleaf, hmpairs, ?_, ?_⟩
  · rw [← hn.1]
    exact findChild_eq hmpairs (slots_ne (names_but 0 hA) (hn.1 ▸ hoA))
  · rintro s₁ u' rfl rfl
    have k : Keeps s _ {u.id} ∅ ∅ :=
      Keeps.put_pairs (m := { m with pairs := E ++ e :: (x.1, ⟨w.id, -1⟩) :: F }) hm rfl rfl rfl
    refine ⟨⟨?_, ⟨?_, ?_, ?_, ?_⟩, ?_, ?_, by simp⟩, k⟩
    · refine h.stored.frame k fun p hp hpc => huL ?_
      rw [← Set.mem_singleton_iff.mp hpc]
      exact hp
    · have hwn : Names Rid.pageNo w (x.1, (⟨w.id, -1⟩ : Rid)) := ⟨rfl, fun y hy => by
        rw [hw] at hy
        cases hy
        rfl⟩
      unfold Linked
      simpa using forall₂_join hA hn (.cons hwn hB)
    · rw [hU] at hst hdU
      refine hst.replace hdU k (fun p hp => Or.inl hp) rfl ?_
      simp [hmleaf]
    · have hpar' : Parented _ U := hpar.frame k fun _ _ hmem => hmem
      rw [hU, parented_append, parented_cons] at hpar'
      rw [parented_append, parented_cons]
      refine ⟨hpar'.1, fun y hy => ?_, hpar'.2.2⟩
      simp only [List.mem_append, List.mem_cons] at hy
      rcases hy with hy | rfl | rfl | hy
      · exact hpar'.2.1 y (by simp [hu, hy])
      · exact hpar'.2.1 y (by simp [hu])
      · rw [k.parent _ (Set.notMem_empty _), h.parent, hpo]
      · exact hpar'.2.1 y (by simp [hu, hy])
    · have habove' : Above _ U Us := habove.frame k (fun p hp hpc => huUs (Set.mem_singleton_iff.mp hpc ▸ hp))
        (fun _ _ hmem => hmem) rfl
      rw [hU] at habove'
      refine habove'.replace rfl fun y hy => ⟨y, ?_, rfl⟩
      rw [hu]
      cases E with
      | nil => exact hy
      | cons z E => exact hy
    · simpa [hU] using h.nodup
    · have hb := h.bound
      simp only [hU, idsUp_cons, ids_append, ids_cons] at hb ⊢
      exact hb

/-- A block that stays below `get_max_size()` may grow. -/
theorem Filled.grow {C D : IxLevel K} {u v : Block Int K Rid} (h : Filled f (C ++ u :: D))
    (hlen : v.entries.length = u.entries.length + 1) (hfull : v.entries.length ≠ f.maxSize) : Filled f (C ++ v :: D) := by
  have hu := h.most u (by simp)
  have hmax : f.maxSize = f.btreeOrder + 1 := rfl
  refine ⟨?_, fun b hb => ?_⟩
  · rcases h.least with ⟨c, hc⟩ | hmin
    · obtain ⟨rfl, rfl, -⟩ := alone hc
      exact Or.inl ⟨v, rfl⟩
    · refine Or.inr fun b hb => ?_
      simp only [List.mem_append, List.mem_cons] at hb
      rcases hb with hb | rfl | hb
      · exact hmin b (by simp [hb])
      · have := hmin u (by simp)
        omega
      · exact hmin b (by simp [hb])
  · simp only [List.mem_append, List.mem_cons] at hb
    rcases hb with hb | rfl | hb
    · exact h.most b (by simp [hb])
    · omega
    · exact h.most b (by simp [hb])

variable [Preorder K] (hf : f.Lawful)
include hf

/-- A full node of a tower after `split` shared out its pairs. -/
theorem Halved.of_split {t : IxIndexHandle K} {n : Block Int K Rid} {Us : List (IxLevel K)} {Q N : Set Int}
    (T : Tower s leaf (A ++ n :: B) Us) (hfull : n.entries.length = f.maxSize)
    (hcl : t.content n.id = some (leaf, n.entries.take f.minSize))
    (hcr : t.content s.fd2pageno = some (leaf, n.entries.drop f.minSize)) (hpr : t.parentOf s.fd2pageno = s.parentOf n.id)
    (k : Keeps s t {n.id, s.fd2pageno} Q N) (hQ : ∀ p ∈ ids (A ++ n :: B) ++ idsUp Us, p ∉ Q) (hal : Allocated s t) :
    Halved t leaf A ⟨n.id, n.entries.take f.minSize⟩ ⟨s.fd2pageno, n.entries.drop f.minSize⟩ B Us := by
  have h2 := hf.minSize_two_le
  have h3 := hf.two_le_minSize
  have hmax : f.maxSize = f.btreeOrder + 1 := rfl
  have hfresh : s.fd2pageno ∉ ids (A ++ n :: B) ++ idsUp Us := fun hp => by
    have := (T.bound _ hp).2
    omega
  obtain ⟨hdL, -, hdisj⟩ := List.nodup_append.mp T.nodup
  have hids : ids (A ++ ⟨n.id, n.entries.take f.minSize⟩ :: B) = ids (A ++ n :: B) := by simp
  refine ⟨?_, ?_, ?_, ?_, ?_, ?_, ?_⟩
  · have hst := T.stored
    have hnAB : n.id ∉ ids A ∧ n.id ∉ ids B := by
      rw [ids_append, ids_cons, List.nodup_middle, List.nodup_cons, List.mem_append, not_or] at hdL
      exact hdL.1
    rw [stored_append, stored_cons] at hst
    rw [stored_append, stored_cons, stored_cons]
    refine ⟨hst.1.frame k fun p hp => ?_, hcl, hcr, hst.2.2.frame k fun p hp => ?_⟩
    · rintro (rfl | rfl)
      · exact hnAB.1 hp
      · exact hfresh (by simp [hp])
    · rintro (rfl | rfl)
      · exact hnAB.2 hp
      · exact hfresh (by simp [hp])
  · have hfr : Above t (A ++ n :: B) Us := T.above.frame k (fun p hp => by
        rintro (rfl | rfl)
        · exact hdisj n.id (by simp) _ hp rfl
        · exact hfresh (by simp [hp])) hQ hal.root
    refine hfr.replace rfl fun x hx => ⟨x, ?_, rfl⟩
    rw [List.head?_take] at hx
    split at hx
    · cases hx
    · exact hx
  · rw [(ids_perm _ _ _ _ _).nodup_iff, List.nodup_cons, hids]
    exact ⟨hfresh, T.nodup⟩
  · intro p hp
    rw [hal.fd]
    rcases List.mem_cons.mp ((ids_perm _ _ _ _ _).mem_iff.mp hp) with rfl | hp
    · have := T.bound n.id (by simp)
      show 2 ≤ s.fd2pageno ∧ s.fd2pageno < s.fd2pageno + 1
      omega
    · rw [hids] at hp
      have := T.bound p hp
      omega
  · intro hnil
    have := congrArg List.length hnil
    simp only [List.length_take, List.length_nil] at this
    omega
  · intro hnil
    have := congrArg List.length hnil
    simp only [List.length_drop, List.length_nil] at this
    omega
  · show t.parentOf s.fd2pageno = t.parentOf n.id
    rw [hpr, k.parent _ (hQ n.id (by simp))]

/-- A full internal node is split: its level is linked to the one below as before, and the new node is not in
    its parent yet. -/
theorem Tower.split_upper {L C D : IxLevel K} {u : Block Int K Rid} {Us : List (IxLevel K)}
    (T : Tower s leaf L ((C ++ u :: D) :: Us)) (hfull : u.entries.length = f.maxSize) :
    ∃ t ul ur, ul = Block.mk u.id (u.entries.take f.minSize) ∧ ur = Block.mk s.fd2pageno (u.entries.drop f.minSize) ∧
      s.split f u.id = .ok (t, ur.id) ∧ Halved t false C ul ur D Us ∧ Linked Rid.pageNo L (C ++ ul :: ur :: D) ∧
      Stored t leaf L ∧ Parented t (C ++ ul :: ur :: D) ∧
      Keeps s t {u.id, s.fd2pageno} {p | p ∈ ids L ∨ p = s.fd2pageno} {s.fd2pageno} ∧ Allocated s t := by
  obtain ⟨hl, hst, hpar, habove⟩ := T.above
  have hfresh : s.fd2pageno ∉ ids L ++ idsUp ((C ++ u :: D) :: Us) := fun hp => by
    have := (T.bound _ hp).2
    omega
  obtain ⟨hdL, -, hdisj⟩ := List.nodup_append.mp T.nodup
  have hufd : u.id ≠ s.fd2pageno := fun heq => hfresh (heq ▸ by simp)
  obtain ⟨r, hpu⟩ := habove.exists_parentOf (b := u) (by simp)
  have hflatfd : ∀ e ∈ flat (C ++ u :: D), e.2.pageNo ≠ s.fd2pageno := fun e he heq =>
    hfresh (heq ▸ List.mem_append_left _ (kids_flat hl he))
  have hkids : ∀ e ∈ u.entries, e.2.pageNo ≠ s.fd2pageno ∧ ∃ y, s.parentOf e.2.pageNo = some y := by
    intro e he
    exact ⟨hflatfd e (by simp [he]), u.id, hpar u (by simp) e he⟩
  obtain ⟨t, hrun, hcl, hcr, hpr, hparr, k, hal⟩ := split_internal (f := f) (hst u (by simp)) hpu hufd hkids
  have hpages : ∀ p ∈ ids L, p ∉ ({u.id, s.fd2pageno} : Set Int) := by
    rintro p hp (rfl | rfl)
    · exact hdisj _ hp u.id (by simp) rfl
    · exact hfresh (List.mem_append_left _ hp)
  have hupper : ∀ p ∈ ids (C ++ u :: D) ++ idsUp Us, p ∉ {s.fd2pageno} ∪ kids (u.entries.drop f.minSize) := by
    rintro p hp (rfl | ⟨e, he, rfl⟩)
    · exact hfresh (List.mem_append_right _ (by rw [idsUp_cons]; exact hp))
    · exact hdisj _ (kids_block hl (u := u) (by simp) (List.mem_of_mem_drop he)) _ hp rfl
  have hflat : flat (C ++ u :: D) =
      flat (C ++ ⟨u.id, u.entries.take f.minSize⟩ :: ⟨s.fd2pageno, u.entries.drop f.minSize⟩ :: D) := by
    simp only [flat_append, flat_cons]
    rw [← List.append_assoc (u.entries.take f.minSize), List.take_append_drop]
  refine ⟨t, _, _, rfl, rfl, hrun, Halved.of_split hf T.upper hfull hcl hcr (hpr.trans hpu.symm) k hupper hal, ?_, ?_, ?_, ?_,
    hal⟩
  · unfold Linked
    rw [← hflat]
    exact hl
  · exact T.stored.frame k hpages
  · -- the children of the level are distinct, so those of the right half are none of the others
    have hvals : ((flat C ++ (u.entries ++ flat D)).map fun e => e.2.pageNo).Nodup := by
      rw [← flat_cons, ← flat_append, values_eq_ids (names_but 0 hl)]
      exact hdL
    rw [← List.take_append_drop f.minSize u.entries] at hvals
    simp only [List.map_append, List.nodup_append, List.mem_append, List.mem_map] at hvals
    obtain ⟨-, ⟨⟨-, -, hlr⟩, -, hrD⟩, hCr⟩ := hvals
    rw [parented_append, parented_cons] at hpar
    rw [parented_append, parented_cons, parented_cons]
    refine ⟨hpar.1.frame k fun e he => ?_, fun e he => ?_, hparr, hpar.2.2.frame k fun e he => ?_⟩
    · rintro (heq | ⟨e', he', heq⟩)
      · exact hflatfd e (by simp [he]) heq
      · exact hCr _ ⟨e, he, rfl⟩ _ (Or.inl (Or.inr ⟨e', he', rfl⟩)) heq.symm
    · rw [k.parent]
      · exact hpar.2.1 e (List.mem_of_mem_take he)
      · rintro (heq | ⟨e', he', heq⟩)
        · exact (hkids e (List.mem_of_mem_take he)).1 heq
        · exact hlr _ ⟨e, he, rfl⟩ _ ⟨e', he', rfl⟩ heq.symm
    · rintro (heq | ⟨e', he', heq⟩)
      · exact hflatfd e (by simp [he]) heq
      · exact hrD _ (Or.inr ⟨e', he', rfl⟩) _ ⟨e, he, rfl⟩ heq
  · refine k.mono subset_rfl ?_ subset_rfl
    rintro p (rfl | ⟨e, he, rfl⟩)
    · exact Or.inr rfl
    · exact Or.inl (kids_block hl (u := u) (by simp) (List.mem_of_mem_drop he))

/-- Two blocks without a level above them get a root. -/
theorem Halved.root (h : Halved s leaf A o w B []) (hw : w.entries = x :: xs) :
    ∃ t Vs, s.newRoot o.id x.1 w.id = .ok t ∧ Adopted f s leaf A o w B [] t Vs := by
  obtain ⟨r, hr, hpo, -⟩ := h.above
  obtain ⟨rfl, rfl, rfl⟩ := alone hr
  obtain ⟨y, ys, ho⟩ := List.exists_cons_of_ne_nil h.left
  have hst := h.stored
  simp only [List.nil_append, stored_cons] at hst
  obtain ⟨hco, hcw, -⟩ := hst
  have hd := h.nodup
  have hb := h.bound
  simp only [List.nil_append, ids_cons, ids_nil, idsUp_nil, List.append_nil, List.nodup_cons, List.mem_cons, List.not_mem_nil,
    or_false, forall_eq_or_imp, forall_eq] at hd hb
  obtain ⟨⟨hoq, hoq'⟩, hwq, hwq'⟩ := hb
  obtain ⟨t, hrun, hcq, hpq, hpo', hpw', k, hroot, hfirst, hlast, hfd, hcount⟩ := newRoot_spec x.1 (ho ▸ hco) hpo
    (h.parent.trans hpo) hoq'.ne hwq'.ne hd.1
  have hfd₀ : s.fd2pageno ∉ [o.id, w.id] := by
    simp only [List.mem_cons, List.not_mem_nil, or_false]
    omega
  let root : Block Int K Rid := ⟨s.fd2pageno, [(y.1, ⟨o.id, -1⟩), (x.1, ⟨w.id, -1⟩)]⟩
  refine ⟨t, [[root]], hrun, ⟨?_, ?_, ?_, ?_, by simp⟩, ?_, ?_, ?_, ⟨hfirst, hlast, by omega, hcount⟩, ?_⟩
  · refine h.stored.frame k fun p hp hpc => hfd₀ ?_
    rw [Set.mem_singleton_iff.mp hpc] at hp
    simpa using hp
  · refine ⟨?_, ?_, ?_, root, rfl, hpq, hroot⟩
    · refine .cons ⟨rfl, fun z hz => ?_⟩ (.cons ⟨rfl, fun z hz => ?_⟩ .nil)
      · rw [ho] at hz
        cases hz
        rfl
      · rw [hw] at hz
        cases hz
        rfl
    · simpa [Stored, root] using hcq
    · rw [parented_cons]
      exact ⟨List.forall_mem_cons.mpr ⟨hpo', List.forall_mem_cons.mpr ⟨hpw', by simp⟩⟩, by simp [Parented]⟩
  · simp only [List.nil_append, ids_cons, ids_nil, idsUp_cons, idsUp_nil, List.append_nil, List.cons_append, List.nodup_cons,
      List.mem_cons, List.not_mem_nil, or_false, not_or, root]
    exact ⟨⟨hd.1, hoq'.ne⟩, hwq'.ne, by simp⟩
  · simp only [List.nil_append, ids_cons, ids_nil, idsUp_cons, idsUp_nil, List.append_nil, List.cons_append,
      List.mem_cons, List.not_mem_nil, or_false, forall_eq_or_imp, forall_eq, root]
    omega
  · intro U hU
    rw [List.mem_singleton] at hU
    subst hU
    refine ⟨Or.inl ⟨root, rfl⟩, fun b hb => ?_⟩
    rw [List.mem_singleton] at hb
    subst hb
    exact hf.order.le
  · intro p hp
    right
    simp only [idsUp_cons, ids_cons, ids_nil, idsUp_nil, List.append_nil, List.mem_singleton, root] at hp
    exact hp.ge
  · refine k.mono ?_ ?_ ?_
    · rintro p rfl
      simp
    · rintro p (rfl | rfl | rfl) <;> simp
    · rintro p rfl
      simp
  · exact fun _ => ⟨by simp, trivial⟩

/-- A full block is cut in two blocks that both have enough. -/
theorem filled_halves {C D : IxLevel K} {u : Block Int K Rid} (h : Filled f (C ++ u :: D)) {es : List (K × Rid)}
    (hes : es.length = f.maxSize) {p q : Int} :
    Filled f (C ++ ⟨p, es.take f.minSize⟩ :: ⟨q, es.drop f.minSize⟩ :: D) := by
  have h2 := hf.minSize_two_le
  have h3 := hf.two_le_minSize
  have hmax : f.maxSize = f.btreeOrder + 1 := rfl
  have hleft : (es.take f.minSize).length = f.minSize := by
    rw [List.length_take]
    omega
  have hright : (es.drop f.minSize).length = f.maxSize - f.minSize := by rw [List.length_drop, hes]
  have hrest : ∀ b, b ∈ C ∨ b ∈ D → f.minSize ≤ b.entries.length := by
    intro b hb
    rcases h.least with ⟨c, hc⟩ | hmin
    · obtain ⟨rfl, rfl, -⟩ := alone hc
      simp at hb
    · exact hmin b (by rcases hb with hb | hb <;> simp [hb])
  refine ⟨Or.inr fun b hb => ?_, fun b hb => ?_⟩ <;> simp only [List.mem_append, List.mem_cons] at hb <;>
    rcases hb with hb | rfl | rfl | hb
  · exact hrest b (Or.inl hb)
  · exact hleft.ge
  · show f.minSize ≤ (es.drop f.minSize).length
    omega
  · exact hrest b (Or.inr hb)
  · exact h.most b (by simp [hb])
  · show (es.take f.minSize).length ≤ f.btreeOrder
    omega
  · show (es.drop f.minSize).length ≤ f.btreeOrder
    omega
  · exact h.most b (by simp [hb])

/-- `insert_into_parent` puts a block that was split off into its level. -/
theorem insertIntoParent_spec {Us : List (IxLevel K)} :
    ∀ {s : IxIndexHandle K} {leaf : Bool} {A B : IxLevel K} {o w : Block Int K Rid} {x : K × Rid} {xs : List (K × Rid)}
      {fuel : Nat}, Halved s leaf A o w B Us → w.entries = x :: xs → (∀ U ∈ Us, Filled f U) → Us.length < fuel →
      ∃ t Vs, insertIntoParent f fuel s o.id x.1 w.id = .ok t ∧ Adopted f s leaf A o w B Us t Vs := by
  induction Us with
  | nil =>
    intro s leaf A B o w x xs fuel h hw _ hfuel
    obtain ⟨fuel, rfl⟩ : ∃ m, fuel = m + 1 := ⟨fuel - 1, by simp at hfuel; omega⟩
    obtain ⟨t, Vs, hrun, had⟩ := h.root hf hw
    refine ⟨t, Vs, ?_, had⟩
    obtain ⟨r, hr, hpo, -⟩ := h.above
    obtain ⟨rfl, rfl, rfl⟩ := alone hr
    obtain ⟨m, hm, -, -, hmp⟩ := exists_node (h.stored o (by simp)) hpo
    have hroot : m.isRootPage = true := by simp [IxNode.isRootPage, hmp]
    rw [insertIntoParent, fetchNode_ok hm, ok_bind, if_pos hroot, hrun]
  | cons U Us ih =>
    intro s leaf A B o w x xs fuel h hw hfill hfuel
    obtain ⟨fuel, rfl⟩ : ∃ m, fuel = m + 1 := ⟨fuel - 1, by simp at hfuel; omega⟩
    obtain ⟨C, u, D, E, e, F, m, rfl, hu, hpo, hm, hmleaf, hmpairs, hrank, hnew⟩ := h.enter hw
    obtain ⟨c, hc, -, -, hcp⟩ := exists_node (h.stored o (by simp)) hpo
    let es := E ++ e :: (x.1, (⟨w.id, -1⟩ : Rid)) :: F
    let s₁ := s.putNode u.id { m with pairs := es }
    obtain ⟨T, k₁⟩ := hnew s₁ ⟨u.id, es⟩ rfl rfl
    have hub := h.bound u.id (by simp)
    have hnotroot : ¬c.isRootPage = true := by
      simp only [IxNode.isRootPage, hcp, beq_iff_eq, ixNoPage]
      omega
    have hins : m.insertPairs (E.length + 1) [(x.1, ⟨w.id, -1⟩)] = .ok { m with pairs := es } := by
      simp [IxNode.insertPairs, IxNode.size, hmpairs, es, List.take_append]
    have hstart : insertIntoParent f (fuel + 1) s o.id x.1 w.id =
        (if ({ m with pairs := es } : IxNode K).isFull f then
          s₁.split f u.id >>= fun r => do
            let w ← r.1.fetchNode r.2
            let wKey ← w.keyAt 0
            insertIntoParent f fuel r.1 u.id wKey r.2
        else .ok s₁) := by
      rw [insertIntoParent, fetchNode_ok hc, ok_bind, if_neg hnotroot, hcp]
      show (s.fetchNode u.id >>= _) = _
      rw [fetchNode_ok hm, ok_bind, hrank, ok_bind, hins, ok_bind]
    have hlen : es.length = u.entries.length + 1 := by simp [es, hu]; omega
    have hfU := hfill _ List.mem_cons_self
    have hfUs : ∀ V ∈ Us, Filled f V := fun V hV => hfill V (List.mem_cons_of_mem _ hV)
    by_cases hfull : es.length = f.maxSize
    · obtain ⟨s₂, ul, ur, hul, hur, hsplit, hhalf, hlink, hstL, hpar, k₂, al₂⟩ := T.split_upper hf hfull
      obtain ⟨y, ys, hy⟩ := List.exists_cons_of_ne_nil hhalf.right
      obtain ⟨t, Vs, hrun, had⟩ := ih hhalf hy hfUs (Nat.lt_of_succ_lt_succ hfuel)
      have hulid : ul.id = u.id := by rw [hul]
      have hurid : ur.id = s.fd2pageno := by rw [hur]; rfl
      have hfd₂ : s₂.fd2pageno = s.fd2pageno + 1 := al₂.fd
      -- the pages of the lower level are none of those that the levels above it have or get
      have hfree : ∀ p ∈ ids (A ++ o :: w :: B), p < s.fd2pageno ∧ p ∉ ids (C ++ ul :: ur :: D) ∧ p ∉ idsUp Us := by
        intro p hp
        have hlt := (h.bound p (List.mem_append_left _ hp)).2
        have hdisj := (List.nodup_append.mp h.nodup).2.2 p hp
        refine ⟨hlt, fun hmem => ?_, fun hmem => hdisj p (by simp [hmem]) rfl⟩
        simp only [ids_append, ids_cons, hulid, hurid, List.mem_append, List.mem_cons] at hmem
        rcases hmem with hmem | rfl | rfl | hmem
        · exact hdisj p (by simp [hmem]) rfl
        · exact hdisj u.id (by simp) rfl
        · omega
        · exact hdisj p (by simp [hmem]) rfl
      refine ⟨t, (C ++ ul :: ur :: D) :: Vs, ?_, ⟨had.tower.raise ?_ hlink ?_ (by simp) ?_ ?_ ?_, ?_, ?_, ?_, ?_, ?_⟩⟩
      · obtain ⟨z, hz, -, hzp⟩ := content_eq_some.mp (hhalf.stored ur (by simp))
        have hkey : z.keyAt 0 = .ok y.1 := by simp [IxNode.keyAt, hzp, hy]
        rw [hstart, if_pos (by simpa [IxNode.isFull, IxNode.size] using hfull), show s₁.split f u.id = _ from hsplit, ok_bind]
        show (s₂.fetchNode ur.id >>= _) = _
        rw [fetchNode_ok hz, ok_bind, hkey, ok_bind, ← hulid]
        exact hrun
      · refine hstL.frame had.keeps fun p hp => ?_
        rintro (hmem | hle)
        · exact (hfree p hp).2.2 hmem
        · have := (hfree p hp).1
          omega
      · refine hpar.frame had.keeps fun e he => ?_
        have hp := kids_flat hlink he
        rintro (hmem | hmem | hle)
        · exact (hfree _ hp).2.1 hmem
        · exact (hfree _ hp).2.2 hmem
        · have := (hfree _ hp).1
          omega
      · exact (List.nodup_append.mp h.nodup).1
      · intro p hp
        have := h.bound p (List.mem_append_left _ hp)
        have := had.grows.fd
        omega
      · intro p hp hmem
        rcases List.mem_append.mp hmem with hmem | hmem
        · exact (hfree p hp).2.1 hmem
        · rcases had.fresh p hmem with hmem | hle
          · exact (hfree p hp).2.2 hmem
          · have := (hfree p hp).1
            omega
      · refine List.forall_mem_cons.mpr ⟨?_, had.filled⟩
        rw [hul, hur]
        exact filled_halves hf hfU hfull
      · intro p hp
        rw [idsUp_cons, List.mem_append] at hp
        rcases hp with hp | hp
        · simp only [ids_append, ids_cons, hulid, hurid, List.mem_append, List.mem_cons] at hp
          rcases hp with hp | rfl | rfl | hp
          · exact Or.inl (by simp [hp])
          · exact Or.inl (by simp)
          · exact Or.inr le_rfl
          · exact Or.inl (by simp [hp])
        · rcases had.fresh p hp with hp | hle
          · exact Or.inl (by simp [hp])
          · exact Or.inr (by omega)
      · have hfd₁ : s₁.fd2pageno = s.fd2pageno := rfl
        refine ((k₁.mono ?_ (by simp) (by simp)).trans (k₂.mono ?_ ?_ ?_)).trans (had.keeps.mono ?_ ?_ ?_)
        · rintro p rfl
          simp
        · rintro p (rfl | rfl)
          · simp
          · exact Or.inr hfd₁.ge
        · rintro p (hp | rfl)
          · exact Or.inl hp
          · exact Or.inr (Or.inr hfd₁.ge)
        · rintro p rfl
          exact hfd₁.ge
        · rintro p (hp | hle)
          · simp [hp]
          · exact Or.inr (by omega)
        · rintro p (hp | hp | hle)
          · simp only [ids_append, ids_cons, hulid, hurid, List.mem_append, List.mem_cons] at hp
            rcases hp with hp | rfl | rfl | hp <;> simp_all
          · simp [hp]
          · exact Or.inr (Or.inr (by omega))
        · intro p hle
          simp only [Set.mem_ofPred_eq] at hle ⊢
          omega
      · exact ((Hdr.put _ _ _).grows.trans al₂.grows).trans had.grows
      · rintro ⟨hwL, hwU⟩
        exact ⟨hwL.trans (by simp), had.wide (hwU.mono (by simp))⟩
    · refine ⟨s₁, (C ++ ⟨u.id, es⟩ :: D) :: Us, ?_, ⟨T, ?_, ?_, ?_, (Hdr.put _ _ _).grows, ?_⟩⟩
      · rw [hstart, if_neg]
        simpa [IxNode.isFull, IxNode.size] using hfull
      · exact List.forall_mem_cons.mpr ⟨hfU.grow hlen hfull, hfUs⟩
      · intro p hp
        left
        simpa using hp
      · refine k₁.mono ?_ (by simp) (by simp)
        rintro p rfl
        simp
      · rintro ⟨hwL, hwU⟩
        exact ⟨hwL.trans (by simp), hwU.mono (by simp)⟩

end Adopt

end IxIndexHandle
end Rmdb
