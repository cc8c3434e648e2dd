import Rmdb.Index.Handle
import Rmdb.Theorems.Index.Node
import Rmdb.Lib.Ring
import Mathlib.Data.Set.Basic

/-! The pages of an index as three independent memories: the content of a node (kind and pairs), its
parent, and its links to the neighbouring leaves. Each elementary operation writes one of them, at pages
that can be listed (`Keeps`), and leaves the file header alone (`Hdr`). -/

namespace Rmdb
namespace IxIndexHandle
variable {K : Type}

@[simp] theorem ok_bind {ε α β : Type} (a : α) (g : α → Except ε β) : (Except.ok a >>= g) = g a := rfl

/-! ### What a page holds -/

/-- The kind and the pairs of the node on page `p`. -/
def content (s : IxIndexHandle K) (p : Int) : Option (Bool × List (K × Rid)) :=
  (s.pages p).map fun n => (n.isLeaf, n.pairs)

def parentOf (s : IxIndexHandle K) (p : Int) : Option Int := (s.pages p).map (·.parent)

def nextOf (s : IxIndexHandle K) (p : Int) : Option Int := (s.pages p).map (·.nextLeaf)

def prevOf (s : IxIndexHandle K) (p : Int) : Option Int := (s.pages p).map (·.prevLeaf)

theorem content_eq_some {s : IxIndexHandle K} {p : Int} {leaf : Bool} {es : List (K × Rid)} :
    s.content p = some (leaf, es) ↔ ∃ n, s.pages p = some n ∧ n.isLeaf = leaf ∧ n.pairs = es := by
  simp [content]

theorem parentOf_eq_some {s : IxIndexHandle K} {p q : Int} :
    s.parentOf p = some q ↔ ∃ n, s.pages p = some n ∧ n.parent = q := by
  simp [parentOf]

theorem nextOf_eq_some {s : IxIndexHandle K} {p q : Int} :
    s.nextOf p = some q ↔ ∃ n, s.pages p = some n ∧ n.nextLeaf = q := by
  simp [nextOf]

theorem prevOf_eq_some {s : IxIndexHandle K} {p q : Int} :
    s.prevOf p = some q ↔ ∃ n, s.pages p = some n ∧ n.prevLeaf = q := by
  simp [prevOf]

/-- A node from its content and its parent. -/
theorem exists_node {s : IxIndexHandle K} {p q : Int} {leaf : Bool} {es : List (K × Rid)}
    (hc : s.content p = some (leaf, es)) (hp : s.parentOf p = some q) :
    ∃ n, s.pages p = some n ∧ n.isLeaf = leaf ∧ n.pairs = es ∧ n.parent = q := by
  obtain ⟨n, hn, hl, hes⟩ := content_eq_some.mp hc
  obtain ⟨m, hm, hq⟩ := parentOf_eq_some.mp hp
  rw [hn] at hm
  cases hm
  exact ⟨n, hn, hl, hes, hq⟩

theorem fetchNode_ok {s : IxIndexHandle K} {p : Int} {n : IxNode K} (h : s.pages p = some n) : s.fetchNode p = .ok n := by
  simp [fetchNode, h]

theorem modifyNode_ok {s : IxIndexHandle K} {p : Int} {n : IxNode K} {g : IxNode K → IxNode K}
    (h : s.pages p = some n) : s.modifyNode p g = .ok (s.putNode p (g n)) := by
  simp [modifyNode, fetchNode_ok h]

@[simp] theorem pages_putNode_self (s : IxIndexHandle K) (p : Int) (n : IxNode K) : (s.putNode p n).pages p = some n := by
  simp [putNode]

theorem pages_putNode_ne (s : IxIndexHandle K) {p q : Int} (n : IxNode K) (h : q ≠ p) :
    (s.putNode p n).pages q = s.pages q := by
  simp [putNode, h]

@[simp] theorem content_putNode_self (s : IxIndexHandle K) (p : Int) (n : IxNode K) :
    (s.putNode p n).content p = some (n.isLeaf, n.pairs) := by
  simp [content]

@[simp] theorem parentOf_putNode_self (s : IxIndexHandle K) (p : Int) (n : IxNode K) :
    (s.putNode p n).parentOf p = some n.parent := by
  simp [parentOf]

@[simp] theorem nextOf_putNode_self (s : IxIndexHandle K) (p : Int) (n : IxNode K) :
    (s.putNode p n).nextOf p = some n.nextLeaf := by
  simp [nextOf]

@[simp] theorem prevOf_putNode_self (s : IxIndexHandle K) (p : Int) (n : IxNode K) :
    (s.putNode p n).prevOf p = some n.prevLeaf := by
  simp [prevOf]

/-! ### What an operation keeps -/

/-- `t` has the file header and the counters of `s`. -/
structure Hdr (s t : IxIndexHandle K) : Prop where
  root : t.rootPage = s.rootPage
  first : t.firstLeaf = s.firstLeaf
  last : t.lastLeaf = s.lastLeaf
  num : t.numPages = s.numPages
  fd : t.fd2pageno = s.fd2pageno
  file : t.filePages = s.filePages

theorem Hdr.refl (s : IxIndexHandle K) : Hdr s s := ⟨rfl, rfl, rfl, rfl, rfl, rfl⟩

theorem Hdr.trans {s t u : IxIndexHandle K} (h₁ : Hdr s t) (h₂ : Hdr t u) : Hdr s u :=
  ⟨h₂.root.trans h₁.root, h₂.first.trans h₁.first, h₂.last.trans h₁.last, h₂.num.trans h₁.num, h₂.fd.trans h₁.fd,
    h₂.file.trans h₁.file⟩

theorem Hdr.put (s : IxIndexHandle K) (p : Int) (n : IxNode K) : Hdr s (s.putNode p n) := ⟨rfl, rfl, rfl, rfl, rfl, rfl⟩

/-- From `s` to `t` the contents change at most at pages of `C`, the parents at most at pages of `Q` and
    the leaf links at most at pages of `N`. -/
structure Keeps (s t : IxIndexHandle K) (C Q N : Set Int) : Prop where
  content : ∀ p, p ∉ C → t.content p = s.content p
  parent : ∀ p, p ∉ Q → t.parentOf p = s.parentOf p
  next : ∀ p, p ∉ N → t.nextOf p = s.nextOf p
  prev : ∀ p, p ∉ N → t.prevOf p = s.prevOf p

namespace Keeps
variable {s t u : IxIndexHandle K} {C Q N C' Q' N' : Set Int}

theorem refl (s : IxIndexHandle K) : Keeps s s C Q N :=
  ⟨fun _ _ => rfl, fun _ _ => rfl, fun _ _ => rfl, fun _ _ => rfl⟩

theorem mono (h : Keeps s t C Q N) (hC : C ⊆ C') (hQ : Q ⊆ Q') (hN : N ⊆ N') : Keeps s t C' Q' N' :=
  ⟨fun p hp => h.content p fun h' => hp (hC h'), fun p hp => h.parent p fun h' => hp (hQ h'),
    fun p hp => h.next p fun h' => hp (hN h'), fun p hp => h.prev p fun h' => hp (hN h')⟩

theorem trans (h₁ : Keeps s t C Q N) (h₂ : Keeps t u C Q N) : Keeps s u C Q N :=
  ⟨fun p hp => (h₂.content p hp).trans (h₁.content p hp), fun p hp => (h₂.parent p hp).trans (h₁.parent p hp),
    fun p hp => (h₂.next p hp).trans (h₁.next p hp), fun p hp => (h₂.prev p hp).trans (h₁.prev p hp)⟩

/-- The pages alone decide what is kept. -/
theorem of_pages (h : t.pages = s.pages) : Keeps s t C Q N :=
  ⟨fun _ _ => by simp only [IxIndexHandle.content, h], fun _ _ => by simp only [parentOf, h],
    fun _ _ => by simp only [nextOf, h], fun _ _ => by simp only [prevOf, h]⟩

variable {p : Int} {n m : IxNode K}

/-- A write to page `p` that keeps the leaf links. -/
theorem put (hn : s.pages p = some n) (hnext : m.nextLeaf = n.nextLeaf) (hprev : m.prevLeaf = n.prevLeaf) :
    Keeps s (s.putNode p m) {p} {p} ∅ where
  content q hq := by simp only [IxIndexHandle.content, pages_putNode_ne s m hq]
  parent q hq := by simp only [parentOf, pages_putNode_ne s m hq]
  next q _ := by
    by_cases hq : q = p
    · subst hq; simp [nextOf, hn, hnext]
    · simp only [nextOf, pages_putNode_ne s m hq]
  prev q _ := by
    by_cases hq : q = p
    · subst hq; simp [prevOf, hn, hprev]
    · simp only [prevOf, pages_putNode_ne s m hq]

/-- A write that changes only the pairs of page `p`. -/
theorem put_pairs (hn : s.pages p = some n) (hparent : m.parent = n.parent) (hnext : m.nextLeaf = n.nextLeaf)
    (hprev : m.prevLeaf = n.prevLeaf) : Keeps s (s.putNode p m) {p} ∅ ∅ where
  content := (put hn hnext hprev).content
  parent q _ := by
    by_cases hq : q = p
    · subst hq; simp [parentOf, hn, hparent]
    · simp only [parentOf, pages_putNode_ne s m hq]
  next := (put hn hnext hprev).next
  prev := (put hn hnext hprev).prev

/-- A write that changes only the parent of page `p`. -/
theorem put_parent (hn : s.pages p = some n) (q : Int) : Keeps s (s.putNode p { n with parent := q }) ∅ {p} ∅ where
  content x _ := by
    by_cases hx : x = p
    · subst hx; simp [IxIndexHandle.content, hn]
    · simp only [IxIndexHandle.content, pages_putNode_ne s _ hx]
  parent := (put (m := { n with parent := q }) hn rfl rfl).parent
  next := (put (m := { n with parent := q }) hn rfl rfl).next
  prev := (put (m := { n with parent := q }) hn rfl rfl).prev

/-- A write that changes only the leaf links of page `p`. -/
theorem put_links (hn : s.pages p = some n) (a b : Int) :
    Keeps s (s.putNode p { n with prevLeaf := a, nextLeaf := b }) ∅ ∅ {p} where
  content x _ := by
    by_cases hx : x = p
    · subst hx; simp [IxIndexHandle.content, hn]
    · simp only [IxIndexHandle.content, pages_putNode_ne s _ hx]
  parent x _ := by
    by_cases hx : x = p
    · subst hx; simp [parentOf, hn]
    · simp only [parentOf, pages_putNode_ne s _ hx]
  next x hx := by simp only [nextOf, pages_putNode_ne s _ hx]
  prev x hx := by simp only [prevOf, pages_putNode_ne s _ hx]

end Keeps

/-! ### `create_node` -/

section Create
variable (s : IxIndexHandle K)

@[simp] theorem createNode_root : s.createNode.1.rootPage = s.rootPage := rfl

@[simp] theorem createNode_first : s.createNode.1.firstLeaf = s.firstLeaf := rfl

@[simp] theorem createNode_last : s.createNode.1.lastLeaf = s.lastLeaf := rfl

@[simp] theorem createNode_fd : s.createNode.1.fd2pageno = s.fd2pageno + 1 := rfl

@[simp] theorem createNode_pages : s.createNode.1.pages = (s.putNode s.fd2pageno zeroNode).pages := rfl

theorem createNode_keeps : Keeps s s.createNode.1 {s.fd2pageno} {s.fd2pageno} {s.fd2pageno} where
  content q hq := by simp only [content, createNode_pages, pages_putNode_ne s _ hq]
  parent q hq := by simp only [parentOf, createNode_pages, pages_putNode_ne s _ hq]
  next q hq := by simp only [nextOf, createNode_pages, pages_putNode_ne s _ hq]
  prev q hq := by simp only [prevOf, createNode_pages, pages_putNode_ne s _ hq]

end Create

/-- The counters of the header, of the disk manager and of the file are in step. -/
structure Counters (s : IxIndexHandle K) : Prop where
  num : s.numPages ≤ s.fd2pageno
  file : s.fd2pageno ≤ s.filePages

theorem Counters.of_hdr {s t : IxIndexHandle K} (h : Counters s) (k : Hdr s t) : Counters t :=
  ⟨by rw [k.num, k.fd]; exact h.num, by rw [k.fd, k.file]; exact h.file⟩

theorem Counters.create {s : IxIndexHandle K} (h : Counters s) : Counters s.createNode.1 := by
  refine ⟨?_, ?_⟩
  · show max s.numPages (s.fd2pageno + 1) ≤ s.fd2pageno + 1
    have := h.num
    omega
  · show s.fd2pageno + 1 ≤ ((max s.filePages (s.fd2pageno + 1).toNat : Nat) : Int)
    omega

/-! ### `maintain_child` -/

/-- The children that a list of pairs names. -/
def kids (es : List (K × Rid)) : Set Int := {c | ∃ e ∈ es, e.2.pageNo = c}

theorem mem_kids {es : List (K × Rid)} {e : K × Rid} (h : e ∈ es) : e.2.pageNo ∈ kids es := ⟨e, h, rfl⟩

theorem kids_subset {es fs : List (K × Rid)} (h : ∀ e ∈ es, e ∈ fs) : kids es ⊆ kids fs := by
  rintro c ⟨e, he, rfl⟩
  exact ⟨e, h e he, rfl⟩

theorem maintainChild_spec {s : IxIndexHandle K} {p q : Int} {es : List (K × Rid)} {i : Nat} {e : K × Rid}
    (hc : s.content p = some (false, es)) (he : es[i]? = some e) (hq : s.parentOf e.2.pageNo = some q) :
    ∃ t, s.maintainChild p i = .ok t ∧ Keeps s t ∅ {e.2.pageNo} ∅ ∧ t.parentOf e.2.pageNo = some p ∧ Hdr s t := by
  obtain ⟨n, hn, hleaf, rfl⟩ := content_eq_some.mp hc
  obtain ⟨c, hcn, -⟩ := parentOf_eq_some.mp hq
  refine ⟨s.putNode e.2.pageNo { c with parent := p }, ?_, Keeps.put_parent hcn p, by simp, Hdr.put _ _ _⟩
  simp [maintainChild, fetchNode_ok hn, hleaf, IxNode.valueAt, IxNode.pageAt, he, modifyNode_ok hcn]

/-- `maintain_child` on a leaf does nothing. -/
theorem maintainChild_leaf {s : IxIndexHandle K} {p : Int} {es : List (K × Rid)} {i : Nat}
    (hc : s.content p = some (true, es)) : s.maintainChild p i = .ok s := by
  obtain ⟨n, hn, hleaf, -⟩ := content_eq_some.mp hc
  simp [maintainChild, fetchNode_ok hn, hleaf]

/-- The loops over `maintain_child` give the listed children `p` as their parent. -/
theorem maintainChildren_spec {p : Int} {X Z : List (K × Rid)} :
    ∀ {Y : List (K × Rid)} {s : IxIndexHandle K}, s.content p = some (false, X ++ Y ++ Z) →
      (∀ e ∈ Y, ∃ q, s.parentOf e.2.pageNo = some q) →
      ∃ t, s.maintainChildren p X.length Y.length = .ok t ∧ Keeps s t ∅ (kids Y) ∅ ∧
        (∀ e ∈ Y, t.parentOf e.2.pageNo = some p) ∧ Hdr s t := by
  intro Y
  induction Y generalizing X with
  | nil =>
    intro s _ _
    exact ⟨s, rfl, Keeps.refl s, by simp, Hdr.refl s⟩
  | cons e Y ih =>
    intro s hc hex
    obtain ⟨q, hq⟩ := hex e List.mem_cons_self
    obtain ⟨s₁, h₁, k₁, hp₁, hd₁⟩ := maintainChild_spec (e := e) (i := X.length) hc (by simp) hq
    have hc₁ : s₁.content p = some (false, (X ++ [e]) ++ Y ++ Z) := by
      rw [k₁.content p (Set.notMem_empty p), hc]
      simp
    obtain ⟨t, h₂, k₂, hp₂, hd₂⟩ := ih hc₁ fun d hd => by
      by_cases hde : d.2.pageNo = e.2.pageNo
      · exact ⟨p, hde ▸ hp₁⟩
      · rw [k₁.parent _ hde]
        exact hex d (List.mem_cons_of_mem _ hd)
    refine ⟨t, ?_, (k₁.mono subset_rfl ?_ subset_rfl).trans (k₂.mono subset_rfl ?_ subset_rfl), ?_, hd₁.trans hd₂⟩
    · rw [List.length_cons, maintainChildren, h₁, ok_bind]
      simpa using h₂
    · rintro c rfl
      exact mem_kids List.mem_cons_self
    · exact kids_subset fun d hd => List.mem_cons_of_mem _ hd
    · intro d hd
      rcases List.mem_cons.mp hd with rfl | hd
      · -- a later pair may name the same child; then that one wrote it
        by_cases hmem : d.2.pageNo ∈ kids Y
        · obtain ⟨d', hd', heq⟩ := hmem
          rw [← heq]
          exact hp₂ d' hd'
        · rw [k₂.parent _ hmem]
          exact hp₁
      · exact hp₂ d hd

end IxIndexHandle
end Rmdb
