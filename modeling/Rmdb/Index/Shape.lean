import Rmdb.Index.Run
import Rmdb.Lib.Ring

/-! What an index should look like, in terms of its pages alone. -/

namespace Rmdb
namespace IxIndexHandle
variable {K : Type}

/-- Page `q` is `d` levels below page `p` along the child pointers. -/
inductive Below (s : IxIndexHandle K) (p : Int) : Int → Nat → Prop where
  | refl : Below s p p 0
  | child {q : Int} {d : Nat} {n : IxNode K} {e : K × Rid} : Below s p q d → s.pages q = some n → n.isLeaf = false →
      e ∈ n.pairs → Below s p e.2.pageNo (d + 1)

/-- `n` is the node on page `p`, at depth `d` of the tree. -/
def NodeAt (s : IxIndexHandle K) (p : Int) (d : Nat) (n : IxNode K) : Prop := Below s s.rootPage p d ∧ s.pages p = some n

/-- Key `k` stands on some node of the subtree of page `p`. -/
def KeyBelow (s : IxIndexHandle K) (p : Int) (k : K) : Prop :=
  ∃ q d n e, Below s p q d ∧ s.pages q = some n ∧ e ∈ n.pairs ∧ e.1 = k

/-- Key `k` is the key of an entry in a leaf of the subtree of page `p`. -/
def EntryBelow (s : IxIndexHandle K) (p : Int) (k : K) : Prop :=
  ∃ q d n e, Below s p q d ∧ s.pages q = some n ∧ n.isLeaf = true ∧ e ∈ n.pairs ∧ e.1 = k

/-- The page is in use: a node of the tree or the leaf header page. -/
def Live (s : IxIndexHandle K) (p : Int) : Prop := p = ixLeafHeaderPage ∨ ∃ d, Below s s.rootPage p d

/-- An entry in a leaf of the tree. -/
def InTree (s : IxIndexHandle K) (e : K × Rid) : Prop := ∃ p d n, NodeAt s p d n ∧ n.isLeaf = true ∧ e ∈ n.pairs

/-- The entries of the tree in key order. -/
structure Entries (f : IxFormat K) (s : IxIndexHandle K) (es : List (K × Rid)) : Prop where
  sorted : es.Pairwise fun a b => f.compare a.1 b.1 < 0
  mem_iff : ∀ e, e ∈ es ↔ InTree s e

/-- Iterating `IxScan` from `leaf_begin()` to `leaf_end()` ends and returns the values of all entries in key order. -/
def ScansAll (f : IxFormat K) (s : IxIndexHandle K) : Prop :=
  ∃ lo hi es, s.leafBegin = .ok lo ∧ s.leafEnd = .ok hi ∧ Entries f s es ∧
    ∃ fuel, IxScan.collect s hi fuel lo = .ok (es.map (·.2))

/-- The pairs of a page. -/
def pairsOn (s : IxIndexHandle K) (p : Int) : List (K × Rid) := ((s.pages p).map (·.pairs)).getD []

/-- The structure of the tree and of the leaf ring. -/
structure WellFormed (f : IxFormat K) (s : IxIndexHandle K) : Prop where
  /-- Every page of the tree holds a node with strictly ascending keys. -/
  sorted : ∀ p d, Below s s.rootPage p d → ∃ n, s.pages p = some n ∧ n.pairs.Pairwise fun a b => f.compare a.1 b.1 < 0
  /-- The keys below child `i` are at least key `i`, and below key `i + 1`. -/
  separated : ∀ p d n, NodeAt s p d n → n.isLeaf = false → ∀ i e, n.pairs[i]? = some e → ∀ k, KeyBelow s e.2.pageNo k →
    f.compare e.1 k ≤ 0 ∧ ∀ e', n.pairs[i + 1]? = some e' → f.compare k e'.1 < 0
  /-- From the second child on, key `i` is the key of an entry below child `i`, and so the smallest one. -/
  attained : ∀ p d n, NodeAt s p d n → n.isLeaf = false → ∀ i e, 1 ≤ i → n.pairs[i]? = some e →
    ∃ k, EntryBelow s e.2.pageNo k ∧ f.compare k e.1 = 0
  /-- Every child has the page that holds it as its parent. -/
  parents : ∀ p d n, NodeAt s p d n → n.isLeaf = false → ∀ e ∈ n.pairs, ∃ c, s.pages e.2.pageNo = some c ∧ c.parent = p
  /-- All leaves are at the same depth, and nothing else is. -/
  depth : ∃ h, ∀ p d n, NodeAt s p d n → (n.isLeaf = true ↔ d = h)
  /-- The leaf links run from the leaf header page through the leaves, each once and in key order, and back. -/
  ring : ∃ ps : List Int, Ring.Chain (fun p => (s.pages p).map (·.nextLeaf)) (fun p => (s.pages p).map (·.prevLeaf))
      ixLeafHeaderPage ps ixLeafHeaderPage ∧ ps.Nodup ∧ (∀ p, p ∈ ps ↔ ∃ d n, NodeAt s p d n ∧ n.isLeaf = true) ∧
      (ps.flatMap s.pairsOn).Pairwise fun a b => f.compare a.1 b.1 < 0

/-- The sizes of the nodes. -/
structure WellSized (f : IxFormat K) (s : IxIndexHandle K) : Prop where
  least : ∀ p d n, NodeAt s p d n → p ≠ s.rootPage → f.minSize ≤ n.size
  most : ∀ p d n, NodeAt s p d n → n.size < f.maxSize
  root : ∀ d n, NodeAt s s.rootPage d n → n.isLeaf = false → 2 ≤ n.size

/-- The sibling that `coalesce_or_redistribute` picks for page `p`, child of `u`. -/
def siblingOf (u : IxNode K) (p : Int) : Option Int :=
  let index := u.pairs.findIdx fun e => e.2.pageNo == p
  u.pairs[if index = 0 then 1 else index - 1]?.map (·.2.pageNo)

/-- Page `p` and its ancestors below the root have as few pairs as they may, and so have their siblings: when `p` loses a pair,
    they are merged with their siblings one after the other, and the root, which has two children, loses one of them. -/
def mergesUp (f : IxFormat K) (s : IxIndexHandle K) : Nat → Int → Bool
  | 0, _ => false
  | fuel + 1, p =>
    match s.pages p with
    | none => false
    | some n =>
      match s.pages n.parent with
      | none => false
      | some u =>
        n.size == f.minSize && ((siblingOf u p).bind s.pages).any (·.size == f.minSize) &&
          if u.isRootPage then u.size == 2 else mergesUp f s fuel n.parent

/-- `delete_entry` of `key` would leave the root with one child. -/
def rootLosesChild (f : IxFormat K) (s : IxIndexHandle K) (key : K) : Bool :=
  match s.findLeafPage f key with
  | .ok p => (s.pages p).any (fun leaf => (leaf.leafLookup f key).isSome) && mergesUp f s s.filePages p
  | .error _ => false

/-- `create_node` gave out no page that was in use: the pages it gives out in a step are those that the counter passes. -/
def FreshPages (s : IxIndexHandle K) (_ : Session K) (t : IxIndexHandle K) : Prop :=
  ∀ p, s.fd2pageno ≤ p → p < t.fd2pageno → ¬Live s p

end IxIndexHandle
end Rmdb
