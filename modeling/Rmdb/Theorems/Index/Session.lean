import Rmdb.Theorems.Index.Shape

/-! Sessions: calls on one index file that is closed and opened again in between. -/

namespace Rmdb
open Ladder

namespace IxIndexHandle
variable {K : Type} [Preorder K]

/-- An index whose pages in use are all below `num_pages_` can be closed and opened. -/
theorem Tree.reopen {f : IxFormat K} {s : IxIndexHandle K} {L : IxLevel K} {Us : List (IxLevel K)} (T : Tree f s L Us)
    (hnum : ∀ p ∈ ids L ++ idsUp Us, p < s.numPages) : Tree f s.reopen L Us := by
  have k : Keeps s s.reopen ∅ ∅ ∅ := Keeps.of_pages rfl
  have hc := T.counters
  exact {
    tower := {
      stored := T.tower.stored
      above := T.tower.above.frame k (fun _ _ h => h) (fun _ _ h => h) rfl
      nodup := T.tower.nodup
      bound := fun p hp => ⟨(T.tower.bound p hp).1, hnum p hp⟩
      nonempty := T.tower.nonempty }
    filled := T.filled
    filledUp := T.filledUp
    ascending := T.ascending
    leaves := ⟨T.leaves.ring, T.leaves.leftmost, T.leaves.ends, T.leaves.header⟩
    counters := ⟨le_rfl, hc.num.trans hc.file⟩ }

section Session
variable {f : IxFormat K} (hf : f.Lawful) {s : IxIndexHandle K} {L : IxLevel K} {Us : List (IxLevel K)}
include hf

theorem Tree.live_lt (T : Tree f s L Us) {p : Int} (h : Live s p) : p < s.fd2pageno := by
  rcases (T.live_iff hf p).mp h with rfl | h
  · obtain ⟨b, B, rfl⟩ := List.exists_cons_of_ne_nil T.tower.nonempty
    have := T.tower.bound b.id (by simp)
    rw [ixLeafHeaderPage]
    omega
  · exact (T.tower.bound p h).2

variable [DecidableEq K]

/-- A call keeps the tree. -/
theorem step_spec (T : Tree f s L Us) (c : IxCall K) : ∃ t M Vs, s.step f c = .ok t ∧ Tree f t M Vs := by
  obtain ⟨t, r, M, Vs, hcall, T', -⟩ := call_spec hf T c
  exact ⟨t, M, Vs, by simp only [step, hcall, ok_bind], T'⟩

/-- In a session that closes the index only while `num_pages_` is above all pages in use, `create_node` gives out fresh
    pages. -/
theorem freshPages_session (T : Tree f s L Us) {cs : List (Session K)}
    (h : Runs.Throughout (sessionStep f) (fun s c => c = .reopen → ∀ p, Live s p → p < s.numPages) s cs) :
    Runs.EachStep (sessionStep f) FreshPages s cs := by
  refine Runs.eachStep_of_invariant (I := fun s => ∃ L Us, Tree f s L Us) ?_ ⟨L, Us, T⟩ h
  rintro s c ⟨L, Us, T⟩ hP
  have hfresh : ∀ t, FreshPages s c t := fun t p hp _ hlive => absurd (T.live_lt hf hlive) (not_lt.mpr hp)
  cases c with
  | call c =>
    obtain ⟨t, M, Vs, ht, T'⟩ := step_spec hf T c
    exact ⟨t, ht, ⟨M, Vs, T'⟩, hfresh t⟩
  | reopen => exact ⟨_, rfl, ⟨L, Us, T.reopen fun p hp => hP rfl p ((T.live_iff hf p).mpr (Or.inr hp))⟩, hfresh _⟩

end Session
end IxIndexHandle

open IxIndexHandle

/-- In every session on a new index whose `close_index` / `open_index` steps are made in states where `num_pages_` is above
    all pages in use, `create_node` never gives out a page in use. -/
theorem ixIndex_freshPages (cols : List IxCol) (hacc : IxAccepts cols) (cs : List (Session (IxKey cols)))
    (h : Runs.Throughout (sessionStep (ixFormat cols)) (fun s c => c = .reopen → ∀ p, Live s p → p < s.numPages) create cs) :
    Runs.EachStep (sessionStep (ixFormat cols)) FreshPages create cs :=
  freshPages_session (ixFormat_lawful hacc) (Tree.create _) h

theorem ixIndex_freshPages_int :
    Runs.EachStep (sessionStep (ixFormat [IxCol.int])) FreshPages create
      [.reopen, .call (.insertEntry (intKey 1 0 0 0) ⟨1, 0⟩)] := by
  refine ixIndex_freshPages [IxCol.int] (by decide) _ ⟨fun _ p hp => ?_, fun _ _ => ⟨by simp, fun _ _ => trivial⟩⟩
  exact (Tree.create (ixFormat [IxCol.int])).live_lt (ixFormat_lawful (by decide)) hp

/-- A key of one CHAR(512) column: its first byte, and zeros. -/
def charKey (a : UInt8) : IxKey [IxCol.char 512] :=
  ⟨a :: List.replicate 511 0, by rw [List.length_cons, List.length_replicate]; rfl, IntChar.nanFree (by decide) _⟩

/-- The allocation counter, and the children of the root if it is an internal node. -/
def rootView {cols : List IxCol} (s : IxIndexHandle (IxKey cols)) : Int × Bool × List Int :=
  (s.fd2pageno, ((s.pages s.rootPage).map (·.isLeaf)).getD true, (s.pairsOn s.rootPage).map (·.2.pageNo))

theorem root_of_rootView {cols : List IxCol} {s : IxIndexHandle (IxKey cols)} {c : Int} {ps : List Int}
    (h : rootView s = (c, false, ps)) :
    s.fd2pageno = c ∧ ∃ n, s.pages s.rootPage = some n ∧ n.isLeaf = false ∧ n.pairs.map (·.2.pageNo) = ps := by
  simp only [rootView, pairsOn, Prod.mk.injEq] at h
  obtain ⟨hc, hleaf, hps⟩ := h
  cases hn : s.pages s.rootPage with
  | none => simp [hn] at hleaf
  | some n => exact ⟨hc, n, rfl, by simpa [hn] using hleaf, by simpa [hn] using hps⟩

/-- Ten entries in three leaves, a merge of the first two, a reopen, and an entry into the merged leaf. -/
def mergeAndReopen : List (Session (IxKey [IxCol.char 512])) :=
  [2, 3, 4, 5, 6, 7, 8, 9, 10, 11].map (fun n => .call (.insertEntry (charKey n) ⟨1, n.toNat⟩)) ++
    [.call (.deleteEntry (charKey 2)), .reopen, .call (.insertEntry (charKey 0) ⟨2, 0⟩)]

set_option maxRecDepth 10000 in
/-- The next entry splits the merged leaf, and `create_node` gives out the page of the other leaf. -/
theorem ixIndex_freshPages_merged : ¬Runs.EachStep (sessionStep (ixFormat [IxCol.char 512])) FreshPages create
    (mergeAndReopen ++ [.call (.insertEntry (charKey 1) ⟨2, 1⟩)]) := by
  intro h
  obtain ⟨s, hs, hview⟩ := Runs.exec_eval (sessionStep (ixFormat [IxCol.char 512])) create mergeAndReopen rootView
    (b := (5, false, [2, 5])) (by decide)
  obtain ⟨u, hu, hfresh⟩ := h.at_exec hs
  obtain ⟨t, ht, htview⟩ := Runs.exec_eval (sessionStep (ixFormat [IxCol.char 512])) create
    (mergeAndReopen ++ [.call (.insertEntry (charKey 1) ⟨2, 1⟩)]) (·.fd2pageno) (b := 6) (by decide)
  rw [Runs.exec_append hs, Runs.exec, hu] at ht
  cases ht
  obtain ⟨hfd, n, hn, hleaf, hpages⟩ := root_of_rootView hview
  obtain ⟨e, he, he5⟩ : ∃ e ∈ n.pairs, e.2.pageNo = 5 := List.mem_map.mp (hpages ▸ by simp)
  have hlive : Live s 5 := Or.inr ⟨1, he5 ▸ .child .refl hn hleaf he⟩
  exact hfresh 5 hfd.le (by rw [htview]; decide) hlive

end Rmdb
