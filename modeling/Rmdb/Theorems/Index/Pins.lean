import Rmdb.Index.Layer
import Rmdb.Theorems.Storage.Pins
import Rmdb.Lib.Hoare
import Mathlib.Data.List.Perm.Subperm

/-! The pins of the index layer. An operation holds handles to a node, its siblings, its parent and its neighbours at once. What
it holds is a list of handles, and what it has changed and not yet marked is a list of pages that it holds: every page that it
fetches or creates is unpinned once, as dirty if it was changed. -/

namespace Rmdb
open BufferPool Hoare

/-! ### What an operation holds -/

/-- `count` of the handles are handles to the page. -/
def handlesTo (fd : Int) (H : List IxHandle) (id : PageId) : Nat := H.countP fun h => id = ⟨fd, h.pageNo⟩

/-- The handles `H` are held over the pins in `base`. The pages in `M` may have been changed since `s₀` and not be marked. -/
structure Held (fd : Int) (base : PageId → Int) (s₀ : BufferPool) (H : List IxHandle) (M : List Int) (s : BufferPool) : Prop where
  good : Good s
  given : GivenOut fd s
  nonneg : ∀ q, 0 ≤ base q
  frames : ∀ h ∈ H, s.pageTable ⟨fd, h.pageNo⟩ = some h.frame
  pins : ∀ q, s.pins q = base q + handlesTo fd H q
  marks : ∀ q, (∀ p ∈ M, q ≠ ⟨fd, p⟩) → Marks s₀ s q

section Held
variable {fd : Int} {base : PageId → Int} {s₀ s t : BufferPool} {H H' C : List IxHandle} {M M' : List Int} {h : IxHandle}

theorem handlesTo_cons (q : PageId) : handlesTo fd (h :: H) q = handlesTo fd H q + if q = ⟨fd, h.pageNo⟩ then 1 else 0 := by
  simp only [handlesTo, List.countP_cons, decide_eq_true_eq]

theorem Held.pos (k : Held fd base s₀ H M s) (hmem : h ∈ H) : 0 < s.pins ⟨fd, h.pageNo⟩ := by
  rw [k.pins]
  have hcount : 0 < handlesTo fd H ⟨fd, h.pageNo⟩ := List.countP_pos_iff.mpr ⟨h, hmem, decide_eq_true rfl⟩
  have := k.nonneg ⟨fd, h.pageNo⟩
  omega

theorem Held.mono (k : Held fd base s₀ H M s) (hM : M ⊆ M') : Held fd base s₀ H M' s :=
  { k with marks := fun q hq => k.marks q fun p hp => hq p (hM hp) }

theorem Held.perm (k : Held fd base s₀ H M s) (hH : H.Perm H') : Held fd base s₀ H' M s :=
  { k with
    frames := fun h hh => k.frames h (hH.mem_iff.mpr hh)
    pins := fun q => by rw [k.pins q, handlesTo, handlesTo, hH.countP_eq] }

/-- Another page is pinned. -/
theorem Held.takes (k : Held fd base s₀ H M s) {p : Int} {fr : Nat} (T : Takes s ⟨fd, p⟩ fr t) (hgiven : GivenOut fd t)
    (hmarks : Marks s t ⟨fd, p⟩ ∨ p ∈ M) : Held fd base s₀ (⟨fr, p⟩ :: H) M t where
  good := T.good
  given := hgiven
  nonneg := k.nonneg
  frames := by
    intro h hh
    rcases List.mem_cons.mp hh with rfl | hh
    · exact T.table
    · exact T.pinned _ _ (k.frames h hh) (k.pos hh)
  pins := fun q => by
    rw [T.pins q, k.pins q, handlesTo_cons]
    push_cast
    split <;> omega
  marks := fun q hq => by
    refine (k.marks q hq).trans ?_
    by_cases hid : q = ⟨fd, p⟩
    · rw [hid]
      rcases hmarks with hmarks | hp
      · exact hmarks
      · exact absurd hid (hq p hp)
    · exact T.marks q hid

/-- A handle is given back. -/
theorem Held.gives (k : Held fd base s₀ (h :: H) M s) (isDirty : Bool) (hM : ∀ p ∈ M, p ∈ M' ∨ isDirty = true ∧ p = h.pageNo) :
    Held fd base s₀ H M' (s.unpinPage ⟨fd, h.pageNo⟩ isDirty).1 := by
  have G := k.good.gives (k.pos List.mem_cons_self) isDirty
  refine ⟨G.good, fun p hp => ?_, k.nonneg, fun g hg => ?_, fun q => ?_, fun q hq => ?_⟩
  · rw [Present, G.table, G.disk] at hp
    rw [G.disk]
    exact k.given p hp
  · rw [G.table]
    exact k.frames g (List.mem_cons_of_mem _ hg)
  · rw [G.pins q, k.pins q, handlesTo_cons]
    push_cast
    split <;> omega
  · intro hun
    refine Marks.trans (k.marks q fun p hp => ?_) (G.marks q) hun
    rcases hM p hp with hp | ⟨hdirty, rfl⟩
    · exact hq p hp
    · rintro rfl
      exact G.dirty hdirty hun

/-- The page behind a handle is changed in place. -/
theorem Held.writes (k : Held fd base s₀ H M s) (hmem : h ∈ H) (hM : h.pageNo ∈ M) (data : Bytes) :
    Held fd base s₀ H M (s.setPage h.frame { s.pages h.frame with data := data }) := by
  obtain ⟨hgood, hpins, hmarks⟩ := k.good.written (k.frames h hmem) data
  exact ⟨hgood, k.given, k.nonneg, k.frames, fun q => (hpins q).trans (k.pins q),
    fun q hq => (k.marks q hq).trans (hmarks q (hq _ hM))⟩

theorem Held.among (k : Held fd base s₀ H M s) (hC : C.Subperm H) : ∃ base, Held fd base s C [] s := by
  refine ⟨fun q => s.pins q - handlesTo fd C q, k.good, k.given, fun q => ?_, fun h hh => k.frames h (hC.subset hh),
    fun q => by omega, fun q _ => Marks.refl q⟩
  have hle : handlesTo fd C q ≤ handlesTo fd H q := hC.countP_le _
  have := k.nonneg q
  rw [k.pins q]
  omega

end Held

/-! ### The elementary operations -/

namespace IxLayer

def Holds (fd : Int) (base : PageId → Int) (s₀ : BufferPool) (H : List IxHandle) (M : List Int) (s : IxLayer) : Prop :=
  Held fd base s₀ H M s.pool

/-- An exception leaves the handles `C` held, unless the disk has failed. -/
def Leaves (fd : Int) (C : List IxHandle) (e : IxRaised) (s : IxLayer) : Prop :=
  (∃ d, e = .disk d) ∨ ∃ base, Holds fd base s.pool C [] s

section Elementary
variable {cols : List IxCol} {fd : Int} {base : PageId → Int} {s₀ : BufferPool} {H C : List IxHandle} {M : List Int} {h : IxHandle}
  {E : IxRaised → IxLayer → Prop}

theorem Holds.leaves {s : IxLayer} (k : Holds fd base s₀ H M s) (hC : C.Subperm H) (e : IxRaised) : Leaves fd C e s :=
  .inr (Held.among k hC)

theorem triple_ofNode {α : Type} (hC : C.Subperm H) (r : Except IxError α) :
    Triple (Holds fd base s₀ H M) (ofNode r) (fun _ => Holds fd base s₀ H M) (Leaves fd C) := by
  cases r with
  | ok a => exact Triple.pure fun _ k => k
  | error e => exact Triple.throw fun _ k => k.leaves hC _

theorem triple_fetch (hC : C.Subperm H) (p : Int) :
    Triple (Holds fd base s₀ H M) (fetchNode fd p) (fun h => Holds fd base s₀ (h :: H) M) (Leaves fd C) := by
  refine Triple.get fun _ k => ?_
  rintro s rfl
  rcases k.good.fetch_spec k.given ⟨fd, p⟩ with ⟨e, hres⟩ | ⟨r, hres, hgood⟩ | ⟨t, fr, hres, T, hmarks, hgiven⟩
  · rw [hres]
    exact ⟨fun a ha => (by cases ha), fun e' he => .inl ⟨e, (Except.error.inj he).symm⟩⟩
  · rw [hres]
    refine ⟨fun a ha => (by cases ha), fun e' he => Or.inr ?_⟩
    exact Held.among (s := { s.pool with replacer := r }) ⟨hgood, k.given, k.nonneg, k.frames, k.pins, k.marks⟩ hC
  · rw [hres]
    refine ⟨fun a ha => ?_, fun e' he => (by cases he)⟩
    cases ha
    exact Held.takes k T hgiven (.inl hmarks)

theorem triple_create (hC : C.Subperm H) :
    Triple (Holds fd base s₀ H M) (createNode fd) (fun h => Holds fd base s₀ (h :: H) (h.pageNo :: M)) (Leaves fd C) := by
  refine Triple.get fun _ k => ?_
  rintro s rfl
  rcases k.good.new_spec k.given with ⟨r, hres, hgood⟩ | ⟨t, fr, hres, T, hgiven⟩
  · rw [hres]
    refine ⟨fun a ha => (by cases ha), fun e' he => Or.inr ?_⟩
    exact Held.among (s := { s.pool with replacer := r }) ⟨hgood, k.given, k.nonneg, k.frames, k.pins, k.marks⟩ hC
  · rw [hres]
    refine ⟨fun a ha => ?_, fun e' he => (by cases he)⟩
    cases ha
    exact Held.takes (Held.mono k (List.subset_cons_self _ _)) T hgiven (.inr List.mem_cons_self)

theorem triple_unpin_clean :
    Triple (Holds fd base s₀ (h :: H) M) (unpinPage fd h false) (fun _ => Holds fd base s₀ H M) E :=
  Triple.modify fun _ k => Held.gives k false fun _ hp => .inl hp

theorem triple_unpin_dirty :
    Triple (Holds fd base s₀ (h :: H) (h.pageNo :: M)) (unpinPage fd h true) (fun _ => Holds fd base s₀ H M) E := by
  refine Triple.modify fun _ k => Held.gives k true fun p hp => ?_
  rcases List.mem_cons.mp hp with rfl | hp
  · exact .inr ⟨rfl, rfl⟩
  · exact .inl hp

theorem triple_load {P : IxLayer → Prop} : Triple P (loadNode cols h) (fun _ => P) E := Triple.get fun _ hs => Triple.pure fun _ ht => ht ▸ hs

theorem triple_walkBound {P : IxLayer → Prop} : Triple P (walkBound fd) (fun _ => P) E := Triple.get fun _ hs => Triple.pure fun _ ht => ht ▸ hs

theorem triple_put (hmem : h ∈ H) (hM : h.pageNo ∈ M) (n : IxNode Bytes) :
    Triple (Holds fd base s₀ H M) (putNode cols h n) (fun _ => Holds fd base s₀ H M) E :=
  Triple.modify fun _ k => Held.writes k hmem hM _

theorem triple_modifyNode (hmem : h ∈ H) (hM : h.pageNo ∈ M) (g : IxNode Bytes → IxNode Bytes) :
    Triple (Holds fd base s₀ H M) (modifyNode cols h g) (fun _ => Holds fd base s₀ H M) E :=
  triple_load.bind fun n => triple_put hmem hM (g n)

theorem triple_header {g : IxLayer → IxLayer} (hpool : ∀ s, (g s).pool = s.pool) :
    Triple (Holds fd base s₀ H M) (modify g : IxM PUnit) (fun _ => Holds fd base s₀ H M) E := by
  refine Triple.modify fun s k => ?_
  rw [Holds, hpool s]
  exact k

theorem triple_fetch_to_change (hC : C.Subperm H) (p : Int) :
    Triple (Holds fd base s₀ H M) (fetchNode fd p) (fun h => Holds fd base s₀ (h :: H) (h.pageNo :: M)) (Leaves fd C) :=
  (triple_fetch hC p).imp_post fun _ _ k => Held.mono k (List.subset_cons_self _ _)

theorem triple_change (hC : C.Subperm H) (p : Int) (g : IxNode Bytes → IxNode Bytes) :
    Triple (Holds fd base s₀ H M) (do
      let child ← fetchNode fd p
      modifyNode cols child g
      unpinPage fd child true) (fun _ => Holds fd base s₀ H M) (Leaves fd C) :=
  (triple_fetch_to_change hC p).bind fun _ => (triple_modifyNode List.mem_cons_self List.mem_cons_self g).bind fun _ => triple_unpin_dirty

end Elementary

/-! ### The operations -/

section Operations
variable {cols : List IxCol} {fd : Int} {base : PageId → Int} {s₀ : BufferPool} {H C : List IxHandle} {M : List Int}
  {h q node neighbor parent : IxHandle}

/-- The operation ends with the handles that it began with, and has marked what it changed. -/
def Keeps (fd : Int) (C H : List IxHandle) (M : List Int) {α : Type} (m : IxM α) : Prop :=
  ∀ base s₀, Triple (Holds fd base s₀ H M) m (fun _ => Holds fd base s₀ H M) (Leaves fd C)

theorem subperm_cons (hC : C.Subperm H) : C.Subperm (h :: H) := hC.trans (List.sublist_cons_self h H).subperm

theorem triple_findLeafLoop (hC : C.Subperm H) (key : Bytes) (fuel : Nat) (h : IxHandle) :
    Triple (Holds fd base s₀ (h :: H) M) (findLeafLoop cols fd key fuel h) (fun leaf => Holds fd base s₀ (leaf :: H) M) (Leaves fd C) := by
  induction fuel generalizing h with
  | zero => exact Triple.throw fun _ k => k.leaves (subperm_cons hC) _
  | succ fuel ih =>
    refine triple_load.bind fun n => Triple.ite (fun _ => Triple.pure fun _ k => k) fun _ => ?_
    refine (triple_ofNode (subperm_cons hC) _).bind fun childPageNo => ?_
    refine (triple_fetch (subperm_cons hC) childPageNo).bind fun child => ?_
    -- the parent is unpinned below the child
    refine Triple.bind (Triple.of_imp triple_unpin_clean fun _ k => Held.perm k (List.Perm.swap h child H)) fun _ => ih child

theorem triple_findLeafPage (hC : C.Subperm H) (key : Bytes) :
    Triple (Holds fd base s₀ H M) (findLeafPage cols fd key) (fun leaf => Holds fd base s₀ (leaf :: H) M) (Leaves fd C) := by
  refine triple_walkBound.bind fun fuel => Triple.get fun s hs => ?_
  exact ((triple_fetch hC s.rootPage).at_state hs).bind fun root => triple_findLeafLoop hC key fuel root

theorem keeps_getValue (hC : C.Subperm H) (key : Bytes) : Keeps fd C H M (getValue cols fd key) := fun _ _ =>
  (triple_findLeafPage hC key).bind fun _ => triple_load.bind fun _ => triple_unpin_clean.bind fun _ => Triple.pure fun _ k => k

theorem keeps_isUnique (hC : C.Subperm H) (key : Bytes) : Keeps fd C H M (isUnique cols fd key) := by
  intro base s₀
  refine (triple_findLeafPage hC key).bind fun h => triple_load.bind fun leaf => triple_unpin_clean.bind fun _ => ?_
  split
  · exact Triple.ite (fun _ => Triple.pure fun _ k => k) fun _ => Triple.pure fun _ k => k
  · exact Triple.pure fun _ k => k

theorem keeps_bound (hC : C.Subperm H) (search : IxNode Bytes → Nat) (key : Bytes) : Keeps fd C H M (bound cols fd search key) := by
  intro base s₀
  refine (triple_findLeafPage hC key).bind fun h => triple_load.bind fun leaf => Triple.get fun s hs => ?_
  exact (triple_unpin_clean.at_state hs).bind fun _ => Triple.pure fun _ k => k

theorem keeps_maintainChild (hC : C.Subperm H) (h : IxHandle) (i : Nat) : Keeps fd C H M (maintainChild cols fd h i) := by
  intro base s₀
  refine triple_load.bind fun n => Triple.ite (fun _ => Triple.pure fun _ k => k) fun _ => ?_
  exact (triple_ofNode hC _).bind fun childPageNo => triple_change hC childPageNo _

theorem keeps_maintainChildren (hC : C.Subperm H) (h : IxHandle) (i count : Nat) : Keeps fd C H M (maintainChildren cols fd h i count) := by
  intro base s₀
  induction count generalizing i with
  | zero => exact Triple.pure fun _ k => k
  | succ count ih => exact (keeps_maintainChild hC h i base s₀).bind fun _ => ih (i + 1)

/-- What `maintain_parent` holds at `curr`: the node it began with belongs to the caller. -/
def climbing (isNode : Bool) (curr : IxHandle) (H : List IxHandle) : List IxHandle := if isNode then H else curr :: H

/-- The pages that `maintain_parent` has changed at `curr`. -/
def climbed (isNode : Bool) (curr : IxHandle) (M : List Int) : List Int := if isNode then M else curr.pageNo :: M

theorem triple_leaveNode (isNode : Bool) (curr : IxHandle) {E : IxRaised → IxLayer → Prop} :
    Triple (Holds fd base s₀ (climbing isNode curr H) (climbed isNode curr M)) (leaveNode fd isNode curr) (fun _ => Holds fd base s₀ H M) E := by
  cases isNode with
  | true => exact Triple.pure fun _ k => k
  | false => exact triple_unpin_dirty

theorem climbing_perm (isNode : Bool) (curr : IxHandle) : (parent :: climbing isNode curr H).Perm (climbing isNode curr (parent :: H)) := by
  cases isNode with
  | true => exact List.Perm.refl _
  | false => exact List.Perm.swap curr parent H

theorem climbed_subset (isNode : Bool) (curr : IxHandle) (p : Int) : (p :: climbed isNode curr M) ⊆ climbed isNode curr (p :: M) := by
  cases isNode with
  | true => exact List.Subset.refl _
  | false => exact (List.Perm.swap curr.pageNo p M).subset

theorem triple_maintainParentLoop (hC : C.Subperm H) (fuel : Nat) (isNode : Bool) (curr : IxHandle) :
    Triple (Holds fd base s₀ (climbing isNode curr H) (climbed isNode curr M)) (maintainParentLoop cols fd fuel isNode curr)
      (fun _ => Holds fd base s₀ H M) (Leaves fd C) := by
  have hC' : ∀ isNode curr, C.Subperm (climbing isNode curr H) := by
    intro isNode curr
    cases isNode with
    | true => exact hC
    | false => exact subperm_cons hC
  induction fuel generalizing isNode curr with
  | zero => exact Triple.throw fun _ k => k.leaves (hC' isNode curr) _
  | succ fuel ih =>
    refine triple_load.bind fun c => Triple.ite (fun _ => triple_leaveNode isNode curr) fun _ => ?_
    refine (triple_fetch (hC' isNode curr) c.parent).bind fun parent => triple_load.bind fun u => ?_
    refine (triple_ofNode (subperm_cons (hC' isNode curr)) _).bind fun rank => ?_
    refine (triple_ofNode (subperm_cons (hC' isNode curr)) _).bind fun parentKey => ?_
    refine (triple_ofNode (subperm_cons (hC' isNode curr)) _).bind fun childFirstKey => ?_
    refine Triple.ite (fun _ => ?_) fun _ => ?_
    · -- the parent has the key, and is as it was
      refine Triple.bind (Triple.of_imp (triple_leaveNode isNode curr) fun _ k => Held.perm k (climbing_perm isNode curr)) fun _ => ?_
      exact triple_unpin_clean
    · refine Triple.bind (Triple.of_imp (triple_put List.mem_cons_self List.mem_cons_self _) fun _ k =>
        Held.mono k (List.subset_cons_self parent.pageNo _)) fun _ => ?_
      refine Triple.bind (Triple.of_imp (triple_leaveNode isNode curr) fun _ k =>
        Held.mono (Held.perm k (climbing_perm isNode curr)) (climbed_subset isNode curr parent.pageNo)) fun _ => ?_
      exact ih false parent

theorem keeps_maintainParent (hC : C.Subperm H) (h : IxHandle) : Keeps fd C H M (maintainParent cols fd h) := by
  intro base s₀
  refine triple_load.bind fun n => Triple.ite (fun _ => Triple.pure fun _ k => k) fun _ => ?_
  exact triple_walkBound.bind fun fuel => triple_maintainParentLoop hC fuel true h

/-! #### Insertion -/

theorem keeps_linkLeaf (hC : C.Subperm H) (hh : h ∈ H) (hM : h.pageNo ∈ M) (hq : q ∈ H) (hqM : q.pageNo ∈ M) :
    Keeps fd C H M (linkLeaf cols fd h q) := by
  intro base s₀
  refine triple_load.bind fun n => (triple_modifyNode hq hqM _).bind fun _ => (triple_modifyNode hh hM _).bind fun _ => ?_
  exact triple_load.bind fun w => triple_change hC w.nextLeaf _

theorem triple_split (hC : C.Subperm H) (hh : h ∈ H) (hM : h.pageNo ∈ M) :
    Triple (Holds fd base s₀ H M) (split cols fd h) (fun q => Holds fd base s₀ (q :: H) (q.pageNo :: M)) (Leaves fd C) := by
  refine (triple_create hC).bind fun q => triple_load.bind fun n => ?_
  have hC' : C.Subperm (q :: H) := subperm_cons hC
  have hh' : h ∈ q :: H := List.mem_cons_of_mem q hh
  have hM' : h.pageNo ∈ q.pageNo :: M := List.mem_cons_of_mem _ hM
  refine Triple.bind (Triple.ite (fun _ => keeps_linkLeaf hC' hh' hM' List.mem_cons_self List.mem_cons_self base s₀)
    fun _ => Triple.pure fun _ k => k) fun _ => triple_load.bind fun n => ?_
  refine (triple_modifyNode List.mem_cons_self List.mem_cons_self _).bind fun _ => triple_load.bind fun w => ?_
  refine (triple_ofNode hC' _).bind fun w => (triple_put List.mem_cons_self List.mem_cons_self w).bind fun _ => ?_
  refine (triple_modifyNode hh' hM' _).bind fun _ => ?_
  refine Triple.bind (Triple.ite (fun _ => Triple.pure fun _ k => k)
    fun _ => keeps_maintainChildren hC' q 0 w.size base s₀) fun _ => Triple.pure fun _ k => k

theorem keeps_newRoot {old new : IxHandle} (hC : C.Subperm H) (ho : old ∈ H) (hoM : old.pageNo ∈ M) (hn : new ∈ H)
    (hnM : new.pageNo ∈ M) (key : Bytes) : Keeps fd C H M (newRoot cols fd old key new) := by
  intro base s₀
  refine (triple_create hC).bind fun r => triple_load.bind fun o => ?_
  have hC' : C.Subperm (r :: H) := subperm_cons hC
  refine (triple_ofNode hC' _).bind fun oldKey => (triple_ofNode hC' _).bind fun root => (triple_ofNode hC' _).bind fun root => ?_
  refine (triple_put List.mem_cons_self List.mem_cons_self root).bind fun _ => ?_
  refine (triple_modifyNode (List.mem_cons_of_mem r ho) (List.mem_cons_of_mem _ hoM) _).bind fun _ => ?_
  refine (triple_modifyNode (List.mem_cons_of_mem r hn) (List.mem_cons_of_mem _ hnM) _).bind fun _ => ?_
  refine Triple.bind (triple_header fun _ => rfl) fun _ => triple_unpin_dirty

theorem keeps_insertIntoParent (fuel : Nat) {old new : IxHandle} (hC : C.Subperm H) (ho : old ∈ H) (hoM : old.pageNo ∈ M) (hn : new ∈ H)
    (hnM : new.pageNo ∈ M) (key : Bytes) : Keeps fd C H M (insertIntoParent cols fd fuel old key new) := by
  intro base s₀
  induction fuel generalizing H M old new key with
  | zero => exact Triple.throw fun _ k => k.leaves hC _
  | succ fuel ih =>
    refine triple_load.bind fun o => Triple.ite (fun _ => keeps_newRoot hC ho hoM hn hnM key base s₀) fun _ => ?_
    refine (triple_fetch_to_change hC o.parent).bind fun parent => triple_load.bind fun u => ?_
    have hC' : C.Subperm (parent :: H) := subperm_cons hC
    refine (triple_ofNode hC' _).bind fun rank => (triple_ofNode hC' _).bind fun u => ?_
    refine (triple_put List.mem_cons_self List.mem_cons_self u).bind fun _ => ?_
    refine Triple.ite (fun _ => ?_) fun _ => triple_unpin_dirty
    refine (triple_split hC' List.mem_cons_self List.mem_cons_self).bind fun q => triple_load.bind fun w => ?_
    refine (triple_ofNode (subperm_cons hC') _).bind fun wKey => ?_
    refine Triple.bind (ih (subperm_cons hC') (List.mem_cons_of_mem q List.mem_cons_self) (List.mem_cons_of_mem _ List.mem_cons_self)
      List.mem_cons_self List.mem_cons_self wKey) fun _ => ?_
    exact triple_unpin_dirty.bind fun _ => triple_unpin_dirty

theorem triple_splitLeaf (hC : C.Subperm H) (h : IxHandle) (key : Bytes) :
    Triple (Holds fd base s₀ (h :: H) (h.pageNo :: M)) (splitLeaf cols fd h key) (fun _ => Holds fd base s₀ H M) (Leaves fd C) := by
  have hC' : C.Subperm (h :: H) := subperm_cons hC
  refine (triple_split hC' List.mem_cons_self List.mem_cons_self).bind fun q => ?_
  refine Triple.bind (triple_header fun s => by split <;> rfl) fun _ => triple_load.bind fun w => ?_
  refine (triple_ofNode (subperm_cons hC') _).bind fun wKey => triple_walkBound.bind fun fuel => ?_
  refine Triple.bind (keeps_insertIntoParent fuel (subperm_cons hC') (List.mem_cons_of_mem q List.mem_cons_self)
    (List.mem_cons_of_mem _ List.mem_cons_self) List.mem_cons_self List.mem_cons_self wKey base s₀) fun _ => triple_load.bind fun w => ?_
  refine (triple_ofNode (subperm_cons hC') _).bind fun found => ?_
  -- the leaf is unpinned before its new sibling
  refine Triple.bind (Triple.of_imp triple_unpin_dirty fun _ k =>
    Held.mono (Held.perm k (List.Perm.swap h q H)) (List.Perm.swap h.pageNo q.pageNo M).subset) fun _ => ?_
  exact triple_unpin_dirty.bind fun _ => Triple.pure fun _ k => k

theorem keeps_insertEntry (hC : C.Subperm H) (key : Bytes) (value : Rid) : Keeps fd C H M (insertEntry cols fd key value) := by
  intro base s₀
  refine (triple_findLeafPage hC key).bind fun h => triple_load.bind fun leaf => ?_
  have hC' : C.Subperm (h :: H) := subperm_cons hC
  refine (triple_ofNode hC' _).bind fun inserted => Triple.ite (fun _ => ?_) fun _ => ?_
  · exact triple_unpin_clean.bind fun _ => Triple.pure fun _ k => k
  · refine Triple.bind (Triple.of_imp (triple_put List.mem_cons_self List.mem_cons_self _) fun _ k =>
      Held.mono k (List.subset_cons_self h.pageNo _)) fun _ => ?_
    refine Triple.bind (Triple.ite (fun _ => keeps_maintainParent hC' h base s₀) fun _ => Triple.pure fun _ k => k) fun _ => ?_
    refine triple_load.bind fun leaf => Triple.ite (fun _ => triple_splitLeaf hC h key) fun _ => ?_
    exact triple_unpin_dirty.bind fun _ => Triple.pure fun _ k => k

/-! #### Deletion -/

theorem keeps_adjustRoot (hC : C.Subperm H) (hh : h ∈ H) (hM : h.pageNo ∈ M) : Keeps fd C H M (adjustRoot cols fd h) := by
  intro base s₀
  have hreset : ∀ b : Bool, Triple (Holds fd base s₀ H M) (do
      modify fun s : IxLayer => { s with rootPage := ixInitRootPage, firstLeaf := ixNoPage, lastLeaf := ixNoPage }
      return b : IxM Bool) (fun _ => Holds fd base s₀ H M) (Leaves fd C) := fun b =>
    Triple.bind (triple_header fun _ => rfl) fun _ => Triple.pure fun _ k => k
  refine triple_load.bind fun root => Triple.ite (fun _ => hreset true) fun _ => ?_
  refine Triple.ite (fun _ => Triple.ite (fun _ => ?_) fun _ => ?_) fun _ => Triple.pure fun _ k => k
  · refine (triple_ofNode hC _).bind fun childPageNo => (triple_ofNode hC _).bind fun root => (triple_put hh hM root).bind fun _ => ?_
    refine Triple.bind (triple_header fun _ => rfl) fun _ => ?_
    refine (triple_fetch_to_change hC childPageNo).bind fun child => ?_
    refine (triple_modifyNode List.mem_cons_self List.mem_cons_self _).bind fun _ => triple_unpin_dirty.bind fun _ => ?_
    exact Triple.bind (triple_header fun _ => rfl) fun _ => Triple.pure fun _ k => k
  · exact Triple.ite (fun _ => hreset true) fun _ => Triple.pure fun _ k => k

theorem keeps_redistribute (hC : C.Subperm H) (hn : neighbor ∈ H) (hnM : neighbor.pageNo ∈ M) (hh : node ∈ H) (hM : node.pageNo ∈ M)
    (hp : parent ∈ H) (hpM : parent.pageNo ∈ M) (index : Nat) : Keeps fd C H M (redistribute cols fd neighbor node parent index) := by
  intro base s₀
  refine triple_load.bind fun m => triple_load.bind fun n => Triple.ite (fun _ => ?_) fun _ => ?_
  · refine (triple_ofNode hC _).bind fun n => (triple_put hh hM n).bind fun _ => triple_load.bind fun m => ?_
    refine (triple_ofNode hC _).bind fun m => (triple_put hn hnM m).bind fun _ => (triple_ofNode hC _).bind fun key => ?_
    refine (triple_modifyNode hp hpM _).bind fun _ => ?_
    exact Triple.ite (fun _ => Triple.pure fun _ k => k) fun _ => keeps_maintainChild hC node _ base s₀
  · refine (triple_ofNode hC _).bind fun n => (triple_put hh hM n).bind fun _ => triple_load.bind fun m => ?_
    refine (triple_ofNode hC _).bind fun m => (triple_put hn hnM m).bind fun _ => (triple_ofNode hC _).bind fun key => ?_
    exact (triple_modifyNode hp hpM _).bind fun _ => keeps_maintainChild hC node 0 base s₀

theorem keeps_eraseLeaf (hC : C.Subperm H) (h : IxHandle) : Keeps fd C H M (eraseLeaf cols fd h) := by
  intro base s₀
  refine triple_load.bind fun n => Triple.ite (fun _ => Triple.throw fun _ k => k.leaves hC _) fun _ => ?_
  refine Triple.bind (Q := fun _ => Holds fd base s₀ H M) ?_ fun _ => ?_
  · refine triple_load.bind fun n => Triple.ite (fun _ => triple_change hC n.prevLeaf _) fun _ => triple_header fun _ => rfl
  · refine triple_load.bind fun n => Triple.ite (fun _ => triple_change hC n.nextLeaf _) fun _ => triple_header fun _ => rfl

theorem keeps_mergeInto {again : IxHandle → IxM Bool} {left right : IxHandle} (hC : C.Subperm H) (hl : left ∈ H) (hlM : left.pageNo ∈ M)
    (hp : parent ∈ H) (hpM : parent.pageNo ∈ M) (hagain : Keeps fd C H M (again parent)) (index : Nat) :
    Keeps fd C H M (mergeInto cols fd again left right parent index) := by
  intro base s₀
  refine triple_load.bind fun r => triple_load.bind fun l => ?_
  refine (triple_ofNode hC _).bind fun l => (triple_put hl hlM l).bind fun _ => ?_
  refine Triple.bind (Triple.ite (fun _ => keeps_maintainChildren hC left _ _ base s₀) fun _ => ?_) fun _ => ?_
  · exact (keeps_eraseLeaf hC right base s₀).bind fun _ => triple_header fun s => by split <;> rfl
  · refine Triple.bind (triple_header fun _ => rfl) fun _ => triple_load.bind fun u => (triple_ofNode hC _).bind fun u => ?_
    refine (triple_put hp hpM u).bind fun _ => Triple.ite (fun _ => keeps_adjustRoot hC hp hpM base s₀) fun _ => ?_
    exact Triple.ite (fun _ => hagain base s₀) fun _ => Triple.pure fun _ k => k

theorem triple_releasing {α : Type} {P : IxLayer → Prop} {Q : α → IxLayer → Prop} (hs : List IxHandle) {body : IxM α}
    (hbody : Triple P body Q (Leaves fd (hs ++ C))) : Triple P (releasing fd hs body) Q (Leaves fd C) := by
  refine Triple.tryCatch hbody fun e => Triple.bind (Q := fun _ => Leaves fd C e) ?_ fun _ => Triple.throw fun _ k => k
  clear hbody
  induction hs with
  | nil => exact Triple.pure fun _ k => k
  | cons h hs ih =>
    refine Triple.bind (Q := fun _ => Leaves fd (hs ++ C) e) (Triple.modify fun s k => ?_) fun _ => ih
    rcases k with hdisk | ⟨base, k⟩
    · exact .inl hdisk
    · exact .inr (Held.among (Held.gives k false fun _ hp => .inl hp) (List.Subperm.refl _))

theorem triple_repair {again : IxHandle → IxM Bool} (hC : C.Subperm H) (hh : node ∈ H) (hM : node.pageNo ∈ M)
    (hagain : ∀ C H M, C.Subperm H → parent ∈ H → parent.pageNo ∈ M → Keeps fd C H M (again parent)) (index : Nat) :
    Triple (Holds fd base s₀ (neighbor :: parent :: H) M) (repair cols fd again neighbor node parent index)
      (fun _ => Holds fd base s₀ H M) (Leaves fd ([parent, neighbor] ++ C)) := by
  have hC' : ([parent, neighbor] ++ C).Subperm (neighbor :: parent :: H) :=
    (List.Perm.swap neighbor parent C).subperm.trans ((List.subperm_cons neighbor).mpr ((List.subperm_cons parent).mpr hC))
  -- all three pages may be changed
  have hmono : ∀ s, Holds fd base s₀ (neighbor :: parent :: H) M s → Holds fd base s₀ (neighbor :: parent :: H) (neighbor.pageNo :: parent.pageNo :: M) s :=
    fun s k => Held.mono k fun p hp => List.mem_cons_of_mem _ (List.mem_cons_of_mem _ hp)
  have hhH : node ∈ neighbor :: parent :: H := List.mem_cons_of_mem _ (List.mem_cons_of_mem _ hh)
  have hhM : node.pageNo ∈ neighbor.pageNo :: parent.pageNo :: M := List.mem_cons_of_mem _ (List.mem_cons_of_mem _ hM)
  have hpH : parent ∈ neighbor :: parent :: H := List.mem_cons_of_mem _ List.mem_cons_self
  have hpM : parent.pageNo ∈ neighbor.pageNo :: parent.pageNo :: M := List.mem_cons_of_mem _ List.mem_cons_self
  have hdone : ∀ b : Bool, Triple (Holds fd base s₀ (neighbor :: parent :: H) (neighbor.pageNo :: parent.pageNo :: M)) (do
      unpinPage fd parent true
      unpinPage fd neighbor true
      return b) (fun _ => Holds fd base s₀ H M) (Leaves fd ([parent, neighbor] ++ C)) := by
    intro b
    refine Triple.bind (Triple.of_imp triple_unpin_dirty fun _ k =>
      Held.mono (Held.perm k (List.Perm.swap parent neighbor H)) (List.Perm.swap parent.pageNo neighbor.pageNo M).subset) fun _ => ?_
    exact triple_unpin_dirty.bind fun _ => Triple.pure fun _ k => k
  refine triple_load.bind fun n => triple_load.bind fun m => Triple.of_imp (Triple.ite (fun _ => ?_) fun _ => ?_) hmono
  · refine Triple.bind (keeps_redistribute hC' List.mem_cons_self List.mem_cons_self hhH hhM hpH hpM index base s₀) fun _ => hdone false
  · refine Triple.bind ?_ fun _ => hdone true
    have hpar := hagain _ _ (neighbor.pageNo :: parent.pageNo :: M) hC' hpH hpM
    refine Triple.ite (fun _ => ?_) fun _ => ?_
    · exact keeps_mergeInto hC' hhH hhM hpH hpM hpar (index + 1) base s₀
    · exact keeps_mergeInto hC' List.mem_cons_self List.mem_cons_self hpH hpM hpar index base s₀

theorem keeps_coalesceOrRedistribute (fuel : Nat) (hC : C.Subperm H) (hh : h ∈ H) (hM : h.pageNo ∈ M) :
    Keeps fd C H M (coalesceOrRedistribute cols fd fuel h) := by
  intro base s₀
  induction fuel generalizing C H M h base s₀ with
  | zero => exact Triple.throw fun _ k => k.leaves hC _
  | succ fuel ih =>
    refine triple_load.bind fun n => Triple.ite (fun _ => keeps_adjustRoot hC hh hM base s₀) fun _ => ?_
    refine Triple.ite (fun _ => Triple.pure fun _ k => k) fun _ => (triple_fetch hC n.parent).bind fun parent => ?_
    have hC' : ([parent] ++ C).Subperm (parent :: H) := (List.subperm_cons parent).mpr hC
    refine triple_load.bind fun u => (triple_releasing [parent] (triple_ofNode hC' _)).bind fun index => ?_
    refine Triple.ite (fun _ => triple_unpin_clean.bind fun _ => Triple.pure fun _ k => k) fun _ => ?_
    refine Triple.bind (triple_releasing [parent] ((triple_ofNode hC' _).bind fun p => triple_fetch hC' p)) fun neighbor => ?_
    exact triple_releasing [parent, neighbor] (triple_repair hC hh hM (fun C H M hC hp hpM base s₀ => ih hC hp hpM base s₀) index)

theorem keeps_deleteEntry (hC : C.Subperm H) (key : Bytes) : Keeps fd C H M (deleteEntry cols fd key) := by
  intro base s₀
  refine Triple.get fun s hs => Triple.ite (fun _ => Triple.pure fun _ k => k ▸ hs) fun _ => ?_
  refine ((triple_findLeafPage hC key).at_state hs).bind fun h => triple_releasing [h] ?_
  have hC' : ([h] ++ C).Subperm (h :: H) := (List.subperm_cons h).mpr hC
  refine triple_load.bind fun leaf => (triple_ofNode hC' _).bind fun removed => Triple.ite (fun _ => ?_) fun _ => ?_
  · exact triple_unpin_clean.bind fun _ => Triple.pure fun _ k => k
  · refine Triple.bind (Triple.of_imp (triple_put List.mem_cons_self List.mem_cons_self _) fun _ k =>
      Held.mono k (List.subset_cons_self h.pageNo _)) fun _ => ?_
    refine Triple.bind (Triple.ite (fun _ => keeps_maintainParent hC' h base s₀) fun _ => Triple.pure fun _ k => k) fun _ => ?_
    refine triple_walkBound.bind fun fuel => ?_
    refine Triple.bind (keeps_coalesceOrRedistribute fuel hC' List.mem_cons_self List.mem_cons_self base s₀) fun _ => ?_
    exact triple_unpin_dirty.bind fun _ => Triple.pure fun _ k => k

end Operations
end IxLayer

/-! ### Scans -/

namespace IxCursor
open IxLayer
variable {cols : List IxCol} {fd : Int} {base : PageId → Int} {s₀ : BufferPool} {H : List IxHandle} {M : List Int}

theorem triple_leaf (c : IxCursor) :
    Triple (Holds fd base s₀ (c.cached.toList ++ H) M) (c.leaf fd) (fun h => Holds fd base s₀ (h :: H) M) (Leaves fd []) := by
  unfold leaf
  cases c.cached with
  | none => exact triple_fetch List.nil_subperm c.iid.pageNo
  | some h =>
    refine Triple.ite (fun _ => Triple.pure fun _ k => k) fun _ => ?_
    exact triple_unpin_clean.bind fun _ => triple_fetch List.nil_subperm c.iid.pageNo

theorem triple_leaveLeaf (c : IxCursor) (h : IxHandle) (n : IxNode Bytes) :
    Triple (Holds fd base s₀ (h :: H) M) (c.leaveLeaf fd h n) (fun c' => Holds fd base s₀ (c'.cached.toList ++ H) M) (Leaves fd []) := by
  refine Triple.ite (fun _ => triple_unpin_clean.bind fun _ => ?_) fun _ => ?_
  · exact (triple_fetch List.nil_subperm n.nextLeaf).bind fun next => Triple.pure fun _ k => k
  · exact triple_unpin_clean.bind fun _ => Triple.pure fun _ k => k

theorem triple_next (c : IxCursor) : Triple (Holds fd base s₀ (c.cached.toList ++ H) M) (c.next cols fd)
    (fun c' => Holds fd base s₀ (c'.cached.toList ++ H) M) (Leaves fd []) := by
  refine Triple.ite (fun _ => Triple.throw fun _ k => k.leaves List.nil_subperm _) fun _ => ?_
  refine (triple_leaf c).bind fun h => triple_load.bind fun n => ?_
  refine Triple.ite (fun _ => Triple.throw fun _ k => k.leaves List.nil_subperm _) fun _ => ?_
  refine Triple.ite (fun _ => triple_leaveLeaf c h n) fun _ => Triple.ite (fun _ => triple_leaveLeaf c h n) fun _ => ?_
  exact Triple.pure fun _ k => k

theorem triple_rid (c : IxCursor) : Triple (Holds fd base s₀ (c.cached.toList ++ H) M) (c.rid cols fd)
    (fun c' => Holds fd base s₀ (c'.cached.toList ++ H) M) (Leaves fd []) := by
  refine Triple.ite (fun _ => Triple.throw fun _ k => k.leaves List.nil_subperm _) fun _ => ?_
  refine (triple_leaf c).bind fun h => triple_load.bind fun n => ?_
  refine Triple.ite (fun _ => Triple.throw fun _ k => k.leaves List.nil_subperm _) fun _ => ?_
  exact Triple.ite (fun _ => Triple.throw fun _ k => k.leaves List.nil_subperm _) fun _ => Triple.pure fun _ k => k

theorem triple_close (c : IxCursor) : Triple (Holds fd base s₀ (c.cached.toList ++ H) M) (c.close fd)
    (fun _ => Holds fd base s₀ H M) (Leaves fd []) := by
  unfold close
  cases c.cached with
  | none => exact Triple.pure fun _ k => k
  | some h => exact triple_unpin_clean

end IxCursor

/-! ### Sessions -/

namespace IxSession
open IxLayer
variable {cols : List IxCol} {fd : Int} {s t : IxSession} {c : IxLayerCall}

/-- The scans of the session hold the pins of their cached leaves. -/
def Tracked (fd : Int) (s : IxSession) : Prop := ∃ base, Holds fd base s.layer.pool s.caches [] s.layer

/-- The call returns. -/
def Returns (cols : List IxCol) (fd : Int) (s : IxSession) (c : IxLayerCall) : Prop := (s.call cols fd c).1 = .ok ()

/-- Every page has the pins that it had. A call of a scan moves the pin of its cached leaf. -/
def PinsKept (fd : Int) (s : IxSession) (c : IxLayerCall) (t : IxSession) : Prop :=
  if isScanCall c then ∀ id, t.layer.pool.pins id - handlesTo fd t.caches id = s.layer.pool.pins id - handlesTo fd s.caches id
  else ∀ id, t.layer.pool.pins id = s.layer.pool.pins id

/-- A page whose bytes have changed is marked dirty, or has been written back and is on the disk as it is. -/
def ChangesMarked (s t : IxSession) : Prop := ∀ id, t.layer.pool.view id ≠ s.layer.pool.view id → ¬t.layer.pool.Unmarked id

theorem changesMarked (h : ∀ id, Marks s.layer.pool t.layer.pool id) : ChangesMarked s t :=
  fun id hne hun => hne (h id hun).2

theorem index_spec {α : Type} {m : IxM α} (hm : ∀ C H M, C.Subperm H → Keeps fd C H M m) (k : Tracked fd s) :
    ((s.index m).1 = .ok () → Tracked fd (s.index m).2 ∧ (∀ id, (s.index m).2.layer.pool.pins id = s.layer.pool.pins id) ∧
        ChangesMarked s (s.index m).2) ∧
      ∀ e, (s.index m).1 = .error e → (∃ d, e = .disk d) ∨ Tracked fd (s.index m).2 := by
  obtain ⟨base, k⟩ := k
  obtain ⟨hok, herr⟩ := hm s.caches s.caches [] (List.Subperm.refl _) base s.layer.pool s.layer k
  have hdef : s.index m = ((after m s.layer).1.map fun _ => (), { s with layer := (after m s.layer).2 }) := rfl
  rw [hdef]
  cases hres : (after m s.layer).1 with
  | ok a =>
    have held := hok a hres
    refine ⟨fun _ => ⟨Held.among held (List.Subperm.refl _), fun id => ?_, changesMarked fun id => held.marks id fun p hp => by cases hp⟩,
      fun e he => (by cases he)⟩
    exact (held.pins id).trans (k.pins id).symm
  | error e =>
    refine ⟨fun h => (by cases h), fun e' he => ?_⟩
    cases he
    exact herr e hres

theorem caches_perm {l : List IxCursor} {i : Nat} {c : IxCursor} (h : l[i]? = some c) :
    (l.filterMap (·.cached)).Perm (c.cached.toList ++ (l.eraseIdx i).filterMap (·.cached)) := by
  obtain ⟨hi, rfl⟩ := List.getElem?_eq_some_iff.mp h
  refine ((List.getElem_cons_eraseIdx_perm hi).symm.filterMap _).trans ?_
  rw [List.filterMap_cons]
  cases l[i].cached with
  | none => exact List.Perm.refl _
  | some _ => exact List.Perm.refl _

theorem caches_set {l : List IxCursor} {i : Nat} {c : IxCursor} (h : l[i]? = some c) (c' : IxCursor) :
    ((l.set i c').filterMap (·.cached)).Perm (c'.cached.toList ++ (l.eraseIdx i).filterMap (·.cached)) := by
  obtain ⟨hi, -⟩ := List.getElem?_eq_some_iff.mp h
  have hset := caches_perm (l := l.set i c') (i := i) (c := c') (by rw [List.getElem?_set_self hi])
  rwa [List.eraseIdx_set_eq] at hset

/-- A call of a scan, which holds `left a` of its own when it returns `a`. -/
theorem scan_spec {α : Type} {i : Nat} {m : IxCursor → IxM α} {change : α → List IxCursor} {left : α → List IxHandle}
    (hm : ∀ c H base s₀, Triple (Holds fd base s₀ (c.cached.toList ++ H) []) (m c) (fun a => Holds fd base s₀ (left a ++ H) []) (Leaves fd []))
    (hchange : ∀ c a, s.scans[i]? = some c → ((change a).filterMap (·.cached)).Perm (left a ++ (s.scans.eraseIdx i).filterMap (·.cached)))
    (k : Tracked fd s) (hret : (s.scan i m change).1 = .ok ()) :
    Tracked fd (s.scan i m change).2 ∧ (∀ id, (s.scan i m change).2.layer.pool.pins id - handlesTo fd (s.scan i m change).2.caches id =
      s.layer.pool.pins id - handlesTo fd s.caches id) ∧ ChangesMarked s (s.scan i m change).2 := by
  obtain ⟨base, k⟩ := k
  cases hscan : s.scans[i]? with
  | none =>
    simp only [scan, hscan] at hret
    cases hret
  | some c =>
    obtain ⟨hok, -⟩ := hm c _ base s.layer.pool s.layer (Held.perm k (caches_perm hscan))
    cases hres : (after (m c) s.layer).1 with
    | error e =>
      have hdef : s.scan i m change = (.error e, { s with layer := (after (m c) s.layer).2 }) := by
        have hrun : ((m c).run.run s.layer).run = (.error e, (after (m c) s.layer).2) := Prod.ext hres rfl
        simp only [scan, hscan, hrun]
      rw [hdef] at hret
      cases hret
    | ok a =>
      have hdef : s.scan i m change = (.ok (), ⟨(after (m c) s.layer).2, change a⟩) := by
        have hrun : ((m c).run.run s.layer).run = (.ok a, (after (m c) s.layer).2) := Prod.ext hres rfl
        simp only [scan, hscan, hrun]
      rw [hdef]
      have held := Held.perm (hok a hres) (hchange c a hscan).symm
      refine ⟨Held.among held (List.Subperm.refl _), fun id => ?_, changesMarked fun id => held.marks id fun p hp => by cases hp⟩
      have hafter := held.pins id
      have hbefore := k.pins id
      simp only [caches] at hbefore ⊢
      omega

theorem step_spec (k : Tracked fd s) (hstep : s.step cols fd c = .ok t) :
    Tracked fd t ∧ (s.Returns cols fd c → s.PinsKept fd c t ∧ s.ChangesMarked t) := by
  -- a call of the index, whether it returns or raises
  have hindex : ∀ {α : Type} (m : IxM α), (∀ C H M, C.Subperm H → Keeps fd C H M m) → s.call cols fd c = s.index m →
      isScanCall c = false → Tracked fd t ∧ (s.Returns cols fd c → s.PinsKept fd c t ∧ s.ChangesMarked t) := by
    intro α m hm hcall hkind
    obtain ⟨hok, herr⟩ := index_spec hm k
    unfold Returns PinsKept
    rw [step, hcall] at hstep
    rw [hcall, hkind]
    cases hres : (s.index m).1 with
    | ok a =>
      obtain ⟨htracked, hpins, hmarked⟩ := hok hres
      rw [show s.index m = (.ok a, (s.index m).2) from Prod.ext hres rfl] at hstep
      cases hstep
      exact ⟨htracked, fun _ => ⟨by simpa using hpins, hmarked⟩⟩
    | error e =>
      rw [show s.index m = (.error e, (s.index m).2) from Prod.ext hres rfl] at hstep
      refine ⟨?_, fun h => (by cases h)⟩
      rcases herr e hres with ⟨d, rfl⟩ | htracked
      · cases hstep
      · cases e with
        | disk d => cases hstep
        | ix e =>
          simp only [hkind, Bool.false_eq_true, if_false] at hstep
          cases hstep
          exact htracked
        | noFrame =>
          simp only [hkind, Bool.false_eq_true, if_false] at hstep
          cases hstep
          exact htracked
  -- a call of a scan, which returns
  have hscan : ∀ {α : Type} {i : Nat} {m : IxCursor → IxM α} {change : α → List IxCursor} (left : α → List IxHandle),
      (∀ c H base s₀, Triple (Holds fd base s₀ (c.cached.toList ++ H) []) (m c) (fun a => Holds fd base s₀ (left a ++ H) []) (Leaves fd [])) →
      (∀ c a, s.scans[i]? = some c → ((change a).filterMap (·.cached)).Perm (left a ++ (s.scans.eraseIdx i).filterMap (·.cached))) →
      s.call cols fd c = s.scan i m change → isScanCall c = true →
      Tracked fd t ∧ (s.Returns cols fd c → s.PinsKept fd c t ∧ s.ChangesMarked t) := by
    intro α i m change left hm hchange hcall hkind
    unfold Returns PinsKept
    rw [step, hcall] at hstep
    rw [hcall, hkind]
    cases hres : (s.scan i m change).1 with
    | error e =>
      rw [show s.scan i m change = (.error e, (s.scan i m change).2) from Prod.ext hres rfl, hkind] at hstep
      cases e with
      | disk d => cases hstep
      | ix e => cases hstep
      | noFrame => cases hstep
    | ok a =>
      obtain ⟨htracked, hpins, hmarked⟩ := scan_spec hm hchange k hres
      rw [show s.scan i m change = (.ok a, (s.scan i m change).2) from Prod.ext hres rfl] at hstep
      cases hstep
      exact ⟨htracked, fun _ => ⟨by simpa using hpins, hmarked⟩⟩
  cases c with
  | insertEntry key value => exact hindex _ (fun C H M hC => keeps_insertEntry hC key value) rfl rfl
  | deleteEntry key => exact hindex _ (fun C H M hC => keeps_deleteEntry hC key) rfl rfl
  | getValue key => exact hindex _ (fun C H M hC => keeps_getValue hC key) rfl rfl
  | isUnique key => exact hindex _ (fun C H M hC => keeps_isUnique hC key) rfl rfl
  | lowerBound key => exact hindex _ (fun C H M hC => keeps_bound hC _ key) rfl rfl
  | upperBound key => exact hindex _ (fun C H M hC => keeps_bound hC _ key) rfl rfl
  | openScan lower upper =>
    cases hstep
    have hcaches : ({ s with scans := s.scans ++ [⟨lower, upper, none⟩] } : IxSession).caches = s.caches := by
      simp [caches, List.filterMap_append]
    refine ⟨?_, fun _ => ⟨fun _ => rfl, fun _ hne => absurd rfl hne⟩⟩
    rw [Tracked, hcaches]
    exact k
  | scanNext i => exact hscan _ (fun c H base s₀ => IxCursor.triple_next c) (fun c a hc => caches_set hc a) rfl rfl
  | scanRid i => exact hscan _ (fun c H base s₀ => IxCursor.triple_rid c) (fun c a hc => caches_set hc a) rfl rfl
  | closeScan i => exact hscan (fun _ => []) (fun c H base s₀ => IxCursor.triple_close c) (fun c a _ => List.Perm.refl _) rfl rfl

end IxSession

open IxSession

/-- In every session with an index, each call that returns keeps the pins of all pages, up to the leaves that the scans have
    cached, and marks the pages that it has changed. -/
theorem indexLayer_keeps_pins (cols : List IxCol) (fd : Int) (s t : IxSession) (calls : List IxLayerCall) (hgood : Good s.layer.pool)
    (hgiven : GivenOut fd s.layer.pool) (hscans : s.scans = []) (hrun : Runs.exec (IxSession.step cols fd) s calls = .ok t) :
    Runs.EachStep (IxSession.step cols fd) (fun s c t => s.Returns cols fd c → s.PinsKept fd c t ∧ s.ChangesMarked t) s calls := by
  have hstart : Tracked fd s := by
    refine ⟨s.layer.pool.pins, hgood, hgiven, hgood.pins_nonneg, fun h hh => ?_, fun q => ?_, fun q _ => Marks.refl q⟩
    · rw [caches, hscans] at hh
      cases hh
    · rw [caches, hscans]
      exact (Int.add_zero _).symm
  refine Runs.eachStep_of_invariant (I := Tracked fd) (fun s c hs hok => ?_) hstart (Runs.throughout_of_exec hrun)
  obtain ⟨t, ht⟩ := hok
  obtain ⟨htracked, hkept⟩ := step_spec hs ht
  exact ⟨t, ht, htracked, hkept⟩

/-- A new index in a pool of four frames. -/
def newSession : IxSession := ⟨.created [.int] 3 4 fun _ => 0, []⟩

theorem givenOut_created : GivenOut 3 newSession.layer.pool := by
  rintro p (hin | hdisk)
  · cases hin
  · by_contra hlt
    have hp : 3 ≤ p := Int.not_lt.mp hlt
    have hnone : newSession.layer.pool.disk.pages ⟨3, p⟩ = none := by
      have hne : ∀ n : Int, n < 3 → (⟨3, p⟩ : PageId) ≠ ⟨3, n⟩ := by
        intro n hn heq
        have := congrArg PageId.pageNo heq
        simp only at this
        omega
      show ite _ _ _ = _
      rw [if_neg (hne 0 (by decide)), if_neg (hne _ (by decide)), if_neg (hne _ (by decide))]
    rw [hnone] at hdisk
    cases hdisk

/-- Two entries, and a scan over them. -/
def insertAndScan : List IxLayerCall :=
  [.insertEntry (putInt 5) ⟨1, 0⟩, .insertEntry (putInt 7) ⟨1, 1⟩, .openScan ⟨2, 0⟩ ⟨2, 2⟩]

theorem indexLayer_keeps_pins_scan :
    Runs.EachStep (IxSession.step [.int] 3) (fun s c t => s.Returns [.int] 3 c → s.PinsKept 3 c t ∧ s.ChangesMarked t) newSession
      (insertAndScan ++ [.scanNext 0, .scanNext 0, .deleteEntry (putInt 5), .getValue (putInt 7)]) := by
  obtain ⟨t, ht, -⟩ := Runs.exec_eval (IxSession.step [.int] 3) newSession
    (insertAndScan ++ [.scanNext 0, .scanNext 0, .deleteEntry (putInt 5), .getValue (putInt 7)]) (fun s => s.layer.pool.poolSize) (b := 4)
    (by decide)
  exact indexLayer_keeps_pins [.int] 3 newSession t _ (Good.create _ _ _) givenOut_created rfl ht

/-- The pins of the root leaf before and after `next` of the scan, and whether that returns. -/
def pinsAround (s : IxSession) : Int × Int × Bool :=
  (s.layer.pool.pins ⟨3, 2⟩, (s.call [.int] 3 (.scanNext 0)).2.layer.pool.pins ⟨3, 2⟩, (s.call [.int] 3 (.scanNext 0)).1.isOk)

/-- `IxScan::next` keeps the leaf that it has fetched. -/
theorem scanNext_keeps_leaf :
    ¬Runs.EachStep (IxSession.step [.int] 3) (fun s c t => s.Returns [.int] 3 c →
      (∀ id, t.layer.pool.pins id = s.layer.pool.pins id) ∧ s.ChangesMarked t) newSession (insertAndScan ++ [.scanNext 0]) := by
  intro h
  obtain ⟨t, ht, hview⟩ := Runs.exec_eval (IxSession.step [.int] 3) newSession insertAndScan pinsAround (b := (0, 1, true)) (by decide)
  obtain ⟨u, hu, hsame⟩ := h.at_exec ht
  simp only [pinsAround, Prod.mk.injEq] at hview
  obtain ⟨hbefore, hafter, hok⟩ := hview
  cases hres : (t.call [.int] 3 (.scanNext 0)).1 with
  | error e =>
    rw [hres] at hok
    cases hok
  | ok a =>
    rw [IxSession.step, show t.call [.int] 3 (.scanNext 0) = (.ok a, (t.call [.int] 3 (.scanNext 0)).2) from Prod.ext hres rfl] at hu
    cases hu
    have := (hsame hres).1 ⟨3, 2⟩
    rw [hbefore, hafter] at this
    exact absurd this (by decide)

end Rmdb
