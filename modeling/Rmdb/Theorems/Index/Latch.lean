import Rmdb.Index.Latch
import Rmdb.Lib.Mirror
import Rmdb.Lib.Runs

/-! Who releases `root_latch_`. Without the latch an operation does what it does on the layer below; the latch is free behind it
unless an exception passes through `find_leaf_page` or `insert_entry`. -/

namespace Rmdb
open Hoare

namespace IxLatched

/-- The state of the latch. -/
def Is (l : RootLatch) (s : IxLatched) : Prop := s.latch = l

/-- Nobody has the latch, and nobody has released it too often. -/
def Free (s : IxLatched) : Prop := s.latch.taken = false ∧ s.latch.overReleased = false

/-- `is_root_locked` says whether the operation has the latch. -/
def Told (s : IxLatched) : Prop := s.latch.taken = s.latch.isRootLocked ∧ s.latch.overReleased = false

theorem free_of_is {b : Bool} {s : IxLatched} (h : Is ⟨false, false, b⟩ s) : Free s := by
  rw [Free, show s.latch = _ from h]
  exact ⟨rfl, rfl⟩

theorem told_of_is {s : IxLatched} (h : Is ⟨true, false, true⟩ s) : Told s := by
  rw [Told, show s.latch = _ from h]
  exact ⟨rfl, rfl⟩

/-- The operation does what it does on the layer. -/
def Does {α : Type} (P : IxLatched → Prop) (n : IxLatchM α) (m : IxM α) (Q E : IxLatched → Prop) : Prop :=
  Mirrors IxLatched.layer P n m Q E

/-- A property of the latch alone. -/
def OfLatch (P : IxLatched → Prop) : Prop := ∀ s t : IxLatched, s.latch = t.latch → P s → P t

theorem free_ofLatch : OfLatch Free := fun s t h hs => by rwa [Free, ← h]

theorem told_ofLatch : OfLatch Told := fun s t h hs => by rwa [Told, ← h]

theorem is_ofLatch (l : RootLatch) : OfLatch (Is l) := fun s t h hs => by rwa [Is, ← h]

section Elementary
variable {cols : List IxCol} {fd : Int} {α β : Type} {P Q E : IxLatched → Prop}

theorem after_plain (m : IxM α) (s : IxLatched) : after (plain m) s = ((after m s.layer).1, { s with layer := (after m s.layer).2 }) := rfl

/-- What has nothing to do with the latch keeps every property of it. -/
theorem does_plain (hP : OfLatch P) (hE : ∀ s, P s → E s) (m : IxM α) : Does P (plain m) m P E := by
  intro s hs
  rw [after_plain]
  exact ⟨rfl, rfl, fun _ _ => hP s _ rfl hs, fun _ _ => hE _ (hP s _ rfl hs)⟩

/-- An `unpin_page` does not raise. -/
theorem does_unpinPage (hP : OfLatch P) (h : IxHandle) (isDirty : Bool) :
    Does P (plain (IxLayer.unpinPage fd h isDirty)) (IxLayer.unpinPage fd h isDirty) P E := by
  intro s hs
  rw [after_plain]
  exact ⟨rfl, rfl, fun _ _ => hP s _ rfl hs, fun e he => (by cases he)⟩

theorem after_unpinPages (hs : List IxHandle) (l : IxLayer) :
    (after (hs.forM fun h => IxLayer.unpinPage fd h false) l).1 = .ok ⟨⟩ := by
  induction hs generalizing l with
  | nil => rfl
  | cons h hs ih =>
    have hcons : after ((h :: hs).forM fun h => IxLayer.unpinPage fd h false) l =
        after (hs.forM fun h => IxLayer.unpinPage fd h false) (after (IxLayer.unpinPage fd h false) l).2 := after_bind_ok rfl
    rw [hcons]
    exact ih _

theorem does_unpinPages (hP : OfLatch P) (hs : List IxHandle) :
    Does P (plain (hs.forM fun h => IxLayer.unpinPage fd h false)) (hs.forM fun h => IxLayer.unpinPage fd h false) P E := by
  intro s h
  rw [after_plain]
  refine ⟨rfl, rfl, fun _ _ => hP s _ rfl h, fun e he => ?_⟩
  rw [after_unpinPages] at he
  cases he

theorem does_unpinPages_nil (hP : OfLatch P) :
    Does P (plain (([] : List IxHandle).forM fun h => IxLayer.unpinPage fd h false)) (pure ⟨⟩) P E := does_unpinPages hP []

theorem does_unlockIfLocked : Does Told unlockIfLocked (pure ⟨⟩) Free E := by
  rintro ⟨layer, taken, released, locked⟩ ⟨htold, hover⟩
  simp only at htold hover
  subst htold hover
  cases taken
  all_goals exact ⟨rfl, rfl, fun _ _ => ⟨rfl, rfl⟩, fun e he => (by cases he)⟩

theorem does_releaseEarly : Does Told releaseEarly (pure ⟨⟩) Told E := by
  rintro ⟨layer, taken, released, locked⟩ ⟨htold, hover⟩
  simp only at htold hover
  subst htold hover
  cases taken
  all_goals exact ⟨rfl, rfl, fun _ _ => ⟨rfl, rfl⟩, fun e he => (by cases he)⟩

theorem does_setRootLocked (b : Bool) {taken released locked : Bool} :
    Does (Is ⟨taken, released, locked⟩) (setRootLocked b) (pure ⟨⟩) (Is ⟨taken, released, b⟩) E := by
  rintro ⟨layer, latch⟩ hl
  cases hl
  exact ⟨rfl, rfl, fun _ _ => rfl, fun e he => (by cases he)⟩

/-- `find_leaf_page` for an insertion or a deletion takes the latch, and keeps it when it raises. -/
theorem does_findLeafPage {operation : Operation} (hop : operation ≠ .find) {locked : Bool} {key : Bytes}
    {n : IxHandle × Bool → IxLatchM β} {m : IxHandle → IxM β} (hE : ∀ s, Is ⟨true, false, locked⟩ s → E s)
    (h : ∀ h, Does (Is ⟨true, false, locked⟩) (n (h, true)) (m h) Q E) :
    Does (Is ⟨false, false, locked⟩) (findLeafPage cols fd operation key >>= n) (IxLayer.findLeafPage cols fd key >>= m) Q E := by
  have hlock : Does (Is ⟨false, false, locked⟩) lock (pure ⟨⟩) (Is ⟨true, false, locked⟩) E := by
    rintro ⟨layer, latch⟩ hl
    cases hl
    exact ⟨rfl, rfl, fun _ _ => rfl, fun e he => (by cases he)⟩
  have htrue : (operation != .find) = true := bne_iff_ne.mpr hop
  simp only [findLeafPage, if_neg hop, htrue, bind_assoc, pure_bind]
  exact Mirrors.note hlock ((does_plain (is_ofLatch _) hE _).bind h)

/-- A search does not take it. -/
theorem does_find (hP : OfLatch P) {key : Bytes} {n : IxHandle × Bool → IxLatchM β} {m : IxHandle → IxM β}
    (h : ∀ h, Does P (n (h, false)) (m h) Q P) :
    Does P (findLeafPage cols fd .find key >>= n) (IxLayer.findLeafPage cols fd key >>= m) Q P := by
  have hfalse : (Operation.find != .find) = false := rfl
  simp only [findLeafPage, if_true, hfalse, bind_assoc, pure_bind]
  exact (does_plain hP (fun _ hs => hs) _).bind h

end Elementary

/-! ### The searches -/

section Search
variable {cols : List IxCol} {fd : Int}

theorem does_getValue (key : Bytes) : Does Free (getValue cols fd key) (IxLayer.getValue cols fd key) Free Free :=
  does_find free_ofLatch fun _ => (does_plain free_ofLatch (fun _ hs => hs) _).bind fun _ => (does_plain free_ofLatch (fun _ hs => hs) _).bind fun _ => Mirrors.pure fun _ hs => hs

theorem does_isUnique (key : Bytes) : Does Free (isUnique cols fd key) (IxLayer.isUnique cols fd key) Free Free := by
  refine does_find free_ofLatch fun _ => (does_plain free_ofLatch (fun _ hs => hs) _).bind fun leaf => (does_plain free_ofLatch (fun _ hs => hs) _).bind fun _ => ?_
  cases leaf.pairs[leaf.lowerBound (bytesFormat cols) key]? with
  | none => exact Mirrors.pure fun _ hs => hs
  | some e => exact Mirrors.ite (fun _ => Mirrors.pure fun _ hs => hs) fun _ => Mirrors.pure fun _ hs => hs

theorem does_bound (search : IxNode Bytes → Nat) (key : Bytes) :
    Does Free (bound cols fd search key) (IxLayer.bound cols fd search key) Free Free := by
  refine does_find free_ofLatch fun _ => (does_plain free_ofLatch (fun _ hs => hs) _).bind fun _ => Mirrors.get fun s hs => ?_
  refine Mirrors.of_imp ((does_plain free_ofLatch (fun _ hs => hs) _).bind fun _ => Mirrors.pure fun _ hs => hs) fun t ht => ?_
  rw [ht]
  exact hs

end Search

/-! ### Insertion -/

section Insert
variable {cols : List IxCol} {fd : Int}

theorem not_free_of_is {b : Bool} {s : IxLatched} (h : Is ⟨true, false, b⟩ s) : ¬Free s := by
  rw [Free, show s.latch = _ from h]
  rintro ⟨htaken, -⟩
  cases htaken

/-- The latch is free after `insert_entry` returns, and taken after it raises. -/
theorem does_insertEntry (key : Bytes) (value : Rid) {b : Bool} :
    Does (Is ⟨false, false, b⟩) (insertEntry cols fd key value) (IxLayer.insertEntry cols fd key value) Free fun s => ¬Free s := by
  have hplain : ∀ {α : Type} (m : IxM α), Does (Is ⟨true, false, true⟩) (plain m) m (Is ⟨true, false, true⟩) fun s => ¬Free s :=
    fun m => does_plain (is_ofLatch _) (fun _ => not_free_of_is) m
  have hunlock : Does (Is ⟨true, false, true⟩) unlockIfLocked (pure ⟨⟩) Free fun s => ¬Free s :=
    Mirrors.of_imp does_unlockIfLocked fun _ => told_of_is
  refine does_findLeafPage (by decide) (fun _ => not_free_of_is) fun h => ?_
  refine Mirrors.note (does_setRootLocked true) ?_
  refine (hplain _).bind fun leaf => (hplain _).bind fun r => Mirrors.ite (fun _ => ?_) fun _ => ?_
  · exact Mirrors.note hunlock ((does_unpinPage free_ofLatch h false).bind fun _ => Mirrors.pure fun _ hs => hs)
  · refine (hplain _).bind fun _ => Mirrors.bind (Mirrors.ite (fun _ => hplain _) fun _ => Mirrors.pure fun _ hs => hs) fun _ => ?_
    refine (hplain _).bind fun leaf => Mirrors.ite (fun _ => ?_) fun _ => ?_
    · exact Mirrors.last (hplain _) fun _ => Mirrors.note hunlock (Mirrors.pure fun _ hs => hs)
    · exact (hplain _).bind fun _ => Mirrors.note hunlock (Mirrors.pure fun _ hs => hs)

end Insert

/-! ### Deletion -/

section Delete
variable {cols : List IxCol} {fd : Int} {again : IxHandle → IxLatchM Bool} {again' : IxHandle → IxM Bool}

theorem does_told {α : Type} (m : IxM α) : Does Told (plain m) m Told Told := does_plain told_ofLatch (fun _ hs => hs) m

theorem does_mergeInto (hagain : ∀ h, Does Told (again h) (again' h) Told Told) (left right parent : IxHandle) (index : Nat) :
    Does Told (mergeInto cols fd again left right parent index) (IxLayer.mergeInto cols fd again' left right parent index) Told Told := by
  refine (does_told _).bind fun r => (does_told _).bind fun l => (does_told _).bind fun l => (does_told _).bind fun _ => ?_
  refine Mirrors.bind (Mirrors.ite (fun _ => does_told _) fun _ => (does_told _).bind fun _ => does_told _) fun _ => ?_
  refine (does_told _).bind fun _ => (does_told _).bind fun u => (does_told _).bind fun u => (does_told _).bind fun _ => ?_
  exact Mirrors.ite (fun _ => does_told _) fun _ => Mirrors.ite (fun _ => hagain parent) fun _ => Mirrors.pure fun _ hs => hs

theorem does_coalesce (hagain : ∀ h, Does Told (again h) (again' h) Told Told) (neighbor node parent : IxHandle) (index : Nat) :
    Does Told (coalesce cols fd again neighbor node parent index) (IxLayer.coalesce cols fd again' neighbor node parent index) Told Told :=
  Mirrors.ite (fun _ => does_mergeInto hagain _ _ _ _) fun _ => does_mergeInto hagain _ _ _ _

/-- The handler of `coalesce_or_redistribute` releases the latch if the operation still has it. -/
theorem does_releasing {α : Type} (hs : List IxHandle) {n : IxLatchM α} {m : IxM α} (h : Does Told n m Told Told) :
    Does Told (releasing fd hs n) (IxLayer.releasing fd hs m) Told Told :=
  Mirrors.tryCatch h fun _ => (does_told _).bind fun _ => Mirrors.note does_releaseEarly (Mirrors.throw fun _ ht => ht)

theorem does_releasing_nil {α : Type} {n : IxLatchM α} {m : IxM α} (h : Does Told n m Told Told) : Does Told (releasing fd [] n) m Told Told :=
  Mirrors.catching h fun _ => Mirrors.note (does_unpinPages_nil told_ofLatch) (Mirrors.note does_releaseEarly (Mirrors.throw fun _ ht => ht))

theorem does_repair (hagain : ∀ h, Does Told (again h) (again' h) Told Told) (neighbor node parent : IxHandle) (index : Nat) :
    Does Told (repair cols fd again neighbor node parent index) (IxLayer.repair cols fd again' neighbor node parent index) Told Told := by
  refine (does_told _).bind fun n => (does_told _).bind fun m => Mirrors.ite (fun _ => ?_) fun _ => ?_
  · refine Mirrors.note does_releaseEarly ?_
    exact (does_told _).bind fun _ => (does_told _).bind fun _ => (does_told _).bind fun _ => Mirrors.pure fun _ hs => hs
  · refine (does_coalesce hagain _ _ _ _).bind fun _ => ?_
    exact (does_told _).bind fun _ => (does_told _).bind fun _ => Mirrors.pure fun _ hs => hs

theorem does_withSibling (hagain : ∀ h, Does Told (again h) (again' h) Told Told) (node parent : IxHandle) :
    Does Told (withSibling cols fd again node parent) (IxLayer.withSibling cols fd again' node parent) Told Told := by
  refine (does_told _).bind fun u => (does_releasing _ (does_told _)).bind fun index => Mirrors.ite (fun _ => ?_) fun _ => ?_
  · exact (does_told _).bind fun _ => Mirrors.pure fun _ hs => hs
  · exact (does_releasing _ (does_told _)).bind fun neighbor => does_releasing _ (does_repair hagain _ _ _ _)

theorem does_coalesceOrRedistribute (fuel : Nat) (h : IxHandle) :
    Does Told (coalesceOrRedistribute cols fd fuel h) (IxLayer.coalesceOrRedistribute cols fd fuel h) Told Told := by
  induction fuel generalizing h with
  | zero => exact Mirrors.throw fun _ hs => hs
  | succ fuel ih =>
    refine (does_told _).bind fun n => Mirrors.ite (fun _ => ?_) fun _ => Mirrors.ite (fun _ => Mirrors.pure fun _ hs => hs) fun _ => ?_
    · exact Mirrors.last (does_told _) fun _ => Mirrors.note does_releaseEarly (Mirrors.pure fun _ hs => hs)
    · exact (does_releasing_nil (does_told _)).bind fun parent => does_withSibling ih h parent

/-- With the leaf found, the latch is free behind `delete_entry` whether it returns or raises. -/
theorem does_deleteInLeaf (h : IxHandle) (key : Bytes) :
    Does Told (deleting fd [h] (deleteInLeaf cols fd h key)) (IxLayer.releasing fd [h] (IxLayer.deleteInLeaf cols fd h key)) Free Free := by
  refine Mirrors.tryCatch ?_ fun _ => (does_unpinPages told_ofLatch [h]).bind fun _ => ?_
  · refine (does_told _).bind fun leaf => (does_told _).bind fun r => Mirrors.ite (fun _ => ?_) fun _ => ?_
    · exact Mirrors.note does_unlockIfLocked ((does_unpinPage free_ofLatch h false).bind fun _ => Mirrors.pure fun _ hs => hs)
    · refine (does_told _).bind fun _ => Mirrors.bind (Mirrors.ite (fun _ => does_told _) fun _ => Mirrors.pure fun _ hs => hs) fun _ => ?_
      refine (does_told _).bind fun fuel => (does_coalesceOrRedistribute fuel h).bind fun _ => (does_told _).bind fun _ => ?_
      exact Mirrors.note does_unlockIfLocked (Mirrors.pure fun _ hs => hs)
  · exact Mirrors.note does_unlockIfLocked (Mirrors.throw fun _ hs => hs)

/-- A failed search leaves the latch taken: the handler looks at `is_root_locked`, which is not set yet. -/
theorem does_deletingFind (key : Bytes) :
    Does (Is ⟨false, false, false⟩) (deleting fd [] (findLeafPage cols fd .delete key))
      (IxLayer.findLeafPage cols fd key >>= fun h => pure (h, true)) (Is ⟨true, false, false⟩) (Is ⟨true, false, false⟩) := by
  have hfind : Does (Is ⟨false, false, false⟩) (findLeafPage cols fd .delete key >>= pure)
      (IxLayer.findLeafPage cols fd key >>= fun h => pure (h, true)) (Is ⟨true, false, false⟩) (Is ⟨true, false, false⟩) :=
    does_findLeafPage (by decide) (fun _ hs => hs) fun _ => Mirrors.pure fun _ hs => hs
  rw [bind_pure] at hfind
  have hunlock : Does (Is ⟨true, false, false⟩) unlockIfLocked (pure ⟨⟩) (Is ⟨true, false, false⟩) (Is ⟨true, false, false⟩) := by
    rintro ⟨layer, latch⟩ hl
    cases hl
    exact ⟨rfl, rfl, fun _ _ => rfl, fun e he => (by cases he)⟩
  exact Mirrors.catching hfind fun _ => Mirrors.note (does_unpinPages_nil (is_ofLatch _)) (Mirrors.note hunlock (Mirrors.throw fun _ hs => hs))

theorem does_deleteEntry (key : Bytes) {b : Bool} {s : IxLatched} (hs : Is ⟨false, false, b⟩ s) :
    (after (deleteEntry cols fd key) s).1 = (after (IxLayer.deleteEntry cols fd key) s.layer).1 ∧
      (Free (after (deleteEntry cols fd key) s).2 ↔
        (s.layer.rootPage ≠ ixNoPage → ∀ e, (after (IxLayer.findLeafPage cols fd key) s.layer).1 ≠ .error e)) := by
  rw [deleteEntry, IxLayer.deleteEntry, after_get, after_get]
  by_cases hroot : s.layer.rootPage = ixNoPage
  · rw [if_pos hroot, if_pos hroot]
    exact ⟨rfl, fun _ hno => absurd hroot hno, fun _ => free_of_is hs⟩
  · rw [if_neg hroot, if_neg hroot]
    obtain ⟨hset, hsame, hfalse, -⟩ := does_setRootLocked (E := fun _ => False) false s hs
    rw [after_bind_ok hset]
    obtain ⟨hres, hview, hok, herr⟩ := @does_deletingFind cols fd key _ (hfalse ⟨⟩ hset)
    rw [show (after (setRootLocked false) s).2.layer = s.layer from hsame] at hres hview
    cases hfind : (after (IxLayer.findLeafPage cols fd key) s.layer).1 with
    | error e =>
      rw [after_bind_error hfind] at hres hview ⊢
      rw [after_bind_error hres]
      exact ⟨rfl, fun hfree => absurd hfree (not_free_of_is (herr e hres)), fun hno => absurd rfl (hno hroot e)⟩
    | ok h =>
      rw [after_bind_ok hfind] at hres hview ⊢
      rw [after_bind_ok hres]
      obtain ⟨hset', hsame', htrue, -⟩ := does_setRootLocked (E := fun _ => False) true _ (hok (h, true) hres)
      rw [after_bind_ok hset']
      obtain ⟨hres', -, hok', herr'⟩ := @does_deleteInLeaf cols fd h key _ (told_of_is (htrue ⟨⟩ hset'))
      rw [hsame', hview] at hres'
      refine ⟨hres', fun _ _ e he => (by cases he), fun _ => ?_⟩
      cases hend : (after (deleting fd [h] (deleteInLeaf cols fd h key))
          (after (setRootLocked true) (after (deleting fd [] (findLeafPage cols fd .delete key)) (after (setRootLocked false) s).2).2).2).1 with
      | ok r => exact hok' r hend
      | error e => exact herr' e hend

end Delete

/-! ### Calls -/

section Calls
variable (cols : List IxCol) (fd : Int)

/-- An exception passes through `m`. -/
def Raises {α : Type} (m : IxM α) (l : IxLayer) : Prop := ∃ e : IxRaised, e.isException = true ∧ (after m l).1 = .error e

/-- No exception passes through `insert_entry`, nor through the `find_leaf_page` of `delete_entry`. -/
def Quiet (s : IxLatched) : IxLatchCall → Prop
  | .insertEntry key value => ¬Raises (IxLayer.insertEntry cols fd key value) s.layer
  | .deleteEntry key => s.layer.rootPage ≠ ixNoPage → ¬Raises (IxLayer.findLeafPage cols fd key) s.layer
  | .getValue _ | .isUnique _ | .lowerBound _ | .upperBound _ | .others _ => True

variable {cols fd}

theorem step_of_call {s t : IxLatched} {c : IxLatchCall} {r : Except IxRaised Unit} (h : s.call cols fd c = (r, t)) {u : IxLatched}
    (hu : s.step cols fd c = .ok u) : u = t := by
  rw [step, h] at hu
  cases r with
  | ok a => exact (Except.ok.inj hu).symm
  | error e =>
    simp only at hu
    split at hu
    · exact (Except.ok.inj hu).symm
    · cases hu

theorem step_of_error {α : Type} {m : IxLatchM α} {s : IxLatched} {c : IxLatchCall} (h : s.call cols fd c = s.finish m) {e : IxRaised}
    (he : (after m s).1 = .error e) : s.step cols fd c = if e.isException then .ok (after m s).2 else .error e := by
  have hcall : s.call cols fd c = (.error e, (after m s).2) := by
    rw [h, finish, show (m.run.run s).run.1 = .error e from he]
    rfl
  rw [step, hcall]

theorem step_of_raises {α : Type} {m : IxLatchM α} {s : IxLatched} {c : IxLatchCall} (h : s.call cols fd c = s.finish m) {e : IxRaised}
    (hexc : e.isException = true) (he : (after m s).1 = .error e) : s.step cols fd c = .ok (after m s).2 :=
  (step_of_error h he).trans (if_pos hexc)

/-- The process is gone, or never answers. -/
theorem step_of_aborts {α : Type} {m : IxLatchM α} {s t : IxLatched} {c : IxLatchCall} (h : s.call cols fd c = s.finish m) {e : IxRaised}
    (hexc : ¬e.isException = true) (he : (after m s).1 = .error e) : s.step cols fd c ≠ .ok t := by
  rw [step_of_error h he, if_neg hexc]
  exact fun heq => (by cases heq)

theorem free_of_finish {α : Type} {m : IxLatchM α} {s : IxLatched} {c : IxLatchCall} (h : s.call cols fd c = s.finish m)
    (hfree : Free (after m s).2) {t : IxLatched} (ht : s.step cols fd c = .ok t) : Free t := by
  rw [step_of_call h ht]
  exact hfree

/-- Where nothing is raised with the latch left taken, it is free behind the operation. -/
theorem free_of_does {α : Type} {n : IxLatchM α} {m : IxM α} {s : IxLatched} {P : IxLatched → Prop} (h : Does P n m Free Free) (hs : P s) :
    Free (after n s).2 := by
  obtain ⟨-, -, hok, herr⟩ := h s hs
  cases hn : (after n s).1 with
  | ok a => exact hok a hn
  | error e => exact herr e hn

theorem is_of_free {s : IxLatched} (hs : Free s) : Is ⟨false, false, s.latch.isRootLocked⟩ s := by
  rcases s with ⟨layer, taken, released, locked⟩
  obtain ⟨htaken, hover⟩ := hs
  simp only at htaken hover
  subst htaken hover
  rfl

theorem deleteEntry_notFound {l : IxLayer} {key : Bytes} {e : IxRaised} (hroot : l.rootPage ≠ ixNoPage)
    (he : (after (IxLayer.findLeafPage cols fd key) l).1 = .error e) : (after (IxLayer.deleteEntry cols fd key) l).1 = .error e := by
  rw [IxLayer.deleteEntry, after_get, if_neg hroot, after_bind_error he]

/-- A call leaves the latch free just if it is quiet. -/
theorem step_free_iff {s : IxLatched} (hs : Free s) (c : IxLatchCall) : (∀ t, s.step cols fd c = .ok t → Free t) ↔ Quiet cols fd s c := by
  cases c with
  | getValue key => exact iff_of_true (fun t => free_of_finish rfl (free_of_does (does_getValue key) hs)) trivial
  | isUnique key => exact iff_of_true (fun t => free_of_finish rfl (free_of_does (does_isUnique key) hs)) trivial
  | lowerBound key => exact iff_of_true (fun t => free_of_finish rfl (free_of_does (does_bound _ key) hs)) trivial
  | upperBound key => exact iff_of_true (fun t => free_of_finish rfl (free_of_does (does_bound _ key) hs)) trivial
  | others pool =>
    refine iff_of_true (fun t ht => ?_) trivial
    rw [step_of_call rfl ht]
    exact hs
  | insertEntry key value =>
    obtain ⟨hres, -, hok, herr⟩ := @does_insertEntry cols fd key value _ s (is_of_free hs)
    constructor
    · rintro hfree ⟨e, hexc, he⟩
      exact herr e (hres.trans he) (hfree _ (step_of_raises rfl hexc (hres.trans he)))
    · intro hquiet t ht
      cases hend : (after (insertEntry cols fd key value) s).1 with
      | ok p => exact free_of_finish rfl (hok p hend) ht
      | error e =>
        exact absurd ht (step_of_aborts rfl (fun hexc => hquiet ⟨e, hexc, hres.symm.trans hend⟩) hend)
  | deleteEntry key =>
    obtain ⟨hres, hiff⟩ := @does_deleteEntry cols fd key _ _ (is_of_free hs)
    by_cases hno : s.layer.rootPage ≠ ixNoPage → ∀ e, (after (IxLayer.findLeafPage cols fd key) s.layer).1 ≠ .error e
    · exact iff_of_true (fun t => free_of_finish rfl (hiff.mpr hno)) fun hroot ⟨e, _, he⟩ => hno hroot e he
    · have hroot : s.layer.rootPage ≠ ixNoPage := fun hroot => hno fun h => absurd hroot h
      obtain ⟨e, he⟩ : ∃ e, (after (IxLayer.findLeafPage cols fd key) s.layer).1 = .error e := by
        refine Classical.not_not.mp fun hall => hno fun _ e he => hall ⟨e, he⟩
      have hend : (after (deleteEntry cols fd key) s).1 = .error e := hres.trans (deleteEntry_notFound hroot he)
      by_cases hexc : e.isException = true
      · exact iff_of_false (fun hfree => hno (hiff.mp (hfree _ (step_of_raises rfl hexc hend)))) fun hquiet => hquiet hroot ⟨e, hexc, he⟩
      · refine iff_of_true (fun t ht => absurd ht (step_of_aborts rfl hexc hend)) ?_
        rintro - ⟨e', hexc', he'⟩
        rw [he] at he'
        cases he'
        exact hexc hexc'

/-- `root_latch_` is free behind every call of a run just if the calls of the run are quiet. -/
theorem rootLatch_free_iff (layer : IxLayer) (cs : List IxLatchCall) :
    Runs.Throughout (step cols fd) (fun s c => ∀ t, s.step cols fd c = .ok t → Free t) (unlatched layer) cs ↔
      Runs.Throughout (step cols fd) (Quiet cols fd) (unlatched layer) cs :=
  Runs.throughout_iff (I := Free) (fun _ c hs => step_free_iff hs c) (fun _ _ _ _ hfree ht => hfree _ ht) ⟨rfl, rfl⟩

/-- The only frame of the pool is pinned by another user, and an entry is inserted. -/
def insertUnpooled : List IxLatchCall :=
  [.others ((IxLayer.created [.int] 0 1 fun _ => 0).pool.fetchPage ⟨0, 1⟩).1, .insertEntry (putInt 7) ⟨1, 0⟩]

theorem rootLatch_leaked : ¬Runs.Throughout (step [.int] 0) (fun s c => ∀ t, s.step [.int] 0 c = .ok t → Free t)
    (unlatched (IxLayer.created [.int] 0 1 fun _ => 0)) insertUnpooled := by
  intro h
  obtain ⟨t, ht, htaken⟩ : ∃ t, Runs.exec (step [.int] 0) (unlatched (IxLayer.created [.int] 0 1 fun _ => 0)) insertUnpooled = .ok t ∧
      t.latch.taken = true := Runs.exec_eval (step [.int] 0) _ insertUnpooled (fun t => t.latch.taken) (by decide)
  obtain ⟨u, hu, hrest⟩ := Runs.ok_of_bind ht
  obtain ⟨v, hv, hend⟩ := Runs.ok_of_bind hrest
  cases hend
  rw [((h.2 u hu).1 _ hv).1] at htaken
  cases htaken

end Calls

end IxLatched
end Rmdb
