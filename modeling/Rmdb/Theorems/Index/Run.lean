import Rmdb.Index.Run
import Rmdb.Lib.Runs
import Rmdb.Theorems.Index.Tree
import Rmdb.Theorems.Index.KeyOrder

/-! Runs of calls: every call succeeds and keeps the invariant, and the entries in the leaves are the map that the
history records. -/

namespace Rmdb
open Ladder

namespace IxIndexHandle
variable {K : Type} [Preorder K]

/-! ### The entries as a map -/

section Map
variable {f : IxFormat K} (hf : f.Lawful) {es E F : List (K × Rid)} {e : K × Rid} {key : K} {v : Rid}
include hf

theorem valueOf_eq_some (h : Ascending es) : valueOf f es key = some v ↔ ∃ e ∈ es, Same e.1 key ∧ e.2 = v := by
  simp only [valueOf, Option.map_eq_some_iff]
  constructor
  · rintro ⟨e, hfind, rfl⟩
    have hk := List.find?_some hfind
    rw [decide_eq_true_eq, hf.eq_iff] at hk
    exact ⟨e, List.mem_of_find?_eq_some hfind, hk, rfl⟩
  · rintro ⟨e, hmem, hk, rfl⟩
    obtain ⟨x, hx⟩ : ∃ x, es.find? (fun e => f.compare e.1 key = 0) = some x := by
      rw [← Option.isSome_iff_exists, List.find?_isSome]
      exact ⟨e, hmem, decide_eq_true ((hf.eq_iff _ _).mpr hk)⟩
    have hkey := List.find?_some hx
    rw [decide_eq_true_eq, hf.eq_iff] at hkey
    have := h.eq_of_key (List.mem_of_find?_eq_some hx) hmem (hkey.trans hk.symm)
    exact ⟨x, hx, by rw [this]⟩

theorem valueOf_eq_none : valueOf f es key = none ↔ ∀ e ∈ es, ¬Same e.1 key := by
  simp [valueOf, hf.eq_iff]

theorem isSome_valueOf : (valueOf f es key).isSome ↔ ∃ e ∈ es, Same e.1 key := by
  simp [valueOf, hf.eq_iff]

omit [Preorder K] hf in
theorem valueOf_skip (hk : f.compare e.1 key ≠ 0) : valueOf f (E ++ e :: F) key = valueOf f (E ++ F) key := by
  simp only [valueOf, List.find?_append, List.find?_cons]
  simp [hk]

theorem valueOf_insert (h : Ascending (E ++ e :: F)) :
    valueOf f (E ++ e :: F) key = if f.compare e.1 key = 0 then some e.2 else valueOf f (E ++ F) key := by
  split
  · rename_i heq
    exact (valueOf_eq_some hf h).mpr ⟨e, by simp, (hf.eq_iff _ _).mp heq, rfl⟩
  · rename_i hne
    exact valueOf_skip hne

theorem valueOf_erase (h : Ascending (E ++ e :: F)) :
    valueOf f (E ++ F) key = if f.compare e.1 key = 0 then none else valueOf f (E ++ e :: F) key := by
  split
  · rename_i heq
    rw [valueOf_eq_none hf]
    intro x hx hs
    have hxe : Same x.1 e.1 := hs.trans ((hf.eq_iff _ _).mp heq).symm
    obtain ⟨-, hF, hEF⟩ := Ascending.append.mp h
    rcases List.mem_append.mp hx with hx | hx
    · exact hxe.not_lt (hEF x hx e (by simp))
    · exact hxe.symm.not_lt ((Ascending.cons.mp hF).1 x hx)
  · rename_i hne
    exact (valueOf_skip hne).symm

theorem compare_eq_zero_congr {a b : K} (hs : Same a b) (k : K) : f.compare a k = 0 ↔ f.compare b k = 0 := by
  rw [hf.eq_iff, hf.eq_iff]
  exact ⟨hs.symm.trans, hs.trans⟩

end Map

/-! ### Calls and runs -/

section Run
variable [DecidableEq K] {f : IxFormat K} (hf : f.Lawful) {s : IxIndexHandle K} {L : IxLevel K} {Us : List (IxLevel K)}
include hf

/-- `insert_entry` in a tree: of a key that is there it does nothing, a new key goes in. -/
theorem insertEntry_spec (T : Tree f s L Us) (key : K) (value : Rid) :
    ((∃ e ∈ flat L, Same e.1 key) ∧ s.insertEntry f key value = .ok (s, ixNoPage)) ∨
      (∀ e ∈ flat L, ¬Same e.1 key) ∧ ∃ t q M Vs, s.insertEntry f key value = .ok (t, q) ∧ q ≠ ixNoPage ∧
        Inserted f s L Us key value t M Vs := by
  by_cases h : ∃ e ∈ flat L, Same e.1 key
  · obtain ⟨e, hmem, he⟩ := h
    exact Or.inl ⟨⟨e, hmem, he⟩, insertEntry_present hf T hmem he value⟩
  · push Not at h
    exact Or.inr ⟨h, insertEntry_absent hf T h value⟩

/-- `delete_entry` in a tree. -/
theorem deleteEntry_spec (T : Tree f s L Us) (key : K) :
    ((∀ e ∈ flat L, ¬Same e.1 key) ∧ s.deleteEntry f key = .ok (s, false)) ∨
      (∃ e ∈ flat L, Same e.1 key) ∧ ∃ t M Vs, s.deleteEntry f key = .ok (t, true) ∧ Deleted f s L key t M Vs := by
  by_cases h : ∃ e ∈ flat L, Same e.1 key
  · obtain ⟨e, hmem, he⟩ := h
    obtain ⟨t, M, Vs, hrun, hdel, -⟩ := deleteEntry_present hf T hmem he
    exact Or.inr ⟨⟨e, hmem, he⟩, t, M, Vs, hrun, hdel⟩
  · push Not at h
    exact Or.inl ⟨h, deleteEntry_absent hf T h⟩

/-- One call: it succeeds, keeps the invariant, and changes the values as its reply says. -/
theorem call_spec (T : Tree f s L Us) (c : IxCall K) :
    ∃ t r M Vs, s.call f c = .ok (t, r) ∧ Tree f t M Vs ∧
      ∀ k, valueOf f (flat M) k = record f k (valueOf f (flat L) k) (c, r) := by
  cases c with
  | insertEntry key value =>
    rcases insertEntry_spec hf T key value with ⟨hmem, hrun⟩ | ⟨-, t, q, M, Vs, hrun, hq, hins⟩
    · exact ⟨s, .page ixNoPage, L, Us, by simp only [call, hrun, ok_bind], T, fun k => by simp [record]⟩
    · refine ⟨t, .page q, M, Vs, by simp only [call, hrun, ok_bind], hins.tree, fun k => ?_⟩
      obtain ⟨E, F, hL, hM⟩ := hins.entries
      rw [hL, hM, valueOf_insert hf (hM ▸ hins.tree.ascending), record]
      simp [hq]
  | deleteEntry key =>
    rcases deleteEntry_spec hf T key with ⟨-, hrun⟩ | ⟨hmem, t, M, Vs, hrun, hdel⟩
    · exact ⟨s, .removed false, L, Us, by simp only [call, hrun, ok_bind], T, fun k => by simp [record]⟩
    · refine ⟨t, .removed true, M, Vs, by simp only [call, hrun, ok_bind], hdel.tree, fun k => ?_⟩
      obtain ⟨E, e, F, he, hL, hM⟩ := hdel.entries
      rw [hL, hM, valueOf_erase hf (hL ▸ T.ascending), record]
      simp only [compare_eq_zero_congr hf he]
  | getValue key =>
    exact ⟨s, .value _, L, Us, by simp only [call, getValue_eq hf T, ok_bind]; rfl, T, fun k => by simp [record]⟩
  | isUnique key =>
    exact ⟨s, .unique _ _, L, Us, by simp only [call, isUnique_eq hf T, ok_bind]; rfl, T, fun k => by simp [record]⟩

theorem run_spec (cs : List (IxCall K)) (T : Tree f s L Us) :
    ∃ t h M Vs, s.run f cs = .ok (t, h) ∧ h.map Prod.fst = cs ∧ Tree f t M Vs ∧
      ∀ k, valueOf f (flat M) k = h.foldl (record f k) (valueOf f (flat L) k) := by
  induction cs generalizing s L Us with
  | nil => exact ⟨s, [], L, Us, rfl, rfl, T, fun k => rfl⟩
  | cons c cs ih =>
    obtain ⟨s₁, r, L₁, Us₁, hcall, T₁, hval₁⟩ := call_spec hf T c
    obtain ⟨t, h, M, Vs, hrun, hfst, T₂, hval₂⟩ := ih T₁
    refine ⟨t, (c, r) :: h, M, Vs, ?_, by simp [hfst], T₂, fun k => ?_⟩
    · rw [run, hcall, ok_bind]
      show (s₁.run f cs >>= _) = _
      rw [hrun, ok_bind]
    · rw [hval₂, hval₁, List.foldl_cons]

/-- A run of calls on a new index. -/
theorem run_create (cs : List (IxCall K)) :
    ∃ t h M Vs, (create : IxIndexHandle K).run f cs = .ok (t, h) ∧ h.map Prod.fst = cs ∧ Tree f t M Vs ∧
      ∀ k, valueOf f (flat M) k = recorded f k h := by
  obtain ⟨t, h, M, Vs, hrun, hfst, T, hval⟩ := run_spec hf cs (Tree.create f)
  exact ⟨t, h, M, Vs, hrun, hfst, T, fun k => by rw [hval, recorded]; rfl⟩

end Run

/-! ### The index is a map -/

/-- What a client sees of an index whose entries are the map `m`, one call at a time. -/
structure IsMap (f : IxFormat K) [DecidableEq K] (s : IxIndexHandle K) (m : K → Option Rid) : Prop where
  getValue : ∀ key, s.getValue f key = .ok (m key)
  isUnique : ∀ key, s.isUnique f key = .ok ((m key).isNone, m key)
  insertEntry : ∀ key value, ∃ t p, s.insertEntry f key value = .ok (t, p) ∧ (p = ixNoPage ↔ (m key).isSome) ∧
    (p = ixNoPage → t = s) ∧ ∀ other, f.compare key other ≠ 0 → t.getValue f other = s.getValue f other
  deleteEntry : ∀ key, ∃ t b, s.deleteEntry f key = .ok (t, b) ∧ (b = true ↔ (m key).isSome) ∧
    ∀ other, f.compare key other ≠ 0 → t.getValue f other = s.getValue f other

/-- A tree is the map of its entries. -/
theorem Tree.isMap [DecidableEq K] {f : IxFormat K} (hf : f.Lawful) {s : IxIndexHandle K} {L : IxLevel K} {Us : List (IxLevel K)}
    (T : Tree f s L Us) : IsMap f s (valueOf f (flat L)) where
  getValue := getValue_eq hf T
  isUnique := isUnique_eq hf T
  insertEntry key value := by
    rcases insertEntry_spec hf T key value with ⟨hmem, hrun⟩ | ⟨habs, t, q, M, Vs, hrun, hq, hins⟩
    · refine ⟨s, ixNoPage, hrun, ?_, fun _ => rfl, fun _ _ => rfl⟩
      simp [(isSome_valueOf hf).mpr hmem]
    · refine ⟨t, q, hrun, ?_, fun h => absurd h hq, fun other hne => ?_⟩
      · simp [(valueOf_eq_none hf).mpr habs, hq]
      · obtain ⟨E, F, hL, hM⟩ := hins.entries
        rw [getValue_eq hf T, getValue_eq hf hins.tree, hL, hM, valueOf_skip hne]
  deleteEntry key := by
    rcases deleteEntry_spec hf T key with ⟨habs, hrun⟩ | ⟨hmem, t, M, Vs, hrun, hdel⟩
    · refine ⟨s, false, hrun, ?_, fun _ _ => rfl⟩
      simp [(valueOf_eq_none hf).mpr habs]
    · refine ⟨t, true, hrun, ?_, fun other hne => ?_⟩
      · simp [(isSome_valueOf hf).mpr hmem]
      · obtain ⟨E, e, F, he, hL, hM⟩ := hdel.entries
        rw [Ne, ← compare_eq_zero_congr hf he] at hne
        rw [getValue_eq hf T, getValue_eq hf hdel.tree, hL, hM, valueOf_skip hne]

end IxIndexHandle

open IxIndexHandle

/-- Every run of calls on a new index succeeds, and in the end the index is the map that the history of the run
    records. -/
theorem ixIndex_refines_map (cols : List IxCol) (hacc : IxAccepts cols) (cs : List (IxCall (IxKey cols))) :
    ∃ s h, (create : IxIndexHandle (IxKey cols)).run (ixFormat cols) cs = .ok (s, h) ∧ h.map Prod.fst = cs ∧
      IsMap (ixFormat cols) s fun key => recorded (ixFormat cols) key h := by
  have hf := ixFormat_lawful hacc
  obtain ⟨s, h, L, Us, hrun, hfst, T, hval⟩ := run_create hf cs
  refine ⟨s, h, hrun, hfst, ?_⟩
  have : (fun key => recorded (ixFormat cols) key h) = valueOf (ixFormat cols) (flat L) := funext fun key => (hval key).symm
  rw [this]
  exact T.isMap hf

/-- A key of one INT column, from its four bytes. -/
def intKey (a b c d : UInt8) : IxKey [IxCol.int] := ⟨[a, b, c, d], rfl, IntChar.nanFree (by decide) _⟩

theorem ixIndex_refines_map_int : IxAccepts [IxCol.int] ∧
    ∃ s h, (create : IxIndexHandle (IxKey [IxCol.int])).run (ixFormat [IxCol.int])
        [.insertEntry (intKey 1 0 0 0) ⟨1, 0⟩, .deleteEntry (intKey 2 0 0 0)] = .ok (s, h) ∧
      h.map Prod.fst = [.insertEntry (intKey 1 0 0 0) ⟨1, 0⟩, .deleteEntry (intKey 2 0 0 0)] ∧
      IsMap (ixFormat [IxCol.int]) s fun key => recorded (ixFormat [IxCol.int]) key h :=
  ⟨by decide, ixIndex_refines_map [IxCol.int] (by decide) _⟩

end Rmdb
