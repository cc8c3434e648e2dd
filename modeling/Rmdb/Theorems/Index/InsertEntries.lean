import Mathlib.Data.List.Sort
import Rmdb.Index.InsertEntries
import Rmdb.Theorems.Index.Run

/-! `insert_entries` keeps the first pair of a repeated key where it does not sort. -/

namespace Rmdb
open Ladder

namespace IxIndexHandle
variable {K : Type} {f : IxFormat K} {s : IxIndexHandle K} {key : K} {e : K × Rid} {pairs : List (K × Rid)}

/-- The pairs that the index has no key for agree on the value of each key. -/
def Agree (f : IxFormat K) [DecidableEq K] (s : IxIndexHandle K) (pairs : List (K × Rid)) : Prop :=
  ∀ key, s.getValue f key = .ok none →
    ∀ a ∈ pairs, ∀ b ∈ pairs, f.compare a.1 key = 0 → f.compare b.1 key = 0 → a.2 = b.2

/-- The first pair of a key gives its value. -/
theorem valueOf_cons : valueOf f (e :: pairs) key = if f.compare e.1 key = 0 then some e.2 else valueOf f pairs key := by
  rw [valueOf, List.find?_cons]
  by_cases h : f.compare e.1 key = 0 <;> simp [h, valueOf]

theorem valueOf_isSome : (valueOf f pairs key).isSome ↔ ∃ e ∈ pairs, f.compare e.1 key = 0 := by simp [valueOf]

theorem mem_of_valueOf {v : Rid} (h : valueOf f pairs key = some v) : ∃ e ∈ pairs, f.compare e.1 key = 0 ∧ e.2 = v := by
  obtain ⟨e, hfind, rfl⟩ := Option.map_eq_some_iff.mp h
  have hkey := List.find?_some hfind
  exact ⟨e, List.mem_of_find?_eq_some hfind, of_decide_eq_true hkey, rfl⟩

/-- The order of the pairs of a key makes no difference when they agree. -/
theorem valueOf_perm {qs : List (K × Rid)} (hperm : qs.Perm pairs)
    (hagree : ∀ a ∈ pairs, ∀ b ∈ pairs, f.compare a.1 key = 0 → f.compare b.1 key = 0 → a.2 = b.2) :
    valueOf f qs key = valueOf f pairs key := by
  have hsome : (valueOf f qs key).isSome ↔ (valueOf f pairs key).isSome := by
    rw [valueOf_isSome, valueOf_isSome]
    simp only [hperm.mem_iff]
  cases hq : valueOf f qs key with
  | none =>
    rw [hq, Option.isSome_none, Bool.false_eq_true, false_iff, Bool.not_eq_true, Option.isSome_eq_false_iff,
      Option.isNone_iff_eq_none] at hsome
    exact hsome.symm
  | some v =>
    obtain ⟨w, hw⟩ := Option.isSome_iff_exists.mp (hsome.mp (hq ▸ rfl))
    obtain ⟨a, ha, hak, rfl⟩ := mem_of_valueOf hq
    obtain ⟨b, hb, hbk, rfl⟩ := mem_of_valueOf hw
    rw [hw, hagree a (hperm.mem_iff.mp ha) b hb hak hbk]

section Lawful
variable [Preorder K] (hf : f.Lawful)
include hf

/-! ### A sort that keeps the order of equal keys -/

/-- The order of the pairs that `std::sort` is given. -/
def Precedes (f : IxFormat K) (a b : K × Rid) : Prop := ¬f.compare b.1 a.1 < 0

omit [Preorder K] hf in
instance : DecidableRel (Precedes f) := fun a b => inferInstanceAs (Decidable ¬f.compare b.1 a.1 < 0)

theorem precedes_iff {a b : K × Rid} : Precedes f a b ↔ a.1 ≤ b.1 := by
  rw [Precedes, hf.lt_iff, ← hf.not_le, not_not]

theorem precedes_total : Std.Total (Precedes f) := ⟨fun a b => by
  rw [precedes_iff hf, precedes_iff hf]
  exact hf.total.total a.1 b.1⟩

theorem precedes_trans : IsTrans (K × Rid) (Precedes f) := ⟨fun a b c hab hbc => by
  rw [precedes_iff hf] at hab hbc ⊢
  exact hab.trans hbc⟩

theorem valueOf_orderedInsert : valueOf f (List.orderedInsert (Precedes f) e pairs) key = valueOf f (e :: pairs) key := by
  induction pairs with
  | nil => rfl
  | cons b pairs ih =>
    rw [List.orderedInsert_cons]
    split
    · rfl
    · next hnot =>
      -- `b` is smaller than `e`, so they are not both the key
      rw [Precedes, not_not, hf.lt_iff] at hnot
      rw [valueOf_cons, ih, valueOf_cons, valueOf_cons, valueOf_cons]
      by_cases hb : f.compare b.1 key = 0
      · have he : ¬f.compare e.1 key = 0 := by
          rw [hf.eq_iff] at hb ⊢
          exact fun he => (hb.trans he.symm).not_lt hnot
        simp [hb, he]
      · simp [hb]

theorem valueOf_insertionSort : valueOf f (List.insertionSort (Precedes f) pairs) key = valueOf f pairs key := by
  induction pairs with
  | nil => rfl
  | cons e pairs ih => rw [List.insertionSort_cons, valueOf_orderedInsert hf, valueOf_cons, valueOf_cons, ih]

omit [Preorder K] hf in
/-- The order that `e`, one of `pairs`, comes to the front of. -/
def promote [DecidableEq K] (pairs : List (K × Rid)) (e : K × Rid) (qs : List (K × Rid)) : List (K × Rid) :=
  if qs = pairs then e :: pairs.erase e else qs

/-- The sort that moves the pair `e` of the list `pairs` to the front and keeps the order of equal keys. -/
def StdSort.promoting [DecidableEq K] (pairs : List (K × Rid)) (e : K × Rid) (he : e ∈ pairs) : StdSort f where
  sort qs := List.insertionSort (Precedes f) (promote pairs e qs)
  perm qs := by
    rw [promote]
    refine (List.perm_insertionSort _ _).trans ?_
    split
    · next h => exact h ▸ (List.perm_cons_erase he).symm
    · rfl
  sorted qs := by
    have := precedes_total hf
    have := precedes_trans hf
    exact List.pairwise_insertionSort (Precedes f) _

/-! ### One pair after another -/

/-- A pair of a key that has a value makes no difference behind it. -/
theorem valueOf_or_present (h : ∃ x ∈ pairs, Same x.1 e.1) : (valueOf f pairs key).or (valueOf f [e] key) = valueOf f pairs key := by
  obtain ⟨x, hx, hxe⟩ := h
  rw [valueOf_cons]
  split
  · next hkey =>
    obtain ⟨v, hv⟩ := Option.isSome_iff_exists.mp ((isSome_valueOf hf).mpr ⟨x, hx, hxe.trans ((hf.eq_iff _ _).mp hkey)⟩)
    rw [hv, Option.some_or]
  · rw [valueOf.eq_1 f [], List.find?_nil, Option.map_none, Option.or_none]

/-- A new pair among ascending ones. -/
theorem valueOf_or_inserted {E F : List (K × Rid)} (h : Ascending (E ++ e :: F)) :
    valueOf f (E ++ e :: F) key = (valueOf f (E ++ F) key).or (valueOf f [e] key) := by
  rw [valueOf_insert hf h, valueOf_cons]
  split
  · next hkey =>
    have hnone : valueOf f (E ++ F) key = none := by rw [valueOf_erase hf h, if_pos hkey]
    rw [hnone, Option.none_or]
  · rw [valueOf.eq_1 f [], List.find?_nil, Option.map_none, Option.or_none]

omit [Preorder K] hf in
theorem valueOf_cons_or : valueOf f (e :: pairs) key = (valueOf f [e] key).or (valueOf f pairs key) := by
  rw [valueOf_cons, valueOf_cons]
  split
  · rw [Option.some_or]
  · rw [valueOf.eq_1 f [], List.find?_nil, Option.map_none, Option.none_or]

/-- `insert_entry` for the pairs in order: a key that the index has keeps its value, another one gets that of its first
    pair. -/
theorem insertEach_spec [DecidableEq K] {L : IxLevel K} {Us : List (IxLevel K)} (T : Tree f s L Us) (pairs : List (K × Rid)) :
    ∃ t M Vs, s.insertEach f pairs = .ok t ∧ Tree f t M Vs ∧
      ∀ key, t.getValue f key = .ok ((valueOf f (flat L) key).or (valueOf f pairs key)) := by
  induction pairs generalizing s L Us with
  | nil => exact ⟨s, L, Us, rfl, T, fun key => by rw [getValue_eq hf T, valueOf.eq_1 f [], List.find?_nil, Option.map_none, Option.or_none]⟩
  | cons e pairs ih =>
    rcases insertEntry_spec hf T e.1 e.2 with ⟨hmem, hrun⟩ | ⟨-, u, q, M, Vs, hrun, -, hins⟩
    · obtain ⟨t, M, Vs, hrest, T', hval⟩ := ih T
      refine ⟨t, M, Vs, by rw [insertEach, hrun]; exact hrest, T', fun key => ?_⟩
      rw [hval, valueOf_cons_or, ← Option.or_assoc, valueOf_or_present hf hmem]
    · obtain ⟨t, M', Vs', hrest, T', hval⟩ := ih hins.tree
      refine ⟨t, M', Vs', by rw [insertEach, hrun]; exact hrest, T', fun key => ?_⟩
      obtain ⟨E, F, hL, hM⟩ := hins.entries
      rw [hval, valueOf_cons_or, ← Option.or_assoc, hM, valueOf_or_inserted hf (hM ▸ hins.tree.ascending), ← hL]

/-- Some sort gives a key another value than the first pair has, when two pairs of the key differ. -/
theorem exists_promoting [DecidableEq K] {a b : K × Rid} (ha : a ∈ pairs) (hb : b ∈ pairs) (hak : f.compare a.1 key = 0)
    (hbk : f.compare b.1 key = 0) (hne : a.2 ≠ b.2) :
    ∃ std : StdSort f, valueOf f (std.sort pairs) key ≠ valueOf f pairs key := by
  obtain ⟨v, hv⟩ := Option.isSome_iff_exists.mp (valueOf_isSome.mpr ⟨a, ha, hak⟩)
  obtain ⟨e, he, hek, hev⟩ : ∃ e ∈ pairs, f.compare e.1 key = 0 ∧ e.2 ≠ v := by
    by_cases h : a.2 = v
    · exact ⟨b, hb, hbk, fun hbv => hne (h.trans hbv.symm)⟩
    · exact ⟨a, ha, hak, h⟩
  refine ⟨.promoting hf pairs e he, ?_⟩
  have hsort : (StdSort.promoting hf pairs e he).sort pairs = List.insertionSort (Precedes f) (e :: pairs.erase e) := by
    show List.insertionSort (Precedes f) (promote pairs e pairs) = _
    rw [promote, if_pos rfl]
  rw [hsort, valueOf_insertionSort hf, valueOf_cons, if_pos hek, hv, Ne, Option.some.injEq]
  exact hev

end Lawful
end IxIndexHandle

open IxIndexHandle

/-- For every index that calls lead to and every list of pairs: `insert_entries` gives every key the value that
    `insert_entry` for the pairs in order gives it, whatever `std::sort` does with equal keys, exactly when the pairs are in order
    or those of each new key agree. -/
theorem insertEntries_same_iff {cols : List IxCol} (hacc : IxAccepts cols) {cs : List (IxCall (IxKey cols))}
    {s : IxIndexHandle (IxKey cols)} {h : IxHistory (IxKey cols)} (hrun : (create : IxIndexHandle (IxKey cols)).run (ixFormat cols) cs = .ok (s, h))
    (pairs : List (IxKey cols × Rid)) :
    (∀ std, ∃ t u, s.insertEntries (ixFormat cols) std pairs = .ok t ∧ s.insertEach (ixFormat cols) pairs = .ok u ∧
        ∀ key, t.getValue (ixFormat cols) key = u.getValue (ixFormat cols) key) ↔
      isSorted (ixFormat cols) pairs ∨ Agree (ixFormat cols) s pairs := by
  have hf := ixFormat_lawful hacc
  obtain ⟨s', h', L, Us, hrun', -, T, -⟩ := run_create hf cs
  rw [hrun] at hrun'
  cases hrun'
  obtain ⟨u, -, -, hu, -, huval⟩ := insertEach_spec hf T pairs
  constructor
  · intro hsame
    by_contra hnot
    obtain ⟨hsorted, hagree⟩ := not_or.mp hnot
    rw [Agree] at hagree
    push Not at hagree
    obtain ⟨key, hnone, a, ha, b, hb, hak, hbk, hne⟩ := hagree
    obtain ⟨std, hstd⟩ := exists_promoting hf ha hb hak hbk hne
    obtain ⟨t, u', ht, hu', hval⟩ := hsame std
    rw [hu] at hu'
    cases hu'
    obtain ⟨t', -, -, ht', -, htval⟩ := insertEach_spec hf T (std.sort pairs)
    rw [insertEntries, if_neg hsorted, ht'] at ht
    cases ht
    rw [getValue_eq hf T, Except.ok.injEq] at hnone
    have := hval key
    rw [htval, huval, hnone, Option.none_or, Option.none_or, Except.ok.injEq] at this
    exact hstd this
  · rintro hcond std
    by_cases hsorted : isSorted (ixFormat cols) pairs = true
    · exact ⟨u, u, by rw [insertEntries, if_pos hsorted, hu], hu, fun _ => rfl⟩
    · obtain ⟨t, -, -, ht, -, htval⟩ := insertEach_spec hf T (std.sort pairs)
      refine ⟨t, u, by rw [insertEntries, if_neg hsorted, ht], hu, fun key => ?_⟩
      rw [htval, huval]
      cases hv : valueOf (ixFormat cols) (flat L) key with
      | some v => rw [Option.some_or, Option.some_or]
      | none =>
        rw [Option.none_or, Option.none_or,
          valueOf_perm (std.perm pairs) (hcond.resolve_left hsorted key (by rw [getValue_eq hf T, hv]))]

/-- Two pairs of the key 1 after one of the key 2. -/
def repeatedKey : List (IxKey [IxCol.int] × Rid) := [(intKey 2 0 0 0, ⟨1, 0⟩), (intKey 1 0 0 0, ⟨1, 1⟩), (intKey 1 0 0 0, ⟨1, 2⟩)]

theorem insertEntries_same_iff_inOrder : isSorted (ixFormat [IxCol.int]) repeatedKey.tail ∧ ∀ std, ∃ t u,
    (create : IxIndexHandle (IxKey [IxCol.int])).insertEntries (ixFormat [IxCol.int]) std repeatedKey.tail = .ok t ∧
      (create : IxIndexHandle (IxKey [IxCol.int])).insertEach (ixFormat [IxCol.int]) repeatedKey.tail = .ok u ∧
      ∀ key, t.getValue (ixFormat [IxCol.int]) key = u.getValue (ixFormat [IxCol.int]) key :=
  ⟨by decide, (@insertEntries_same_iff [IxCol.int] (by decide) [] create [] rfl _).mpr (Or.inl (by decide))⟩

/-- A sort may put the second pair of the key first. -/
theorem insertEntries_second_wins : ∃ (std : StdSort (ixFormat [IxCol.int])) (t u : IxIndexHandle (IxKey [IxCol.int])),
    (create : IxIndexHandle (IxKey [IxCol.int])).insertEntries (ixFormat [IxCol.int]) std repeatedKey = .ok t ∧
      (create : IxIndexHandle (IxKey [IxCol.int])).insertEach (ixFormat [IxCol.int]) repeatedKey = .ok u ∧
      t.getValue (ixFormat [IxCol.int]) (intKey 1 0 0 0) = .ok (some ⟨1, 2⟩) ∧
      u.getValue (ixFormat [IxCol.int]) (intKey 1 0 0 0) = .ok (some ⟨1, 1⟩) := by
  have hacc : IxAccepts [IxCol.int] := by decide
  have hf := ixFormat_lawful hacc
  have T := Tree.create (ixFormat [IxCol.int])
  have hmem : (intKey 1 0 0 0, (⟨1, 2⟩ : Rid)) ∈ repeatedKey := by decide
  obtain ⟨t, -, -, ht, -, htval⟩ := insertEach_spec hf T ((StdSort.promoting hf repeatedKey _ hmem).sort repeatedKey)
  obtain ⟨u, -, -, hu, -, huval⟩ := insertEach_spec hf T repeatedKey
  have hsorted : ¬isSorted (ixFormat [IxCol.int]) repeatedKey = true := by decide
  refine ⟨.promoting hf repeatedKey _ hmem, t, u, ?_, hu, ?_, ?_⟩
  · rw [insertEntries, if_neg hsorted, ht]
  · rw [htval]
    rfl
  · rw [huval]
    rfl

end Rmdb
