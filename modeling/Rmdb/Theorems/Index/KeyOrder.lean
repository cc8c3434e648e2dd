import Rmdb.Theorems.Index.Node
import Mathlib.Data.List.Lex
import Mathlib.Order.Lattice

/-! `ix_compare` is a total order on the keys of an index: it compares the column values, numbers and bytes, in
lexicographic order. -/

namespace Rmdb

/-- The values of one column that `ix_compare` looks at. -/
def colVals (a : Bytes) (c : IxCol) : List Int :=
  match c.type with
  | .int => [readInt a]
  | .float => [floatValue (readWord a)]
  | .string => (a.take c.len).map fun x => (x.toNat : Int)

/-- The values of all columns. -/
def keyVals : List IxCol → Bytes → List Int
  | [], _ => []
  | c :: cs, a => colVals a c ++ keyVals cs (a.drop c.len)

/-- Lists of the same length in front decide first. -/
theorem append_lt_append_iff {x y : List Int} (h : x.length = y.length) (x' y' : List Int) :
    x ++ x' < y ++ y' ↔ x < y ∨ x = y ∧ x' < y' := by
  induction x generalizing y with
  | nil =>
    have : y = [] := List.length_eq_zero_iff.mp h.symm
    subst this
    simp
  | cons a x ih =>
    cases y with
    | nil => cases h
    | cons b y =>
      simp only [List.cons_append, List.cons_lt_cons_iff, ih (Nat.succ.inj h), List.cons.injEq]
      tauto

/-- `memcmp` compares the bytes in lexicographic order. -/
theorem memcmp_sign (n : Nat) : ∀ a b : Bytes, n ≤ a.length → n ≤ b.length →
    (memcmp a b n < 0 ↔ (a.take n).map (fun x => (x.toNat : Int)) < (b.take n).map fun x => (x.toNat : Int)) ∧
      (memcmp a b n = 0 ↔ a.take n = b.take n) := by
  induction n with
  | zero => simp [memcmp]
  | succ n ih =>
    intro a b ha hb
    match a, b with
    | [], _ => simp at ha
    | _, [] => simp at hb
    | x :: a, y :: b =>
      obtain ⟨hlt, heq⟩ := ih a b (by simpa using ha) (by simpa using hb)
      by_cases hxy : x = y
      · subst hxy
        simp [memcmp, hlt, heq]
      · have hne : x.toNat ≠ y.toNat := fun h => hxy (UInt8.toNat_inj.mp h)
        have hne' : (x.toNat : Int) - y.toNat ≠ 0 := by omega
        simp only [memcmp, if_neg hxy, List.take_succ_cons, List.map_cons, List.cons_lt_cons_iff, List.cons.injEq]
        refine ⟨⟨fun h => Or.inl (by omega), fun h => ?_⟩, fun h => absurd h hne', fun h => absurd h.1 hxy⟩
        rcases h with h | ⟨h, -⟩ <;> omega

theorem compare_sign (x y : Int) : ((if x < y then -1 else if y < x then 1 else 0 : Int) < 0 ↔ [x] < [y]) ∧
    ((if x < y then -1 else if y < x then 1 else 0 : Int) = 0 ↔ [x] = [y]) := by
  simp only [List.cons_lt_cons_iff, List.cons.injEq, and_true, lt_self_iff_false, and_false, or_false]
  rcases Int.lt_trichotomy x y with h | rfl | h
  · simp [h, h.ne]
  · simp
  · simp [h, h.not_gt, h.ne']

theorem floatCompare_eq {v w : Nat} (hv : isNan v = false) (hw : isNan w = false) :
    floatCompare v w = if floatValue v < floatValue w then -1 else if floatValue w < floatValue v then 1 else 0 := by
  have hnum : ¬(isNan v || isNan w) = true := by rw [hv, hw]; decide
  unfold floatCompare
  rw [if_neg hnum]

/-- What `ix_compare` of one column says, when it holds no NaN. -/
theorem ixCompareCol_sign {a b : Bytes} {c : IxCol} (ha : c.len ≤ a.length) (hb : c.len ≤ b.length)
    (hna : c.type = .float → isNan (readWord a) = false) (hnb : c.type = .float → isNan (readWord b) = false) :
    (ixCompareCol a b c < 0 ↔ colVals a c < colVals b c) ∧ (ixCompareCol a b c = 0 ↔ colVals a c = colVals b c) ∧
      (colVals a c).length = (colVals b c).length := by
  obtain ⟨type, len, fixed⟩ := c
  cases type with
  | int =>
    obtain ⟨hlt, heq⟩ := compare_sign (readInt a) (readInt b)
    exact ⟨hlt, heq, by simp only [colVals, List.length_singleton]⟩
  | float =>
    obtain ⟨hlt, heq⟩ := compare_sign (floatValue (readWord a)) (floatValue (readWord b))
    rw [← floatCompare_eq (hna rfl) (hnb rfl)] at hlt heq
    exact ⟨hlt, heq, by simp only [colVals, List.length_singleton]⟩
  | string =>
    obtain ⟨h1, h2⟩ := memcmp_sign len a b ha hb
    have hinj : (a.take len).map (fun x => (x.toNat : Int)) = (b.take len).map (fun x => (x.toNat : Int)) ↔
        a.take len = b.take len :=
      (List.map_injective_iff.mpr fun x y h => UInt8.toNat_inj.mp (Int.ofNat_inj.mp h)).eq_iff
    exact ⟨h1, h2.trans hinj.symm, by simp [colVals, ha, hb]⟩

/-- What `ix_compare` says of two keys. -/
theorem ixCompare_sign {cols : List IxCol} {a b : Bytes} (ha : colTotLen cols ≤ a.length) (hb : colTotLen cols ≤ b.length)
    (hna : NanFree cols a) (hnb : NanFree cols b) :
    (ixCompare cols a b < 0 ↔ keyVals cols a < keyVals cols b) ∧ (ixCompare cols a b = 0 ↔ keyVals cols a = keyVals cols b) := by
  induction cols generalizing a b with
  | nil => simp [ixCompare, keyVals]
  | cons c cs ih =>
    rw [colTotLen] at ha hb
    obtain ⟨hlt, hzero, hlen⟩ := ixCompareCol_sign (a := a) (b := b) (by omega) (by omega) hna.1 hnb.1
    obtain ⟨ihlt, ihzero⟩ := ih (a := a.drop c.len) (b := b.drop c.len) (by rw [List.length_drop]; omega)
      (by rw [List.length_drop]; omega) hna.2 hnb.2
    have happ : keyVals (c :: cs) a = keyVals (c :: cs) b ↔
        colVals a c = colVals b c ∧ keyVals cs (a.drop c.len) = keyVals cs (b.drop c.len) := List.append_eq_append_iff_of_size_eq_left hlen
    refine ⟨?_, ?_⟩
    · simp only [ixCompare, keyVals, append_lt_append_iff hlen, ← hzero]
      split
      · rename_i h
        simp [h, hlt]
      · rename_i h
        rw [not_not] at h
        simp [h, ihlt, ← hlt]
    · rw [happ, ← hzero, ← ihzero, ixCompare]
      split
      · rename_i h
        simp [h]
      · rename_i h
        rw [not_not] at h
        simp [h]

/-- The keys of an index in the order of the values of their columns. -/
instance keyOrder (cols : List IxCol) : Preorder (IxKey cols) := Preorder.lift fun k : IxKey cols => keyVals cols k.val

/-- An index that `create_index` accepts has a lawful format. -/
theorem ixFormat_lawful {cols : List IxCol} (ha : IxAccepts cols) : (ixFormat cols).Lawful := by
  have hsign (a b : IxKey cols) := ixCompare_sign a.2.1.ge b.2.1.ge a.2.2 b.2.2
  refine ⟨fun a b => ?_, fun a b => ?_, ⟨fun a b => le_total (keyVals cols a.val) (keyVals cols b.val)⟩, ha.2⟩
  · show ixCompare cols a.val b.val ≤ 0 ↔ keyVals cols a.val ≤ keyVals cols b.val
    rw [Int.le_iff_lt_or_eq, (hsign a b).1, (hsign a b).2, ← le_iff_lt_or_eq]
  · show 0 ≤ ixCompare cols a.val b.val ↔ keyVals cols b.val ≤ keyVals cols a.val
    rw [← Int.not_lt, (hsign a b).1, not_lt]

end Rmdb
