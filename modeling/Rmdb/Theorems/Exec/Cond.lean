import Rmdb.Exec.Cond
import Rmdb.Theorems.Index.KeyOrder

/-! What a condition says: both evaluators compare the values of the column and of the constant in their order,
`eval_cond` as far as the numbers fit into a float. -/

namespace Rmdb

/-- The relation that an operator stands for. -/
def CompOp.Rel {α : Type} [LT α] [LE α] : CompOp → α → α → Prop
  | .eq, a, b => a = b
  | .ne, a, b => a ≠ b
  | .lt, a, b => a < b
  | .gt, a, b => b < a
  | .le, a, b => a ≤ b
  | .ge, a, b => b ≤ a

theorem CompOp.test_iff {α : Type} [LinearOrder α] {cmp : Int} {a b : α} (hlt : cmp < 0 ↔ a < b) (heq : cmp = 0 ↔ a = b)
    (op : CompOp) : op.test cmp = true ↔ op.Rel a b := by
  have hle : cmp ≤ 0 ↔ a ≤ b := by rw [Int.le_iff_lt_or_eq, hlt, heq, le_iff_lt_or_eq]
  have hgt : 0 < cmp ↔ b < a := by rw [← Int.not_le, hle, not_le]
  have hge : 0 ≤ cmp ↔ b ≤ a := by rw [← Int.not_lt, hlt, not_lt]
  cases op <;> simp [CompOp.test, CompOp.Rel, hlt, heq, hle, hgt, hge]

/-! ### Numbers as floats -/

theorem le_roundEven (m ulp : Nat) : m / ulp * ulp ≤ roundEven m ulp := by
  unfold roundEven
  split
  · exact Nat.mul_le_mul_right _ (Nat.le_succ _)
  · exact Nat.le_refl _

/-- No number from 2^24 on is rounded below it. -/
theorem le_floatOfNat {m : Nat} (h : 0x1000000 ≤ m) : 0x1000000 ≤ floatOfNat m := by
  have hlog : 24 ≤ m.log2 := (Nat.le_log2 (by omega)).mpr h
  have hpow : 2 ^ m.log2 ≤ m := Nat.log2_self_le (by omega)
  -- the leading 24 bits make at least the highest power of two in the number
  have hsplit : 2 ^ m.log2 = 2 ^ 23 * 2 ^ (m.log2 - 23) := by rw [← Nat.pow_add]; congr 1; omega
  have hquot : 2 ^ 23 ≤ m / 2 ^ (m.log2 - 23) := by
    rw [Nat.le_div_iff_mul_le (Nat.two_pow_pos _), ← hsplit]
    exact hpow
  unfold floatOfNat
  rw [if_neg (by omega), Nat.one_shiftLeft]
  calc 0x1000000 = 2 ^ 24 := rfl
    _ ≤ 2 ^ m.log2 := Nat.pow_le_pow_right (by omega) hlog
    _ = 2 ^ 23 * 2 ^ (m.log2 - 23) := hsplit
    _ ≤ m / 2 ^ (m.log2 - 23) * 2 ^ (m.log2 - 23) := Nat.mul_le_mul_right _ hquot
    _ ≤ _ := le_roundEven _ _

theorem floatOfNat_eq {m : Nat} (h : m < 0x1000000) : floatOfNat m = m := by
  unfold floatOfNat
  rw [if_pos h]

theorem floatOfInt_compare {c : Int} (hc : c.natAbs < 0x1000000) (n : Int) :
    (floatOfInt n < floatOfInt c ↔ n < c) ∧ (floatOfInt c < floatOfInt n ↔ c < n) := by
  have hfc : floatOfInt c = c := by
    unfold floatOfInt
    rw [floatOfNat_eq hc]
    split <;> omega
  rw [hfc]
  unfold floatOfInt
  rcases Nat.lt_or_ge n.natAbs 0x1000000 with hn | hn
  · rw [floatOfNat_eq hn]
    split <;> omega
  · have := le_floatOfNat hn
    split <;> omega

/-! ### Strings -/

theorem NulPadded.tail {x : UInt8} {a : Bytes} (h : NulPadded (x :: a)) : NulPadded a := by
  intro y hy
  by_cases hx : x = 0
  · refine h y ?_
    rw [List.dropWhile_cons_of_neg (by simp [hx])]
    exact List.mem_cons_of_mem _ ((List.dropWhile_sublist _).mem hy)
  · exact h y (by rwa [List.dropWhile_cons_of_pos (by simp [hx])])

theorem NulPadded.rest {a : Bytes} (h : NulPadded (0 :: a)) : ∀ x ∈ a, x = 0 := by
  intro x hx
  refine h x ?_
  rw [List.dropWhile_cons_of_neg (by simp)]
  exact List.mem_cons_of_mem _ hx

theorem memcmp_nuls {a b : Bytes} {n : Nat} (ha : ∀ x ∈ a.take n, x = 0) (hb : ∀ x ∈ b.take n, x = 0) : memcmp a b n = 0 := by
  induction n generalizing a b with
  | zero => cases a <;> cases b <;> rfl
  | succ n ih =>
    cases a with
    | nil => rfl
    | cons x a =>
      cases b with
      | nil => rfl
      | cons y b =>
        rw [List.take_succ_cons, List.forall_mem_cons] at ha hb
        rw [memcmp, if_pos (ha.1.trans hb.1.symm), ih ha.2 hb.2]

/-- On strings with NUL bytes behind them `strncmp` and `memcmp` agree. -/
theorem strncmp_eq_memcmp (n : Nat) (a b : Bytes) (ha : NulPadded (a.take n)) (hb : NulPadded (b.take n)) :
    strncmp a b n = memcmp a b n := by
  induction n generalizing a b with
  | zero => cases a <;> cases b <;> rfl
  | succ n ih =>
    cases a with
    | nil => rfl
    | cons x a =>
      cases b with
      | nil => rfl
      | cons y b =>
        rw [List.take_succ_cons] at ha hb
        rw [strncmp, memcmp]
        by_cases hxy : x = y
        · subst hxy
          rw [if_neg (by simp), if_pos rfl]
          split
          · rename_i hx
            subst hx
            exact (memcmp_nuls ha.rest hb.rest).symm
          · exact ih a b ha.tail hb.tail
        · rw [if_pos hxy, if_neg hxy]

/-! ### The values of a column -/

@[simp] theorem ColMeta.ixCol_type (c : ColMeta) : c.ixCol.type = c.type := rfl

@[simp] theorem ColMeta.ixCol_len (c : ColMeta) : c.ixCol.len = c.len := rfl

theorem readWord_take (a : Bytes) : readWord (a.take 4) = readWord a := by
  rcases a with _ | ⟨_, _ | ⟨_, _ | ⟨_, _ | ⟨_, _⟩⟩⟩⟩ <;> rfl

theorem colVals_take (a : Bytes) (c : IxCol) : colVals (a.take c.len) c = colVals a c := by
  obtain ⟨type, len, fixed⟩ := c
  cases type with
  | int =>
    obtain rfl : len = 4 := fixed (by simp)
    simp only [colVals, readInt, readWord_take]
  | float =>
    obtain rfl : len = 4 := fixed (by simp)
    simp only [colVals, readWord_take]
  | string => simp only [colVals, List.take_take, Nat.min_self]

theorem colVals_append {a : Bytes} {c : IxCol} (h : a.length = c.len) (b : Bytes) : colVals (a ++ b) c = colVals a c := by
  rw [← colVals_take (a ++ b), ← h, List.take_left]

section Evaluation
variable {tab : TabMeta} (d : Condition tab) {lhs : Bytes}

/-- The constant is a whole number that a float holds exactly, and the raw bytes say the same. -/
def Condition.Exact : Prop :=
  d.lhsCol.type = .int → readInt d.rhsVal.raw = d.rhsVal.intVal ∧ d.rhsVal.intVal.natAbs < 0x1000000

instance : Decidable d.Exact := inferInstanceAs (Decidable (_ → _))

theorem Condition.compare_eq (hint : d.lhsCol.type ≠ .float) (lhs : Bytes) :
    compare lhs d.rhsVal.raw d.lhsCol.len d.rhsVal.type = ixCompareCol lhs d.rhsVal.raw d.lhsCol.ixCol := by
  rw [d.typed]
  simp only [compare, ixCompareCol, ColMeta.ixCol_type, ColMeta.ixCol_len]
  cases htype : d.lhsCol.type with
  | int =>
    simp only
    rcases Int.lt_trichotomy (readInt lhs) (readInt d.rhsVal.raw) with h | h | h
    · rw [if_neg h.ne, if_pos h, if_pos h]
    · simp [h]
    · rw [if_neg h.ne', if_neg h.not_gt, if_neg h.not_gt, if_pos h]
  | float => exact absurd htype hint
  | string => rfl

variable (hlhs : IsCell d.lhsCol (lhs.take d.lhsCol.len)) (hint : d.lhsCol.type ≠ .float)
include hlhs hint

theorem Condition.evalAt_eq (hex : d.Exact) : d.evalAt lhs = d.op.test (ixCompareCol lhs d.rhsVal.raw d.lhsCol.ixCol) := by
  simp only [evalAt, ixCompareCol, ColMeta.ixCol_type, ColMeta.ixCol_len]
  cases htype : d.lhsCol.type with
  | int =>
    obtain ⟨hraw, hsmall⟩ := hex htype
    obtain ⟨hlt, hgt⟩ := floatOfInt_compare hsmall (readInt lhs)
    simp only [compareInt, gt_iff_lt, hlt, hgt, hraw]
  | float => exact absurd htype hint
  | string =>
    simp only [d.raw.1, Nat.max_self]
    rw [strncmp_eq_memcmp _ _ _ (hlhs.2 htype) (by rw [← d.raw.1, List.take_length]; exact d.raw.2 htype)]

theorem Condition.test_iff (op : CompOp) : op.test (ixCompareCol lhs d.rhsVal.raw d.lhsCol.ixCol) = true ↔
    op.Rel (colVals lhs d.lhsCol.ixCol) (colVals d.rhsVal.raw d.lhsCol.ixCol) := by
  have hlen : d.lhsCol.len ≤ lhs.length := by
    have := hlhs.1
    rw [List.length_take] at this
    omega
  obtain ⟨hlt, heq, -⟩ := ixCompareCol_sign (c := d.lhsCol.ixCol) hlen d.raw.1.ge (fun h => absurd h hint)
    (fun h => absurd h hint)
  exact op.test_iff hlt heq

/-- What a condition with an exact constant says of a column. -/
theorem Condition.evalAt_iff (hex : d.Exact) :
    d.evalAt lhs = true ↔ d.op.Rel (colVals lhs d.lhsCol.ixCol) (colVals d.rhsVal.raw d.lhsCol.ixCol) := by
  rw [d.evalAt_eq hlhs hint hex, d.test_iff hlhs hint]

end Evaluation

section Rows
variable {tab : TabMeta} (d : Condition tab) (r : Row tab)

theorem Condition.row_cell : IsCell d.lhsCol ((r.bytes.drop d.lhsCol.offset).take d.lhsCol.len) := r.cells _ d.mem

/-- The two evaluators agree on every row, if the constant is exact. -/
theorem Condition.cmpCond_eq (hint : d.lhsCol.type ≠ .float) (hex : d.Exact) : d.cmpCond r.bytes = d.evalCond r.bytes := by
  unfold cmpCond evalCond
  rw [d.compare_eq hint, d.evalAt_eq (d.row_cell r) hint hex]

/-- A condition looks at the cell of its column only. -/
theorem Condition.evalCond_iff (hint : d.lhsCol.type ≠ .float) (hex : d.Exact) :
    d.evalCond r.bytes = d.evalAt (d.lhsCol.cell r.bytes) := by
  have hcell := d.row_cell r
  rw [Bool.eq_iff_iff, evalCond, d.evalAt_iff hcell hint hex, ColMeta.cell,
    d.evalAt_iff (by rwa [List.take_take, Nat.min_self]) hint hex]
  rw [← d.lhsCol.ixCol_len, colVals_take]

end Rows

end Rmdb
