import Rmdb.Recovery.Log
import Rmdb.Theorems.Exec.Cond
import Rmdb.Theorems.Sql.Sort
import Rmdb.Theorems.System.CreateIndex

/-! The three evaluators of a comparison, those of a sequential scan, of an index scan and of a join, on two numbers and on two
strings. -/

namespace Rmdb.Sql
open Outcomes

/-! ### Numbers as floats -/

theorem roundEven_mono {m n : Nat} (ulp : Nat) (h : m ≤ n) : roundEven m ulp ≤ roundEven n ulp := by
  have hquot : m / ulp ≤ n / ulp := Nat.div_le_div_right h
  unfold roundEven
  rcases Nat.lt_or_eq_of_le hquot with hlt | heq
  · have hup : (m / ulp + 1) * ulp ≤ n / ulp * ulp := Nat.mul_le_mul_right _ hlt
    have hdown : m / ulp * ulp ≤ (m / ulp + 1) * ulp := Nat.mul_le_mul_right _ (Nat.le_succ _)
    have hup' : n / ulp * ulp ≤ (n / ulp + 1) * ulp := Nat.mul_le_mul_right _ (Nat.le_succ _)
    split <;> split <;> omega
  · have hm := Nat.div_add_mod m ulp
    have hn := Nat.div_add_mod n ulp
    rw [heq] at hm ⊢
    have hup : n / ulp * ulp ≤ (n / ulp + 1) * ulp := Nat.mul_le_mul_right _ (Nat.le_succ _)
    split <;> split <;> omega

/-- A rounded number stays within the powers of two around it. -/
theorem floatOfNat_bounds {m : Nat} (h : 0x1000000 ≤ m) :
    2 ^ m.log2 ≤ floatOfNat m ∧ floatOfNat m ≤ 2 ^ (m.log2 + 1) := by
  have hlog : 24 ≤ m.log2 := (Nat.le_log2 (by omega)).mpr h
  have hlow : 2 ^ m.log2 ≤ m := Nat.log2_self_le (by omega)
  have hhigh : m < 2 ^ (m.log2 + 1) := Nat.lt_log2_self
  have hsplit : 2 ^ m.log2 = 2 ^ 23 * 2 ^ (m.log2 - 23) := by rw [← Nat.pow_add]; congr 1; omega
  have hsplit' : 2 ^ (m.log2 + 1) = 2 ^ 24 * 2 ^ (m.log2 - 23) := by rw [← Nat.pow_add]; congr 1; omega
  unfold floatOfNat
  rw [if_neg (by omega), Nat.one_shiftLeft]
  have hquot : 2 ^ 23 ≤ m / 2 ^ (m.log2 - 23) := by
    rw [Nat.le_div_iff_mul_le (Nat.two_pow_pos _), ← hsplit]
    exact hlow
  have hquot' : m / 2 ^ (m.log2 - 23) < 2 ^ 24 := Nat.div_lt_of_lt_mul (by rw [Nat.mul_comm, ← hsplit']; exact hhigh)
  refine ⟨?_, ?_⟩
  · rw [hsplit]
    exact (Nat.mul_le_mul_right _ hquot).trans (le_roundEven _ _)
  · rw [hsplit']
    unfold roundEven
    split
    · exact Nat.mul_le_mul_right _ hquot'
    · exact Nat.mul_le_mul_right _ (Nat.le_of_lt hquot')

theorem floatOfNat_mono {m n : Nat} (h : m ≤ n) : floatOfNat m ≤ floatOfNat n := by
  rcases Nat.lt_or_ge n 0x1000000 with hn | hn
  · rw [floatOfNat_eq hn, floatOfNat_eq (by omega)]
    exact h
  rcases Nat.lt_or_ge m 0x1000000 with hm | hm
  · rw [floatOfNat_eq hm]
    exact (Nat.le_of_lt hm).trans (le_floatOfNat hn)
  have hlog : m.log2 ≤ n.log2 := by
    rw [Nat.le_log2 (by omega)]
    exact (Nat.log2_self_le (by omega)).trans h
  rcases Nat.lt_or_eq_of_le hlog with hlt | heq
  · exact (floatOfNat_bounds hm).2.trans ((Nat.pow_le_pow_right (by decide) hlt).trans (floatOfNat_bounds hn).1)
  · unfold floatOfNat
    rw [if_neg (by omega), if_neg (by omega), heq, Nat.one_shiftLeft]
    exact roundEven_mono _ h

/-- The 24 bits of a float that stand for the digits of the number. -/
def floatDigits (m : Nat) : Nat := if m.log2 ≤ 23 then m <<< (23 - m.log2) else m >>> (m.log2 - 23)

theorem floatDigits_bounds {m : Nat} (h : 0 < m) : 0x800000 ≤ floatDigits m ∧ floatDigits m < 0x1000000 := by
  have hlow : 2 ^ m.log2 ≤ m := Nat.log2_self_le (by omega)
  have hhigh : m < 2 ^ (m.log2 + 1) := Nat.lt_log2_self
  unfold floatDigits
  split
  · next hlog =>
    have hsplit : 2 ^ m.log2 * 2 ^ (23 - m.log2) = 2 ^ 23 := by rw [← Nat.pow_add]; congr 1; omega
    have hsplit' : 2 ^ (m.log2 + 1) * 2 ^ (23 - m.log2) = 2 ^ 24 := by rw [← Nat.pow_add]; congr 1; omega
    rw [Nat.shiftLeft_eq]
    have hlow := Nat.mul_le_mul_right (2 ^ (23 - m.log2)) hlow
    have hhigh := Nat.mul_lt_mul_of_pos_right hhigh (Nat.two_pow_pos (23 - m.log2))
    rw [hsplit] at hlow
    rw [hsplit'] at hhigh
    exact ⟨hlow, hhigh⟩
  · next hlog =>
    have hsplit : 2 ^ m.log2 = 2 ^ 23 * 2 ^ (m.log2 - 23) := by rw [← Nat.pow_add]; congr 1; omega
    have hsplit' : 2 ^ (m.log2 + 1) = 2 ^ (m.log2 - 23) * 2 ^ 24 := by rw [← Nat.pow_add]; congr 1; omega
    rw [Nat.shiftRight_eq_div_pow]
    refine ⟨?_, Nat.div_lt_of_lt_mul (hsplit' ▸ hhigh)⟩
    rw [Nat.le_div_iff_mul_le (Nat.two_pow_pos _)]
    exact hsplit ▸ hlow

theorem floatBitsOfNat_eq {n : Nat} (h : n ≠ 0) :
    floatBitsOfNat n + 0x800000 = ((floatOfNat n).log2 + 127) * 0x800000 + floatDigits (floatOfNat n) := by
  rw [floatBitsOfNat, if_neg h]
  dsimp only
  rw [← floatDigits]
  omega

theorem floatOfNat_pos {n : Nat} (h : n ≠ 0) : 0 < floatOfNat n := by
  have hone : floatOfNat 1 = 1 := rfl
  have := @floatOfNat_mono 1 n (by omega)
  omega

theorem floatBitsOfNat_pos {n : Nat} (h : n ≠ 0) : 0 < floatBitsOfNat n := by
  have := floatBitsOfNat_eq h
  have := floatDigits_bounds (floatOfNat_pos h)
  omega

/-- A greater number does not become a smaller float. -/
theorem floatBitsOfNat_mono {m n : Nat} (h : m ≤ n) : floatBitsOfNat m ≤ floatBitsOfNat n := by
  by_cases hm : m = 0
  · subst hm
    exact Nat.zero_le _
  have hn : n ≠ 0 := by omega
  have hle := floatOfNat_mono h
  have hposm := floatOfNat_pos hm
  have hposn := floatOfNat_pos hn
  have hm := floatBitsOfNat_eq hm
  have hn := floatBitsOfNat_eq hn
  generalize floatOfNat m = x at *
  generalize floatOfNat n = y at *
  have hx := floatDigits_bounds hposm
  have hy := floatDigits_bounds hposn
  have hlog : x.log2 ≤ y.log2 := by
    rw [Nat.le_log2 (by omega)]
    exact (Nat.log2_self_le (by omega)).trans hle
  rcases Nat.lt_or_eq_of_le hlog with hlt | heq
  · omega
  · have hdigits : floatDigits x ≤ floatDigits y := by
      unfold floatDigits
      rw [heq, Nat.shiftLeft_eq, Nat.shiftLeft_eq, Nat.shiftRight_eq_div_pow, Nat.shiftRight_eq_div_pow]
      split
      · exact Nat.mul_le_mul_right _ hle
      · exact Nat.div_le_div_right hle
    rw [heq] at hm
    omega

theorem floatBitsOfNat_le {n : Nat} (h : n ≤ 0x80000000) : floatBitsOfNat n ≤ 0x4f000000 := floatBitsOfNat_mono h

section Ints
variable {a b : Int}

theorem readInt_inInt (data : Bytes) : InInt (readInt data) := by
  have h : readWord data < 0x100000000 := readWord_lt data
  unfold readInt toSigned InInt
  split <;> omega

theorem floatValue_floatBits (ha : InInt a) : isNan (floatBits a) = false ∧
    floatValue (floatBits a) = if a < 0 then -(floatBitsOfNat a.natAbs : Int) else floatBitsOfNat a.natAbs := by
  have hle := @floatBitsOfNat_le a.natAbs (by unfold InInt at ha; omega)
  unfold floatBits
  split
  · next hneg =>
    refine ⟨decide_eq_false ?_, ?_⟩
    · unfold floatMagnitude
      omega
    · rw [floatValue, if_neg (by omega), floatMagnitude]
      congr 2
      omega
  · refine ⟨decide_eq_false ?_, ?_⟩
    · unfold floatMagnitude
      omega
    · rw [floatValue, if_pos (by omega), floatMagnitude]
      congr 1
      omega

/-- Numbers of which one is less are the same float or in the same order. -/
theorem floatValue_mono (ha : InInt a) (hb : InInt b) (h : a ≤ b) : floatValue (floatBits a) ≤ floatValue (floatBits b) := by
  rw [(floatValue_floatBits ha).2, (floatValue_floatBits hb).2]
  split <;> split
  · have := @floatBitsOfNat_mono b.natAbs a.natAbs (by omega)
    omega
  · omega
  · omega
  · have := @floatBitsOfNat_mono a.natAbs b.natAbs (by omega)
    omega

theorem floatValue_floatBits_inj (ha : InInt a) (hb : InInt b) (h : floatValue (floatBits a) = floatValue (floatBits b)) :
    floatBits a = floatBits b := by
  rw [(floatValue_floatBits ha).2, (floatValue_floatBits hb).2] at h
  have hpos : ∀ {n : Int}, n < 0 → 0 < floatBitsOfNat n.natAbs := fun hn => floatBitsOfNat_pos (by omega)
  unfold floatBits
  by_cases hna : a < 0 <;> by_cases hnb : b < 0
  · rw [if_pos hna, if_pos hnb] at h ⊢
    omega
  · rw [if_pos hna, if_neg hnb] at h
    have := hpos hna
    omega
  · rw [if_neg hna, if_pos hnb] at h
    have := hpos hnb
    omega
  · rw [if_neg hna, if_neg hnb] at h ⊢
    omega

theorem compareInt_self (n : Int) : compareInt n n = 0 := by
  rw [compareInt, if_neg (Int.lt_irrefl n), if_neg (Int.lt_irrefl n)]

theorem floatTest_eq {u v : Nat} (hu : isNan u = false) (hv : isNan v = false) (op : CompOp) :
    op.floatTest u v = op.test (compareInt (floatValue u) (floatValue v)) := by
  have heq : floatEq u v = decide (floatValue u = floatValue v) := by simp [floatEq, hu, hv]
  have hlt : floatLt u v = decide (floatValue u < floatValue v) := by simp [floatLt, hu, hv]
  have hgt : floatLt v u = decide (floatValue v < floatValue u) := by simp [floatLt, hu, hv]
  unfold compareInt
  rcases Int.lt_trichotomy (floatValue u) (floatValue v) with h | h | h
  · rw [if_pos h]
    cases op <;> simp [CompOp.floatTest, CompOp.test, heq, hlt, hgt] <;> omega
  · rw [h, if_neg (Int.lt_irrefl _), if_neg (Int.lt_irrefl _)]
    cases op <;> simp [CompOp.floatTest, CompOp.test, heq, hlt, hgt, h]
  · rw [if_neg (by omega), if_pos h]
    cases op <;> simp [CompOp.floatTest, CompOp.test, heq, hlt, hgt] <;> omega

/-- As floats two numbers are compared right exactly if they are not the same float, or the operator does not care. -/
theorem floatTest_ints (ha : InInt a) (hb : InInt b) (op : CompOp) :
    op.floatTest (floatBits a) (floatBits b) = op.test (compareInt a b) ↔
      (floatBits a = floatBits b → op.test 0 = op.test (compareInt a b)) := by
  rw [floatTest_eq (floatValue_floatBits ha).1 (floatValue_floatBits hb).1]
  by_cases heq : floatBits a = floatBits b
  · rw [heq, compareInt_self]
    exact ⟨fun h _ => h, fun h => h rfl⟩
  · refine iff_of_true (congrArg _ ?_) fun h => absurd h heq
    have hne : floatValue (floatBits a) ≠ floatValue (floatBits b) := fun h => heq (floatValue_floatBits_inj ha hb h)
    unfold compareInt
    rcases Int.lt_trichotomy a b with h | rfl | h
    · have hlt := Int.lt_iff_le_and_ne.mpr ⟨floatValue_mono ha hb (Int.le_of_lt h), hne⟩
      rw [if_pos h, if_pos hlt]
    · exact absurd rfl heq
    · have hlt := Int.lt_iff_le_and_ne.mpr ⟨floatValue_mono hb ha (Int.le_of_lt h), Ne.symm hne⟩
      rw [if_neg (Int.not_lt.mpr (Int.le_of_lt h)), if_pos h, if_neg (Int.not_lt.mpr (Int.le_of_lt hlt)), if_pos hlt]

end Ints

/-! ### Strings with the memory behind them -/

/-- The string in a cell. -/
def cellString (cell : Bytes) : Bytes := cell.takeWhile (· ≠ 0)

section Chars
variable {c u v w x y p q : Bytes} {k : Nat}

theorem strncmp_append (hc : 0 ∉ c) (hk : c.length ≤ k) : strncmp (c ++ u) (c ++ v) k = strncmp u v (k - c.length) := by
  induction c generalizing k with
  | nil => rfl
  | cons b c ih =>
    obtain ⟨k, rfl⟩ := Nat.exists_eq_add_of_lt (Nat.lt_of_lt_of_le (Nat.zero_lt_succ c.length) hk)
    rw [List.mem_cons, not_or] at hc
    rw [List.length_cons] at hk ⊢
    rw [List.cons_append, List.cons_append, Nat.zero_add, strncmp, if_neg (fun h => h rfl), if_neg (Ne.symm hc.1), ih hc.2 (by omega)]
    congr 1
    omega

theorem strncmp_nul (hc : 0 ∈ c) (k : Nat) : strncmp (c ++ u) (c ++ v) k = 0 := by
  induction c generalizing k with
  | nil => cases hc
  | cons b c ih =>
    cases k with
    | zero => rfl
    | succ k =>
      rw [List.cons_append, List.cons_append, strncmp, if_neg (fun h => h rfl)]
      split
      · rfl
      · next hb => exact ih ((List.mem_cons.mp hc).resolve_left (Ne.symm hb)) k

theorem memcmp_append (hk : c.length ≤ k) : memcmp (c ++ u) (c ++ v) k = memcmp u v (k - c.length) := by
  induction c generalizing k with
  | nil => rfl
  | cons b c ih =>
    obtain ⟨k, rfl⟩ := Nat.exists_eq_add_of_lt (Nat.lt_of_lt_of_le (Nat.zero_lt_succ c.length) hk)
    rw [List.length_cons] at hk ⊢
    rw [List.cons_append, List.cons_append, Nat.zero_add, memcmp, if_pos rfl, ih (by omega)]
    congr 1
    omega

/-- Bytes behind the ones that are compared do not matter. -/
theorem strncmp_behind (hu : k ≤ u.length) : strncmp (u ++ w) v k = strncmp u v k := by
  induction k generalizing u v with
  | zero => rw [strncmp, strncmp]
  | succ k ih =>
    cases u with
    | nil => cases hu
    | cons b u =>
      cases v with
      | nil => rfl
      | cons d v =>
        rw [List.length_cons] at hu
        rw [List.cons_append, strncmp, strncmp, ih (by omega)]

theorem strncmp_behind_right (hv : k ≤ v.length) : strncmp u (v ++ w) k = strncmp u v k := by
  induction k generalizing u v with
  | zero => rw [strncmp, strncmp]
  | succ k ih =>
    cases v with
    | nil => cases hv
    | cons d v =>
      cases u with
      | nil => rfl
      | cons b u =>
        rw [List.length_cons] at hv
        rw [List.cons_append, strncmp, strncmp, ih (by omega)]

theorem memcmp_behind (hu : k ≤ u.length) : memcmp (u ++ w) v k = memcmp u v k := by
  induction k generalizing u v with
  | zero => rw [memcmp, memcmp]
  | succ k ih =>
    cases u with
    | nil => cases hu
    | cons b u =>
      cases v with
      | nil => rfl
      | cons d v =>
        rw [List.length_cons] at hu
        rw [List.cons_append, memcmp, memcmp, ih (by omega)]

theorem byte_sign {b d : UInt8} (h : b ≠ d) : ((b.toNat : Int) - d.toNat).sign = orderSign (compare b d) := by
  by_cases hlt : b < d
  · have hnat : b.toNat < d.toNat := hlt
    rw [Std.compare_eq_lt.mpr hlt, Int.sign_eq_neg_one_of_neg (by omega)]
    rfl
  · have hgt : d < b := UInt8.lt_of_le_of_ne (UInt8.not_lt.mp hlt) (Ne.symm h)
    have hnat : d.toNat < b.toNat := hgt
    rw [Std.compare_eq_gt.mpr hgt, Int.sign_eq_one_of_pos (by omega)]
    rfl

theorem zeros_take {n : Nat} (hx : ∀ b ∈ x, b = 0) : x.take n = List.replicate (min n x.length) 0 :=
  List.eq_replicate_iff.mpr ⟨List.length_take, fun b hb => hx b (List.mem_of_mem_take hb)⟩

/-- Cells that differ in a byte that both have are compared by their strings. -/
theorem compare_differ (hx : NulPadded x) (hy : NulPadded y) (hne : x.take y.length ≠ y.take x.length)
    (hk : min x.length y.length ≤ k) : strncmp (x ++ p) (y ++ q) k = memcmp (x ++ p) (y ++ q) k ∧
      (memcmp (x ++ p) (y ++ q) k).sign = orderSign (compare (cellString x) (cellString y)) := by
  induction x generalizing y k with
  | nil => exact absurd (by simp) hne
  | cons b x ih =>
    cases y with
    | nil => exact absurd (by simp) hne
    | cons d y =>
      rw [List.length_cons, List.length_cons] at hk
      obtain ⟨k, rfl⟩ : ∃ j, k = j + 1 := ⟨k - 1, by omega⟩
      rw [List.cons_append, List.cons_append, strncmp, memcmp]
      by_cases hbd : b = d
      · subst hbd
        rw [List.length_cons, List.length_cons, List.take_succ_cons, List.take_succ_cons] at hne
        have hne : x.take y.length ≠ y.take x.length := fun h => hne (congrArg _ h)
        by_cases hb : b = 0
        · subst hb
          refine absurd ?_ hne
          rw [zeros_take hx.rest, zeros_take hy.rest, Nat.min_comm]
        · rw [if_neg (fun h => h rfl), if_neg hb, if_pos rfl]
          obtain ⟨heq, hsign⟩ := ih (k := k) hx.tail hy.tail hne (by omega)
          refine ⟨heq, hsign.trans ?_⟩
          have hcons : ∀ z, cellString (b :: z) = b :: cellString z := fun z => List.takeWhile_cons_of_pos (decide_eq_true hb)
          rw [hcons, hcons, List.compare_cons_cons, Std.compare_eq_iff_eq.mpr rfl]
          rfl
      · rw [if_pos hbd, if_neg hbd]
        refine ⟨rfl, (byte_sign hbd).trans (congrArg _ ?_)⟩
        have hnil : ∀ z, cellString (0 :: z) = [] := fun z => List.takeWhile_cons_of_neg (by simp)
        have hcons : ∀ {e : UInt8} z, e ≠ 0 → cellString (e :: z) = e :: cellString z := fun z he =>
          List.takeWhile_cons_of_pos (decide_eq_true he)
        have hpos : ∀ {e : UInt8}, e ≠ 0 → 0 < e := fun he => UInt8.lt_of_le_of_ne (UInt8.le_iff_toNat_le.mpr (Nat.zero_le _)) (Ne.symm he)
        by_cases hb : b = 0
        · subst hb
          rw [hnil, hcons y (Ne.symm hbd), List.compare_nil_cons]
          exact Std.compare_eq_lt.mpr (hpos (Ne.symm hbd))
        · rw [hcons x hb]
          by_cases hd : d = 0
          · subst hd
            rw [hnil, List.compare_cons_nil]
            exact Std.compare_eq_gt.mpr (hpos hb)
          · rw [hcons y hd, List.compare_cons_cons]
            have hne : compare b d ≠ .eq := fun h => hbd (Std.compare_eq_iff_eq.mp h)
            cases hcmp : compare b d with
            | eq => exact absurd hcmp hne
            | lt => rfl
            | gt => rfl

theorem cellString_append (hx : 0 ∈ x) (v : Bytes) : cellString (x ++ v) = cellString x := by
  induction x with
  | nil => cases hx
  | cons b x ih =>
    unfold cellString at ih ⊢
    by_cases hb : b = 0
    · rw [List.cons_append, List.takeWhile_cons_of_neg (by simp [hb]), List.takeWhile_cons_of_neg (by simp [hb])]
    · have hmem := (List.mem_cons.mp hx).resolve_left (Ne.symm hb)
      rw [List.cons_append, List.takeWhile_cons_of_pos (by simp [hb]), List.takeWhile_cons_of_pos (by simp [hb]), ih hmem]

/-- The sign of the comparison of the strings in two cells. -/
def stringSign (x y : Bytes) : Int := orderSign (compare (cellString x) (cellString y))

theorem stringSign_self (x : Bytes) : stringSign x x = 0 := by
  rw [stringSign, Std.compare_eq_iff_eq.mpr rfl]
  rfl

theorem stringSign_nul (hx : 0 ∈ x) (v : Bytes) : stringSign x (x ++ v) = 0 ∧ stringSign (x ++ v) x = 0 := by
  rw [stringSign, stringSign, cellString_append hx]
  exact ⟨stringSign_self x, stringSign_self x⟩

theorem test_sign (op : CompOp) (n : Int) : op.test n.sign = op.test n := by
  rcases Int.lt_trichotomy n 0 with h | rfl | h
  · rw [Int.sign_eq_neg_one_of_neg h]
    cases op <;> simp [CompOp.test] <;> omega
  · rfl
  · rw [Int.sign_eq_one_of_pos h]
    cases op <;> simp [CompOp.test] <;> omega

theorem split_short (h : x = y.take x.length) (q : Bytes) : y = x ++ y.drop x.length ∧ y ++ q = x ++ (y.drop x.length ++ q) := by
  have hy : y = x ++ y.drop x.length := by
    conv_lhs => rw [← List.take_append_drop x.length y, ← h]
  refine ⟨hy, ?_⟩
  conv_lhs => rw [hy, List.append_assoc]

/-- The comparisons of cells that differ where both have bytes. -/
theorem compare_fits (hx : NulPadded x) (hy : NulPadded y) (hne : x.take y.length ≠ y.take x.length) (hk : min x.length y.length ≤ k)
    (op : CompOp) : op.test (strncmp (x ++ p) (y ++ q) k) = op.test (stringSign x y) ∧
      op.test (memcmp (x ++ p) (y ++ q) k) = op.test (stringSign x y) := by
  obtain ⟨heq, hsign⟩ := @compare_differ x y p q k hx hy hne hk
  rw [heq, ← test_sign, hsign]
  exact ⟨rfl, rfl⟩

/-- The cell on the left is the shorter one: `strncmp` meets the memory behind it if it is full. -/
theorem strncmp_short (hx : NulPadded x) (hy : NulPadded y) (hlt : x.length < y.length) (op : CompOp) (hk : x.length ≤ k)
    (hk' : k ≤ y.length) : op.test (strncmp (x ++ p) (y ++ q) k) = op.test (stringSign x y) ↔
      (x = y.take x.length → 0 ∉ x → op.test (strncmp p (y.drop x.length) (k - x.length)) = op.test (stringSign x y)) := by
  by_cases hcommon : x = y.take x.length
  · obtain ⟨hy', hreads⟩ := split_short hcommon q
    rw [hreads]
    by_cases hnul : 0 ∈ x
    · refine iff_of_true ?_ fun _ h => absurd hnul h
      rw [strncmp_nul hnul, hy', (stringSign_nul hnul _).1]
    · rw [strncmp_append hnul hk, strncmp_behind_right (by rw [List.length_drop]; omega)]
      exact ⟨fun h _ _ => h, fun h => h hcommon hnul⟩
  · refine iff_of_true (compare_fits hx hy ?_ (by omega) op).1 fun h => absurd h hcommon
    rwa [List.take_of_length_le (Nat.le_of_lt hlt)]

/-- The cell on the right is the shorter one. -/
theorem strncmp_long (hx : NulPadded x) (hy : NulPadded y) (hlt : y.length < x.length) (op : CompOp) (hk : y.length ≤ k)
    (hk' : k ≤ x.length) : op.test (strncmp (x ++ p) (y ++ q) k) = op.test (stringSign x y) ↔
      (y = x.take y.length → 0 ∉ y → op.test (strncmp (x.drop y.length) q (k - y.length)) = op.test (stringSign x y)) := by
  by_cases hcommon : y = x.take y.length
  · obtain ⟨hx', hreads⟩ := split_short hcommon p
    rw [hreads]
    by_cases hnul : 0 ∈ y
    · refine iff_of_true ?_ fun _ h => absurd hnul h
      rw [strncmp_nul hnul, hx', (stringSign_nul hnul _).2]
    · rw [strncmp_append hnul hk, strncmp_behind (by rw [List.length_drop]; omega)]
      exact ⟨fun h _ _ => h, fun h => h hcommon hnul⟩
  · refine iff_of_true (compare_fits hx hy ?_ (by omega) op).1 fun h => absurd h hcommon
    rw [List.take_of_length_le (Nat.le_of_lt hlt)]
    exact fun h => hcommon h.symm

/-- `memcmp` over the length of the left cell ends before the strings do. -/
theorem memcmp_short (hx : NulPadded x) (hy : NulPadded y) (hlt : x.length < y.length) (op : CompOp) :
    op.test (memcmp (x ++ p) (y ++ q) x.length) = op.test (stringSign x y) ↔
      (x = y.take x.length → op.test 0 = op.test (stringSign x y)) := by
  by_cases hcommon : x = y.take x.length
  · rw [(split_short hcommon q).2, memcmp_append (Nat.le_refl _), Nat.sub_self, memcmp]
    exact ⟨fun h _ => h, fun h => h hcommon⟩
  · refine iff_of_true (compare_fits hx hy ?_ (by omega) op).2 fun h => absurd h hcommon
    rwa [List.take_of_length_le (Nat.le_of_lt hlt)]

/-- `memcmp` does not stop at the end of the strings. -/
theorem memcmp_long (hx : NulPadded x) (hy : NulPadded y) (hlt : y.length < x.length) (op : CompOp) :
    op.test (memcmp (x ++ p) (y ++ q) x.length) = op.test (stringSign x y) ↔
      (y = x.take y.length → op.test (memcmp (x.drop y.length) q (x.length - y.length)) = op.test (stringSign x y)) := by
  by_cases hcommon : y = x.take y.length
  · rw [(split_short hcommon p).2, memcmp_append (Nat.le_of_lt hlt), memcmp_behind (by rw [List.length_drop])]
    exact ⟨fun h _ => h, fun h => h hcommon⟩
  · refine iff_of_true (compare_fits hx hy ?_ (by omega) op).2 fun h => absurd h hcommon
    rw [List.take_of_length_le (Nat.le_of_lt hlt)]
    exact fun h => hcommon h.symm

/-- Cells of one length. -/
theorem compare_same (hx : NulPadded x) (hy : NulPadded y) (hlength : x.length = y.length) (op : CompOp) :
    op.test (strncmp (x ++ p) (y ++ q) x.length) = op.test (stringSign x y) ∧
      op.test (memcmp (x ++ p) (y ++ q) x.length) = op.test (stringSign x y) := by
  by_cases hxy : x = y
  · subst hxy
    rw [memcmp_append (Nat.le_refl _), Nat.sub_self, memcmp, stringSign_self]
    refine ⟨?_, rfl⟩
    by_cases hnul : 0 ∈ x
    · rw [strncmp_nul hnul]
    · rw [strncmp_append hnul (Nat.le_refl _), Nat.sub_self, strncmp]
  · refine compare_fits hx hy ?_ (by omega) op
    rwa [← hlength, List.take_length, hlength, List.take_length]

/-- What has to hold of cells of different lengths where one is the beginning of the other, and of the memory behind the shorter
    one: `p` behind the left cell in the record of a scan, `q` behind the right one there, `q'` behind it in that of a join. -/
structure CharsFit (op : CompOp) (x y p q q' : Bytes) : Prop where
  short : x.length < y.length → x = y.take x.length → op.test 0 = op.test (stringSign x y) ∧
    (0 ∉ x → op.test (strncmp p (y.drop x.length) (y.length - x.length)) = op.test (stringSign x y))
  long : y.length < x.length → y = x.take y.length →
    op.test (memcmp (x.drop y.length) q (x.length - y.length)) = op.test (stringSign x y) ∧
    (0 ∉ y → op.test (strncmp (x.drop y.length) q (x.length - y.length)) = op.test (stringSign x y) ∧
      op.test (strncmp (x.drop y.length) q' (x.length - y.length)) = op.test (stringSign x y))

theorem charsFit_iff (hx : NulPadded x) (hy : NulPadded y) (op : CompOp) (p p' q q' : Bytes) :
    (op.test (strncmp (x ++ p) (y ++ q) (max x.length y.length)) = op.test (stringSign x y) ∧
      op.test (memcmp (x ++ p) (y ++ q) x.length) = op.test (stringSign x y) ∧
      op.test (strncmp (x ++ p') (y ++ q') x.length) = op.test (stringSign x y)) ↔ CharsFit op x y p q q' := by
  rcases Nat.lt_trichotomy x.length y.length with hlt | heq | hlt
  · rw [Nat.max_eq_right (Nat.le_of_lt hlt), strncmp_short hx hy hlt op (Nat.le_of_lt hlt) (Nat.le_refl _), memcmp_short hx hy hlt,
      strncmp_short hx hy hlt op (Nat.le_refl _) (Nat.le_of_lt hlt), Nat.sub_self, strncmp]
    constructor
    · rintro ⟨heval, hcmp, -⟩
      exact ⟨fun _ h => ⟨hcmp h, heval h⟩, fun h => absurd h (by omega)⟩
    · rintro ⟨hshort, -⟩
      exact ⟨fun h => (hshort hlt h).2, fun h => (hshort hlt h).1, fun h _ => (hshort hlt h).1⟩
  · rw [← heq, Nat.max_self]
    refine iff_of_true ⟨(compare_same hx hy heq op).1, (compare_same hx hy heq op).2, (compare_same hx hy heq op).1⟩ ⟨?_, ?_⟩
    · exact fun h => absurd h (by omega)
    · exact fun h => absurd h (by omega)
  · rw [Nat.max_eq_left (Nat.le_of_lt hlt), strncmp_long hx hy hlt op (Nat.le_of_lt hlt) (Nat.le_refl _), memcmp_long hx hy hlt,
      strncmp_long hx hy hlt op (Nat.le_of_lt hlt) (Nat.le_refl _)]
    constructor
    · rintro ⟨heval, hcmp, hjoin⟩
      exact ⟨fun h => absurd h (by omega), fun _ h => ⟨hcmp h, fun hnul => ⟨heval h hnul, hjoin h hnul⟩⟩⟩
    · rintro ⟨-, hlong⟩
      exact ⟨fun h hnul => ((hlong hlt h).2 hnul).1, fun h => (hlong hlt h).1, fun h hnul => ((hlong hlt h).2 hnul).2⟩

end Chars

/-! ### The evaluators -/

/-- An operand by its type and the bytes of its cell, as many as its column declares. -/
structure TypedCell where
  type : ColType
  bytes : Bytes

/-- An INT or a CHAR operand. -/
def TypedCell.Fine (a : TypedCell) : Prop := a.type = .int ∧ a.bytes.length = 4 ∨ a.type = .string ∧ NulPadded a.bytes

/-- Numbers are compared as such, strings without their NUL bytes in lexicographic order. -/
def TypedCell.sign (a b : TypedCell) : Int :=
  match a.type with
  | .string => stringSign a.bytes b.bytes
  | _ => compareInt (readInt a.bytes) (readInt b.bytes)

/-- The column of the record holds the operand; `behind` is the memory behind it. -/
def ColHolds (cols : List Catalog.ColMeta) (rec : Bytes) (d : TabCol) (a : TypedCell) (behind : Bytes) : Prop :=
  ∃ c, getCol cols d = .ok c ∧ c.type = a.type ∧ c.len = a.bytes.length ∧ rec.drop c.offset = a.bytes ++ behind

/-- So does the right side of a condition, a column or a constant in its raw bytes. -/
inductive RhsHolds (cols : List Catalog.ColMeta) (rec : Bytes) : Rhs → TypedCell → Bytes → Prop where
  | col {d : TabCol} {a : TypedCell} {behind : Bytes} (h : ColHolds cols rec d a behind) : RhsHolds cols rec (.col d) a behind
  | val {v : Value} {a : TypedCell} (htype : v.type = a.type) (hint : ∀ n, v = .int n → readInt a.bytes = n) :
      RhsHolds cols rec (.val v a.bytes) a []

section Evaluate
variable {cols leftCols rightCols : List Catalog.ColMeta} {rec left right p p' q q' : Bytes} {lhs lhs' rhs' : TabCol} {op : CompOp}
  {rhs : Rhs} {a b : TypedCell}

theorem ColHolds.mini (h : ColHolds cols rec lhs a p) : ∃ m, miniCol cols lhs = some m ∧ m.type = a.type ∧
    m.len = a.bytes.length ∧ rec.drop m.offset = a.bytes ++ p := by
  obtain ⟨c, hc, htype, hlen, hrec⟩ := h
  unfold getCol at hc
  split at hc
  · next hfind =>
    cases hc
    exact ⟨⟨c.offset, c.len, c.type⟩, by rw [miniCol, hfind]; rfl, htype, hlen, hrec⟩
  · cases hc

theorem evalCond_string (ha : a.type = .string) (hb : b.type = .string) (hl : ColHolds cols rec lhs a p) (hr : RhsHolds cols rec rhs b q) :
    evalCond cols ⟨lhs, op, rhs⟩ rec =
      .ok (op.test (strncmp (a.bytes ++ p) (b.bytes ++ q) (max a.bytes.length b.bytes.length))) := by
  obtain ⟨c, hc, htype, hlen, hrec⟩ := hl
  unfold evalCond
  cases hr with
  | col h =>
    obtain ⟨d, hd, htype', hlen', hrec'⟩ := h
    simp only [hc, hd, ok_bind, htype, htype', ha, hb, hlen, hlen', hrec, hrec']
    rfl
  | val htype' hint =>
    simp only [hc, ok_bind, htype, htype', ha, hb, hlen, hrec, List.append_nil]
    rfl

theorem cmpCond_string (ha : a.type = .string) (hb : b.type = .string) (hl : ColHolds cols rec lhs a p) (hr : RhsHolds cols rec rhs b q) :
    cmpCond cols ⟨lhs, op, rhs⟩ rec = .ok (op.test (memcmp (a.bytes ++ p) (b.bytes ++ q) a.bytes.length)) := by
  obtain ⟨c, hc, htype, hlen, hrec⟩ := hl
  unfold cmpCond
  cases hr with
  | col h =>
    obtain ⟨d, hd, htype', hlen', hrec'⟩ := h
    simp only [hc, hd, ok_bind, htype, htype', ha, hb, hlen, hrec, hrec']
    rfl
  | val htype' hint =>
    simp only [hc, ok_bind, htype, htype', ha, hb, hlen, hrec, List.append_nil]
    rfl

theorem doPredict_string (ha : a.type = .string) (hl : ColHolds leftCols left lhs a p) (hr : ColHolds rightCols right rhs' b q) :
    doPredictCond leftCols rightCols left right ⟨lhs, op, .col rhs'⟩ =
      .ok (op.test (strncmp (a.bytes ++ p) (b.bytes ++ q) a.bytes.length)) := by
  obtain ⟨m, hm, htype, hlen, hrec⟩ := hl.mini
  obtain ⟨m', hm', -, -, hrec'⟩ := hr.mini
  simp only [doPredictCond, hm, hm', htype, ha, hlen, hrec, hrec']
  rfl

theorem readInt_append {cell : Bytes} (h : cell.length = 4) (behind : Bytes) : readInt (cell ++ behind) = readInt cell := by
  rw [readInt, readInt, readWord_append h]

theorem evalCond_int (ha : a.type = .int) (ha' : a.bytes.length = 4) (hb : b.type = .int) (hb' : b.bytes.length = 4)
    (hl : ColHolds cols rec lhs a p) (hr : RhsHolds cols rec rhs b q) : evalCond cols ⟨lhs, op, rhs⟩ rec =
      .ok (op.floatTest (floatBits (readInt a.bytes)) (floatBits (readInt b.bytes))) := by
  obtain ⟨c, hc, htype, hlen, hrec⟩ := hl
  unfold evalCond
  cases hr with
  | col h =>
    obtain ⟨d, hd, htype', hlen', hrec'⟩ := h
    simp only [hc, hd, ok_bind, htype, htype', ha, hb, hrec, hrec', numericBits, readInt_append ha', readInt_append hb']
    rfl
  | val htype' hint =>
    rename_i v
    cases v with
    | int n =>
      simp only [hc, ok_bind, htype, ha, hrec, numericBits, Value.numericBits, Value.type, readInt_append ha', hint n rfl]
      rfl
    | float w => cases htype'.trans hb
    | str t => cases htype'.trans hb

/-- `IndexScanExecutor::compare` of two numbers. -/
theorem compare_int (x y : Bytes) (len : Nat) : Rmdb.Condition.compare x y len .int = compareInt (readInt x) (readInt y) := by
  unfold Rmdb.Condition.compare compareInt
  rcases Int.lt_trichotomy (readInt x) (readInt y) with h | h | h
  · rw [if_neg (Int.ne_of_lt h), if_pos h, if_pos h]
  · rw [if_pos h, h, if_neg (Int.lt_irrefl _), if_neg (Int.lt_irrefl _)]
  · rw [if_neg (Int.ne_of_gt h), if_neg (Int.not_lt.mpr (Int.le_of_lt h)), if_neg (Int.not_lt.mpr (Int.le_of_lt h)), if_pos h]

theorem cmpCond_int (ha : a.type = .int) (ha' : a.bytes.length = 4) (hb : b.type = .int) (hb' : b.bytes.length = 4)
    (hl : ColHolds cols rec lhs a p) (hr : RhsHolds cols rec rhs b q) :
    cmpCond cols ⟨lhs, op, rhs⟩ rec = .ok (op.test (compareInt (readInt a.bytes) (readInt b.bytes))) := by
  obtain ⟨c, hc, htype, hlen, hrec⟩ := hl
  unfold cmpCond
  cases hr with
  | col h =>
    obtain ⟨d, hd, htype', hlen', hrec'⟩ := h
    simp only [hc, hd, ok_bind, htype, htype', ha, hb, hrec, hrec', compare_int, readInt_append ha', readInt_append hb', if_true]
  | val htype' hint =>
    simp only [hc, ok_bind, htype, htype', ha, hb, hrec, compare_int, readInt_append ha', if_true]

theorem doPredict_int (ha : a.type = .int) (ha' : a.bytes.length = 4) (hb : b.type = .int) (hb' : b.bytes.length = 4)
    (hl : ColHolds leftCols left lhs a p) (hr : ColHolds rightCols right rhs' b q) :
    doPredictCond leftCols rightCols left right ⟨lhs, op, .col rhs'⟩ =
      .ok (op.test (compareInt (readInt a.bytes) (readInt b.bytes))) := by
  obtain ⟨m, hm, htype, hlen, hrec⟩ := hl.mini
  obtain ⟨m', hm', htype', -, hrec'⟩ := hr.mini
  simp only [doPredictCond, hm, hm', htype, htype', ha, hb, hrec, hrec', fliterCompare, readInt_append ha', readInt_append hb']

/-- What has to hold of two operands: numbers are not the same float, strings do not end with their cells where the other goes on
    or the memory behind them does no harm, or the operator does not care. -/
def TypedCell.Fits (op : CompOp) (a b : TypedCell) (p q q' : Bytes) : Prop :=
  match a.type with
  | .string => CharsFit op a.bytes b.bytes p q q'
  | _ => floatBits (readInt a.bytes) = floatBits (readInt b.bytes) →
      op.test 0 = op.test (compareInt (readInt a.bytes) (readInt b.bytes))

/-- The three evaluators give the truth value of the comparison exactly if the operands fit. -/
theorem evaluators_agree_iff (ha : a.Fine) (hb : b.Fine) (htype : a.type = b.type) (hl : ColHolds cols rec lhs a p)
    (hr : RhsHolds cols rec rhs b q) (hl' : ColHolds leftCols left lhs' a p') (hr' : ColHolds rightCols right rhs' b q') (op : CompOp) :
    (evalCond cols ⟨lhs, op, rhs⟩ rec = .ok (op.test (a.sign b)) ∧ cmpCond cols ⟨lhs, op, rhs⟩ rec = .ok (op.test (a.sign b)) ∧
      doPredictCond leftCols rightCols left right ⟨lhs', op, .col rhs'⟩ = .ok (op.test (a.sign b))) ↔ a.Fits op b p q q' := by
  rcases ha with ⟨haType, haLen⟩ | ⟨haType, haPadded⟩
  · rcases hb with ⟨hbType, hbLen⟩ | ⟨hbType, -⟩
    · rw [evalCond_int haType haLen hbType hbLen hl hr, cmpCond_int haType haLen hbType hbLen hl hr,
        doPredict_int haType haLen hbType hbLen hl' hr', TypedCell.sign, TypedCell.Fits, haType]
      simp only [Except.ok.injEq, and_true]
      exact floatTest_ints (readInt_inInt _) (readInt_inInt _) op
    · cases haType.symm.trans (htype.trans hbType)
  · rcases hb with ⟨hbType, -⟩ | ⟨hbType, hbPadded⟩
    · cases haType.symm.trans (htype.trans hbType)
    · rw [evalCond_string haType hbType hl hr, cmpCond_string haType hbType hl hr, doPredict_string haType hl' hr', TypedCell.sign,
        TypedCell.Fits, haType]
      simp only [Except.ok.injEq]
      exact charsFit_iff haPadded hbPadded op p p' q q'

end Evaluate

/-! ### Two numbers -/

/-- A number as an operand. -/
def intCell (n : Int) : TypedCell := ⟨.int, putInt n⟩

/-- The INT column `x` of a table. -/
def xCol (tab : String) : Catalog.ColMeta := ⟨tab, "x", .int, 4, 0, false⟩

theorem intCell_holds (tab : String) (n : Int) : ColHolds [xCol tab] (putInt n) ⟨tab, "x"⟩ (intCell n) [] :=
  ⟨xCol tab, by simp [getCol, xCol], rfl, rfl, (List.append_nil _).symm⟩

theorem intCell_rhs (n : Int) (h : readInt (putInt n) = n) : RhsHolds [xCol "a"] (putInt 1) (.val (.int n) (putInt n)) (intCell n) [] :=
  @RhsHolds.val _ _ (.int n) (intCell n) rfl fun m hm => (by cases hm; exact h)

theorem evaluators_agree_iff_two :
    (evalCond [xCol "a"] ⟨⟨"a", "x"⟩, .lt, .val (.int 2) (putInt 2)⟩ (putInt 1) = .ok (CompOp.lt.test ((intCell 1).sign (intCell 2))) ∧
      cmpCond [xCol "a"] ⟨⟨"a", "x"⟩, .lt, .val (.int 2) (putInt 2)⟩ (putInt 1) = .ok (CompOp.lt.test ((intCell 1).sign (intCell 2))) ∧
      doPredictCond [xCol "a"] [xCol "b"] (putInt 1) (putInt 2) ⟨⟨"a", "x"⟩, .lt, .col ⟨"b", "x"⟩⟩ =
        .ok (CompOp.lt.test ((intCell 1).sign (intCell 2)))) ↔ (intCell 1).Fits .lt (intCell 2) [] [] [] :=
  @evaluators_agree_iff [xCol "a"] [xCol "a"] [xCol "b"] (putInt 1) (putInt 1) (putInt 2) [] [] [] [] ⟨"a", "x"⟩ ⟨"a", "x"⟩ ⟨"b", "x"⟩
    (.val (.int 2) (putInt 2)) (intCell 1) (intCell 2) (Or.inl ⟨rfl, rfl⟩) (Or.inl ⟨rfl, rfl⟩) rfl (intCell_holds "a" 1)
    (intCell_rhs 2 rfl) (intCell_holds "a" 1) (intCell_holds "b" 2) .lt

/-- 16777216 and 16777217 are the same float: they are equal to the scan, and to no other evaluator. -/
theorem not_evaluators_agree : floatBits 16777216 = floatBits 16777217 ∧ (intCell 16777216).sign (intCell 16777217) = -1 ∧
    evalCond [xCol "a"] ⟨⟨"a", "x"⟩, .eq, .val (.int 16777217) (putInt 16777217)⟩ (putInt 16777216) = .ok true ∧
    cmpCond [xCol "a"] ⟨⟨"a", "x"⟩, .eq, .val (.int 16777217) (putInt 16777217)⟩ (putInt 16777216) = .ok false ∧
    doPredictCond [xCol "a"] [xCol "b"] (putInt 16777216) (putInt 16777217) ⟨⟨"a", "x"⟩, .eq, .col ⟨"b", "x"⟩⟩ = .ok false := by
  decide

end Rmdb.Sql
