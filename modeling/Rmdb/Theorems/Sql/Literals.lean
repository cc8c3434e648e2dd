import Rmdb.Theorems.Sql.Evaluators
import Rmdb.Theorems.Sql.PushDown
import Mathlib.Tactic.IntervalCases

/-! Constants in conditions, which `check_clause` encodes for their columns and then converts to the types of the columns. -/

namespace Rmdb.Sql
open Outcomes

/-! ### What a condition says -/

/-- The value of a float in units of 2^-149; an infinity is beyond all numbers. -/
def floatUnits (w : Nat) : Int :=
  let exponent := floatMagnitude w / 0x800000
  let fraction := floatMagnitude w % 0x800000
  let m := if exponent = 0 then fraction else (0x800000 + fraction) <<< (exponent - 1)
  if w < 0x80000000 then m else -(m : Int)

/-- The number in these units, if it is one. -/
def Value.units : Value → Option Int
  | .int n => some (n * (1 <<< 149 : Nat))
  | .float w => if isNan w then none else some (floatUnits w)
  | .str _ => none

/-- The comparison of two numbers; a NaN is not equal to anything. -/
def unitsTest (op : CompOp) : Option Int → Option Int → Bool
  | some x, some y => op.test (compareInt x y)
  | _, _ => op = .ne

/-- A value of a column meets the comparison with a constant. -/
def Value.meets (op : CompOp) (cell lit : Value) : Bool :=
  match cell, lit with
  | .str a, .str b => op.test (orderSign (compare a b))
  | cell, lit => unitsTest op cell.units lit.units

/-- The value fits into its type. -/
def Value.InRange : Value → Prop
  | .int n => InInt n
  | .float w => w < 0x100000000
  | .str _ => True

/-- The condition with the constant `made` and these raw bytes holds of the same values of the column as the one with `written`,
    and the raw bytes are those of the constant. -/
def KeepsMeaning (type : ColType) (len : Nat) (op : CompOp) (written made : Value) (raw : Bytes) : Prop :=
  (∀ cell : Value, cell.type = type → cell.InRange → cell.meets op made = cell.meets op written) ∧ made.initRaw len = .ok raw

/-! ### Numbers that are their own bits -/

/-- The digits of a float with a factor are not its bits. -/
theorem digits_fixed {e d f : Nat} (hf : f < 0x800000) (hd : e = 151 ∧ d = 2 ∨ e = 152 ∧ d = 4 ∨ e = 153 ∧ d = 8 ∨
    e = 154 ∧ d = 16 ∨ e = 155 ∧ d = 32 ∨ e = 156 ∧ d = 64 ∨ e = 157 ∧ d = 128) :
    e * 0x800000 + f ≠ (f + 0x800000) * d ∧ e * 0x800000 + f + (f + 0x800000) * d ≠ 0x80000000 ∧
      0 < (f + 0x800000) * d ∧ (f + 0x800000) * d < 0x80000000 := by
  rcases hd with ⟨rfl, rfl⟩ | ⟨rfl, rfl⟩ | ⟨rfl, rfl⟩ | ⟨rfl, rfl⟩ | ⟨rfl, rfl⟩ | ⟨rfl, rfl⟩ | ⟨rfl, rfl⟩ <;> omega

theorem not_fixed {w mag n : Nat} (hw : w < 0x100000000) (hmag : w % 0x80000000 = mag)
    (hn : mag ≠ n ∧ mag + n ≠ 0x80000000 ∧ 0 < n ∧ n < 0x80000000)
    (h : ((if w < 0x80000000 then (n : Int) else -(n : Int)) % 0x100000000).toNat = w) : False := by
  by_cases hsign : w < 0x80000000
  · rw [if_pos hsign] at h
    omega
  · rw [if_neg hsign] at h
    omega

/-- No float but zero has the bits of the `int` that it is cut to. -/
theorem intOfFloat_fixed {w : Nat} (hw : w < 0x100000000) (h : (intOfFloat w % 0x100000000).toNat = w) : w = 0 := by
  obtain ⟨e, f, hmag, hf⟩ : ∃ e f, w % 0x80000000 = e * 0x800000 + f ∧ f < 0x800000 :=
    ⟨w % 0x80000000 / 0x800000, w % 0x80000000 % 0x800000, by omega, by omega⟩
  have he : w % 0x80000000 / 0x800000 = e := by omega
  have hfrac : w % 0x80000000 % 0x800000 = f := by omega
  simp only [intOfFloat, floatMagnitude, he, hfrac, intMin] at h
  by_cases hbig : 158 ≤ e
  · rw [if_pos hbig] at h
    omega
  rw [if_neg hbig] at h
  by_cases hsmall : e < 127
  · rw [if_pos hsmall] at h
    split at h <;> omega
  rw [if_neg hsmall] at h
  by_cases hcut : e ≤ 150
  · rw [if_pos hcut] at h
    have hle : (f + 0x800000) >>> (150 - e) ≤ f + 0x800000 := Nat.shiftRight_le ..
    generalize (f + 0x800000) >>> (150 - e) = n at h hle
    by_cases hsign : w < 0x80000000
    · rw [if_pos hsign] at h
      omega
    · rw [if_neg hsign] at h
      omega
  · rw [if_neg hcut, Nat.shiftLeft_eq] at h
    have hd : e = 151 ∧ 2 ^ (e - 150) = 2 ∨ e = 152 ∧ 2 ^ (e - 150) = 4 ∨ e = 153 ∧ 2 ^ (e - 150) = 8 ∨ e = 154 ∧ 2 ^ (e - 150) = 16 ∨
        e = 155 ∧ 2 ^ (e - 150) = 32 ∨ e = 156 ∧ 2 ^ (e - 150) = 64 ∨ e = 157 ∧ 2 ^ (e - 150) = 128 := by
      clear h hmag he
      interval_cases e <;> simp
    exact (not_fixed hw hmag (digits_fixed hf hd) h).elim

/-- A number is rounded by half a unit at most. -/
theorem roundEven_near (m : Nat) {ulp : Nat} (hulp : 0 < ulp) : ∃ r, roundEven m ulp = r * ulp ∧ (r = m / ulp ∨ r = m / ulp + 1) ∧
    2 * (r * ulp) ≤ 2 * m + ulp ∧ 2 * m ≤ 2 * (r * ulp) + ulp := by
  have hdiv := Nat.div_add_mod m ulp
  rw [Nat.mul_comm] at hdiv
  have hrest : m % ulp < ulp := Nat.mod_lt _ hulp
  unfold roundEven
  split
  · refine ⟨m / ulp + 1, rfl, Or.inr rfl, ?_, ?_⟩
    · rw [Nat.add_mul]
      omega
    · rw [Nat.add_mul]
      omega
  · refine ⟨m / ulp, rfl, Or.inl rfl, ?_, ?_⟩
    · omega
    · omega

/-- The bits of a great number, by its exponent and its rounded digits. -/
theorem floatBitsOfNat_digits {n : Nat} (h : 0x1000000 ≤ n) : ∃ r, 0x800000 ≤ r ∧ r ≤ 0x1000000 ∧
    floatBitsOfNat n = (n.log2 + 126) * 0x800000 + r ∧
    2 * (r * 2 ^ (n.log2 - 23)) ≤ 2 * n + 2 ^ (n.log2 - 23) ∧ 2 * n ≤ 2 * (r * 2 ^ (n.log2 - 23)) + 2 ^ (n.log2 - 23) := by
  have hlog : 24 ≤ n.log2 := (Nat.le_log2 (by omega)).mpr h
  have hsplit : 2 ^ n.log2 = 2 ^ 23 * 2 ^ (n.log2 - 23) := by rw [← Nat.pow_add]; congr 1; omega
  have hsplit' : 2 ^ (n.log2 + 1) = 2 ^ 24 * 2 ^ (n.log2 - 23) := by rw [← Nat.pow_add]; congr 1; omega
  obtain ⟨r, hround, -, hup, hdown⟩ := roundEven_near n (Nat.two_pow_pos (n.log2 - 23))
  have hfloat : floatOfNat n = r * 2 ^ (n.log2 - 23) := by
    rw [floatOfNat, if_neg (by omega), Nat.one_shiftLeft, hround]
  obtain ⟨hlow, hhigh⟩ := floatOfNat_bounds h
  rw [hfloat, hsplit] at hlow
  rw [hfloat, hsplit'] at hhigh
  have hlow := Nat.le_of_mul_le_mul_right hlow (Nat.two_pow_pos _)
  have hhigh := Nat.le_of_mul_le_mul_right hhigh (Nat.two_pow_pos _)
  refine ⟨r, hlow, hhigh, ?_, hup, hdown⟩
  have hbits := floatBitsOfNat_eq (n := n) (by omega)
  rw [hfloat] at hbits
  rcases Nat.lt_or_eq_of_le hhigh with hlt | heq
  · have hlog' : (r * 2 ^ (n.log2 - 23)).log2 = n.log2 := by
      refine (Nat.log2_eq_iff ?_).mpr ⟨?_, ?_⟩
      · exact Nat.ne_of_gt (Nat.mul_pos (by omega) (Nat.two_pow_pos _))
      · rw [hsplit]
        exact Nat.mul_le_mul_right _ hlow
      · rw [hsplit']
        exact Nat.mul_lt_mul_of_pos_right hlt (Nat.two_pow_pos _)
    have hdigits : floatDigits (r * 2 ^ (n.log2 - 23)) = r := by
      rw [floatDigits, hlog', if_neg (by omega), Nat.shiftRight_eq_div_pow, Nat.mul_div_cancel _ (Nat.two_pow_pos _)]
    rw [hlog', hdigits] at hbits
    omega
  · have hpow : r * 2 ^ (n.log2 - 23) = 2 ^ (n.log2 + 1) := by
      rw [heq, hsplit']
    have hdigits : floatDigits (2 ^ (n.log2 + 1)) = 0x800000 := by
      rw [floatDigits, Nat.log2_two_pow, if_neg (by omega), Nat.shiftRight_eq_div_pow,
        Nat.pow_div (by omega) (by decide)]
      have hexp : n.log2 + 1 - (n.log2 + 1 - 23) = 23 := by omega
      rw [hexp]
    rw [hpow, Nat.log2_two_pow, hdigits] at hbits
    omega

/-- The number whose float has its own bits, and the one whose bits it has with its sign. -/
theorem floatBitsOfNat_fixed {n : Nat} (hpos : n ≠ 0) (hle : n ≤ 0x80000000) :
    (floatBitsOfNat n = n → n = 1318926965) ∧ (floatBitsOfNat n + n = 0x80000000 → n = 834214802) := by
  rcases Nat.lt_or_ge n 0x1000000 with hsmall | hbig
  · have hlow : 0x3f800000 ≤ floatBitsOfNat n := @floatBitsOfNat_mono 1 n (by omega)
    have hhigh : floatBitsOfNat n ≤ 0x4b7fffff := @floatBitsOfNat_mono n 0xffffff (by omega)
    omega
  obtain ⟨r, hlow, hhigh, hbits, hup, hdown⟩ := floatBitsOfNat_digits hbig
  have hlog : 24 ≤ n.log2 := (Nat.le_log2 hpos).mpr hbig
  have hlog' : n.log2 < 32 := (Nat.log2_lt hpos).mpr (by omega)
  have hself : 2 ^ n.log2 ≤ n := Nat.log2_self_le hpos
  have hself' : n < 2 ^ (n.log2 + 1) := Nat.lt_log2_self
  rw [hbits]
  generalize n.log2 = l at *
  clear hbits
  interval_cases l <;> omega

/-- No `int` but these three has the bits of the float that it is rounded to. -/
theorem floatBits_fixed {n : Int} (hn : InInt n) (h : floatBits n = (n % 0x100000000).toNat) :
    n = 0 ∨ n = 1318926965 ∨ n = -834214802 := by
  unfold InInt at hn
  by_cases hzero : n = 0
  · exact Or.inl hzero
  obtain ⟨hpos, hneg⟩ := @floatBitsOfNat_fixed n.natAbs (by omega) (by omega)
  have hle := @floatBitsOfNat_le n.natAbs (by omega)
  unfold floatBits at h
  split at h
  · have := hneg (by omega)
    omega
  · have := hpos (by omega)
    omega

/-! ### Floats around these numbers -/

/-- The magnitude of a float in units of 2^-149. -/
def magnitudeUnits (exponent fraction : Nat) : Nat := if exponent = 0 then fraction else (0x800000 + fraction) <<< (exponent - 1)

theorem magnitudeUnits_bounds {e f k : Nat} (hf : f < 0x800000) (hk : 0 < k) :
    (e ≤ k → magnitudeUnits e f < 0x1000000 * 2 ^ (k - 1)) ∧ (k < e → 0x1000000 * 2 ^ (k - 1) ≤ magnitudeUnits e f) := by
  constructor
  · intro he
    have hpos : 0 < 2 ^ (k - 1) := Nat.two_pow_pos _
    unfold magnitudeUnits
    split
    · omega
    · have hpow : 2 ^ (e - 1) ≤ 2 ^ (k - 1) := Nat.pow_le_pow_right (by decide) (by omega)
      rw [Nat.shiftLeft_eq]
      calc (0x800000 + f) * 2 ^ (e - 1) ≤ (0x800000 + f) * 2 ^ (k - 1) := Nat.mul_le_mul_left _ hpow
        _ < 0x1000000 * 2 ^ (k - 1) := Nat.mul_lt_mul_of_pos_right (by omega) hpos
  · intro he
    have hpow : 2 ^ (k - 1) * 2 ≤ 2 ^ (e - 1) := by
      rw [← Nat.pow_succ]
      exact Nat.pow_le_pow_right (by decide) (by omega)
    rw [magnitudeUnits, if_neg (by omega), Nat.shiftLeft_eq]
    calc 0x1000000 * 2 ^ (k - 1) = 0x800000 * (2 ^ (k - 1) * 2) := by omega
      _ ≤ 0x800000 * 2 ^ (e - 1) := Nat.mul_le_mul_left _ hpow
      _ ≤ (0x800000 + f) * 2 ^ (e - 1) := Nat.mul_le_mul_right _ (Nat.le_add_right _ _)

theorem floatUnits_eq (w : Nat) : ∃ e f, f < 0x800000 ∧
    floatUnits w = if w < 0x80000000 then (magnitudeUnits e f : Int) else -(magnitudeUnits e f : Int) :=
  ⟨floatMagnitude w / 0x800000, floatMagnitude w % 0x800000, Nat.mod_lt _ (by decide), rfl⟩

theorem units_pow : ((1 <<< 149 : Nat) : Int) = 2 ^ 149 := rfl

theorem magnitudeUnits_normal {e : Nat} (f : Nat) (he : e ≠ 0) : magnitudeUnits e f = (0x800000 + f) * 2 ^ (e - 1) := by
  rw [magnitudeUnits, if_neg he, Nat.shiftLeft_eq]

/-- No float lies between 1318926965 and the float that it is rounded to. -/
theorem floatUnits_gap_pos (w : Nat) :
    floatUnits w < 1318926965 * (1 <<< 149 : Nat) ↔ floatUnits w < floatUnits (floatBits 1318926965) := by
  have hbits : floatUnits (floatBits 1318926965) = 1318926976 * (1 <<< 149 : Nat) := by decide
  obtain ⟨e, f, hf, hw⟩ := floatUnits_eq w
  rw [hbits, units_pow, hw]
  split
  · obtain ⟨hlow, -⟩ := @magnitudeUnits_bounds e f 156 hf (by decide)
    obtain ⟨-, hhigh⟩ := @magnitudeUnits_bounds e f 157 hf (by decide)
    by_cases he : e = 157
    · rw [he, magnitudeUnits_normal f (by decide)]
      omega
    · omega
  · omega

/-- No float lies between -834214802 and the float that it is rounded to. -/
theorem floatUnits_gap_neg (w : Nat) :
    floatUnits w < -834214802 * (1 <<< 149 : Nat) ↔ floatUnits w < floatUnits (floatBits (-834214802)) := by
  have hbits : floatUnits (floatBits (-834214802)) = -834214784 * (1 <<< 149 : Nat) := by decide
  obtain ⟨e, f, hf, hw⟩ := floatUnits_eq w
  rw [hbits, units_pow, hw]
  split
  · omega
  · obtain ⟨hlow, -⟩ := @magnitudeUnits_bounds e f 155 hf (by decide)
    obtain ⟨-, hhigh⟩ := @magnitudeUnits_bounds e f 156 hf (by decide)
    by_cases he : e = 156
    · rw [he, magnitudeUnits_normal f (by decide)]
      omega
    · omega

/-! ### Constants of another type -/

/-- The constant has the type of the column, or is zero, or one of two numbers whose bytes are those of their floats, with an
    operator that does not tell them from these. -/
def FitsColumn (type : ColType) (op : CompOp) (v : Value) : Prop :=
  type = v.type ∨ v = .float 0 ∨ v = .int 0 ∨ (v = .int 1318926965 ∨ v = .int (-834214802)) ∧ (op = .lt ∨ op = .ge)

section Convert
variable {op : CompOp} {n : Int} {w len : Nat}

theorem readWord_put {m : Nat} (h : m < 0x100000000) : readWord (putWord m) = m := by
  have := readWord_putWord h []
  rwa [List.append_nil] at this

theorem putWord_inj {m k : Nat} (hm : m < 0x100000000) (hk : k < 0x100000000) : putWord m = putWord k ↔ m = k := by
  refine ⟨fun h => ?_, congrArg _⟩
  rw [← readWord_put hm, h, readWord_put hk]

/-- A FLOAT constant of an INT column is encoded before it is cut. -/
theorem keeps_float (hw : w < 0x100000000) : KeepsMeaning .int 4 op (.float w) (.int (intOfFloat w)) (putWord w) ↔ w = 0 := by
  have hraw : Value.initRaw (.int (intOfFloat w)) 4 = .ok (putWord w) ↔ (intOfFloat w % 0x100000000).toNat = w := by
    rw [Value.initRaw, if_pos rfl, Except.ok.injEq, putInt, putWord_inj (by omega) hw]
  constructor
  · rintro ⟨-, h⟩
    exact intOfFloat_fixed hw (hraw.mp h)
  · rintro rfl
    refine ⟨fun cell hcell _ => ?_, rfl⟩
    cases cell with
    | int n => rfl
    | float u => cases hcell
    | str t => cases hcell

/-- An INT constant of a FLOAT column is encoded before it is rounded. -/
theorem raw_int (hn : InInt n) : Value.initRaw (.float (floatBits n)) 4 = .ok (putInt n) ↔
    n = 0 ∨ n = 1318926965 ∨ n = -834214802 := by
  have hlt : floatBits n < 0x100000000 := by
    have hle := @floatBitsOfNat_le n.natAbs (by unfold InInt at hn; omega)
    unfold floatBits
    split <;> omega
  rw [Value.initRaw, if_pos rfl, Except.ok.injEq, putInt, putWord_inj hlt (by omega)]
  refine ⟨floatBits_fixed hn, ?_⟩
  rintro (rfl | rfl | rfl) <;> decide

theorem compareInt_lt {x y : Int} (op : CompOp) (hop : op = .lt ∨ op = .ge) {y' : Int} (h : x < y ↔ x < y') :
    op.test (compareInt x y) = op.test (compareInt x y') := by
  have htest : ∀ z : Int, (compareInt x z < 0 ↔ x < z) := fun z => by
    unfold compareInt
    split
    · omega
    · split <;> omega
  rcases hop with rfl | rfl
  · exact decide_eq_decide.mpr (by rw [htest, htest, h])
  · exact decide_eq_decide.mpr (by rw [← Int.not_lt, ← Int.not_lt, htest, htest, h])

theorem units_float {w : Nat} (h : isNan w = false) : Value.units (.float w) = some (floatUnits w) := by
  rw [Value.units, h, if_neg Bool.false_ne_true]

/-- Where no float lies between the number and its rounded one, `<` and `>=` do not tell them apart. -/
theorem meets_gap (hop : op = .lt ∨ op = .ge) (hnan : isNan (floatBits n) = false)
    (hgap : ∀ w, floatUnits w < n * (1 <<< 149 : Nat) ↔ floatUnits w < floatUnits (floatBits n)) (w : Nat) :
    (Value.float w).meets op (.float (floatBits n)) = (Value.float w).meets op (.int n) := by
  have htest : unitsTest op (Value.float w).units (some (floatUnits (floatBits n))) =
      unitsTest op (Value.float w).units (some (n * (1 <<< 149 : Nat))) := by
    cases hw : (Value.float w).units with
    | none => rfl
    | some x =>
      have hx : x = floatUnits w := by
        rw [Value.units] at hw
        by_cases hw' : isNan w = true
        · rw [if_pos hw'] at hw
          cases hw
        · rw [if_neg hw'] at hw
          exact (Option.some.inj hw).symm
      rw [hx]
      exact (compareInt_lt op hop (hgap w)).symm
  rw [← units_float hnan] at htest
  exact htest

/-- The float itself tells them apart by any other operator. -/
theorem meets_self (hop : ¬(op = .lt ∨ op = .ge)) (hnan : isNan (floatBits n) = false) (hlt : n * (1 <<< 149 : Nat) < floatUnits (floatBits n)) :
    (Value.float (floatBits n)).meets op (.float (floatBits n)) ≠ (Value.float (floatBits n)).meets op (.int n) := by
  have htest : op.test 0 ≠ op.test 1 := by
    cases op <;> simp [CompOp.test] at hop ⊢
  have hsame : (Value.float (floatBits n)).meets op (.float (floatBits n)) = op.test 0 := by
    have : unitsTest op (some (floatUnits (floatBits n))) (some (floatUnits (floatBits n))) = op.test 0 := by
      rw [unitsTest, compareInt_self]
    rw [← units_float hnan] at this
    exact this
  have hless : (Value.float (floatBits n)).meets op (.int n) = op.test 1 := by
    have : unitsTest op (some (floatUnits (floatBits n))) (some (n * (1 <<< 149 : Nat))) = op.test 1 := by
      rw [unitsTest, compareInt, if_neg (by omega), if_pos hlt]
    rw [← units_float hnan] at this
    exact this
  rw [hsame, hless]
  exact htest

theorem keeps_int (hn : InInt n) : KeepsMeaning .float 4 op (.int n) (.float (floatBits n)) (putInt n) ↔
    n = 0 ∨ (n = 1318926965 ∨ n = -834214802) ∧ (op = .lt ∨ op = .ge) := by
  have hfloat : ∀ cell : Value, cell.type = .float → ∃ w, cell = .float w := by
    intro cell hcell
    cases cell with
    | int n => cases hcell
    | float w => exact ⟨w, rfl⟩
    | str t => cases hcell
  constructor
  · rintro ⟨hmeets, hraw⟩
    have hself : (n = 1318926965 ∨ n = -834214802) → op = .lt ∨ op = .ge := by
      intro h
      by_contra hop
      have hless : n * (1 <<< 149 : Nat) < floatUnits (floatBits n) := by rcases h with rfl | rfl <;> decide
      have hcell : floatBits n < 0x100000000 := by rcases h with rfl | rfl <;> decide
      exact meets_self hop (floatValue_floatBits hn).1 hless (hmeets _ rfl hcell)
    rcases (raw_int hn).mp hraw with h | h
    · exact Or.inl h
    · exact Or.inr ⟨h, hself h⟩
  · intro h
    refine ⟨fun cell hcell _ => ?_, (raw_int hn).mpr (h.imp_right And.left)⟩
    obtain ⟨w, rfl⟩ := hfloat cell hcell
    rcases h with rfl | ⟨rfl | rfl, hop⟩
    · rfl
    · exact meets_gap hop (by decide) floatUnits_gap_pos w
    · exact meets_gap hop (by decide) floatUnits_gap_neg w

end Convert

/-- The condition that `check_clause` makes of a comparison with a constant keeps its meaning, and its raw bytes are those of its
    constant, exactly if the constant fits the column. -/
theorem checkClause_keeps_iff {cat : Catalog.DbMeta} {allCols : List Catalog.ColMeta} {target : TabCol} {op : CompOp} {v : Value}
    {raw : Bytes} {c : Condition} (hv : v.InRange) (h : checkClause cat allCols ⟨target, op, .val v raw⟩ = .ok c) :
    ∃ lhs tab col made raw', getTable cat lhs.tabName = .ok tab ∧ getTabCol tab lhs.colName = .ok col ∧
      c = ⟨lhs, op, .val made raw'⟩ ∧ (KeepsMeaning col.type col.len op v made raw' ↔ FitsColumn col.type op v) := by
  obtain ⟨lhs, tab, col, raw', -, htab, hcol, hraw, htype, rfl⟩ := checkClause_val h
  refine ⟨lhs, tab, col, _, raw', htab, hcol, rfl, ?_⟩
  by_cases hsame : col.type = v.type
  · have hcast : castValue col.type v = v := by
      rw [hsame]
      cases v <;> rfl
    rw [hcast]
    exact iff_of_true ⟨fun _ _ _ => rfl, hraw⟩ (Or.inl hsame)
  have hnumeric := htype.resolve_left hsame
  cases v with
  | str t => cases hnumeric.2
  | float w =>
    have hint : col.type = .int := by
      cases hct : col.type with
      | int => rfl
      | float => exact absurd hct hsame
      | string => rw [hct] at hnumeric; cases hnumeric.1
    rw [Value.initRaw] at hraw
    split at hraw
    · next hlen =>
      cases hraw
      rw [hint, hlen, castValue, keeps_float hv, FitsColumn]
      simp [Value.type]
    · cases hraw
  | int n =>
    have hfloat : col.type = .float := by
      cases hct : col.type with
      | int => exact absurd hct hsame
      | float => rfl
      | string => rw [hct] at hnumeric; cases hnumeric.1
    rw [Value.initRaw] at hraw
    split at hraw
    · next hlen =>
      cases hraw
      rw [hfloat, hlen, castValue, keeps_int hv, FitsColumn]
      simp [Value.type]
    · cases hraw

theorem checkClause_keeps_iff_zero : ∃ lhs tab col made raw', getTable (threeTables [] [] []).catalog lhs.tabName = .ok tab ∧
    getTabCol tab lhs.colName = .ok col ∧ (⟨⟨"a", "x"⟩, .lt, .val (.int 0) (putWord 0)⟩ : Condition) = ⟨lhs, .lt, .val made raw'⟩ ∧
      (KeepsMeaning col.type col.len .lt (.float 0) made raw' ↔ FitsColumn col.type .lt (.float 0)) :=
  @checkClause_keeps_iff (threeTables [] [] []).catalog [xCol "a"] ⟨"", "x"⟩ .lt (.float 0) [] _
    (show 0 < 0x100000000 by decide) (by decide)

/-- `x < 1.5` becomes `x < 1`, which does not hold of 1, with the bytes of 1.5. -/
theorem not_checkClause_keeps :
    checkClause (threeTables [] [] []).catalog [xCol "a"] ⟨⟨"", "x"⟩, .lt, .val (.float 0x3FC00000) []⟩ =
      .ok ⟨⟨"a", "x"⟩, .lt, .val (.int 1) (putWord 0x3FC00000)⟩ ∧
    (Value.int 1).meets .lt (.float 0x3FC00000) = true ∧ (Value.int 1).meets .lt (.int 1) = false ∧
    (Value.int 1).initRaw 4 ≠ .ok (putWord 0x3FC00000) := by
  decide

end Rmdb.Sql
