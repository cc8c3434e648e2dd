import Rmdb.Exec.Scan
import Rmdb.Theorems.Exec.Cond
import Mathlib.Data.List.Nodup
import Mathlib.Data.List.TakeWhile

/-! The range of keys that an index scan reads. Column by column its ends are the constants of the conditions that
decide them, and on the leading columns with an `=` they are the same. -/

namespace Rmdb

/-! ### Keys column by column -/

theorem length_colVals {a b : Bytes} {c : IxCol} (ha : c.len ≤ a.length) (hb : c.len ≤ b.length) :
    (colVals a c).length = (colVals b c).length := by
  obtain ⟨type, len, fixed⟩ := c
  cases type with
  | int => simp only [colVals, List.length_singleton]
  | float => simp only [colVals, List.length_singleton]
  | string => simp [colVals, ha, hb]

theorem keyVals_cons {c : IxCol} {a : Bytes} (h : a.length = c.len) (cs : List IxCol) (b : Bytes) :
    keyVals (c :: cs) (a ++ b) = colVals a c ++ keyVals cs b := by
  rw [keyVals, colVals_append h, ← h, List.drop_left]

theorem keyVals_cons_le_iff {c : IxCol} {a b : Bytes} (ha : a.length = c.len) (hb : b.length = c.len) (cs : List IxCol)
    (a' b' : Bytes) : keyVals (c :: cs) (a ++ a') ≤ keyVals (c :: cs) (b ++ b') ↔
      colVals a c ≤ colVals b c ∧ (colVals a c = colVals b c → keyVals cs a' ≤ keyVals cs b') := by
  rw [keyVals_cons ha, keyVals_cons hb, ← not_lt, append_lt_append_iff (length_colVals hb.ge ha.ge), not_or, not_and, not_lt,
    not_lt, eq_comm]

@[simp] theorem singleton_lt_iff {a b : Int} : [a] < [b] ↔ a < b := by simp [List.cons_lt_cons_iff]

@[simp] theorem singleton_le_iff {a b : Int} : [a] ≤ [b] ↔ a ≤ b := by rw [← not_lt, singleton_lt_iff, not_lt]

/-! ### The ends of the values of a column -/

theorem readInt_writeInt {n : Int} (hmin : intMin ≤ n) (hmax : n ≤ intMax) : readInt (writeInt n) = n := by
  simp only [intMin, intMax] at hmin hmax
  simp only [readInt, writeInt, readWord, toSigned, UInt8.toNat_ofNat']
  split <;> omega

theorem readInt_range (a : Bytes) : intMin ≤ readInt a ∧ readInt a ≤ intMax := by
  have hword : readWord a < 0x100000000 := by
    rcases a with _ | ⟨x, _ | ⟨y, _ | ⟨z, _ | ⟨w, a⟩⟩⟩⟩ <;> simp only [readWord] <;> try omega
    have := x.toNat_lt
    have := y.toNat_lt
    have := z.toNat_lt
    have := w.toNat_lt
    omega
  simp only [intMin, intMax, readInt, toSigned]
  split <;> omega

theorem replicate_zero_le (a : Bytes) : (List.replicate a.length (0 : UInt8)).map (fun x => (x.toNat : Int)) ≤
    a.map fun x => (x.toNat : Int) := by
  induction a with
  | nil => simp
  | cons x a ih =>
    simp only [List.length_cons, List.replicate_succ, List.map_cons]
    rw [← not_lt, List.cons_lt_cons_iff, not_or, not_and, not_lt, not_lt]
    exact ⟨by simp, fun _ => ih⟩

theorem le_replicate_max (a : Bytes) : a.map (fun x => (x.toNat : Int)) ≤
    (List.replicate a.length (0xff : UInt8)).map fun x => (x.toNat : Int) := by
  induction a with
  | nil => simp
  | cons x a ih =>
    simp only [List.length_cons, List.replicate_succ, List.map_cons]
    rw [← not_lt, List.cons_lt_cons_iff, not_or, not_and, not_lt, not_lt]
    refine ⟨?_, fun _ => ih⟩
    have := x.toNat_lt
    simp
    omega

namespace ColMeta
variable {c : ColMeta}

theorem length_allMin (c : ColMeta) : c.allMin.length = c.len := by
  unfold allMin
  cases htype : c.type with
  | int => rw [c.fixed (by simp [htype])]; rfl
  | float => rw [c.fixed (by simp [htype])]; rfl
  | string => simp

theorem isCell_allMin (c : ColMeta) : IsCell c c.allMin := by
  refine ⟨c.length_allMin, fun htype x hx => ?_⟩
  have hmem := (List.dropWhile_sublist _).mem hx
  rw [allMin, htype] at hmem
  exact List.eq_of_mem_replicate hmem

theorem length_allMax (c : ColMeta) : c.allMax.length = c.len := by
  unfold allMax
  cases htype : c.type with
  | int => rw [c.fixed (by simp [htype])]; rfl
  | float => rw [c.fixed (by simp [htype])]; rfl
  | string => simp

theorem allMin_le (hint : c.type ≠ .float) {a : Bytes} (ha : a.length = c.len) : colVals c.allMin c.ixCol ≤ colVals a c.ixCol := by
  simp only [colVals, ixCol_type, ixCol_len, allMin]
  cases htype : c.type with
  | int =>
    simp only [singleton_le_iff]
    rw [readInt_writeInt (by decide) (by decide)]
    exact (readInt_range a).1
  | float => exact absurd htype hint
  | string =>
    simp only
    rw [← ha, List.take_length, List.take_of_length_le (by simp)]
    exact replicate_zero_le a

theorem le_allMax (hint : c.type ≠ .float) {a : Bytes} (ha : a.length = c.len) : colVals a c.ixCol ≤ colVals c.allMax c.ixCol := by
  simp only [colVals, ixCol_type, ixCol_len, allMax]
  cases htype : c.type with
  | int =>
    simp only [singleton_le_iff]
    rw [readInt_writeInt (by decide) (by decide)]
    exact (readInt_range a).2
  | float => exact absurd htype hint
  | string =>
    simp only
    rw [← ha, List.take_length, List.take_of_length_le (by simp)]
    exact le_replicate_max a

end ColMeta

/-! ### The conditions that decide a bound -/

section Deciding
variable {tab : TabMeta} (conds : List (Condition tab)) (c : ColMeta)

/-- The last condition on a column with `=`, else the last one with `op`, else the last one with `op'`. -/
def boundCond (op op' : CompOp) : Option (Condition tab) :=
  (lastCond conds c .eq).or ((lastCond conds c op).or (lastCond conds c op'))

/-- The condition that decides the lower bound of a column. -/
def lowerCond : Option (Condition tab) := boundCond conds c .ge .gt

/-- The condition that decides the upper bound of a column. -/
def upperCond : Option (Condition tab) := boundCond conds c .le .lt

/-- The conditions that decide the bounds of a column. -/
def deciding : List (Condition tab) := (lowerCond conds c).toList ++ (upperCond conds c).toList

variable {conds c} {d : Condition tab} {op op' : CompOp}

theorem lastCond_some (h : lastCond conds c op = some d) : d ∈ conds ∧ d.lhsCol.name = c.name ∧ d.op = op := by
  have := List.mem_of_getLast? h
  rw [condsWith, List.mem_filter, decide_eq_true_eq] at this
  exact this

theorem lastCond_eq_none : lastCond conds c op = none ↔ ∀ d ∈ conds, d.lhsCol.name = c.name → d.op ≠ op := by
  simp [lastCond, condsWith]

theorem boundCond_some (h : boundCond conds c op op' = some d) : d ∈ conds ∧ d.lhsCol.name = c.name ∧
    (lastCond conds c .eq = some d ∨ lastCond conds c .eq = none ∧ (d.op = op ∨ d.op = op')) := by
  unfold boundCond at h
  rcases Option.or_eq_some_iff.mp h with h | ⟨heq, h⟩
  · obtain ⟨hmem, hcol, -⟩ := lastCond_some h
    exact ⟨hmem, hcol, Or.inl h⟩
  · rcases Option.or_eq_some_iff.mp h with h | ⟨-, h⟩
    · obtain ⟨hmem, hcol, hop⟩ := lastCond_some h
      exact ⟨hmem, hcol, Or.inr ⟨heq, Or.inl hop⟩⟩
    · obtain ⟨hmem, hcol, hop⟩ := lastCond_some h
      exact ⟨hmem, hcol, Or.inr ⟨heq, Or.inr hop⟩⟩

theorem boundCond_eq (h : lastCond conds c .eq = some d) : boundCond conds c op op' = some d := by
  rw [boundCond, h, Option.some_or]

/-- The bytes that a condition puts into the lower bound. -/
def lowerBytes (c : ColMeta) (d : Condition tab) : Bytes := if d.op = .gt then aboveBytes c d else boundBytes c d

/-- The bytes that a condition puts into the upper bound. -/
def upperBytes (c : ColMeta) (d : Condition tab) : Bytes := if d.op = .lt then belowBytes c d else boundBytes c d

theorem lowerCell_eq : lowerCell conds c = (lowerCond conds c).map (lowerBytes c) := by
  unfold lowerCell lowerCond boundCond
  split
  · rename_i d heq
    simp [heq, lowerBytes, (lastCond_some heq).2.2]
  · rename_i d heq hge
    simp [heq, hge, lowerBytes, (lastCond_some hge).2.2]
  · rename_i d heq hge hgt
    simp [heq, hge, hgt, lowerBytes, (lastCond_some hgt).2.2]
  · rename_i heq hge hgt
    simp [heq, hge, hgt]

theorem upperCell_eq : upperCell conds c = (upperCond conds c).map (upperBytes c) := by
  unfold upperCell upperCond boundCond
  split
  · rename_i d heq
    simp [heq, upperBytes, (lastCond_some heq).2.2]
  · rename_i d heq hle
    simp [heq, hle, upperBytes, (lastCond_some hle).2.2]
  · rename_i d heq hle hlt
    simp [heq, hle, hlt, upperBytes, (lastCond_some hlt).2.2]
  · rename_i heq hle hlt
    simp [heq, hle, hlt]

end Deciding

section Bytes
variable {tab : TabMeta} (d : Condition tab) {x : Bytes}

/-- The constant has no NUL byte, so that it fills a CHAR column. -/
def Condition.Filled : Prop := d.lhsCol.type = .string → 0 ∉ d.rhsVal.raw

instance : Decidable d.Filled := inferInstanceAs (Decidable (_ → _))

theorem length_boundBytes : (boundBytes d.lhsCol d).length = d.lhsCol.len := by
  unfold boundBytes copyStringKey
  split
  · have hle := (List.takeWhile_sublist (· ≠ (0 : UInt8)) (l := d.rhsVal.raw.take d.lhsCol.len)).length_le
    rw [List.length_take] at hle
    rw [List.length_append, List.length_replicate]
    omega
  · rw [List.length_take, d.raw.1, Nat.min_self]

theorem length_writeInt (n : Int) : (writeInt n).length = 4 := rfl

theorem length_lowerBytes : (lowerBytes d.lhsCol d).length = d.lhsCol.len := by
  unfold lowerBytes aboveBytes
  split
  · split
    · rename_i htype
      rw [length_writeInt, d.lhsCol.fixed (by simp [htype])]
    · exact length_boundBytes d
  · exact length_boundBytes d

theorem length_upperBytes : (upperBytes d.lhsCol d).length = d.lhsCol.len := by
  unfold upperBytes belowBytes
  split
  · split
    · rename_i htype
      rw [length_writeInt, d.lhsCol.fixed (by simp [htype])]
    · exact length_boundBytes d
  · exact length_boundBytes d

theorem boundBytes_eq (hfill : d.Filled) : boundBytes d.lhsCol d = d.rhsVal.raw := by
  unfold boundBytes copyStringKey
  have htake : d.rhsVal.raw.take d.lhsCol.len = d.rhsVal.raw := by rw [← d.raw.1, List.take_length]
  rw [htake]
  split
  · rename_i htype
    have hstr : d.rhsVal.raw.takeWhile (· ≠ 0) = d.rhsVal.raw := by
      rw [List.takeWhile_eq_self_iff]
      intro y hy
      rw [decide_eq_true_eq]
      rintro rfl
      exact hfill htype hy
    simp only [hstr, d.raw.1, Nat.sub_self, List.replicate_zero, List.append_nil]
  · rfl

variable (hex : d.Exact) (hfill : d.Filled)
include hex hfill

/-- The lower bound of `>` is the constant itself for a CHAR and the next number for an INT. -/
theorem lowerBytes_le : (colVals (lowerBytes d.lhsCol d) d.lhsCol.ixCol ≤ colVals x d.lhsCol.ixCol) ↔
    if d.lhsCol.type = .int ∧ d.op = .gt then colVals d.rhsVal.raw d.lhsCol.ixCol < colVals x d.lhsCol.ixCol
    else colVals d.rhsVal.raw d.lhsCol.ixCol ≤ colVals x d.lhsCol.ixCol := by
  split
  · rename_i h
    obtain ⟨htype, hop⟩ := h
    obtain ⟨hraw, hsmall⟩ := hex htype
    have hmax : readInt d.rhsVal.raw < intMax := by rw [hraw, intMax]; omega
    have hmin := (readInt_range d.rhsVal.raw).1
    have hbytes : lowerBytes d.lhsCol d = writeInt (readInt d.rhsVal.raw + 1) := by
      rw [lowerBytes, if_pos hop, aboveBytes, if_pos htype]
      exact congrArg writeInt (if_pos hmax)
    simp only [hbytes, colVals, ColMeta.ixCol_type, htype, singleton_le_iff, singleton_lt_iff]
    rw [readInt_writeInt (by omega) (by omega)]
    omega
  · rename_i h
    have hbytes : lowerBytes d.lhsCol d = boundBytes d.lhsCol d := by
      unfold lowerBytes aboveBytes
      split
      · rename_i hop
        rw [if_neg fun htype => h ⟨htype, hop⟩]
      · rfl
    rw [hbytes, boundBytes_eq d hfill]

theorem le_upperBytes : (colVals x d.lhsCol.ixCol ≤ colVals (upperBytes d.lhsCol d) d.lhsCol.ixCol) ↔
    if d.lhsCol.type = .int ∧ d.op = .lt then colVals x d.lhsCol.ixCol < colVals d.rhsVal.raw d.lhsCol.ixCol
    else colVals x d.lhsCol.ixCol ≤ colVals d.rhsVal.raw d.lhsCol.ixCol := by
  split
  · rename_i h
    obtain ⟨htype, hop⟩ := h
    obtain ⟨hraw, hsmall⟩ := hex htype
    have hmin : intMin < readInt d.rhsVal.raw := by rw [hraw, intMin]; omega
    have hmax := (readInt_range d.rhsVal.raw).2
    have hbytes : upperBytes d.lhsCol d = writeInt (readInt d.rhsVal.raw - 1) := by
      rw [upperBytes, if_pos hop, belowBytes, if_pos htype]
      exact congrArg writeInt (if_pos hmin)
    simp only [hbytes, colVals, ColMeta.ixCol_type, htype, singleton_le_iff, singleton_lt_iff]
    rw [readInt_writeInt (by omega) (by omega)]
    omega
  · rename_i h
    have hbytes : upperBytes d.lhsCol d = boundBytes d.lhsCol d := by
      unfold upperBytes belowBytes
      split
      · rename_i hop
        rw [if_neg fun htype => h ⟨htype, hop⟩]
      · rfl
    rw [hbytes, boundBytes_eq d hfill]

variable (hx : IsCell d.lhsCol x) (hint : d.lhsCol.type ≠ .float)
include hx hint

omit hfill in
theorem Condition.eval_cell : d.evalAt x = true ↔ d.op.Rel (colVals x d.lhsCol.ixCol) (colVals d.rhsVal.raw d.lhsCol.ixCol) :=
  d.evalAt_iff (by rw [← hx.1, List.take_length]; exact hx) hint hex

theorem lowerBytes_le_of_eval (hop : d.op = .eq ∨ d.op = .ge ∨ d.op = .gt) (h : d.evalAt x = true) :
    colVals (lowerBytes d.lhsCol d) d.lhsCol.ixCol ≤ colVals x d.lhsCol.ixCol := by
  rw [d.eval_cell hex hx hint] at h
  rw [lowerBytes_le d hex hfill]
  rcases hop with hop | hop | hop <;> rw [hop] at h ⊢ <;> simp only [CompOp.Rel] at h
  · rw [if_neg (by simp), h]
  · rw [if_neg (by simp)]
    exact h
  · split
    · exact h
    · exact h.le

theorem le_upperBytes_of_eval (hop : d.op = .eq ∨ d.op = .le ∨ d.op = .lt) (h : d.evalAt x = true) :
    colVals x d.lhsCol.ixCol ≤ colVals (upperBytes d.lhsCol d) d.lhsCol.ixCol := by
  rw [d.eval_cell hex hx hint] at h
  rw [le_upperBytes d hex hfill]
  rcases hop with hop | hop | hop <;> rw [hop] at h ⊢ <;> simp only [CompOp.Rel] at h
  · rw [if_neg (by simp), h]
  · rw [if_neg (by simp)]
    exact h
  · split
    · exact h
    · exact h.le

end Bytes

/-! ### The bounds of a column -/

theorem TabMeta.col_unique {tab : TabMeta} {c c' : ColMeta} (hc : c ∈ tab.cols) (hc' : c' ∈ tab.cols) (h : c.name = c'.name) :
    c = c' := List.inj_on_of_nodup_map tab.distinct hc hc' h

section Column
variable {tab : TabMeta} {conds : List (Condition tab)} {c : ColMeta} {x : Bytes}

/-- The bytes of a column in the lower end of the range, up to the first column without bounds. -/
def lowerOf (conds : List (Condition tab)) (c : ColMeta) : Bytes := (lowerCell conds c).getD c.allMin

/-- The bytes of a column in the upper end of the range. -/
def upperOf (conds : List (Condition tab)) (c : ColMeta) : Bytes := (upperCell conds c).getD c.allMax

theorem lowerCond_mem {d : Condition tab} (h : lowerCond conds c = some d) : d ∈ deciding conds c := by
  simp [deciding, h]

theorem upperCond_mem {d : Condition tab} (h : upperCond conds c = some d) : d ∈ deciding conds c := by
  simp [deciding, h]

theorem mem_deciding {d : Condition tab} (h : d ∈ deciding conds c) : d ∈ conds ∧ d.lhsCol.name = c.name := by
  rw [deciding, List.mem_append, Option.mem_toList, Option.mem_toList] at h
  rcases h with h | h
  · exact ⟨(boundCond_some h).1, (boundCond_some h).2.1⟩
  · exact ⟨(boundCond_some h).1, (boundCond_some h).2.1⟩

theorem deciding_eq_nil (h : ¬bounded conds c = true) : deciding conds c = [] := by
  rw [bounded, lowerCell_eq, upperCell_eq, Option.isSome_map, Option.isSome_map, Bool.or_eq_true, not_or,
    Option.not_isSome_iff_eq_none, Option.not_isSome_iff_eq_none] at h
  rw [deciding, h.1, h.2]
  rfl

theorem lowerOf_eq_upperOf {d : Condition tab} (h : lastCond conds c .eq = some d) :
    bounded conds c = true ∧ lowerOf conds c = upperOf conds c := by
  have hlow : lowerCell conds c = some (boundBytes c d) := by simp [lowerCell, h]
  have hup : upperCell conds c = some (boundBytes c d) := by simp [upperCell, h]
  exact ⟨by rw [bounded, hlow]; rfl, by rw [lowerOf, upperOf, hlow, hup]; rfl⟩

variable (hc : c ∈ tab.cols)
include hc

variable (conds) in
theorem lowerOf_cases : lowerCond conds c = none ∧ lowerOf conds c = c.allMin ∨
    ∃ d, lowerCond conds c = some d ∧ d.lhsCol = c ∧ lowerOf conds c = lowerBytes d.lhsCol d := by
  rw [lowerOf, lowerCell_eq]
  cases h : lowerCond conds c with
  | none => exact Or.inl ⟨rfl, rfl⟩
  | some d =>
    have hcol := TabMeta.col_unique d.mem hc (boundCond_some h).2.1
    exact Or.inr ⟨d, rfl, hcol, by rw [hcol]; rfl⟩

variable (conds) in
theorem upperOf_cases : upperCond conds c = none ∧ upperOf conds c = c.allMax ∨
    ∃ d, upperCond conds c = some d ∧ d.lhsCol = c ∧ upperOf conds c = upperBytes d.lhsCol d := by
  rw [upperOf, upperCell_eq]
  cases h : upperCond conds c with
  | none => exact Or.inl ⟨rfl, rfl⟩
  | some d =>
    have hcol := TabMeta.col_unique d.mem hc (boundCond_some h).2.1
    exact Or.inr ⟨d, rfl, hcol, by rw [hcol]; rfl⟩

theorem length_lowerOf : (lowerOf conds c).length = c.len := by
  rcases lowerOf_cases conds hc with ⟨-, h⟩ | ⟨d, -, rfl, h⟩
  · rw [h, c.length_allMin]
  · rw [h, length_lowerBytes]

theorem length_upperOf : (upperOf conds c).length = c.len := by
  rcases upperOf_cases conds hc with ⟨-, h⟩ | ⟨d, -, rfl, h⟩
  · rw [h, c.length_allMax]
  · rw [h, length_upperBytes]

variable (hint : c.type ≠ .float) (hex : ∀ d ∈ conds, d.Exact) (hfill : ∀ d ∈ deciding conds c, d.Filled) (hx : IsCell c x)
include hint hex hfill hx

/-- Values that meet the deciding conditions lie between the bounds. -/
theorem between_of_deciding (h : ∀ d ∈ deciding conds c, d.evalAt x = true) :
    colVals (lowerOf conds c) c.ixCol ≤ colVals x c.ixCol ∧ colVals x c.ixCol ≤ colVals (upperOf conds c) c.ixCol := by
  constructor
  · rcases lowerOf_cases conds hc with ⟨-, hlow⟩ | ⟨d, hd, rfl, hlow⟩
    · rw [hlow]
      exact ColMeta.allMin_le hint hx.1
    · rw [hlow]
      obtain ⟨hmem, -, hop⟩ := boundCond_some hd
      refine lowerBytes_le_of_eval d (hex d hmem) (hfill d (lowerCond_mem hd)) hx hint ?_ (h d (lowerCond_mem hd))
      exact hop.imp (fun heq => (lastCond_some heq).2.2) And.right
  · rcases upperOf_cases conds hc with ⟨-, hup⟩ | ⟨d, hd, rfl, hup⟩
    · rw [hup]
      exact ColMeta.le_allMax hint hx.1
    · rw [hup]
      obtain ⟨hmem, -, hop⟩ := boundCond_some hd
      refine le_upperBytes_of_eval d (hex d hmem) (hfill d (upperCond_mem hd)) hx hint ?_ (h d (upperCond_mem hd))
      exact hop.imp (fun heq => (lastCond_some heq).2.2) And.right

/-- Values between the bounds meet the deciding conditions, if no strict one is on a CHAR. -/
theorem deciding_of_between (hincl : c.type = .string → ∀ d ∈ deciding conds c, d.op ≠ .lt ∧ d.op ≠ .gt)
    (hlow : colVals (lowerOf conds c) c.ixCol ≤ colVals x c.ixCol) (hup : colVals x c.ixCol ≤ colVals (upperOf conds c) c.ixCol) :
    ∀ d ∈ deciding conds c, d.evalAt x = true := by
  intro d hd
  obtain ⟨hmem, hname⟩ := mem_deciding hd
  obtain rfl := TabMeta.col_unique d.mem hc hname
  have hlow' := fun (h : lowerCond conds d.lhsCol = some d) => (lowerBytes_le (x := x) d (hex d hmem) (hfill d hd)).mp (by
    rwa [lowerOf, lowerCell_eq, h] at hlow)
  have hup' := fun (h : upperCond conds d.lhsCol = some d) => (le_upperBytes (x := x) d (hex d hmem) (hfill d hd)).mp (by
    rwa [upperOf, upperCell_eq, h] at hup)
  rw [d.eval_cell (hex d hmem) hx hint]
  rw [deciding, List.mem_append, Option.mem_toList, Option.mem_toList] at hd
  rcases hd with hd | hd
  · rcases (boundCond_some hd).2.2 with heq | ⟨-, hop | hop⟩
    · have hlow := hlow' hd
      have hup := hup' (boundCond_eq heq)
      rw [(lastCond_some heq).2.2, if_neg (by simp)] at hlow hup
      rw [(lastCond_some heq).2.2]
      exact le_antisymm hup hlow
    · have hlow := hlow' hd
      rw [hop, if_neg (by simp)] at hlow
      rw [hop]
      exact hlow
    · have hlow := hlow' hd
      have hstr : d.lhsCol.type ≠ .string := fun h => (hincl h d (lowerCond_mem hd)).2 hop
      rw [if_pos ⟨by cases h : d.lhsCol.type <;> simp_all, hop⟩] at hlow
      rw [hop]
      exact hlow
  · rcases (boundCond_some hd).2.2 with heq | ⟨-, hop | hop⟩
    · have hlow := hlow' (boundCond_eq heq)
      have hup := hup' hd
      rw [(lastCond_some heq).2.2, if_neg (by simp)] at hlow hup
      rw [(lastCond_some heq).2.2]
      exact le_antisymm hup hlow
    · have hup := hup' hd
      rw [hop, if_neg (by simp)] at hup
      rw [hop]
      exact hup
    · have hup := hup' hd
      have hstr : d.lhsCol.type ≠ .string := fun h => (hincl h d (upperCond_mem hd)).1 hop
      rw [if_pos ⟨by cases h : d.lhsCol.type <;> simp_all, hop⟩] at hup
      rw [hop]
      exact hup

end Column

/-! ### The ends of the range -/

section Keys
variable {tab : TabMeta} {conds : List (Condition tab)} {cs : List ColMeta}

/-- The index columns that take part in the range: those before the first one without bounds. -/
def usedCols (conds : List (Condition tab)) (cs : List ColMeta) : List ColMeta := cs.takeWhile (bounded conds)

theorem keyVals_flatMap_le {a b : ColMeta → Bytes} (ha : ∀ c ∈ cs, (a c).length = c.len) (hb : ∀ c ∈ cs, (b c).length = c.len)
    (h : ∀ c ∈ cs, colVals (a c) c.ixCol ≤ colVals (b c) c.ixCol) :
    keyVals (cs.map (·.ixCol)) (cs.flatMap a) ≤ keyVals (cs.map (·.ixCol)) (cs.flatMap b) := by
  induction cs with
  | nil => exact le_rfl
  | cons c cs ih =>
    rw [List.forall_mem_cons] at ha hb h
    rw [List.map_cons, List.flatMap_cons, List.flatMap_cons, keyVals_cons_le_iff ha.1 hb.1]
    exact ⟨h.1, fun _ => ih ha.2 hb.2 h.2⟩

theorem length_flatMap_cells {a : ColMeta → Bytes} (ha : ∀ c ∈ cs, (a c).length = c.len) :
    (cs.flatMap a).length = colTotLen (cs.map (·.ixCol)) := by
  induction cs with
  | nil => rfl
  | cons c cs ih =>
    rw [List.forall_mem_cons] at ha
    rw [List.flatMap_cons, List.length_append, ha.1, ih ha.2]
    rfl

variable (hcs : ∀ c ∈ cs, c ∈ tab.cols)
include hcs

variable (conds) in
theorem length_lowerKey : (lowerKey conds cs).length = colTotLen (cs.map (·.ixCol)) := by
  induction cs with
  | nil => rfl
  | cons c cs ih =>
    rw [List.forall_mem_cons] at hcs
    unfold lowerKey
    split
    · rw [List.length_append, ih hcs.2]
      exact congrArg (· + _) (length_lowerOf hcs.1)
    · exact length_flatMap_cells fun c _ => c.length_allMin

variable (conds) in
theorem length_upperKey : (upperKey conds cs).length = colTotLen (cs.map (·.ixCol)) := by
  induction cs with
  | nil => rfl
  | cons c cs ih =>
    rw [List.forall_mem_cons] at hcs
    unfold upperKey
    split
    · rw [List.length_append, ih hcs.2]
      exact congrArg (· + _) (length_upperOf hcs.1)
    · exact length_flatMap_cells fun c _ => c.length_allMax

variable (hint : ∀ c ∈ cs, c.type ≠ .float)
include hint

/-- A key is in the range if its cells are between the bounds of the columns that have some. -/
theorem lowerKey_le {a : ColMeta → Bytes} (ha : ∀ c ∈ cs, (a c).length = c.len)
    (h : ∀ c ∈ usedCols conds cs, colVals (lowerOf conds c) c.ixCol ≤ colVals (a c) c.ixCol) :
    keyVals (cs.map (·.ixCol)) (lowerKey conds cs) ≤ keyVals (cs.map (·.ixCol)) (cs.flatMap a) := by
  induction cs with
  | nil => exact le_rfl
  | cons c cs ih =>
    unfold lowerKey
    split
    · rename_i hb
      rw [usedCols, List.takeWhile_cons_of_pos hb] at h
      rw [List.forall_mem_cons] at hcs hint ha h
      rw [List.map_cons, List.flatMap_cons, keyVals_cons_le_iff (length_lowerOf hcs.1) ha.1]
      exact ⟨h.1, fun _ => ih hcs.2 hint.2 ha.2 h.2⟩
    · exact keyVals_flatMap_le (fun c _ => c.length_allMin) ha fun c hc => ColMeta.allMin_le (hint c hc) (ha c hc)

theorem le_upperKey {a : ColMeta → Bytes} (ha : ∀ c ∈ cs, (a c).length = c.len)
    (h : ∀ c ∈ usedCols conds cs, colVals (a c) c.ixCol ≤ colVals (upperOf conds c) c.ixCol) :
    keyVals (cs.map (·.ixCol)) (cs.flatMap a) ≤ keyVals (cs.map (·.ixCol)) (upperKey conds cs) := by
  induction cs with
  | nil => exact le_rfl
  | cons c cs ih =>
    unfold upperKey
    split
    · rename_i hb
      rw [usedCols, List.takeWhile_cons_of_pos hb] at h
      rw [List.forall_mem_cons] at hcs hint ha h
      rw [List.map_cons, List.flatMap_cons, keyVals_cons_le_iff ha.1 (length_upperOf hcs.1)]
      exact ⟨h.1, fun _ => ih hcs.2 hint.2 ha.2 h.2⟩
    · exact keyVals_flatMap_le ha (fun c _ => c.length_allMax) fun c hc => ColMeta.le_allMax (hint c hc) (ha c hc)

/-- The cells of a key in the range meet the conditions that decide the bounds of the covered columns. -/
theorem deciding_of_range (hex : ∀ d ∈ conds, d.Exact) (hfill : ∀ c ∈ usedCols conds cs, ∀ d ∈ deciding conds c, d.Filled)
    (hincl : ∀ c ∈ coveredCols conds cs, c.type = .string → ∀ d ∈ deciding conds c, d.op ≠ .lt ∧ d.op ≠ .gt)
    {a : ColMeta → Bytes} (ha : ∀ c ∈ cs, IsCell c (a c))
    (hlow : keyVals (cs.map (·.ixCol)) (lowerKey conds cs) ≤ keyVals (cs.map (·.ixCol)) (cs.flatMap a))
    (hup : keyVals (cs.map (·.ixCol)) (cs.flatMap a) ≤ keyVals (cs.map (·.ixCol)) (upperKey conds cs)) :
    ∀ c ∈ coveredCols conds cs, ∀ d ∈ deciding conds c, d.evalAt (a c) = true := by
  induction cs with
  | nil => simp [coveredCols]
  | cons c cs ih =>
    rw [List.forall_mem_cons] at hcs hint ha
    -- the first column, whether it has bounds or not
    have hfirst : c ∈ coveredCols conds (c :: cs) → ∀ d ∈ deciding conds c, d.evalAt (a c) = true := by
      intro hcov
      by_cases hb : bounded conds c = true
      · rw [lowerKey, if_pos hb, List.map_cons, List.flatMap_cons, keyVals_cons_le_iff (length_lowerOf hcs.1) ha.1.1] at hlow
        rw [upperKey, if_pos hb, List.map_cons, List.flatMap_cons, keyVals_cons_le_iff ha.1.1 (length_upperOf hcs.1)] at hup
        refine deciding_of_between hcs.1 hint.1 hex (hfill c ?_) ha.1 (hincl c hcov) hlow.1 hup.1
        rw [usedCols, List.takeWhile_cons_of_pos hb]
        exact List.mem_cons_self
      · simp [deciding_eq_nil hb]
    by_cases heq : conds.any (fun d => d.lhsCol.name = c.name ∧ d.op = .eq) = true
    · obtain ⟨d, hd⟩ : ∃ d, lastCond conds c .eq = some d := by
        rw [← Option.ne_none_iff_exists', ne_eq, lastCond_eq_none]
        push Not
        simpa using heq
      obtain ⟨hb, hsame⟩ := lowerOf_eq_upperOf hd
      have hcov : coveredCols conds (c :: cs) = c :: coveredCols conds cs := by rw [coveredCols, if_pos heq]
      rw [hcov] at hincl hfirst ⊢
      rw [usedCols, List.takeWhile_cons_of_pos hb] at hfill
      rw [lowerKey, if_pos hb, List.map_cons, List.flatMap_cons, keyVals_cons_le_iff (length_lowerOf hcs.1) ha.1.1] at hlow
      rw [upperKey, if_pos hb, List.map_cons, List.flatMap_cons, keyVals_cons_le_iff ha.1.1 (length_upperOf hcs.1)] at hup
      -- both bounds are the constant, so the cell is, and the rest of the key is between the rests of the ends
      have hcell : colVals (lowerOf conds c) c.ixCol = colVals (a c) c.ixCol := le_antisymm hlow.1 (hsame ▸ hup.1)
      rw [List.forall_mem_cons] at hincl hfill ⊢
      exact ⟨hfirst List.mem_cons_self, ih hcs.2 hint.2 hfill.2 hincl.2 ha.2 (hlow.2 hcell) (hup.2 (hcell.symm.trans (congrArg (colVals · c.ixCol) hsame)))⟩
    · intro c' hc'
      have hc'' := hc'
      rw [coveredCols, if_neg heq] at hc''
      split at hc''
      · obtain rfl := List.mem_singleton.mp hc''
        exact hfirst hc'
      · cases hc''

end Keys

end Rmdb
