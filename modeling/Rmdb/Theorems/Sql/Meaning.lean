import Rmdb.Lib.Product
import Rmdb.Theorems.Recovery.Analyze
import Rmdb.Theorems.Sql.Literals
import Rmdb.Theorems.Sql.SemiJoin
import Mathlib.Data.List.Find

/-! What a SELECT statement means, whatever plan is made for it: every way to pick one visible record of each table is tested
by the conditions, and the selected cells of those that pass are the rows. -/

namespace Rmdb.Sql
open Outcomes

/-! ### The meaning of a query -/

namespace Db
variable (db : Db)

/-- The records of a table that the transaction sees. -/
def rows (tab : String) : List Bytes :=
  match db.table? tab with
  | some t => t.slots.filterMap db.getRecordMvcc
  | none => []

/-- The column that a name means. -/
def col? (d : TabCol) : Option Catalog.ColMeta := do
  let t ← db.table? d.tabName
  t.tab.cols.find? (·.name = d.colName)

variable (g : String → Bytes)

/-- The cell of a column in a pick of records. -/
def cell (d : TabCol) : Bytes :=
  match db.col? d with
  | some c => ((g d.tabName).drop c.offset).take c.len
  | none => []

/-- Its value. -/
def value (d : TabCol) : Value :=
  match db.col? d with
  | some c => Value.fromRaw (db.cell g d) c.type c.len
  | none => .int 0

end Db

/-- The comparison that the condition writes down, of whole numbers and strings as such. -/
def Condition.test (value : TabCol → Value) (c : Condition) : Bool :=
  (value c.lhsCol).meets c.op (match c.rhs with
    | .val v _ => v
    | .col d => value d)

/-- The rows that a query without grouping, order and limit asks for. -/
def answer (db : Db) (q : Query) : List Bytes :=
  ((Product.all db.rows (fun _ => []) q.tables).filter fun g => q.conds.all (·.test (db.value g))).map fun g =>
    q.cols.flatMap (db.cell g)

/-! ### Values -/

section Values
variable {op : CompOp} {x y : Value} {a b : TypedCell}

/-- The value of an operand. -/
def TypedCell.value (a : TypedCell) : Value := Value.fromRaw a.bytes a.type a.bytes.length

theorem Value.type_fromRaw (data : Bytes) (type : ColType) (len : Nat) : (Value.fromRaw data type len).type = type := by
  cases type <;> rfl

theorem compareInt_scale (x y : Int) : compareInt (x * (1 <<< 149 : Nat)) (y * (1 <<< 149 : Nat)) = compareInt x y := by
  have hpos : (0 : Int) < (1 <<< 149 : Nat) := by decide
  generalize ((1 <<< 149 : Nat) : Int) = k at hpos
  unfold compareInt
  simp only [Int.mul_lt_mul_right hpos, gt_iff_lt]

theorem Value.meets_int (op : CompOp) (x y : Int) : (Value.int x).meets op (.int y) = op.test (compareInt x y) := by
  have h : (Value.int x).meets op (.int y) = op.test (compareInt (x * (1 <<< 149 : Nat)) (y * (1 <<< 149 : Nat))) := rfl
  rw [h, compareInt_scale]

/-- Two values that are no floats meet an equality exactly if they are the same. -/
theorem Value.meets_eq_iff (htype : x.type = y.type) (hfloat : x.type ≠ .float) : x.meets .eq y = true ↔ x = y := by
  cases x with
  | int n =>
    cases y with
    | int m =>
      rw [Value.meets_int, CompOp.test, decide_eq_true_eq, compareInt]
      constructor
      · intro h
        split at h
        · cases h
        · split at h
          · cases h
          · exact congrArg Value.int (by omega)
      · intro h
        cases h
        rw [if_neg (Int.lt_irrefl _), if_neg (Int.lt_irrefl _)]
    | float w => cases htype
    | str s => cases htype
  | float w => exact absurd rfl hfloat
  | str s =>
    cases y with
    | int m => cases htype
    | float w => cases htype
    | str t =>
      have hcompare : (Value.str s).meets .eq (.str t) = true ↔ compare s t = .eq := by
        show decide (orderSign (compare s t) = 0) = true ↔ _
        rw [decide_eq_true_eq]
        cases compare s t <;> decide
      rw [hcompare, Std.compare_eq_iff_eq]
      exact ⟨congrArg Value.str, fun h => by cases h; rfl⟩

/-- The sign of two operands decides what the comparison of their values says. -/
theorem TypedCell.test_sign (ha : a.Fine) (htype : a.type = b.type) (op : CompOp) :
    op.test (a.sign b) = a.value.meets op b.value := by
  obtain ⟨at', ax⟩ := a
  obtain ⟨bt, bx⟩ := b
  cases htype
  rcases ha with ⟨hint, -⟩ | ⟨hstr, -⟩
  · cases hint
    exact (Value.meets_int op _ _).symm
  · cases hstr
    have hx : TypedCell.value ⟨.string, ax⟩ = .str (cellString ax) := by
      rw [TypedCell.value, Value.fromRaw, List.take_length, cellString]
    have hy : TypedCell.value ⟨.string, bx⟩ = .str (cellString bx) := by
      rw [TypedCell.value, Value.fromRaw, List.take_length, cellString]
    rw [hx, hy]
    rfl

/-! ### Numbers as floats -/

/-- A number that a float keeps is not the float of any other number. -/
theorem floatBitsOfNat_inj {m n : Nat} (hm : m < 0x1000000) (h : floatBitsOfNat n = floatBitsOfNat m) : n = m := by
  by_cases hm0 : m = 0
  · subst hm0
    by_contra hn
    have := floatBitsOfNat_pos hn
    rw [h] at this
    exact absurd this (by decide)
  have hn0 : n ≠ 0 := by
    rintro rfl
    have := floatBitsOfNat_pos hm0
    rw [← h] at this
    exact absurd this (by decide)
  have hem := floatBitsOfNat_eq hm0
  have hen := floatBitsOfNat_eq hn0
  have hdm := floatDigits_bounds (floatOfNat_pos hm0)
  have hdn := floatDigits_bounds (floatOfNat_pos hn0)
  rw [floatOfNat_eq hm] at hem hdm
  have hlog : (floatOfNat n).log2 = m.log2 := by omega
  have hdigits : floatDigits (floatOfNat n) = floatDigits m := by omega
  -- the digits of a small number are shifted to the left, so they tell the number
  have hsmall : m.log2 ≤ 23 := by
    by_contra hlarge
    have hle : 2 ^ 24 ≤ m := (Nat.le_log2 hm0).mp (by omega)
    omega
  have hsame : floatOfNat n = m := by
    unfold floatDigits at hdigits
    rw [hlog, if_pos hsmall, if_pos hsmall, Nat.shiftLeft_eq, Nat.shiftLeft_eq] at hdigits
    exact Nat.eq_of_mul_eq_mul_right (Nat.two_pow_pos _) hdigits
  by_cases hn : n < 0x1000000
  · rw [← hsame, floatOfNat_eq hn]
  · have := le_floatOfNat (Nat.le_of_not_lt hn)
    omega

/-- The number is one of those that a float tells from all others. -/
def ExactInt (n : Int) : Prop := n.natAbs < 0x1000000

instance (n : Int) : Decidable (ExactInt n) := inferInstanceAs (Decidable (_ < _))

theorem floatBits_inj {m n : Int} (hn : InInt n) (hm : ExactInt m) (h : floatBits n = floatBits m) : n = m := by
  have hm' : InInt m := by
    unfold ExactInt at hm
    unfold InInt
    omega
  have hval := congrArg floatValue h
  rw [(floatValue_floatBits hn).2, (floatValue_floatBits hm').2] at hval
  have hzero : ∀ {k : Int}, k < 0 → 0 < floatBitsOfNat k.natAbs := fun hk => floatBitsOfNat_pos (by omega)
  unfold ExactInt at hm
  split at hval <;> split at hval
  · have := floatBitsOfNat_inj hm (show floatBitsOfNat n.natAbs = floatBitsOfNat m.natAbs by omega)
    omega
  · next hneg _ =>
    have := hzero hneg
    omega
  · next _ hneg =>
    have := hzero hneg
    omega
  · have := floatBitsOfNat_inj hm (show floatBitsOfNat n.natAbs = floatBitsOfNat m.natAbs by omega)
    omega

/-! ### The evaluators -/

variable {cols leftCols rightCols : List Catalog.ColMeta} {rec left right p q : Bytes} {lhs rhs' : TabCol} {rhs : Rhs}

/-- `eval_cond` on operands of one length. -/
theorem evalCond_value (ha : a.Fine) (hb : b.Fine) (htype : a.type = b.type) (hlen : a.bytes.length = b.bytes.length)
    (hexact : a.type = .int → floatBits (readInt a.bytes) = floatBits (readInt b.bytes) → readInt a.bytes = readInt b.bytes)
    (hl : ColHolds cols rec lhs a p) (hr : RhsHolds cols rec rhs b q) :
    evalCond cols ⟨lhs, op, rhs⟩ rec = .ok (a.value.meets op b.value) := by
  rw [← a.test_sign ha htype]
  rcases ha with ⟨haType, haLen⟩ | ⟨haType, haPadded⟩
  · rcases hb with ⟨hbType, hbLen⟩ | ⟨hbType, -⟩
    · rw [evalCond_int haType haLen hbType hbLen hl hr, TypedCell.sign, haType]
      refine congrArg _ ((floatTest_ints (readInt_inInt _) (readInt_inInt _) op).mpr fun h => ?_)
      rw [hexact haType h, compareInt_self]
    · cases haType.symm.trans (htype.trans hbType)
  · rcases hb with ⟨hbType, -⟩ | ⟨hbType, hbPadded⟩
    · cases haType.symm.trans (htype.trans hbType)
    · rw [evalCond_string haType hbType hl hr, TypedCell.sign, haType, ← hlen, Nat.max_self]
      exact congrArg _ (compare_same haPadded hbPadded hlen op).1

/-- `do_predict` on operands of one length. -/
theorem doPredict_value (ha : a.Fine) (hb : b.Fine) (htype : a.type = b.type) (hlen : a.bytes.length = b.bytes.length)
    (hl : ColHolds leftCols left lhs a p) (hr : ColHolds rightCols right rhs' b q) :
    doPredictCond leftCols rightCols left right ⟨lhs, op, .col rhs'⟩ = .ok (a.value.meets op b.value) := by
  rw [← a.test_sign ha htype]
  rcases ha with ⟨haType, haLen⟩ | ⟨haType, haPadded⟩
  · rcases hb with ⟨hbType, hbLen⟩ | ⟨hbType, -⟩
    · rw [doPredict_int haType haLen hbType hbLen hl hr, TypedCell.sign, haType]
    · cases haType.symm.trans (htype.trans hbType)
  · rcases hb with ⟨hbType, -⟩ | ⟨hbType, hbPadded⟩
    · cases haType.symm.trans (htype.trans hbType)
    · rw [doPredict_string haType hl hr, TypedCell.sign, haType]
      exact congrArg _ (compare_same haPadded hbPadded hlen op).1

/-- The comparison the other way round. -/
theorem Value.meets_swap (htype : x.type = y.type) (hfloat : x.type ≠ .float) (op : CompOp) :
    x.meets op y = y.meets (swapOp op) x := by
  have htest : ∀ m n : Int, m < 0 ∧ 0 < n ∨ m = 0 ∧ n = 0 ∨ 0 < m ∧ n < 0 → op.test m = (swapOp op).test n := by
    rintro m n (⟨hm, hn⟩ | ⟨rfl, rfl⟩ | ⟨hm, hn⟩) <;> cases op <;> simp [CompOp.test, swapOp] <;> omega
  cases x with
  | int m =>
    cases y with
    | int n =>
      rw [Value.meets_int, Value.meets_int]
      refine htest _ _ ?_
      unfold compareInt
      rcases Int.lt_trichotomy m n with h | rfl | h
      · rw [if_pos h, if_neg (by omega), if_pos h]
        decide
      · rw [if_neg (Int.lt_irrefl _), if_neg (Int.lt_irrefl _)]
        decide
      · rw [if_neg (by omega), if_pos h, if_pos h]
        decide
    | float w => cases htype
    | str s => cases htype
  | float w => exact absurd rfl hfloat
  | str s =>
    cases y with
    | int m => cases htype
    | float w => cases htype
    | str t =>
      refine htest (orderSign (compare s t)) (orderSign (compare t s)) ?_
      rw [show compare t s = (compare s t).swap from Std.OrientedCmp.eq_swap]
      cases compare s t <;> decide

end Values

/-! ### Columns and cells -/

/-- Columns have the names that the lexer admits. -/
def Db.Named (db : Db) : Prop := ∀ t ∈ db.tables, ∀ c ∈ t.tab.cols, c.name ≠ "*" ∧ '.' ∉ c.name.toList

/-- What the tables are: columns have their names, numbers are four bytes long, and a string is followed by NUL bytes up to the
    end of its cell. -/
structure Db.Sound (db : Db) : Prop where
  names : db.Named
  numbers : ∀ t ∈ db.tables, ∀ c ∈ t.tab.cols, c.type ≠ .string → c.len = 4
  padded : ∀ t ∈ db.tables, ∀ s ∈ t.slots, ∀ c ∈ t.tab.cols, c.type = .string → NulPadded ((s.bytes.drop c.offset).take c.len)

section Cells
variable {db : Db} {g h : String → Bytes} {d : TabCol} {col : Catalog.ColMeta} {t : Table}

theorem Db.table?_mem {name : String} (h : db.table? name = some t) : t ∈ db.tables ∧ t.tab.name = name :=
  ⟨List.mem_of_find?_eq_some h, by simpa using List.find?_some h⟩

theorem Db.col?_eq_some : db.col? d = some col ↔
    ∃ t, db.table? d.tabName = some t ∧ t.tab.cols.find? (·.name = d.colName) = some col := by
  unfold Db.col?
  exact Option.bind_eq_some_iff

/-- The column of a table by its name. -/
theorem getCol_table (ht : db.table? d.tabName = some t) (hcol : db.col? d = some col) :
    col ∈ t.tab.cols ∧ col.name = d.colName ∧ getCol t.tab.cols d = .ok col := by
  obtain ⟨t', ht', hfind⟩ := Db.col?_eq_some.mp hcol
  cases ht.symm.trans ht'
  refine ⟨List.mem_of_find?_eq_some hfind, by simpa using List.find?_some hfind, ?_⟩
  have hsame : (t.tab.cols.find? fun c => c.tabName = d.tabName ∧ c.name = d.colName) = t.tab.cols.find? (·.name = d.colName) := by
    refine List.find?_congr fun c hc => ?_
    rw [t.named c hc, (Db.table?_mem ht).2]
    exact decide_eq_decide.mpr (and_iff_right rfl)
  rw [getCol, hsame, hfind]

/-- A visible record of a table has all its cells. -/
theorem mem_rows {rec : Bytes} (ht : db.table? d.tabName = some t) (hrec : rec ∈ db.rows d.tabName) :
    ∃ s ∈ t.slots, rec = s.bytes ∧ rec.length = recordSize t.tab.cols := by
  unfold Db.rows at hrec
  rw [ht] at hrec
  obtain ⟨s, hs, hrec⟩ := List.mem_filterMap.mp hrec
  have := getRecordMvcc_opt hrec
  exact ⟨s, hs, this, this ▸ t.sized s hs⟩

theorem Db.cell_eq (hcol : db.col? d = some col) : db.cell g d = ((g d.tabName).drop col.offset).take col.len := by
  rw [Db.cell, hcol]

theorem Db.cell_congr (hg : g d.tabName = h d.tabName) : db.cell g d = db.cell h d := by
  unfold Db.cell
  rw [hg]

theorem Db.value_congr (hg : g d.tabName = h d.tabName) : db.value g d = db.value h d := by
  unfold Db.value
  rw [db.cell_congr hg]

theorem Db.length_cell (hcol : db.col? d = some col) (hg : g d.tabName ∈ db.rows d.tabName) : (db.cell g d).length = col.len := by
  obtain ⟨t, ht, -⟩ := Db.col?_eq_some.mp hcol
  obtain ⟨s, -, -, hlen⟩ := mem_rows ht hg
  have := t.laid.le col (getCol_table ht hcol).1
  rw [Db.cell_eq hcol, List.length_take, List.length_drop]
  omega

/-- The operand that a cell is. -/
def Db.operand (db : Db) (g : String → Bytes) (d : TabCol) (col : Catalog.ColMeta) : TypedCell := ⟨col.type, db.cell g d⟩

theorem Db.operand_value (hcol : db.col? d = some col) (hg : g d.tabName ∈ db.rows d.tabName) :
    (db.operand g d col).value = db.value g d := by
  rw [TypedCell.value, Db.operand, Db.value, hcol]
  exact congrArg _ (db.length_cell hcol hg)

theorem Db.Sound.fine (hsound : db.Sound) (hcol : db.col? d = some col) (hfloat : col.type ≠ .float)
    (hg : g d.tabName ∈ db.rows d.tabName) : (db.operand g d col).Fine := by
  obtain ⟨t, ht, -⟩ := Db.col?_eq_some.mp hcol
  have htab := (Db.table?_mem ht).1
  have hmem := (getCol_table ht hcol).1
  cases htype : col.type with
  | int => exact Or.inl ⟨htype, (db.length_cell hcol hg).trans (hsound.numbers t htab col hmem (by rw [htype]; exact ColType.noConfusion))⟩
  | float => exact absurd htype hfloat
  | string =>
    obtain ⟨s, hs, hrec, -⟩ := mem_rows ht hg
    refine Or.inr ⟨htype, ?_⟩
    rw [Db.operand, Db.cell_eq hcol, hrec]
    exact hsound.padded t htab s hs col hmem htype

/-- A column of some operator's output holds the cell. -/
theorem colHolds_cell {cols : List Catalog.ColMeta} {rec : Bytes} {c : Catalog.ColMeta} (hcol : db.col? d = some col)
    (hg : g d.tabName ∈ db.rows d.tabName) (hget : getCol cols d = .ok c) (htype : c.type = col.type) (hlen : c.len = col.len)
    (hcell : (rec.drop c.offset).take c.len = db.cell g d) :
    ColHolds cols rec d (db.operand g d col) ((rec.drop c.offset).drop c.len) :=
  ⟨c, hget, htype, hlen.trans (db.length_cell hcol hg).symm, by
    rw [Db.operand, ← hcell]
    exact (List.take_append_drop ..).symm⟩

end Cells

/-! ### Conditions that mean what they say -/

/-- A number that a float tells from all others, or a string without NUL bytes. -/
def Value.Exact : Value → Prop
  | .int n => ExactInt n
  | .float _ => False
  | .str s => 0 ∉ s

/-- The condition compares an INT column with an INT or a CHAR column with a CHAR of the same length. A comparison within a scan
    takes numbers for floats, so one side has numbers that floats keep. -/
def Condition.LikeTypes (db : Db) (c : Condition) : Prop :=
  ∃ col, db.col? c.lhsCol = some col ∧ col.type ≠ .float ∧
    match c.rhs with
    | .val v raw => v.type = col.type ∧ v.initRaw col.len = .ok raw ∧ v.Exact
    | .col d => ∃ col', db.col? d = some col' ∧ col'.type = col.type ∧ col'.len = col.len ∧
        (c.lhsCol.tabName = d.tabName → col.type = .int → ∀ rec ∈ db.rows d.tabName,
          ExactInt (readInt ((rec.drop col'.offset).take col'.len)))

section Exact

theorem nul_behind {s : Bytes} (h : 0 ∉ s) (n : Nat) :
    (s ++ List.replicate n 0).takeWhile (· ≠ 0) = s ∧ NulPadded (s ++ List.replicate n 0) := by
  have hs : ∀ b ∈ s, decide (b ≠ 0) = true := fun b hb => decide_eq_true fun hz => h (hz ▸ hb)
  constructor
  · rw [List.takeWhile_append_of_pos hs, List.takeWhile_replicate]
    exact List.append_nil s
  · intro x hx
    rw [List.dropWhile_append_of_pos hs] at hx
    exact (List.mem_replicate.mp ((List.dropWhile_sublist _).mem hx)).2

/-- The raw bytes of a constant hold it. -/
theorem Value.Exact.holds {v : Value} {raw : Bytes} {len : Nat} (hv : v.Exact) (hraw : v.initRaw len = .ok raw) :
    TypedCell.Fine ⟨v.type, raw⟩ ∧ TypedCell.value ⟨v.type, raw⟩ = v ∧ raw.length = len ∧ ∀ n, v = .int n → readInt raw = n := by
  cases v with
  | int n =>
    have hn : InInt n := by
      have : n.natAbs < 0x1000000 := hv
      unfold InInt
      omega
    have hread : readInt (putInt n) = n := by simpa using readInt_putInt hn []
    simp only [Value.initRaw] at hraw
    split at hraw
    · next hlen =>
      obtain rfl := Except.ok.inj hraw
      exact ⟨Or.inl ⟨rfl, rfl⟩, congrArg Value.int hread, hlen.symm, fun m hm => by cases hm; exact hread⟩
    · cases hraw
  | float w => exact hv.elim
  | str s =>
    simp only [Value.initRaw] at hraw
    split at hraw
    · cases hraw
    · next hlen =>
      obtain rfl := Except.ok.inj hraw
      obtain ⟨htake, hpadded⟩ := nul_behind hv (len - s.length)
      refine ⟨Or.inr ⟨rfl, hpadded⟩, ?_, ?_, fun n hn => by cases hn⟩
      · change Value.str (((s ++ List.replicate (len - s.length) 0).take _).takeWhile _) = .str s
        rw [List.take_length, htake]
      · rw [List.length_append, List.length_replicate]
        omega

end Exact

section Evaluation
variable {db : Db} {g : String → Bytes} {c : Condition} {t : Table}

/-- The condition reads the picks of its own tables only. -/
theorem Condition.test_congr {h : String → Bytes} (hl : g c.lhsCol.tabName = h c.lhsCol.tabName)
    (hr : ∀ d, c.rhs = .col d → g d.tabName = h d.tabName) : c.test (db.value g) = c.test (db.value h) := by
  obtain ⟨lhs, op, rhs⟩ := c
  unfold Condition.test
  dsimp only at hl hr ⊢
  rw [db.value_congr hl]
  cases rhs with
  | val v raw => rfl
  | col d => exact congrArg (Value.meets op _) (db.value_congr (hr d rfl))

/-- A scan finds out whether a condition on its table holds. -/
theorem evalCond_test (hsound : db.Sound) (hc : c.LikeTypes db) (hone : c.OneTable) (ht : db.table? c.lhsCol.tabName = some t)
    (hg : g c.lhsCol.tabName ∈ db.rows c.lhsCol.tabName) :
    evalCond t.tab.cols c (g c.lhsCol.tabName) = .ok (c.test (db.value g)) := by
  obtain ⟨col, hcol, hfloat, hrhs⟩ := hc
  have hfine := hsound.fine hcol hfloat hg
  have hl := colHolds_cell hcol hg (getCol_table ht hcol).2.2 rfl rfl (db.cell_eq hcol).symm
  have hvalue := db.operand_value hcol hg
  obtain ⟨lhs, op, rhs⟩ := c
  cases rhs with
  | val v raw =>
    obtain ⟨htype, hraw, hexact⟩ := hrhs
    obtain ⟨hfine', hvalue', hlen, hread⟩ := hexact.holds hraw
    have := @evalCond_value op (db.operand g lhs col) ⟨v.type, raw⟩ t.tab.cols (g lhs.tabName) _ [] lhs (.val v raw) hfine hfine' htype.symm
      ((db.length_cell hcol hg).trans hlen.symm) (fun hint heq => ?_) hl (@RhsHolds.val _ _ v ⟨v.type, raw⟩ rfl hread)
    · rw [this, hvalue, hvalue']
      rfl
    · cases v with
      | int n =>
        rw [hread n rfl] at heq ⊢
        exact floatBits_inj (readInt_inInt _) hexact heq
      | float w => exact hexact.elim
      | str s => cases htype.trans hint
  | col d =>
    obtain ⟨col', hcol', htype, hlen, hexact⟩ := hrhs
    have hsame : lhs.tabName = d.tabName := hone.resolve_left Bool.false_ne_true
    dsimp only at ht hg hl ⊢
    have ht' : db.table? d.tabName = some t := hsame ▸ ht
    have hg' : g d.tabName ∈ db.rows d.tabName := hsame ▸ hg
    have hr := colHolds_cell hcol' hg' (getCol_table ht' hcol').2.2 rfl rfl (db.cell_eq hcol').symm
    rw [← hsame] at hr
    have := @evalCond_value op (db.operand g lhs col) (db.operand g d col') t.tab.cols (g lhs.tabName) _ _ lhs (.col d) hfine
      (hsound.fine hcol' (htype ▸ hfloat) hg') htype.symm
      ((db.length_cell hcol hg).trans (hlen.symm.trans (db.length_cell hcol' hg').symm)) (fun hint heq => ?_) hl (.col hr)
    · rw [this, hvalue, db.operand_value hcol' hg']
      rfl
    · refine floatBits_inj (readInt_inInt _) ?_ heq
      have := hexact hsame hint _ hg'
      rwa [← db.cell_eq hcol'] at this

end Evaluation

end Rmdb.Sql
