import Rmdb.Exec.Literal
import Rmdb.Theorems.Exec.Cond

/-! A row of literals in an INSERT and in a line of a CSV file. Both records are the cells of the columns, one behind the other,
so the two agree just if they agree column by column and the line has a field for every column. -/

namespace Rmdb

/-! ### Records as rows of cells -/

/-- The columns lie one behind the other, from an offset on. -/
def Consecutive : Nat → List ColMeta → Prop
  | _, [] => True
  | n, c :: cs => c.offset = n ∧ Consecutive (n + c.len) cs

/-- The length of a record. -/
def recordSize (cols : List ColMeta) : Nat := (cols.map (·.len)).sum

theorem writeAt_end {done bytes : Bytes} {n k : Nat} (hn : n = done.length) (hk : k = bytes.length) (m : Nat) :
    writeAt (done ++ List.replicate (k + m) 0) n bytes = done ++ bytes ++ List.replicate m 0 := by
  subst hn hk
  have hskip : (List.replicate (bytes.length + m) (0 : UInt8)).drop bytes.length = List.replicate m 0 := by
    rw [List.drop_replicate, Nat.add_sub_cancel_left]
  rw [writeAt, List.take_left, List.drop_append, List.drop_eq_nil_of_le (by omega), List.nil_append, Nat.add_sub_cancel_left, hskip]

theorem fieldBytes_length (c : ColMeta) (line : Bytes) {k : Nat} (hk : k ≤ line.length) : (fieldBytes c line k).length = c.len := by
  cases htype : c.type with
  | int => simp [fieldBytes, htype, writeInt, c.fixed (by simp [htype])]
  | float => simp [fieldBytes, htype, writeInt, c.fixed (by simp [htype])]
  | string =>
    simp only [fieldBytes, htype, List.length_append, List.length_take, List.length_replicate]
    omega

/-- The fields of a line as the cells of a record. -/
def fieldCells : List ColMeta → Bytes → Option Bytes
  | [], _ => some []
  | c :: cs, line =>
    if line = [] then none
    else
      let fieldLen := (line.takeWhile (· ≠ 0x2c)).length
      (fieldCells cs (line.drop (fieldLen + 1))).map (fieldBytes c line fieldLen ++ ·)

theorem parseFields_eq {cols : List ColMeta} {line done : Bytes} (h : Consecutive done.length cols) :
    parseFields cols line (done ++ List.replicate (recordSize cols) 0) = (fieldCells cols line).map (done ++ ·) := by
  induction cols generalizing line done with
  | nil => simp [parseFields, fieldCells, recordSize]
  | cons c cs ih =>
    obtain ⟨hoffset, hrest⟩ := h
    rw [parseFields, fieldCells]
    by_cases hline : line = []
    · simp [hline]
    · have hlen : (line.takeWhile (· ≠ 0x2c)).length ≤ line.length := (List.takeWhile_prefix _).length_le
      have hsize : recordSize (c :: cs) = c.len + recordSize cs := by simp [recordSize]
      have hcell := fieldBytes_length c line hlen
      simp only [if_neg hline, Option.map_map]
      rw [hsize, writeAt_end hoffset hcell.symm, ih (by rw [List.length_append, hcell]; exact hrest)]
      simp [Function.comp_def]

/-- The cell of a literal in an INSERT. -/
def cellOf (c : ColMeta) (l : Literal) : Option Bytes := (Sql.convertSvValue l.value >>= InsertExecutor.raw c).toOption

/-- The cells of a row. -/
def rowCells : List (ColMeta × Literal) → Option Bytes
  | [] => some []
  | (c, l) :: row => (cellOf c l).bind fun cell => (rowCells row).map (cell ++ ·)

theorem initRaw_length {v : Sql.Value} {len : Nat} {bytes : Bytes} (h : v.initRaw len = .ok bytes) : bytes.length = len := by
  cases v with
  | int n =>
    simp only [Sql.Value.initRaw] at h
    split at h
    · next hlen =>
      cases h
      exact hlen.symm
    · cases h
  | float w =>
    simp only [Sql.Value.initRaw] at h
    split at h
    · next hlen =>
      cases h
      exact hlen.symm
    · cases h
  | str s =>
    simp only [Sql.Value.initRaw] at h
    split at h
    · cases h
    · next hlen =>
      cases h
      rw [List.length_append, List.length_replicate]
      omega

theorem cellOf_eq {c : ColMeta} {l : Literal} {v : Sql.Value} (h : Sql.convertSvValue l.value = .ok v) :
    cellOf c l = (InsertExecutor.raw c v).toOption := by
  rw [cellOf, h]
  rfl

theorem fill_eq {row : List Literal} {vs : List Sql.Value} (hvs : InsertExecutor.values row = .ok vs) {cols : List ColMeta}
    (hcols : cols.length = row.length) {done : Bytes} (h : Consecutive done.length cols) :
    (InsertExecutor.fill (cols.zip vs) (done ++ List.replicate (recordSize cols) 0)).toOption =
      (rowCells (cols.zip row)).map (done ++ ·) := by
  induction row generalizing vs cols done with
  | nil =>
    obtain rfl := List.length_eq_zero_iff.mp hcols
    simp [InsertExecutor.fill, rowCells, recordSize, Except.toOption]
  | cons l row ih =>
    obtain ⟨c, cs, rfl⟩ : ∃ c cs, cols = c :: cs := List.exists_cons_of_length_eq_add_one hcols
    obtain ⟨hoffset, hrest⟩ := h
    simp only [InsertExecutor.values] at hvs
    cases hv : Sql.convertSvValue l.value with
    | error e =>
      rw [hv] at hvs
      cases hvs
    | ok v =>
      cases hvs' : InsertExecutor.values row with
      | error e =>
        rw [hv, hvs'] at hvs
        cases hvs
      | ok ws =>
        rw [hv, hvs'] at hvs
        cases hvs
        rw [List.zip_cons_cons, List.zip_cons_cons, InsertExecutor.fill, rowCells, cellOf_eq hv]
        cases hraw : InsertExecutor.raw c v with
        | error e => rfl
        | ok bytes =>
          have hlen : bytes.length = c.len := initRaw_length hraw
          have hsize : recordSize (c :: cs) = c.len + recordSize cs := by simp [recordSize]
          have htail := ih hvs' (by simpa using hcols) (by rw [List.length_append, hlen]; exact hrest : Consecutive (done ++ bytes).length cs)
          simp only [bind, Except.bind, Except.toOption, Option.bind_some, Option.map_map] at htail ⊢
          rw [hsize, writeAt_end hoffset hlen.symm, htail]
          simp [Function.comp_def]

theorem rowCells_none {row : List Literal} {e : Sql.Fault} (h : InsertExecutor.values row = .error e) {cols : List ColMeta}
    (hcols : cols.length = row.length) : rowCells (cols.zip row) = none := by
  induction row generalizing e cols with
  | nil => cases h
  | cons l row ih =>
    obtain ⟨c, cs, rfl⟩ : ∃ c cs, cols = c :: cs := List.exists_cons_of_length_eq_add_one hcols
    rw [List.zip_cons_cons, rowCells]
    cases hv : Sql.convertSvValue l.value with
    | error e =>
      rw [cellOf, hv]
      rfl
    | ok v =>
      cases hvs : InsertExecutor.values row with
      | error e =>
        simp only [ih hvs (by simpa using hcols), Option.map_none, Option.bind_fun_none]
      | ok ws =>
        simp only [InsertExecutor.values, hv, hvs] at h
        cases h

theorem values_length {row : List Literal} {vs : List Sql.Value} (h : InsertExecutor.values row = .ok vs) : vs.length = row.length := by
  induction row generalizing vs with
  | nil =>
    cases h
    rfl
  | cons l row ih =>
    simp only [InsertExecutor.values] at h
    cases hv : Sql.convertSvValue l.value with
    | error e =>
      rw [hv] at h
      cases h
    | ok v =>
      cases hvs : InsertExecutor.values row with
      | error e =>
        rw [hv, hvs] at h
        cases h
      | ok ws =>
        rw [hv, hvs] at h
        cases h
        rw [List.length_cons, ih hvs, List.length_cons]

/-- An INSERT puts the cells of the row one behind the other. -/
theorem record_eq {tab : TabMeta} (h : Consecutive 0 tab.cols) (row : List Literal) :
    (InsertExecutor.record tab (recordSize tab.cols) row).toOption =
      if row.length = tab.cols.length then rowCells (tab.cols.zip row) else none := by
  rw [InsertExecutor.record]
  cases hvs : InsertExecutor.values row with
  | error e =>
    show none = _
    split
    · next hcols =>
      rw [rowCells_none hvs hcols.symm]
    · rfl
  | ok vs =>
    simp only [values_length hvs, ne_eq, ite_not]
    split
    · next hcols =>
      have hfill := fill_eq hvs hcols.symm (show Consecutive ([] : Bytes).length tab.cols from h)
      simp only [List.nil_append, Option.map_id'] at hfill
      rw [← hfill]
      cases InsertExecutor.fill (tab.cols.zip vs) (List.replicate (recordSize tab.cols) 0) with
      | ok rec => rfl
      | error e => rfl
    · rfl

/-! ### Numbers of a field -/

/-- A field ends here: at a comma, or with the line. -/
def EndsField (tail : Bytes) : Prop := ∀ b ∈ tail.head?, b = 0x2c

theorem decimal_append {ds tail : Bytes} (hds : ∀ b ∈ ds, isDigit b) (htail : ∀ b ∈ tail.head?, ¬isDigit b) (acc : Nat) :
    decimal acc (ds ++ tail) = decimal acc ds := by
  induction ds generalizing acc with
  | nil =>
    cases tail with
    | nil => rfl
    | cons b tail =>
      have hb : ¬(0x30 ≤ b ∧ b ≤ 0x39) := by simpa [isDigit] using htail b rfl
      rw [List.nil_append, show decimal acc [] = acc from rfl, decimal, if_neg hb]
  | cons d ds ih =>
    rw [List.cons_append, decimal, decimal, ih fun b hb => hds b (List.mem_cons_of_mem d hb)]

theorem EndsField.notDigit {tail : Bytes} (h : EndsField tail) : ∀ b ∈ tail.head?, ¬isDigit b := by
  intro b hb
  rw [h b hb]
  decide

theorem Digits.cases (ds : Digits) : ∃ d rest, ds.val = d :: rest ∧ isDigit d := by
  obtain ⟨d, rest, hval⟩ := List.exists_cons_of_ne_nil ds.nonempty
  exact ⟨d, rest, hval, ds.digits d (by rw [hval]; exact List.mem_cons_self)⟩

theorem isDigit_notSpace {d : UInt8} (h : isDigit d) : isSpace d = false ∧ d ≠ 0x2d ∧ d ≠ 0x2b := by
  simp only [isDigit, Bool.and_eq_true, decide_eq_true_eq, UInt8.le_iff_toNat_le] at h
  simp only [isSpace, Bool.or_eq_false_iff, Bool.and_eq_false_imp, decide_eq_true_eq, decide_eq_false_iff_not, ne_eq, ← UInt8.toNat_inj,
    UInt8.le_iff_toNat_le]
  have := h.1
  simp only [UInt8.reduceToNat] at *
  omega

theorem strtol_digits (ds : Digits) {tail : Bytes} (htail : ∀ b ∈ tail.head?, ¬isDigit b) :
    strtol (ds.val ++ tail) = min (decimal 0 ds.val : Int) 0x7fffffffffffffff := by
  obtain ⟨d, rest, hval, hd⟩ := ds.cases
  obtain ⟨hspace, hminus, hplus⟩ := isDigit_notSpace hd
  have hdrop : (ds.val ++ tail).dropWhile isSpace = ds.val ++ tail := by
    rw [hval, List.cons_append, List.dropWhile_cons_of_neg (by simp [hspace])]
  rw [strtol, hdrop, ← decimal_append ds.digits htail]
  split
  · next heq =>
    rw [hval] at heq
    exact absurd (List.head_eq_of_cons_eq heq) hminus
  · next heq =>
    rw [hval] at heq
    exact absurd (List.head_eq_of_cons_eq heq) hplus
  · rfl

theorem strtol_minus (ds : Digits) {tail : Bytes} (htail : ∀ b ∈ tail.head?, ¬isDigit b) :
    strtol (0x2d :: (ds.val ++ tail)) = max (-(decimal 0 ds.val : Int)) (-0x8000000000000000) := by
  rw [← decimal_append ds.digits htail]
  rfl

theorem strtol_plus (ds : Digits) {tail : Bytes} (htail : ∀ b ∈ tail.head?, ¬isDigit b) :
    strtol (0x2b :: (ds.val ++ tail)) = min (decimal 0 ds.val : Int) 0x7fffffffffffffff := by
  rw [← decimal_append ds.digits htail]
  rfl

theorem atoi_nonneg {sign : Sign} (hsign : sign ≠ .minus) (ds : Digits) {tail : Bytes} (htail : ∀ b ∈ tail.head?, ¬isDigit b) :
    atoi (sign.text ++ ds.val ++ tail) = Literal.svInt sign ds.val := by
  have hplain : atoi ds.val = toSigned ((min (decimal 0 ds.val : Int) 0x7fffffffffffffff) % 0x100000000).toNat := by
    rw [atoi, ← List.append_nil ds.val, strtol_digits ds (by simp), List.append_nil]
  rw [Literal.svInt, if_neg hsign, hplain, atoi, List.append_assoc]
  cases sign with
  | none => rw [Sign.text, List.nil_append, strtol_digits ds htail]
  | plus => rw [Sign.text, List.singleton_append, strtol_plus ds htail]
  | minus => exact absurd rfl hsign

/-- A number is negated as an `int` by the grammar and as a `long` by `atoi`. -/
theorem atoi_minus (ds : Digits) {tail : Bytes} (htail : ∀ b ∈ tail.head?, ¬isDigit b) :
    (decimal 0 ds.val < 0x8000000000000000 → atoi (Sign.minus.text ++ ds.val ++ tail) = Literal.svInt .minus ds.val) ∧
      (0x8000000000000000 ≤ decimal 0 ds.val → atoi (Sign.minus.text ++ ds.val ++ tail) = 0 ∧ Literal.svInt .minus ds.val = 1) := by
  have hplain : atoi ds.val = toSigned ((min (decimal 0 ds.val : Int) 0x7fffffffffffffff) % 0x100000000).toNat := by
    rw [atoi, ← List.append_nil ds.val, strtol_digits ds (by simp), List.append_nil]
  rw [Literal.svInt, if_pos rfl, hplain, atoi, List.append_assoc, Sign.text, List.singleton_append, strtol_minus ds htail]
  simp only [toSigned, Sql.wrapInt]
  constructor
  · intro hlt
    split <;> split <;> split <;> omega
  · intro hle
    constructor
    · split <;> omega
    · split <;> split <;> omega

/-- What follows the digits of a number makes no difference. -/
theorem atoi_number (sign : Sign) (ds : Digits) {tail : Bytes} (htail : ∀ b ∈ tail.head?, ¬isDigit b) :
    atoi (sign.text ++ ds.val ++ tail) = atoi (sign.text ++ ds.val) := by
  have hnil : ∀ b ∈ ([] : Bytes).head?, ¬isDigit b := by simp
  rw [← List.append_nil (sign.text ++ ds.val), atoi, atoi, List.append_nil, List.append_assoc, ← List.append_nil (sign.text ++ ds.val), List.append_assoc]
  cases sign with
  | none => rw [Sign.text, List.nil_append, List.nil_append, strtol_digits ds htail, strtol_digits ds hnil]
  | plus => rw [Sign.text, List.singleton_append, List.singleton_append, strtol_plus ds htail, strtol_plus ds hnil]
  | minus => rw [Sign.text, List.singleton_append, List.singleton_append, strtol_minus ds htail, strtol_minus ds hnil]

theorem decimal_lt (s : Bytes) {tail : Bytes} (htail : ∀ b ∈ tail.head?, ¬isDigit b) (acc : Nat) :
    decimal acc (s ++ tail) < (acc + 1) * 10 ^ s.length := by
  induction s generalizing acc with
  | nil =>
    rw [@decimal_append [] tail (by simp) htail acc]
    simp [decimal]
  | cons b s ih =>
    rw [List.cons_append, decimal]
    split
    · next hb =>
      have hdigit : b.toNat - 0x30 ≤ 9 := by
        have := UInt8.le_iff_toNat_le.mp hb.2
        simp only [UInt8.reduceToNat] at this
        omega
      calc decimal (acc * 10 + (b.toNat - 0x30)) (s ++ tail) < (acc * 10 + (b.toNat - 0x30) + 1) * 10 ^ s.length := ih _
        _ ≤ ((acc + 1) * 10) * 10 ^ s.length := Nat.mul_le_mul_right _ (by omega)
        _ = (acc + 1) * 10 ^ (b :: s).length := by rw [List.length_cons, Nat.pow_succ, Nat.mul_comm (10 ^ s.length), Nat.mul_assoc]
    · calc acc < acc + 1 := Nat.lt_succ_self acc
        _ ≤ (acc + 1) * 10 ^ (b :: s).length := Nat.le_mul_of_pos_right _ (Nat.pow_pos (by omega))

theorem EndsField.notSpace {tail : Bytes} (h : EndsField tail) : tail.dropWhile isSpace = tail := by
  cases tail with
  | nil => rfl
  | cons b tail => rw [List.dropWhile_cons_of_neg (by rw [h b rfl]; decide)]

/-- The blanks in front of a number are those of its field. -/
theorem EndsField.dropSpaces {text tail : Bytes} (h : EndsField tail) : (text ++ tail).dropWhile isSpace = text.dropWhile isSpace ++ tail := by
  rw [List.dropWhile_append]
  split
  · next hempty => rw [h.notSpace, List.isEmpty_iff.mp hempty, List.nil_append]
  · rfl

/-- A field of a few bytes is a small number. -/
theorem natAbs_strtol_lt {text tail : Bytes} (htail : EndsField tail) : (strtol (text ++ tail)).natAbs < 10 ^ text.length := by
  have hlen : (text.dropWhile isSpace).length ≤ text.length := (List.dropWhile_sublist _).length_le
  rw [strtol, htail.dropSpaces]
  generalize text.dropWhile isSpace = s at hlen
  have hle : 10 ^ s.length ≤ 10 ^ text.length := Nat.pow_le_pow_right (by omega) hlen
  have hdecimal : ∀ ds : Bytes, decimal 0 (ds ++ tail) < 10 ^ ds.length := fun ds => by simpa using decimal_lt ds htail.notDigit 0
  cases s with
  | nil =>
    have hzero : decimal 0 tail = 0 := by simpa using hdecimal []
    have hpos : 0 < 10 ^ text.length := Nat.pow_pos (by omega)
    cases tail with
    | nil => simpa [decimal] using hpos
    | cons b tail =>
      have hb : b = 0x2c := htail b rfl
      subst hb
      rw [List.nil_append]
      split
      · next heq => cases heq
      · next heq => cases heq
      · rw [hzero]
        simpa using hpos
  | cons b s =>
    have hcons := hdecimal (b :: s)
    have hrest := hdecimal s
    have hpow : 10 ^ s.length ≤ 10 ^ (b :: s).length := Nat.pow_le_pow_right (by omega) (by simp)
    rw [List.cons_append] at hcons ⊢
    split
    · next heq =>
      cases heq
      omega
    · next heq =>
      cases heq
      omega
    · omega

/-! ### Cells -/

/-- A text cut to a length, or with NUL bytes behind it. -/
def cut (len : Nat) (text : Bytes) : Bytes := text.take len ++ List.replicate (len - text.length) 0

theorem atoi_small {s : Bytes} (h : (strtol s).natAbs < 10000) : atoi s = strtol s := by
  rw [atoi, toSigned]
  split <;> omega

theorem strtol_space {b : UInt8} (hb : isSpace b = true) (s : Bytes) : strtol (b :: s) = strtol s := by
  rw [strtol, List.dropWhile_cons_of_pos hb, strtol]

theorem decimal_other {b : UInt8} (hb : ¬isDigit b) (s : Bytes) (acc : Nat) : decimal acc (b :: s) = acc := by
  have hno : ¬(0x30 ≤ b ∧ b ≤ 0x39) := by simpa [isDigit] using hb
  rw [decimal, if_neg hno]

theorem strtol_other {b : UInt8} (hdigit : ¬isDigit b) (hspace : isSpace b = false) (hminus : b ≠ 0x2d) (hplus : b ≠ 0x2b) (s : Bytes) :
    strtol (b :: s) = 0 := by
  rw [strtol, List.dropWhile_cons_of_neg (by simp [hspace])]
  split
  · next heq => exact absurd (List.head_eq_of_cons_eq heq) hminus
  · next heq => exact absurd (List.head_eq_of_cons_eq heq) hplus
  · rw [decimal_other hdigit]
    rfl

/-- A byte far behind the digits ends a number before it begins. -/
theorem strtol_high {a b : UInt8} (hb : 0x80 ≤ b.toNat) (s : Bytes) : 0 ≤ strtol (a :: b :: s) := by
  have hdigit : ¬isDigit b := by
    simp only [isDigit, Bool.and_eq_true, decide_eq_true_eq, UInt8.le_iff_toNat_le, UInt8.reduceToNat]
    omega
  by_cases hspace : isSpace a = true
  · have hother : strtol (b :: s) = 0 := by
      refine strtol_other hdigit ?_ ?_ ?_ s
      · simp only [isSpace, Bool.or_eq_false_iff, Bool.and_eq_false_imp, decide_eq_true_eq, decide_eq_false_iff_not,
          ← UInt8.toNat_inj, UInt8.le_iff_toNat_le, UInt8.reduceToNat]
        omega
      all_goals
        rintro rfl
        revert hb
        decide
    rw [strtol_space hspace, hother]
  · rw [strtol, List.dropWhile_cons_of_neg hspace]
    split
    · next heq =>
      cases heq
      rw [decimal_other hdigit]
      decide
    · omega
    · omega

theorem writeInt_bytes (n : Int) {a b c d : UInt8} (h : writeInt n = [a, b, c, d]) :
    (n % 0x100000000).toNat % 0x100 = a.toNat ∧ (n % 0x100000000).toNat / 0x100 % 0x100 = b.toNat ∧
      (n % 0x100000000).toNat / 0x10000 % 0x100 = c.toNat ∧ (n % 0x100000000).toNat / 0x1000000 % 0x100 = d.toNat := by
  simp only [writeInt, List.cons.injEq, and_true] at h
  obtain ⟨rfl, rfl, rfl, rfl⟩ := h
  simp only [UInt8.toNat_ofNat', Nat.reducePow, and_self]

theorem toNat_pos {b : UInt8} (h : b ≠ 0) : 0 < b.toNat := by
  refine Nat.pos_of_ne_zero fun hb => h ?_
  rw [← UInt8.toNat_inj, hb]
  rfl

/-- The bytes of a text are not those of a number that it may start with. -/
theorem writeInt_ne_cut {text tail : Bytes} (htail : EndsField tail) (hne : text ≠ []) (hlen : text.length ≤ 4) (hnul : ∀ b ∈ text, b ≠ 0) :
    writeInt (atoi (text ++ tail)) ≠ cut 4 text := by
  intro heq
  have hsmall := @natAbs_strtol_lt text tail htail
  rw [atoi_small (hsmall.trans_le (Nat.pow_le_pow_right (by omega) hlen))] at heq
  rcases text with _ | ⟨a, _ | ⟨b, _ | ⟨c, _ | ⟨d, _ | ⟨e, text⟩⟩⟩⟩⟩
  · exact hne rfl
  · -- one byte: a number below ten, so no digit
    obtain ⟨ha, hb, hc, hd⟩ := writeInt_bytes _ heq
    have hpos : 0 < a.toNat := toNat_pos (hnul a (by simp))
    simp only [UInt8.reduceToNat] at hb hc hd
    have hlow : a.toNat < 10 := by
      simp only [List.length_singleton, Nat.pow_one] at hsmall
      omega
    have hzero : strtol ([a] ++ tail) = 0 := by
      by_cases hspace : isSpace a = true
      · have hnone := @natAbs_strtol_lt [] tail htail
        rw [List.singleton_append, strtol_space hspace]
        simp only [List.nil_append, List.length_nil, Nat.pow_zero] at hnone
        omega
      · refine strtol_other ?_ (by simpa using hspace) ?_ ?_ tail
        · simp only [isDigit, Bool.and_eq_true, decide_eq_true_eq, UInt8.le_iff_toNat_le, UInt8.reduceToNat]
          omega
        all_goals
          rintro rfl
          revert hlow
          decide
    omega
  · obtain ⟨ha, hb, hc, hd⟩ := writeInt_bytes _ heq
    have hpos : 0 < b.toNat := toNat_pos (hnul b (by simp))
    simp only [UInt8.reduceToNat, List.length_cons, List.length_nil, Nat.reduceAdd, Nat.reducePow] at hc hd hsmall
    omega
  · obtain ⟨ha, hb, hc, hd⟩ := writeInt_bytes _ heq
    have hpos : 0 < c.toNat := toNat_pos (hnul c (by simp))
    simp only [UInt8.reduceToNat, List.length_cons, List.length_nil, Nat.reduceAdd, Nat.reducePow] at hd hsmall
    omega
  · -- four bytes: only a negative number has none of them zero, and then its second byte is no digit
    obtain ⟨ha, hb, hc, hd⟩ := writeInt_bytes _ heq
    have hpos : 0 < d.toNat := toNat_pos (hnul d (by simp))
    simp only [List.length_cons, List.length_nil, Nat.reduceAdd, Nat.reducePow] at hsmall
    have hneg : strtol ([a, b, c, d] ++ tail) < 0 := by omega
    have hhigh : 0 ≤ strtol ([a, b, c, d] ++ tail) := strtol_high (by omega) _
    omega
  · simp only [List.length_cons] at hlen
    omega

theorem floatBits_low {n : Int} (h : n.natAbs < 0x8000) : floatBits n % 0x100 = 0 := by
  unfold floatBits
  split
  · rfl
  · next hn =>
    rw [floatOfNat_eq (by omega)]
    have hlog : n.natAbs.log2 < 15 := (Nat.log2_lt (by omega)).mpr h
    have hshift : (n.natAbs <<< 23) >>> n.natAbs.log2 = n.natAbs * 2 ^ (15 - n.natAbs.log2) * 2 ^ 8 := by
      rw [Nat.shiftLeft_eq, Nat.shiftRight_eq_div_pow, Nat.mul_assoc, ← Nat.pow_add]
      refine Nat.div_eq_of_eq_mul_left (Nat.two_pow_pos _) ?_
      rw [Nat.mul_assoc, ← Nat.pow_add]
      congr 2
      omega
    simp only [hshift]
    simp only [Nat.shiftLeft_eq]
    split <;> omega

theorem floatBits_ne_cut {text tail : Bytes} (htail : EndsField tail) (hne : text ≠ []) (hlen : text.length ≤ 4) (hnul : ∀ b ∈ text, b ≠ 0) :
    writeInt (floatBits (atoi (text ++ tail))) ≠ cut 4 text := by
  intro heq
  have hsmall := (@natAbs_strtol_lt text tail htail).trans_le (Nat.pow_le_pow_right (by omega) hlen)
  rw [atoi_small hsmall] at heq
  have hlow : floatBits (strtol (text ++ tail)) % 0x100 = 0 := floatBits_low (by omega)
  obtain ⟨b, rest, rfl⟩ := List.exists_cons_of_ne_nil hne
  have hb : UInt8.ofNat ((floatBits (strtol (b :: rest ++ tail)) : Int) % 0x100000000).toNat = b := List.head_eq_of_cons_eq heq
  have hpos : 0 < b.toNat := toNat_pos (hnul b List.mem_cons_self)
  rw [← hb, UInt8.toNat_ofNat'] at hpos
  omega

/-- INSERT refuses the literal for the column. -/
def Refused (c : ColMeta) : Literal → Prop
  | .int _ _ | .float _ _ _ _ => c.type = .string ∧ c.len ≠ 4
  | .str text _ => c.len < text.length
  | .bool _ => True

/-- The literal means the same to `atoi` and `memcpy` as it does to INSERT. -/
def AsWritten (c : ColMeta) : Literal → Prop
  | .int sign digits =>
    if c.type = .string then cut 4 (sign.text ++ digits.val) = putInt (Literal.svInt sign digits.val)
    else sign = .minus → decimal 0 digits.val < 0x8000000000000000
  | .float sign whole fraction _ =>
    match c.type with
    | .string => cut 4 (sign.text ++ whole.val ++ 0x2e :: fraction) = putWord (Literal.svFloat sign whole.val fraction)
    | .int => putInt (atoi (sign.text ++ whole.val)) = putInt (Sql.intOfFloat (Literal.svFloat sign whole.val fraction))
    | .float => putWord (floatBits (atoi (sign.text ++ whole.val))) = putWord (Literal.svFloat sign whole.val fraction)
  | .str text _ => if c.type = .string then 0x2c ∉ text else text = []
  | .bool _ => True

theorem writeInt_natCast (w : Nat) : writeInt (w : Int) = putWord w := by
  have hmod : ((w : Int) % 0x100000000).toNat = w % 0x100000000 := by omega
  simp only [writeInt, putWord, hmod, List.cons.injEq, and_true, ← UInt8.toNat_inj, UInt8.toNat_ofNat']
  omega

/-- The field in front of its end. -/
theorem takeWhile_field {text tail : Bytes} (h : 0x2c ∉ text) (htail : EndsField tail) :
    (text ++ tail).takeWhile (· ≠ 0x2c) = text := by
  have hall : ∀ b ∈ text, decide (b ≠ 0x2c) = true := by
    intro b hb
    refine decide_eq_true fun heq => h ?_
    rwa [← heq]
  rw [List.takeWhile_append_of_pos hall]
  cases tail with
  | nil => rw [List.takeWhile_nil, List.append_nil]
  | cons b tail => rw [List.takeWhile_cons_of_neg (by simp [htail b rfl]), List.append_nil]

theorem digits_noComma {ds : Bytes} (h : ∀ b ∈ ds, isDigit b) : (0x2c : UInt8) ∉ ds := by
  intro hmem
  have := h _ hmem
  revert this
  decide

theorem Sign.noComma (sign : Sign) : (0x2c : UInt8) ∉ sign.text := by
  cases sign <;> decide

theorem int_noComma (sign : Sign) (ds : Digits) : (0x2c : UInt8) ∉ (Literal.int sign ds).text := by
  rw [Literal.text, List.mem_append]
  rintro (hmem | hmem)
  · exact sign.noComma hmem
  · exact digits_noComma ds.digits hmem

theorem float_noComma (sign : Sign) (whole : Digits) (fraction : Bytes) (hfraction : ∀ b ∈ fraction, isDigit b) :
    (0x2c : UInt8) ∉ (Literal.float sign whole fraction hfraction).text := by
  rw [Literal.text, List.mem_append, List.mem_append, List.mem_cons]
  rintro ((hmem | hmem) | hmem | hmem)
  · exact sign.noComma hmem
  · exact digits_noComma whole.digits hmem
  · exact absurd hmem (by decide)
  · exact digits_noComma hfraction hmem

theorem AsWritten.noComma {c : ColMeta} {l : Literal} (h : AsWritten c l) : (0x2c : UInt8) ∉ l.text := by
  cases l with
  | int sign digits => exact int_noComma sign digits
  | float sign whole fraction hfraction => exact float_noComma sign whole fraction hfraction
  | str text htext =>
    simp only [AsWritten] at h
    split at h
    · exact h
    · rw [Literal.text, h]
      exact List.not_mem_nil
  | bool val => cases val <;> decide

/-- A CHAR column gets the text of the field. -/
theorem fieldBytes_string {c : ColMeta} (hc : c.type = .string) {text tail : Bytes} (h : 0x2c ∉ text) (htail : EndsField tail) :
    fieldBytes c (text ++ tail) ((text ++ tail).takeWhile (· ≠ 0x2c)).length = cut c.len text := by
  rw [takeWhile_field h htail]
  simp only [fieldBytes, hc, cut]
  rw [List.take_append_of_le_length (Nat.min_le_left _ _)]
  rcases Nat.le_total text.length c.len with hle | hle
  · rw [Nat.min_eq_left hle, List.take_of_length_le hle, List.take_length]
  · rw [Nat.min_eq_right hle, Nat.sub_self, Nat.sub_eq_zero_of_le hle]

theorem cut_of_le {len : Nat} {text : Bytes} (h : text.length ≤ len) : cut len text = text ++ List.replicate (len - text.length) 0 := by
  rw [cut, List.take_of_length_le h]

/-- From a comma on a CHAR column gets NUL bytes. -/
theorem fieldBytes_comma {c : ColMeta} (hc : c.type = .string) {text tail : Bytes} (h : 0x2c ∈ text) (hlen : text.length ≤ c.len) :
    fieldBytes c (text ++ tail) ((text ++ tail).takeWhile (· ≠ 0x2c)).length ≠ cut c.len text := by
  obtain ⟨a, b, rfl, ha⟩ := List.eq_append_cons_of_mem h
  have htail : EndsField (0x2c :: (b ++ tail)) := by
    intro d hd
    cases hd
    rfl
  rw [List.length_append, List.length_cons] at hlen
  rw [List.append_assoc, List.cons_append, fieldBytes_string hc ha htail, cut_of_le (by omega : a.length ≤ c.len),
    cut_of_le (by rw [List.length_append, List.length_cons]; omega), List.append_assoc]
  intro heq
  have hcons := List.append_cancel_left heq
  rw [show c.len - a.length = c.len - a.length - 1 + 1 by omega, List.replicate_succ, List.cons_append] at hcons
  exact absurd (List.head_eq_of_cons_eq hcons) (by decide)

theorem cellOf_int (c : ColMeta) (sign : Sign) (ds : Digits) : cellOf c (.int sign ds) =
    if c.len = 4 then some (if c.type = .float then putWord (floatBits (Literal.svInt sign ds.val)) else putInt (Literal.svInt sign ds.val))
    else none := by
  by_cases hlen : c.len = 4 <;> by_cases hc : c.type = .float <;>
    simp [cellOf, Literal.value, Sql.convertSvValue, InsertExecutor.raw, InsertExecutor.convert, Sql.Value.initRaw, hlen, hc, bind, Except.bind,
      Except.toOption]

theorem cellOf_float (c : ColMeta) (sign : Sign) (whole : Digits) (fraction : Bytes) (hfraction : ∀ b ∈ fraction, isDigit b) :
    cellOf c (.float sign whole fraction hfraction) =
      if c.len = 4 then some (if c.type = .int then putInt (Sql.intOfFloat (Literal.svFloat sign whole.val fraction))
        else putWord (Literal.svFloat sign whole.val fraction))
      else none := by
  by_cases hlen : c.len = 4 <;> by_cases hc : c.type = .int <;>
    simp [cellOf, Literal.value, Sql.convertSvValue, InsertExecutor.raw, InsertExecutor.convert, Sql.Value.initRaw, hlen, hc, bind, Except.bind,
      Except.toOption]

theorem cellOf_str (c : ColMeta) (text : Bytes) (htext : ∀ b ∈ text, b ≠ 0x27 ∧ b ≠ 0 ∧ b ≠ 0x0a) :
    cellOf c (.str text htext) = if c.len < text.length then none else some (cut c.len text) := by
  by_cases hlen : c.len < text.length
  · simp [cellOf, Literal.value, Sql.convertSvValue, InsertExecutor.raw, InsertExecutor.convert, Sql.Value.initRaw, hlen, bind, Except.bind,
      Except.toOption]
  · simp [cellOf, Literal.value, Sql.convertSvValue, InsertExecutor.raw, InsertExecutor.convert, Sql.Value.initRaw, hlen, bind, Except.bind,
      Except.toOption, cut_of_le (Nat.le_of_not_lt hlen)]

theorem cellOf_eq_none (c : ColMeta) (l : Literal) : cellOf c l = none ↔ Refused c l := by
  have hfixed : c.len ≠ 4 ↔ c.type = .string ∧ c.len ≠ 4 :=
    ⟨fun hlen => ⟨Classical.not_not.mp fun hc => hlen (c.fixed hc), hlen⟩, And.right⟩
  cases l with
  | int sign ds =>
    rw [cellOf_int, Refused, ← hfixed]
    split <;> simp_all
  | float sign whole fraction hfraction =>
    rw [cellOf_float, Refused, ← hfixed]
    split <;> simp_all
  | str text htext =>
    rw [cellOf_str, Refused]
    split <;> simp_all
  | bool val => exact iff_of_true rfl trivial

theorem fieldBytes_intCol {c : ColMeta} (hc : c.type = .int) (line : Bytes) (k : Nat) : fieldBytes c line k = putInt (atoi line) := by
  simp only [fieldBytes, hc]
  rfl

theorem fieldBytes_floatCol {c : ColMeta} (hc : c.type = .float) (line : Bytes) (k : Nat) :
    fieldBytes c line k = putWord (floatBits (atoi line)) := by
  simp only [fieldBytes, hc, writeInt_natCast]

theorem fieldBytes_int {c : ColMeta} {sign : Sign} {ds : Digits} {tail cell : Bytes} (htail : EndsField tail)
    (h : cellOf c (.int sign ds) = some cell) (k : Nat) (hc : c.type ≠ .string) :
    fieldBytes c (sign.text ++ ds.val ++ tail) k = cell ↔ (sign = .minus → decimal 0 ds.val < 0x8000000000000000) := by
  rw [cellOf_int, if_pos (c.fixed hc)] at h
  -- both sides by the number that `atoi` reads
  have hsame : atoi (sign.text ++ ds.val ++ tail) = Literal.svInt sign ds.val → fieldBytes c (sign.text ++ ds.val ++ tail) k = cell := by
    intro heq
    cases hcol : c.type with
    | int =>
      simp only [hcol, reduceCtorEq, if_false, Option.some.injEq] at h
      rw [← h, fieldBytes_intCol hcol, heq]
    | float =>
      simp only [hcol, if_true, Option.some.injEq] at h
      rw [← h, fieldBytes_floatCol hcol, heq]
    | string => exact absurd hcol hc
  by_cases hsign : sign = .minus
  · subst hsign
    obtain ⟨hlt, hge⟩ := atoi_minus ds htail.notDigit
    refine ⟨fun heq _ => Nat.lt_of_not_le fun hle => ?_, fun hdec => hsame (hlt (hdec rfl))⟩
    obtain ⟨hzero, hone⟩ := hge hle
    rw [hone] at h
    cases hcol : c.type with
    | int =>
      simp only [hcol, reduceCtorEq, if_false, Option.some.injEq] at h
      rw [← h, fieldBytes_intCol hcol, hzero] at heq
      exact absurd heq (by decide)
    | float =>
      simp only [hcol, if_true, Option.some.injEq] at h
      rw [← h, fieldBytes_floatCol hcol, hzero] at heq
      exact absurd heq (by decide)
    | string => exact hc hcol
  · exact iff_of_true (hsame (atoi_nonneg hsign ds htail.notDigit)) fun hminus => absurd hminus hsign

/-- A field is stored as INSERT stores the literal just if the literal keeps its meaning. -/
theorem fieldBytes_iff {c : ColMeta} {l : Literal} {tail cell : Bytes} (htail : EndsField tail) (h : cellOf c l = some cell) :
    fieldBytes c (l.text ++ tail) ((l.text ++ tail).takeWhile (· ≠ 0x2c)).length = cell ↔ AsWritten c l := by
  cases l with
  | int sign ds =>
    by_cases hc : c.type = .string
    · rw [fieldBytes_string hc (int_noComma sign ds) htail]
      rw [cellOf_int] at h
      split at h
      · next hlen =>
        simp only [hc, reduceCtorEq, if_false, Option.some.injEq] at h
        rw [← h, hlen, AsWritten, if_pos hc, Literal.text]
      · cases h
    · rw [AsWritten, if_neg hc]
      exact fieldBytes_int htail h _ hc
  | float sign whole fraction hfraction =>
    rw [cellOf_float] at h
    split at h
    · next hlen =>
      have hpoint : ∀ b ∈ (0x2e :: (fraction ++ tail)).head?, ¬isDigit b := by
        intro b hb
        cases hb
        decide
      have hatoi : atoi ((Literal.float sign whole fraction hfraction).text ++ tail) = atoi (sign.text ++ whole.val) := by
        rw [Literal.text, List.append_assoc, List.cons_append]
        exact atoi_number sign whole hpoint
      cases hc : c.type with
      | int =>
        simp only [hc, if_true, Option.some.injEq] at h
        simp only [fieldBytes_intCol hc, hatoi, ← h, AsWritten, hc]
      | float =>
        simp only [hc, reduceCtorEq, if_false, Option.some.injEq] at h
        simp only [fieldBytes_floatCol hc, hatoi, ← h, AsWritten, hc]
      | string =>
        simp only [hc, reduceCtorEq, if_false, Option.some.injEq] at h
        rw [fieldBytes_string hc (float_noComma sign whole fraction hfraction) htail, ← h, hlen]
        simp only [AsWritten, hc, Literal.text]
    · cases h
  | str text htext =>
    rw [cellOf_str] at h
    split at h
    · cases h
    · next hlen =>
      cases h
      rw [AsWritten]
      by_cases hc : c.type = .string
      · rw [if_pos hc]
        exact ⟨fun heq hmem => fieldBytes_comma hc hmem (Nat.le_of_not_lt hlen) heq, fun hno => fieldBytes_string hc hno htail⟩
      · rw [if_neg hc]
        have hfour : c.len = 4 := c.fixed hc
        rw [hfour] at hlen ⊢
        constructor
        · intro heq
          refine Classical.not_not.mp fun hne => ?_
          have hnul : ∀ b ∈ text, b ≠ 0 := fun b hb => (htext b hb).2.1
          cases hcol : c.type with
          | int =>
            rw [fieldBytes_intCol hcol] at heq
            exact writeInt_ne_cut htail hne (Nat.le_of_not_lt hlen) hnul heq
          | float =>
            rw [fieldBytes_floatCol hcol, ← writeInt_natCast] at heq
            exact floatBits_ne_cut htail hne (Nat.le_of_not_lt hlen) hnul heq
          | string => exact hc hcol
        · rintro rfl
          have hzero : atoi ([] ++ tail) = 0 := by
            have hnone := @natAbs_strtol_lt [] tail htail
            rw [atoi_small (hnone.trans (by decide))]
            simp only [List.length_nil, Nat.pow_zero] at hnone
            omega
          cases hcol : c.type with
          | int =>
            rw [fieldBytes_intCol hcol, Literal.text, hzero]
            decide
          | float =>
            rw [fieldBytes_floatCol hcol, Literal.text, hzero]
            decide
          | string => exact absurd hcol hc
  | bool val => cases h

/-! ### Rows -/

theorem cellOf_length {c : ColMeta} {l : Literal} {cell : Bytes} (h : cellOf c l = some cell) : cell.length = c.len := by
  rw [cellOf] at h
  cases hv : Sql.convertSvValue l.value with
  | error e =>
    rw [hv] at h
    cases h
  | ok v =>
    rw [hv] at h
    cases hraw : InsertExecutor.raw c v with
    | error e =>
      simp only [bind, Except.bind, hraw] at h
      cases h
    | ok bytes =>
      simp only [bind, Except.bind, hraw, Except.toOption, Option.some.injEq] at h
      rw [← h]
      exact initRaw_length hraw

theorem rowCells_eq_none (row : List (ColMeta × Literal)) : rowCells row = none ↔ ∃ p ∈ row, Refused p.1 p.2 := by
  induction row with
  | nil => simp [rowCells]
  | cons p row ih =>
    simp only [rowCells, List.mem_cons, or_and_right, exists_or, exists_eq_left, ← cellOf_eq_none] at ih ⊢
    cases cellOf p.1 p.2 with
    | none => simp
    | some cell => simpa using ih

/-- The fields of a line; an empty one at the end is none. -/
def fields (line : Bytes) : Nat := line.count 0x2c + if line = [] ∨ line.getLast? = some 0x2c then 0 else 1

/-- A line begins with a field. -/
theorem exists_field (line : Bytes) : ∃ text tail, line = text ++ tail ∧ (0x2c : UInt8) ∉ text ∧ EndsField tail := by
  refine ⟨line.takeWhile (· ≠ 0x2c), line.dropWhile (· ≠ 0x2c), (List.takeWhile_append_dropWhile).symm, fun hmem => ?_, fun b hb => ?_⟩
  · have hall : (line.takeWhile (· ≠ 0x2c)).all (· ≠ 0x2c) := List.all_takeWhile
    simpa using List.all_eq_true.mp hall _ hmem
  · have hhead := List.head?_dropWhile_not (fun b : UInt8 => decide (b ≠ 0x2c)) line
    rw [Option.mem_def.mp hb] at hhead
    simpa using hhead

theorem fields_drop {line : Bytes} (h : line ≠ []) :
    fields line = fields (line.drop ((line.takeWhile (· ≠ 0x2c)).length + 1)) + 1 := by
  obtain ⟨text, tail, rfl, hno, htail⟩ := exists_field line
  have hcount : text.count 0x2c = 0 := List.count_eq_zero.mpr hno
  rw [takeWhile_field hno htail, ← List.drop_drop, List.drop_left, fields, fields, List.count_append, hcount]
  cases tail with
  | nil =>
    rw [List.append_nil] at h ⊢
    have hlast : text.getLast? ≠ some 0x2c := fun hlast => hno (List.mem_of_getLast? hlast)
    simp [h, hlast]
  | cons b tail =>
    obtain rfl : b = 0x2c := htail b rfl
    cases tail with
    | nil => simp
    | cons d tail => simp [List.getLast?_append, List.getLast?_cons_cons, Nat.add_right_comm]

theorem fieldCells_cons {line : Bytes} (h : line ≠ []) (c : ColMeta) (cs : List ColMeta) : fieldCells (c :: cs) line =
    (fieldCells cs (line.drop ((line.takeWhile (· ≠ 0x2c)).length + 1))).map
      (fieldBytes c line (line.takeWhile (· ≠ 0x2c)).length ++ ·) := by
  rw [fieldCells, if_neg h]

theorem fieldCells_eq_none (cols : List ColMeta) (line : Bytes) : fieldCells cols line = none ↔ fields line < cols.length := by
  induction cols generalizing line with
  | nil => simp [fieldCells]
  | cons c cs ih =>
    by_cases hline : line = []
    · rw [fieldCells, if_pos hline, hline]
      exact iff_of_true rfl (Nat.succ_pos _)
    · rw [fieldCells_cons hline, Option.map_eq_none_iff, ih, fields_drop hline, List.length_cons]
      omega

/-- No literal is refused: the line is stored as the row is just if every literal keeps its meaning and the last field is not
    empty. -/
theorem fieldCells_iff {row : List (ColMeta × Literal)} {cells : Bytes} (h : rowCells row = some cells) :
    fieldCells (row.map (·.1)) (csvLine (row.map (·.2))) = some cells ↔
      (∀ p ∈ row, AsWritten p.1 p.2) ∧ ∀ l ∈ (row.map (·.2)).getLast?, l.text ≠ [] := by
  induction row generalizing cells with
  | nil =>
    cases h
    exact iff_of_true rfl ⟨by simp, by simp⟩
  | cons p row ih =>
    obtain ⟨c, l⟩ := p
    obtain ⟨cell, hcell, hrest⟩ := Option.bind_eq_some_iff.mp h
    obtain ⟨rest, hrow, rfl⟩ := Option.map_eq_some_iff.mp hrest
    cases row with
    | nil =>
      cases hrow
      have hiff := fieldBytes_iff (show EndsField [] from fun b hb => (by cases hb)) hcell
      rw [List.append_nil] at hiff
      rw [List.forall_mem_singleton]
      show fieldCells [c] l.text = some (cell ++ []) ↔ AsWritten c l ∧ ∀ m, some l = some m → m.text ≠ []
      by_cases htext : l.text = []
      · rw [fieldCells, if_pos htext]
        exact iff_of_false (fun heq => (by cases heq)) fun hlast => hlast.2 l rfl htext
      · rw [fieldCells_cons htext, fieldCells, Option.map_some, Option.some.injEq, List.append_cancel_right_eq, hiff]
        refine ⟨fun hkept => ⟨hkept, fun m hm => ?_⟩, And.left⟩
        cases hm
        exact htext
    | cons q row =>
      have htail : EndsField (0x2c :: csvLine (q.2 :: row.map (·.2))) := by
        intro b hb
        cases hb
        rfl
      have hiff := fieldBytes_iff htail hcell
      have hline : l.text ++ 0x2c :: csvLine (q.2 :: row.map (·.2)) ≠ [] := by simp
      show fieldCells (c :: q.1 :: row.map (·.1)) (l.text ++ 0x2c :: csvLine (q.2 :: row.map (·.2))) = some (cell ++ rest) ↔ _
      rw [fieldCells_cons hline, List.forall_mem_cons, List.map_cons, List.map_cons, List.getLast?_cons_cons]
      constructor
      · intro heq
        obtain ⟨bytes, hbytes, hcells⟩ := Option.map_eq_some_iff.mp heq
        obtain ⟨hfirst, hbehind⟩ := List.append_inj hcells (by rw [cellOf_length hcell, fieldBytes_length _ _ (List.takeWhile_prefix _).length_le])
        have hkept : AsWritten c l := hiff.mp hfirst
        subst hbehind
        rw [takeWhile_field hkept.noComma htail, ← List.drop_drop, List.drop_left, List.drop_one, List.tail_cons] at hbytes
        obtain ⟨hall, hlast⟩ := (ih hrow).mp hbytes
        exact ⟨⟨hkept, hall⟩, hlast⟩
      · rintro ⟨⟨hkept, hall⟩, hlast⟩
        have hbytes := (ih hrow).mpr ⟨hall, hlast⟩
        rw [hiff.mpr hkept, takeWhile_field hkept.noComma htail, ← List.drop_drop, List.drop_left, List.drop_one, List.tail_cons]
        exact Option.map_eq_some_iff.mpr ⟨rest, hbytes, rfl⟩

/-- INSERT takes the row. -/
def Taken (cols : List ColMeta) (row : List Literal) : Prop := row.length = cols.length ∧ ∀ p ∈ cols.zip row, ¬Refused p.1 p.2

/-- A row that INSERT takes keeps its meaning and does not end with an empty field; one that it refuses has too few fields. -/
structure Alike (cols : List ColMeta) (row : List Literal) : Prop where
  taken : Taken cols row → (∀ p ∈ cols.zip row, AsWritten p.1 p.2) ∧ ∀ l ∈ row.getLast?, l.text ≠ []
  refused : ¬Taken cols row → fields (csvLine row) < cols.length

/-- For every table and every row of literals, LOAD makes of the line what INSERT makes of the row just if the row is alike to both. -/
theorem load_eq_insert_iff {tab : TabMeta} (h : Consecutive 0 tab.cols) (row : List Literal) :
    ultraFastParse tab (recordSize tab.cols) (csvLine row) = (InsertExecutor.record tab (recordSize tab.cols) row).toOption ↔
      Alike tab.cols row := by
  have hparse : ultraFastParse tab (recordSize tab.cols) (csvLine row) = fieldCells tab.cols (csvLine row) := by
    rw [ultraFastParse, ← List.nil_append (List.replicate (recordSize tab.cols) 0),
      parseFields_eq (show Consecutive ([] : Bytes).length tab.cols from h)]
    simp only [List.nil_append, Option.map_id']
  rw [hparse, record_eq h]
  by_cases htaken : Taken tab.cols row
  · obtain ⟨hlen, hnone⟩ := htaken
    have hmap : (tab.cols.zip row).map (·.1) = tab.cols ∧ (tab.cols.zip row).map (·.2) = row :=
      ⟨List.map_fst_zip hlen.ge, List.map_snd_zip hlen.le⟩
    obtain ⟨cells, hcells⟩ : ∃ cells, rowCells (tab.cols.zip row) = some cells := by
      refine Option.ne_none_iff_exists'.mp fun hrow => ?_
      obtain ⟨p, hp, hrefused⟩ := (rowCells_eq_none _).mp hrow
      exact hnone p hp hrefused
    have hiff := fieldCells_iff hcells
    rw [hmap.1, hmap.2] at hiff
    rw [if_pos hlen, hcells, hiff]
    exact ⟨fun hkept => ⟨fun _ => hkept, fun hnot => absurd ⟨hlen, hnone⟩ hnot⟩, fun halike => halike.taken ⟨hlen, hnone⟩⟩
  · have hnone : (if row.length = tab.cols.length then rowCells (tab.cols.zip row) else none) = none := by
      split
      · next hlen =>
        refine (rowCells_eq_none _).mpr (Classical.not_not.mp fun hno => htaken ⟨hlen, fun p hp hrefused => hno ⟨p, hp, hrefused⟩⟩)
      · rfl
    rw [hnone, fieldCells_eq_none]
    exact ⟨fun hfew => ⟨fun hyes => absurd hyes htaken, fun _ => hfew⟩, fun halike => halike.refused htaken⟩

/-- A table with an INT and a CHAR(2) column. -/
def intAndChars : TabMeta := ⟨"t", [⟨"a", .int, 4, 0, by simp⟩, ⟨"b", .string, 2, 4, by simp⟩], by decide⟩

theorem digits_one : ∀ b ∈ ([0x31] : Bytes), isDigit b := by simp [isDigit]

theorem noQuote_xy : ∀ b ∈ ([0x78, 0x79] : Bytes), b ≠ 0x27 ∧ b ≠ 0 ∧ b ≠ 0x0a := by simp

/-- The row `-1, 'xy'`. -/
def minusOneAndXy : List Literal := [.int .minus ⟨[0x31], digits_one, List.cons_ne_nil _ _⟩, .str [0x78, 0x79] noQuote_xy]

theorem load_eq_insert_iff_minusOne : ultraFastParse intAndChars (recordSize intAndChars.cols) (csvLine minusOneAndXy) =
    (InsertExecutor.record intAndChars (recordSize intAndChars.cols) minusOneAndXy).toOption := by
  refine (load_eq_insert_iff (by simp [intAndChars, Consecutive]) minusOneAndXy).mpr ⟨fun _ => ⟨?_, ?_⟩, fun hnot => absurd ?_ hnot⟩
  · simp [intAndChars, minusOneAndXy, AsWritten, decimal]
  · simp [minusOneAndXy, Literal.text]
  · simp [intAndChars, minusOneAndXy, Taken, Refused]

/-- A table with a FLOAT column. -/
def oneFloat : TabMeta := ⟨"t", [⟨"a", .float, 4, 0, by simp⟩], by decide⟩

theorem digits_five : ∀ b ∈ ([0x35] : Bytes), isDigit b := by simp [isDigit]

/-- The row `1.5`. -/
def oneAndAHalf : List Literal := [.float .none ⟨[0x31], digits_one, List.cons_ne_nil _ _⟩ [0x35] digits_five]

theorem load_drops_fraction : ultraFastParse oneFloat 4 (csvLine oneAndAHalf) = some (putWord (floatBits 1)) ∧
    (InsertExecutor.record oneFloat 4 oneAndAHalf).toOption = some (putWord 0x3fc00000) ∧
      ultraFastParse oneFloat 4 (csvLine oneAndAHalf) ≠ (InsertExecutor.record oneFloat 4 oneAndAHalf).toOption := by
  decide +kernel

end Rmdb
