import Rmdb.Exec.Insert
import Rmdb.Theorems.Exec.LoadIndex
import Rmdb.Theorems.Exec.LoadLine
import Rmdb.Theorems.Exec.LoadRows

/-! An INSERT raises an exception before it changes anything, or it adds a row with an entry in every index, unless the first free
page of the table file has no free slot. -/

namespace Rmdb
open Ladder

/-! ### The bytes of a float -/

theorem floatOfNat_le {m : Nat} (h : 0 < m) : floatOfNat m ≤ 2 * m := by
  unfold floatOfNat
  split
  · omega
  · next hm =>
    have hulp : 1 <<< (m.log2 - 23) ≤ m := by
      rw [Nat.one_shiftLeft]
      exact (Nat.pow_le_pow_right (by decide) (Nat.sub_le ..)).trans (Nat.log2_self_le (by omega))
    have hdiv := Nat.div_mul_le_self m (1 <<< (m.log2 - 23))
    unfold roundEven
    split
    · rw [Nat.add_mul]
      omega
    · omega

/-- An `int` is a number as a float. -/
theorem floatBits_number {n : Int} (hlo : -0x80000000 ≤ n) (hhi : n ≤ 0x7fffffff) :
    floatBits n < 0x100000000 ∧ isNan (floatBits n) = false := by
  unfold floatBits
  split
  · exact ⟨by decide, by decide⟩
  · next hn =>
    have hle := floatOfNat_le (m := n.natAbs) (by omega)
    generalize floatOfNat n.natAbs = m at hle
    have hlog : m.log2 < 33 := by
      by_cases hm : m = 0
      · subst hm
        decide
      · exact (Nat.log2_lt hm).mpr (by omega)
    have hfrac : (m <<< 23) >>> m.log2 < 0x1000000 := by
      rw [Nat.shiftLeft_eq, Nat.shiftRight_eq_div_pow]
      refine Nat.div_lt_of_lt_mul ?_
      have hlt := Nat.lt_log2_self (n := m)
      rw [Nat.pow_succ] at hlt
      omega
    have hexp : 127 * 0x800000 ≤ (m.log2 + 127) <<< 23 ∧ (m.log2 + 127) <<< 23 ≤ 159 * 0x800000 := by
      rw [Nat.shiftLeft_eq]
      omega
    simp only
    generalize (m.log2 + 127) <<< 23 = exponent at hexp
    generalize (m <<< 23) >>> m.log2 = fraction at hfrac
    rw [isNan, floatMagnitude, decide_eq_false_iff_not]
    split <;> omega

namespace InsertExecutor
open RmFile LoadExecutor IxIndexHandle
variable {tab : TabMeta}

/-! ### The record -/

/-- A value of the type of a column, with a number for a number: an `int` has 32 bits and a `float` is not a NaN. -/
def OfType (c : ColMeta) : Sql.Value → Prop
  | .int n => c.type ≠ .string ∧ -0x80000000 ≤ n ∧ n ≤ 0x7fffffff
  | .float w => c.type ≠ .string ∧ w < 0x100000000 ∧ isNan w = false
  | .str _ => c.type = .string

/-- A string is longer than its column. -/
def TooLong (c : ColMeta) : Sql.Value → Prop
  | .str s => c.len < s.length
  | .int _ | .float _ => False

/-- The bytes of a value in its column. -/
def valueCell (c : ColMeta) (v : Sql.Value) : Bytes :=
  match convert c.type v with
  | .int n => putInt n
  | .float w => putWord w
  | .str s => s ++ List.replicate (c.len - s.length) 0

/-- The record of a row of values: their bytes, one behind the other. -/
def rowBytes (cols : List ColMeta) (vs : List Sql.Value) : Bytes := (cols.zip vs).flatMap fun p => valueCell p.1 p.2

variable {c : ColMeta} {v : Sql.Value}

/-- What `init_raw` writes for a number. -/
theorem raw_number (hc : c.type ≠ .string) (hv : ∀ s, v ≠ .str s) : raw c v = .ok (valueCell c v) := by
  cases v with
  | int n =>
    rw [raw, valueCell, convert]
    split <;> exact if_pos (c.fixed hc)
  | float w =>
    rw [raw, valueCell, convert]
    split <;> exact if_pos (c.fixed hc)
  | str s => exact absurd rfl (hv s)

theorem raw_ok (h : OfType c v) (hlong : ¬TooLong c v) : raw c v = .ok (valueCell c v) := by
  cases v with
  | int n => exact raw_number h.1 (by simp)
  | float w => exact raw_number h.1 (by simp)
  | str s => exact if_neg hlong

theorem raw_tooLong (hlong : TooLong c v) : raw c v = .error .stringOverflow := by
  cases v with
  | int n => cases hlong
  | float w => cases hlong
  | str s => exact if_pos hlong

theorem valueCell_length (h : OfType c v) (hlong : ¬TooLong c v) : (valueCell c v).length = c.len := initRaw_length (raw_ok h hlong)

/-- A FLOAT column holds a number. -/
theorem valueCell_float (h : OfType c v) (hc : c.type = .float) :
    ∃ w, w < 0x100000000 ∧ isNan w = false ∧ valueCell c v = putWord w := by
  cases v with
  | int n =>
    obtain ⟨hlt, hnan⟩ := floatBits_number h.2.1 h.2.2
    exact ⟨floatBits n, hlt, hnan, by rw [valueCell, convert, if_pos hc]⟩
  | float w => exact ⟨w, h.2.1, h.2.2, by rw [valueCell, convert, if_neg (by rw [hc]; decide)]⟩
  | str s =>
    rw [show c.type = .string from h] at hc
    cases hc

variable {cols : List ColMeta} {vs : List Sql.Value}

theorem fill_ok (done : Bytes) (h : Consecutive done.length cols) (hlen : vs.length = cols.length)
    (hvs : ∀ p ∈ cols.zip vs, OfType p.1 p.2) (hshort : ∀ p ∈ cols.zip vs, ¬TooLong p.1 p.2) :
    fill (cols.zip vs) (done ++ List.replicate (recordSize cols) 0) = .ok (done ++ rowBytes cols vs) := by
  induction cols generalizing vs done with
  | nil => simp [fill, rowBytes, recordSize]
  | cons c cs ih =>
    obtain ⟨v, vs, rfl⟩ := List.exists_cons_of_length_eq_add_one hlen
    obtain ⟨hoffset, hrest⟩ := h
    rw [List.zip_cons_cons, List.forall_mem_cons] at hvs hshort
    have hcell := valueCell_length hvs.1 hshort.1
    have hsize : recordSize (c :: cs) = c.len + recordSize cs := by simp [recordSize]
    have htail := ih (done ++ valueCell c v) (by rw [List.length_append, hcell]; exact hrest) (by simpa using hlen) hvs.2 hshort.2
    rw [List.zip_cons_cons, fill, raw_ok hvs.1 hshort.1, hsize]
    show fill (cs.zip vs) (writeAt _ c.offset (valueCell c v)) = _
    rw [writeAt_end hoffset hcell.symm, htail, List.append_assoc]
    rfl

theorem fill_tooLong {rec : Bytes} (hvs : ∀ p ∈ cols.zip vs, OfType p.1 p.2) (hlong : ∃ p ∈ cols.zip vs, TooLong p.1 p.2) :
    fill (cols.zip vs) rec = .error .stringOverflow := by
  induction cols generalizing vs rec with
  | nil => simp at hlong
  | cons c cs ih =>
    cases vs with
    | nil => simp at hlong
    | cons v vs =>
      rw [List.zip_cons_cons] at hvs hlong ⊢
      rw [List.forall_mem_cons] at hvs
      rw [fill]
      by_cases hv : TooLong c v
      · rw [raw_tooLong hv]
        rfl
      · rw [raw_ok hvs.1 hv]
        refine ih hvs.2 ?_
        simpa [hv] using hlong

/-- The statement builds the record of its values, or it raises an exception. -/
theorem build_cases (h : Consecutive 0 tab.cols) (hvs : ∀ p ∈ tab.cols.zip vs, OfType p.1 p.2) :
    ((vs.length ≠ tab.cols.length ∨ ∃ p ∈ tab.cols.zip vs, TooLong p.1 p.2) ∧ ∃ e, build tab (recordSize tab.cols) vs = .error e) ∨
      (vs.length = tab.cols.length ∧ (∀ p ∈ tab.cols.zip vs, ¬TooLong p.1 p.2) ∧
        build tab (recordSize tab.cols) vs = .ok (rowBytes tab.cols vs)) := by
  rw [build]
  by_cases hlen : vs.length = tab.cols.length
  · rw [if_neg (not_not.mpr hlen)]
    by_cases hlong : ∃ p ∈ tab.cols.zip vs, TooLong p.1 p.2
    · rw [fill_tooLong hvs hlong]
      exact Or.inl ⟨Or.inr hlong, _, rfl⟩
    · have hshort : ∀ p ∈ tab.cols.zip vs, ¬TooLong p.1 p.2 := fun p hp hv => hlong ⟨p, hp, hv⟩
      have hfill := fill_ok [] h hlen hvs hshort
      rw [List.nil_append, List.nil_append] at hfill
      rw [hfill]
      exact Or.inr ⟨hlen, hshort, rfl⟩
  · rw [if_pos hlen]
    exact Or.inl ⟨Or.inl hlen, _, rfl⟩

/-! ### Keys -/

/-- A column of the record has the bytes of its value. -/
theorem cell_rowBytes (done : Bytes) (h : Consecutive done.length cols) (hlen : vs.length = cols.length)
    (hcells : ∀ p ∈ cols.zip vs, (valueCell p.1 p.2).length = p.1.len) (hc : c ∈ cols) :
    ∃ v, (c, v) ∈ cols.zip vs ∧ c.cell (done ++ rowBytes cols vs) = valueCell c v := by
  induction cols generalizing vs done with
  | nil => cases hc
  | cons d ds ih =>
    obtain ⟨v, vs, rfl⟩ := List.exists_cons_of_length_eq_add_one hlen
    obtain ⟨hoffset, hrest⟩ := h
    rw [List.zip_cons_cons, List.forall_mem_cons] at hcells
    have hrow : rowBytes (d :: ds) (v :: vs) = valueCell d v ++ rowBytes ds vs := rfl
    rw [hrow, List.zip_cons_cons]
    rcases List.mem_cons.mp hc with rfl | hc
    · refine ⟨v, List.mem_cons_self, ?_⟩
      rw [ColMeta.cell, hoffset, List.drop_left, ← hcells.1, List.take_left]
    · obtain ⟨w, hw, hcell⟩ := ih (done ++ valueCell d v) (by rw [List.length_append, hcells.1]; exact hrest)
        (by simpa using hlen) hcells.2 hc
      exact ⟨w, List.mem_cons_of_mem _ hw, by rw [← List.append_assoc]; exact hcell⟩

theorem nanFree_flatMap {cs : List ColMeta} {a : ColMeta → Bytes} (hlen : ∀ c ∈ cs, (a c).length = c.len)
    (hfloat : ∀ c ∈ cs, c.type = .float → ∃ w, w < 0x100000000 ∧ isNan w = false ∧ a c = putWord w) :
    NanFree (cs.map (·.ixCol)) (cs.flatMap a) := by
  induction cs with
  | nil => trivial
  | cons c cs ih =>
    rw [List.forall_mem_cons] at hlen hfloat
    refine ⟨fun hc => ?_, ?_⟩
    · obtain ⟨w, hw, hnan, hcell⟩ := hfloat.1 hc
      rw [List.flatMap_cons, hcell, readWord_putWord hw]
      exact hnan
    · have hdrop : ((c :: cs).flatMap a).drop c.ixCol.len = cs.flatMap a := by
        rw [List.flatMap_cons, ColMeta.ixCol_len, ← hlen.1, List.drop_left]
      rw [hdrop]
      exact ih hlen.2 hfloat.2

/-- The bytes of the record are a key of every index. -/
theorem ixKey_rowBytes (h : Consecutive 0 tab.cols) (hlen : vs.length = tab.cols.length)
    (hvs : ∀ p ∈ tab.cols.zip vs, OfType p.1 p.2) (hshort : ∀ p ∈ tab.cols.zip vs, ¬TooLong p.1 p.2) (ix : IndexMeta tab) :
    ∃ key, ixKey ix.ixCols (ix.keyBytes (rowBytes tab.cols vs)) = .ok key := by
  have hcell : ∀ c ∈ ix.cols, ∃ v, OfType c v ∧ ¬TooLong c v ∧ c.cell (rowBytes tab.cols vs) = valueCell c v := by
    intro c hc
    obtain ⟨v, hv, hcell⟩ := cell_rowBytes [] h hlen (fun p hp => valueCell_length (hvs p hp) (hshort p hp)) (ix.sub c hc)
    exact ⟨v, hvs _ hv, hshort _ hv, hcell⟩
  have hlength : (ix.keyBytes (rowBytes tab.cols vs)).length = colTotLen ix.ixCols := by
    refine length_flatMap_cells fun c hc => ?_
    obtain ⟨v, hv, hlong, heq⟩ := hcell c hc
    rw [heq, valueCell_length hv hlong]
  have hnan : NanFree ix.ixCols (ix.keyBytes (rowBytes tab.cols vs)) := by
    refine nanFree_flatMap (fun c hc => ?_) fun c hc hfloat => ?_
    · obtain ⟨v, hv, hlong, heq⟩ := hcell c hc
      rw [heq, valueCell_length hv hlong]
    · obtain ⟨v, hv, -, heq⟩ := hcell c hc
      rw [heq]
      exact valueCell_float hv hfloat
  exact ⟨_, dif_pos ⟨hlength, hnan⟩⟩

/-! ### The indexes -/

/-- The entries in the leaves of an index. -/
def Holds (o : OpenIndex tab) (es : List (Bytes × Rid)) : Prop :=
  ∃ L Us, Tree (ixFormat o.1.ixCols) o.2 L Us ∧ (flat L).map (fun e => (e.1.val, e.2)) = es

/-- The index has an entry with the key. -/
def HasKey (o : OpenIndex tab) (key : Bytes) : Prop := ∃ es, Holds o es ∧ ∃ e ∈ es, ixCompare o.1.ixCols e.1 key = 0

/-- The index has the entry of the row besides those it had before. -/
structure Gains (rec : Bytes) (rid : Rid) (o o' : OpenIndex tab) : Prop where
  same : o'.1 = o.1
  entry : ∀ es, Holds o es → ∃ E F, es = E ++ F ∧ Holds o' (E ++ (o.1.keyBytes rec, rid) :: F)

variable {rec : Bytes} {rid : Rid} {o : OpenIndex tab} {os : List (OpenIndex tab)}

/-- `is_unique` finds out whether the index has an entry with the key. -/
theorem isUnique_hasKey (hacc : IxAccepts o.1.ixCols) {es : List (Bytes × Rid)} (hes : Holds o es) (key : IxKey o.1.ixCols) :
    (HasKey o key.val ∧ ∃ r, o.2.isUnique (ixFormat o.1.ixCols) key = .ok (false, r)) ∨
      (¬HasKey o key.val ∧ ∃ r, o.2.isUnique (ixFormat o.1.ixCols) key = .ok (true, r)) := by
  have hf := ixFormat_lawful hacc
  have hkey : ∀ {L Us}, Tree (ixFormat o.1.ixCols) o.2 L Us →
      ((∃ e ∈ (flat L).map (fun e => (e.1.val, e.2)), ixCompare o.1.ixCols e.1 key.val = 0) ↔ valueOf (ixFormat o.1.ixCols) (flat L) key ≠ none) := by
    intro L Us T
    rw [Ne, valueOf_eq_none hf]
    constructor
    · rintro ⟨x, hx, hzero⟩ hnone
      obtain ⟨e, he, rfl⟩ := List.mem_map.mp hx
      exact hnone e he ((hf.eq_iff e.1 key).mp hzero)
    · intro hsome
      simp only [not_forall, not_not] at hsome
      obtain ⟨e, he, hsame⟩ := hsome
      exact ⟨_, List.mem_map_of_mem he, (hf.eq_iff e.1 key).mpr hsame⟩
  obtain ⟨L, Us, T, rfl⟩ := hes
  have hunique := isUnique_eq hf T key
  cases hval : valueOf (ixFormat o.1.ixCols) (flat L) key with
  | some r =>
    rw [hval] at hunique
    exact Or.inl ⟨⟨_, ⟨L, Us, T, rfl⟩, (hkey T).mpr (by rw [hval]; simp)⟩, _, hunique⟩
  | none =>
    rw [hval] at hunique
    refine Or.inr ⟨?_, _, hunique⟩
    rintro ⟨-, ⟨L', Us', T', rfl⟩, hhas⟩
    have hunique' := isUnique_eq hf T' key
    rw [hunique] at hunique'
    cases hval' : valueOf (ixFormat o.1.ixCols) (flat L') key with
    | none => exact (hkey T').mp hhas hval'
    | some r =>
      rw [hval'] at hunique'
      cases hunique'

/-- `insert_entry` of a new key does not fail. -/
theorem insertEntry_gains (hacc : IxAccepts o.1.ixCols) {es : List (Bytes × Rid)} (hes : Holds o es) {key : IxKey o.1.ixCols}
    (hval : key.val = o.1.keyBytes rec) (hnew : ¬HasKey o key.val) (rid : Rid) :
    ∃ t q, o.2.insertEntry (ixFormat o.1.ixCols) key rid = .ok (t, q) ∧ Gains rec rid o ⟨o.1, t⟩ := by
  have hf := ixFormat_lawful hacc
  have habsent : ∀ {L Us}, Tree (ixFormat o.1.ixCols) o.2 L Us → ∀ e ∈ flat L, ¬Same e.1 key := fun T e he hsame =>
    hnew ⟨_, ⟨_, _, T, rfl⟩, _, List.mem_map_of_mem he, (hf.eq_iff e.1 key).mpr hsame⟩
  obtain ⟨L, Us, T, -⟩ := hes
  obtain ⟨t, q, -, -, hins, -, -⟩ := insertEntry_absent hf T (habsent T) rid
  refine ⟨t, q, hins, rfl, fun es hes => ?_⟩
  obtain ⟨L', Us', T', rfl⟩ := hes
  obtain ⟨t', q', M, Vs, hins', -, hdone⟩ := insertEntry_absent hf T' (habsent T') rid
  rw [hins] at hins'
  cases hins'
  obtain ⟨E, F, hL, hM⟩ := hdone.entries
  refine ⟨E.map fun e => (e.1.val, e.2), F.map fun e => (e.1.val, e.2), by rw [hL, List.map_append], M, Vs, hdone.tree, ?_⟩
  rw [hM, List.map_append, List.map_cons, hval]

/-- The loop over the keys gives up just if an index has one. -/
theorem findsKey_cases (hsound : ∀ o ∈ os, IxAccepts o.1.ixCols ∧ ∃ es, Holds o es)
    (hkey : ∀ o ∈ os, ∃ key, ixKey o.1.ixCols (o.1.keyBytes rec) = .ok key) :
    ((∃ o ∈ os, HasKey o (o.1.keyBytes rec)) ∧ findsKey rec os = .ok true) ∨
      ((∀ o ∈ os, ¬HasKey o (o.1.keyBytes rec)) ∧ findsKey rec os = .ok false) := by
  induction os with
  | nil => exact Or.inr ⟨by simp, rfl⟩
  | cons o os ih =>
    rw [List.forall_mem_cons] at hsound hkey
    obtain ⟨⟨hacc, es, hes⟩, hsound⟩ := hsound
    obtain ⟨⟨key, hix⟩, hkey⟩ := hkey
    rw [findsKey, hix]
    simp only [ok_bind]
    rw [List.exists_mem_cons_iff, List.forall_mem_cons, ← ixKey_val hix]
    rcases isUnique_hasKey hacc hes key with ⟨hhas, r, hunique⟩ | ⟨hnot, r, hunique⟩
    · rw [hunique]
      exact Or.inl ⟨Or.inl hhas, rfl⟩
    · rw [hunique]
      rcases ih hsound hkey with ⟨hsome, hfinds⟩ | ⟨hnone, hfinds⟩
      · exact Or.inl ⟨Or.inr hsome, hfinds⟩
      · exact Or.inr ⟨⟨hnot, hnone⟩, hfinds⟩

/-- The loop over the entries does not fail when every key is new. -/
theorem insertEntries_gains (hsound : ∀ o ∈ os, IxAccepts o.1.ixCols ∧ ∃ es, Holds o es)
    (hkey : ∀ o ∈ os, ∃ key, ixKey o.1.ixCols (o.1.keyBytes rec) = .ok key) (hnew : ∀ o ∈ os, ¬HasKey o (o.1.keyBytes rec)) (rid : Rid) :
    ∃ os', insertEntries rec rid os = .ok os' ∧ List.Forall₂ (Gains rec rid) os os' := by
  induction os with
  | nil => exact ⟨[], rfl, .nil⟩
  | cons o os ih =>
    rw [List.forall_mem_cons] at hsound hkey hnew
    obtain ⟨⟨hacc, es, hes⟩, hsound⟩ := hsound
    obtain ⟨⟨key, hix⟩, hkey⟩ := hkey
    obtain ⟨hnot, hnew⟩ := hnew
    rw [← ixKey_val hix] at hnot
    obtain ⟨t, q, hins, hgains⟩ := insertEntry_gains hacc hes (ixKey_val hix) hnot rid
    obtain ⟨os', hrest, hall⟩ := ih hsound hkey hnew
    refine ⟨⟨o.1, t⟩ :: os', ?_, .cons hgains hall⟩
    rw [insertEntries, hix, ok_bind, hins, ok_bind, hrest]
    rfl

/-! ### The statement -/

/-- The table file and the trees that the indexes are. -/
structure State.Sound (s : State tab) : Prop where
  shaped : Shaped s.file
  perPage : 0 < s.file.perPage
  free : s.file.firstFreePageNo = rmNoPage ∨ (s.file.pages s.file.firstFreePageNo).isSome
  indexes : ∀ o ∈ s.indexes, IxAccepts o.1.ixCols ∧ ∃ es, Holds o es

/-- The table has one row more, and every index an entry for it. -/
structure Adds (rec : Bytes) (s t : State tab) (rid : Rid) : Prop where
  new : s.file.lookup rid = none
  rows : ∀ r, t.file.lookup r = if r = rid then some rec else s.file.lookup r
  indexes : List.Forall₂ (Gains rec rid) s.indexes t.indexes

/-- The statement raises an exception and changes nothing, or it adds a row with the values. -/
def InsertOk (id : Int) (s : State tab) (vs : List Sql.Value) : Prop :=
  (∃ e, next (recordSize tab.cols) id s vs = .ok (s, some e)) ∨
    ∃ t rid, next (recordSize tab.cols) id s vs = .ok (t, none) ∧ Adds (rowBytes tab.cols vs) s t rid

/-- The statement has a wrong number of values, a string that is too long, or a key that an index has. -/
def Refused (s : State tab) (vs : List Sql.Value) : Prop :=
  (vs.length ≠ tab.cols.length ∨ ∃ p ∈ tab.cols.zip vs, TooLong p.1 p.2) ∨
    ∃ o ∈ s.indexes, HasKey o (o.1.keyBytes (rowBytes tab.cols vs))

/-- The first free page, if there is one, has a free slot. -/
def HasRoom (f : RmFile) : Prop := ∀ page, f.pages f.firstFreePageNo = some page → none ∈ page.slots

theorem findIdx_isNone_lt {slots : List (Option Bytes)} : slots.findIdx (·.isNone) < slots.length ↔ none ∈ slots := by
  rw [List.findIdx_lt_length]
  constructor
  · rintro ⟨x, hx, hnone⟩
    rwa [Option.isNone_iff_eq_none.mp hnone] at hx
  · exact fun h => ⟨none, h, rfl⟩

/-- `insert_record` finds a slot just if the first free page has one. -/
theorem insertRecord_cases {f : RmFile} (h : Shaped f) (hper : 0 < f.perPage)
    (hfree : f.firstFreePageNo = rmNoPage ∨ (f.pages f.firstFreePageNo).isSome) (buf : Bytes) :
    (HasRoom f ∧ ∃ g rid, f.insertRecord buf = .ok (g, rid)) ∨ (¬HasRoom f ∧ f.insertRecord buf = .error .outOfPage) := by
  by_cases hnone : f.firstFreePageNo = rmNoPage
  · have hpages : f.pages f.firstFreePageNo = none := by
      refine Option.eq_none_iff_forall_ne_some.mpr fun page hpage => ?_
      have hlo := (h.page _ _ hpage).1
      rw [hnone] at hlo
      exact absurd hlo (by decide)
    refine Or.inl ⟨fun page hpage => absurd (hpages.symm.trans hpage) nofun, ?_⟩
    have hslot : ¬f.createNewPageHandle.1.perPage ≤ f.createNewPageHandle.2.2.slots.findIdx (·.isNone) := by
      refine Nat.not_le.mpr ?_
      have hlt : (List.replicate f.perPage (none : Option Bytes)).findIdx (·.isNone) < (List.replicate f.perPage (none : Option Bytes)).length :=
        findIdx_isNone_lt.mpr (List.mem_replicate.mpr ⟨Nat.pos_iff_ne_zero.mp hper, rfl⟩)
      rw [List.length_replicate] at hlt
      exact hlt
    rw [insertRecord, freePageHandle, if_pos hnone, ok_bind]
    simp only [if_neg hslot]
    exact ⟨_, _, rfl⟩
  · obtain ⟨page, hpage⟩ := Option.isSome_iff_exists.mp (hfree.resolve_left hnone)
    obtain ⟨hlo, hhi, hlen⟩ := h.page _ _ hpage
    have hfetch : f.fetchPageHandle f.firstFreePageNo = .ok page := by
      rw [fetchPageHandle, if_neg (by rw [h.next]; omega), hpage]
    have hroom : HasRoom f ↔ page.slots.findIdx (·.isNone) < f.perPage := by
      rw [← hlen, findIdx_isNone_lt]
      refine ⟨fun hroom => hroom page hpage, fun hmem page' hpage' => ?_⟩
      rw [hpage] at hpage'
      cases hpage'
      exact hmem
    rw [insertRecord, freePageHandle, if_neg hnone, hfetch, ok_bind, hroom]
    by_cases hslot : page.slots.findIdx (·.isNone) < f.perPage
    · refine Or.inl ⟨hslot, ?_⟩
      simp only [ok_bind, if_neg (Nat.not_le.mpr hslot)]
      exact ⟨_, _, rfl⟩
    · refine Or.inr ⟨hslot, ?_⟩
      simp only [ok_bind, if_pos (Nat.not_lt.mp hslot)]

/-- For every table, every state of its file and its indexes and every row of values, an INSERT raises an exception and changes
    nothing or adds the row, just if the statement is refused or the first free page has a free slot. -/
theorem insert_ok_iff (h : Consecutive 0 tab.cols) (id : Int) (s : State tab) (hs : s.Sound) (vs : List Sql.Value)
    (hvs : ∀ p ∈ tab.cols.zip vs, OfType p.1 p.2) : InsertOk id s vs ↔ Refused s vs ∨ HasRoom s.file := by
  rcases build_cases h hvs with ⟨hrefused, e, hbuild⟩ | ⟨hlen, hshort, hbuild⟩
  · have hnext : next (recordSize tab.cols) id s vs = .ok (s, some (.values e)) := by rw [next, hbuild]
    exact ⟨fun _ => Or.inl (Or.inl hrefused), fun _ => Or.inl ⟨_, hnext⟩⟩
  · have hkey : ∀ o ∈ s.indexes, ∃ key, ixKey o.1.ixCols (o.1.keyBytes (rowBytes tab.cols vs)) = .ok key :=
      fun o _ => ixKey_rowBytes h hlen hvs hshort o.1
    have hbuilt : ¬(vs.length ≠ tab.cols.length ∨ ∃ p ∈ tab.cols.zip vs, TooLong p.1 p.2) := by
      rintro (hne | ⟨p, hp, hlong⟩)
      · exact hne hlen
      · exact hshort p hp hlong
    rcases findsKey_cases hs.indexes hkey with ⟨hhas, hfinds⟩ | ⟨hnew, hfinds⟩
    · have hnext : next (recordSize tab.cols) id s vs = .ok (s, some .uniqueCheck) := by
        rw [next, hbuild]
        simp only [hfinds]
      exact ⟨fun _ => Or.inl (Or.inr hhas), fun _ => Or.inl ⟨_, hnext⟩⟩
    · have hrefused : ¬Refused s vs := by
        rintro (hbad | ⟨o, ho, hhas⟩)
        · exact hbuilt hbad
        · exact hnew o ho hhas
      rw [or_iff_right hrefused]
      rcases insertRecord_cases hs.shaped hs.perPage hs.free (rowBytes tab.cols vs) with ⟨hroom, f, rid, hins⟩ | ⟨hroom, hins⟩
      · refine ⟨fun _ => hroom, fun _ => Or.inr ?_⟩
        obtain ⟨os, hos, hgains⟩ := insertEntries_gains hs.indexes hkey hnew rid
        obtain ⟨-, hnone, hrows⟩ := hs.shaped.insertRecord hins
        rw [next, hbuild]
        simp only [hfinds, hins, hos]
        exact ⟨_, rid, rfl, hnone, hrows, hgains⟩
      · have hnext : next (recordSize tab.cols) id s vs = .error (.record .outOfPage) := by
          rw [next, hbuild]
          simp only [hfinds, hins]
        refine ⟨fun hok => ?_, fun hyes => absurd hyes hroom⟩
        rcases hok with ⟨e, he⟩ | ⟨t, rid, he, -⟩
        · rw [hnext] at he
          cases he
        · rw [hnext] at he
          cases he

/-- A new table with an index on its column. -/
def newNumTab : State numTab := ⟨RmFile.create 4, ⟨0, false⟩, fun _ => none, [⟨numIx, create⟩], [], []⟩

theorem insert_ok_iff_seven : InsertOk 1 newNumTab [.int 7] := by
  have hsound : newNumTab.Sound := by
    refine ⟨Shaped.create 4, by decide, Or.inl rfl, fun o ho => ?_⟩
    obtain rfl := List.mem_singleton.mp ho
    exact ⟨by decide, [], [⟨ixInitRootPage, []⟩], [], Tree.create _, rfl⟩
  have hvalues : ∀ p ∈ numTab.cols.zip [Sql.Value.int 7], OfType p.1 p.2 := by
    intro p hp
    obtain rfl := List.mem_singleton.mp hp
    exact ⟨by decide, by decide, by decide⟩
  exact (@insert_ok_iff numTab ⟨rfl, trivial⟩ 1 newNumTab hsound [.int 7] hvalues).mpr (Or.inr fun _ hpage => absurd hpage nofun)

theorem wideCol_fixed : ColType.string ≠ .string → 512 = 4 := fun h => absurd rfl h

theorem wideCol_distinct : (["a"] : List String).Nodup := List.nodup_singleton _

/-- A table with a CHAR(512) column: seven records fill a page. -/
def wideTab : TabMeta := ⟨"t", [⟨"a", .string, 512, 0, wideCol_fixed⟩], wideCol_distinct⟩

/-- The table with a file that a LOAD filled. -/
def loadedWide (file : RmFile) : State wideTab := ⟨file, ⟨7, true⟩, fun _ => none, [], [], []⟩

/-- After a LOAD of seven lines and seven INSERTs the first free page is the full one that the LOAD filled. -/
theorem insert_full : ∃ file indexes loaded s,
    LoadExecutor.next 512 (RmFile.create 512) ([] : List (OpenIndex wideTab)) ([0x61] :: List.replicate 7 [0x62]) = .ok (file, indexes, loaded) ∧
      Runs.exec (step 512 1) (loadedWide file) (List.replicate 7 [.str [0x63]]) = .ok s ∧ ¬InsertOk 1 s [.str [0x63]] := by
  obtain ⟨⟨file, indexes, loaded⟩, hload, hview⟩ := ok_of_eval
    (x := LoadExecutor.next 512 (RmFile.create 512) ([] : List (OpenIndex wideTab)) ([0x61] :: List.replicate 7 [0x62]))
    (h := fun r => (Runs.exec (step 512 1) (loadedWide r.1) (List.replicate 7 [.str [0x63]])).toOption.map fun s =>
      (next 512 1 s [.str [0x63]]).toOption.isNone)
    (b := some true) (by decide)
  obtain ⟨s, hs, hnone⟩ := Runs.exec_eval (step 512 1) (loadedWide file) (List.replicate 7 [.str [0x63]])
    (fun s => (next 512 1 s [.str [0x63]]).toOption.isNone) hview
  refine ⟨file, indexes, loaded, s, hload, hs, ?_⟩
  rintro (⟨e, he⟩ | ⟨t, rid, he, -⟩)
  · rw [show next 512 1 s [.str [0x63]] = _ from he] at hnone
    cases hnone
  · rw [show next 512 1 s [.str [0x63]] = _ from he] at hnone
    cases hnone

end InsertExecutor
end Rmdb
