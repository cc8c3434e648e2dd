import Rmdb.Sql.Update
import Rmdb.Theorems.Exec.Cond
import Rmdb.System.SmManager
import Mathlib.Data.List.Induction
import Mathlib.Data.List.Pairwise

/-! Which row the expressions of an UPDATE see.

The loop puts each new value into the record that the next one is computed from. So the values are those of the row from before the
statement just if no value changes when the columns of the clauses before it are set. -/

namespace Rmdb
variable {record bs cs : Bytes} {a b : Nat}

/-! ### Writes into a record -/

theorem length_writeAt (h : a + bs.length ≤ record.length) : (writeAt record a bs).length = record.length := by
  simp only [writeAt, List.length_append, List.length_take, List.length_drop]
  omega

theorem getElem?_writeAt (h : a + bs.length ≤ record.length) (i : Nat) :
    (writeAt record a bs)[i]? = if a ≤ i ∧ i < a + bs.length then bs[i - a]? else record[i]? := by
  have hlen : (record.take a).length = a := List.length_take_of_le (by omega)
  rw [writeAt, List.append_assoc]
  rcases Nat.lt_or_ge i a with hlt | hge
  · rw [List.getElem?_append_left (by omega), List.getElem?_take_of_lt hlt, if_neg (by omega)]
  · rw [List.getElem?_append_right (by omega), hlen]
    rcases Nat.lt_or_ge i (a + bs.length) with hin | hout
    · rw [List.getElem?_append_left (by omega), if_pos ⟨hge, hin⟩]
    · rw [List.getElem?_append_right (by omega), List.getElem?_drop, if_neg (by omega)]
      congr 1
      omega

theorem writeAt_comm (ha : a + bs.length ≤ record.length) (hb : b + cs.length ≤ record.length)
    (h : a + bs.length ≤ b ∨ b + cs.length ≤ a) : writeAt (writeAt record a bs) b cs = writeAt (writeAt record b cs) a bs := by
  refine List.ext_getElem? fun i => ?_
  rw [getElem?_writeAt (by rwa [length_writeAt ha]), getElem?_writeAt ha, getElem?_writeAt (by rwa [length_writeAt hb]), getElem?_writeAt hb]
  by_cases hi : a ≤ i ∧ i < a + bs.length
  · rw [if_pos hi, if_pos hi, if_neg (by omega)]
  · rw [if_neg hi, if_neg hi]

theorem take_drop_writeAt {len : Nat} (ha : a + bs.length ≤ record.length) (h : a + bs.length ≤ b ∨ b + len ≤ a) :
    ((writeAt record a bs).drop b).take len = (record.drop b).take len := by
  refine List.ext_getElem? fun i => ?_
  rw [List.getElem?_take, List.getElem?_take]
  split
  · rw [List.getElem?_drop, List.getElem?_drop, getElem?_writeAt ha, if_neg (by omega)]
  · rfl

namespace Sql

/-! ### The columns of a table -/

/-- The columns lie in a record, one beside the other. -/
structure LaidOut (cols : List Catalog.ColMeta) (size : Nat) : Prop where
  inside : ∀ c ∈ cols, c.offset + c.len ≤ size
  beside : cols.Pairwise fun c d => c.offset + c.len ≤ d.offset

theorem laidOut_layout (tab : String) (offset : Nat) (defs : List Catalog.SmManager.ColDef) :
    LaidOut (Catalog.SmManager.layout tab offset defs) (defs.foldl (fun n col => n + col.len) offset) ∧
      (∀ c ∈ Catalog.SmManager.layout tab offset defs, offset ≤ c.offset) ∧ offset ≤ defs.foldl (fun n col => n + col.len) offset := by
  induction defs generalizing offset with
  | nil => exact ⟨⟨fun c hc => (by cases hc), .nil⟩, fun c hc => (by cases hc), Nat.le_refl _⟩
  | cons d defs ih =>
    obtain ⟨hlaid, hlow, hsize⟩ := ih (offset + d.len)
    rw [Catalog.SmManager.layout, List.foldl_cons]
    refine ⟨⟨List.forall_mem_cons.mpr ⟨hsize, hlaid.inside⟩, List.pairwise_cons.mpr ⟨hlow, hlaid.beside⟩⟩,
      List.forall_mem_cons.mpr ⟨Nat.le_refl _, fun c hc => ?_⟩, ?_⟩
    · have := hlow c hc
      omega
    · omega

variable {text : FloatText} {cols : List Catalog.ColMeta} {old : Bytes} {clause : SetClause} {clauses : List SetClause}

theorem LaidOut.apart {size : Nat} (h : LaidOut cols size) {c d : Catalog.ColMeta} (hc : c ∈ cols) (hd : d ∈ cols) (hne : c ≠ d) :
    c.offset + c.len ≤ d.offset ∨ d.offset + d.len ≤ c.offset := by
  have hsymm : Std.Symm fun c d : Catalog.ColMeta => c.offset + c.len ≤ d.offset ∨ d.offset + d.len ≤ c.offset := ⟨fun _ _ => Or.symm⟩
  have hpair : cols.Pairwise fun c d => c.offset + c.len ≤ d.offset ∨ d.offset + d.len ≤ c.offset := h.beside.imp Or.inl
  exact hpair.forall hc hd hne

namespace UpdateExecutor
open ExpressionEvaluator

/-! ### The specification -/

/-- The columns of a record are set. -/
def assign (values : List (Catalog.ColMeta × Bytes)) (record : Bytes) : Bytes :=
  values.foldl (fun record v => writeAt record v.1.offset v.2) record

/-- The new values, each computed from the row from before the statement. -/
def newValues (text : FloatText) (cols : List Catalog.ColMeta) (clauses : List SetClause) (old : Bytes) :
    Except UpdateFault (List (Catalog.ColMeta × Bytes)) :=
  clauses.mapM (newValue text cols old)

/-- Where the loop comes to a clause, it computes the value that the clause has in the row from before the statement. -/
def ComputedFromOld (text : FloatText) (cols : List Catalog.ColMeta) (clauses : List SetClause) (old : Bytes) : Prop :=
  ∀ pre clause post, clauses = pre ++ clause :: post → ∀ record, setClauses text cols pre old = .ok record →
    newValue text cols record clause = newValue text cols old clause

/-- No clause changes its value in the row when the columns of the clauses before it are set to theirs. -/
def Undisturbed (text : FloatText) (cols : List Catalog.ColMeta) (clauses : List SetClause) (old : Bytes) : Prop :=
  ∀ pre clause post, clauses = pre ++ clause :: post → ∀ values, newValues text cols pre old = .ok values →
    newValue text cols (assign values old) clause = newValue text cols old clause

theorem setClauses_append (pre post : List SetClause) (record : Bytes) :
    setClauses text cols (pre ++ post) record = setClauses text cols pre record >>= setClauses text cols post := by
  induction pre generalizing record with
  | nil => rfl
  | cons c pre ih =>
    rw [List.cons_append, setClauses, setClauses]
    cases newValue text cols record c with
    | error e => rfl
    | ok v => exact ih _

theorem newValues_append (pre : List SetClause) (clause : SetClause) (old : Bytes) :
    newValues text cols (pre ++ [clause]) old =
      newValues text cols pre old >>= fun values => newValue text cols old clause >>= fun v => .ok (values ++ [v]) := by
  simp [newValues]
  rfl

theorem Undisturbed.front {pre post : List SetClause} (h : Undisturbed text cols (pre ++ post) old) : Undisturbed text cols pre old :=
  fun front c back heq => h front c (back ++ post) (by rw [heq, List.append_assoc, List.cons_append])

/-- As long as the values are those of the old row, the loop leaves that row with the columns set. -/
theorem Undisturbed.setClauses_eq (h : Undisturbed text cols clauses old) :
    setClauses text cols clauses old = (newValues text cols clauses old).map fun values => assign values old := by
  induction clauses using List.reverseRecOn with
  | nil => rfl
  | append_singleton pre clause ih =>
    rw [setClauses_append, newValues_append, ih h.front]
    cases hvalues : newValues text cols pre old with
    | error e => rfl
    | ok values =>
      have hsame := h pre clause [] rfl values hvalues
      simp only [Except.map, bind, Except.bind, setClauses]
      rw [hsame]
      cases newValue text cols old clause with
      | error e => rfl
      | ok v => simp [assign]

theorem ComputedFromOld.undisturbed (h : ComputedFromOld text cols clauses old) : Undisturbed text cols clauses old := by
  have hfront : ∀ pre post, clauses = pre ++ post → Undisturbed text cols pre old := by
    intro pre
    induction pre using List.reverseRecOn with
    | nil =>
      rintro post - front c back heq
      simp at heq
    | append_singleton pre clause ih =>
      intro post hclauses
      rw [List.append_assoc] at hclauses
      have hpre := ih ([clause] ++ post) hclauses
      intro front c back heq values hvalues
      rcases List.eq_nil_or_concat back with rfl | ⟨back', d, rfl⟩
      · obtain ⟨rfl, hc⟩ := List.append_inj' heq rfl
        obtain rfl := List.singleton_inj.mp hc
        refine h pre clause post hclauses _ ?_
        rw [hpre.setClauses_eq, hvalues]
        rfl
      · rw [List.concat_eq_append, ← List.cons_append, ← List.append_assoc] at heq
        exact hpre front c back' (List.append_inj' heq rfl).1 values hvalues
  exact hfront clauses [] (List.append_nil clauses).symm

theorem computedFromOld_iff : ComputedFromOld text cols clauses old ↔ Undisturbed text cols clauses old := by
  refine ⟨ComputedFromOld.undisturbed, fun h pre clause post heq record hrecord => ?_⟩
  have hpre : Undisturbed text cols pre old := by
    rw [heq] at h
    exact h.front
  rw [hpre.setClauses_eq] at hrecord
  cases hvalues : newValues text cols pre old with
  | error e =>
    rw [hvalues] at hrecord
    cases hrecord
  | ok values =>
    rw [hvalues] at hrecord
    cases hrecord
    exact h pre clause post heq values hvalues

/-! ### The order of the clauses -/

/-- Values for columns that are there, each as long as its column at most. -/
structure Fits (cols : List Catalog.ColMeta) (v : Catalog.ColMeta × Bytes) : Prop where
  col : v.1 ∈ cols
  len : v.2.length ≤ v.1.len

theorem fits_newValue {v : Catalog.ColMeta × Bytes} (h : newValue text cols old clause = .ok v) :
    Fits cols v ∧ v.1.name = clause.lhs.colName := by
  obtain ⟨col, hcol, hrest⟩ := Runs.ok_of_bind h
  obtain ⟨raw, -, hv⟩ := Runs.ok_of_bind hrest
  cases hv
  unfold lhsCol at hcol
  split at hcol
  · next c hfind =>
    cases hcol
    have hname := List.find?_some hfind
    exact ⟨⟨List.mem_of_find?_eq_some hfind, List.length_take_le _ _⟩, of_decide_eq_true hname⟩
  · cases hcol

/-- Columns are set in any order. -/
theorem assign_perm {values values' : List (Catalog.ColMeta × Bytes)} {size : Nat} {record : Bytes} (hlaid : LaidOut cols size)
    (hperm : values.Perm values') (hfits : ∀ v ∈ values, Fits cols v) (hdistinct : values.Pairwise fun v w => v.1 ≠ w.1)
    (hrecord : record.length = size) : assign values record = assign values' record := by
  induction hperm generalizing record with
  | nil => rfl
  | cons v _ ih =>
    obtain ⟨hv, hvalues⟩ := List.forall_mem_cons.mp hfits
    have hin := hlaid.inside v.1 hv.col
    have hlen := hv.len
    exact ih hvalues (List.pairwise_cons.mp hdistinct).2 ((length_writeAt (by omega)).trans hrecord)
  | swap v w values =>
    obtain ⟨hw, hrest⟩ := List.forall_mem_cons.mp hfits
    obtain ⟨hv, -⟩ := List.forall_mem_cons.mp hrest
    have hne : w.1 ≠ v.1 := (List.pairwise_cons.mp hdistinct).1 v List.mem_cons_self
    have hapart := hlaid.apart hw.col hv.col hne
    have hinw := hlaid.inside w.1 hw.col
    have hinv := hlaid.inside v.1 hv.col
    have hlenw := hw.len
    have hlenv := hv.len
    have hcomm : writeAt (writeAt record w.1.offset w.2) v.1.offset v.2 = writeAt (writeAt record v.1.offset v.2) w.1.offset w.2 :=
      writeAt_comm (by omega) (by omega) (by omega)
    rw [assign, assign, List.foldl_cons, List.foldl_cons, List.foldl_cons, List.foldl_cons, hcomm]
  | trans h₁ h₂ ih₁ ih₂ =>
    have hsymm : Std.Symm fun v w : Catalog.ColMeta × Bytes => v.1 ≠ w.1 := ⟨fun _ _ => Ne.symm⟩
    rw [ih₁ hfits hdistinct hrecord]
    exact ih₂ (fun v hv => hfits v (h₁.mem_iff.mpr hv)) (h₁.pairwise_iff (fun h => h.symm) |>.mp hdistinct) hrecord

/-- All clauses have values, or one has none. -/
theorem toOption_newValues (clauses : List SetClause) : (newValues text cols clauses old).toOption =
    if ∀ c ∈ clauses, (newValue text cols old c).toOption.isSome then some (clauses.filterMap fun c => (newValue text cols old c).toOption)
    else none := by
  induction clauses with
  | nil => rfl
  | cons c clauses ih =>
    have hstep : (newValues text cols (c :: clauses) old).toOption =
        (newValue text cols old c).toOption.bind fun v => (newValues text cols clauses old).toOption.map (v :: ·) := by
      rw [newValues, List.mapM_cons]
      cases newValue text cols old c with
      | error e => rfl
      | ok v =>
        rw [newValues]
        cases clauses.mapM (newValue text cols old) <;> rfl
    rw [hstep, ih]
    cases hc : (newValue text cols old c).toOption with
    | none => simp [hc]
    | some v => by_cases hall : ∀ c ∈ clauses, (newValue text cols old c).toOption.isSome <;> simp [hc, hall]

/-- The row that simultaneous assignments leave does not depend on the order of the clauses. -/
theorem newValues_perm {clauses' : List SetClause} {size : Nat} (hlaid : LaidOut cols size) (hold : old.length = size)
    (hdistinct : (clauses.map (·.lhs.colName)).Nodup) (hperm : clauses.Perm clauses') :
    ((newValues text cols clauses old).map fun values => assign values old).toOption =
      ((newValues text cols clauses' old).map fun values => assign values old).toOption := by
  have hmap : ∀ x : Except UpdateFault (List (Catalog.ColMeta × Bytes)), (x.map fun values => assign values old).toOption =
      x.toOption.map fun values => assign values old := fun x => by cases x <;> rfl
  have hall : (∀ c ∈ clauses, (newValue text cols old c).toOption.isSome) ↔ ∀ c ∈ clauses', (newValue text cols old c).toOption.isSome :=
    ⟨fun h c hc => h c (hperm.mem_iff.mpr hc), fun h c hc => h c (hperm.mem_iff.mp hc)⟩
  have hvalue : ∀ c v, (newValue text cols old c).toOption = some v → Fits cols v ∧ v.1.name = c.lhs.colName := by
    intro c v h
    cases hc : newValue text cols old c with
    | error e =>
      rw [hc] at h
      cases h
    | ok w =>
      rw [hc] at h
      cases h
      exact fits_newValue hc
  rw [hmap, hmap, toOption_newValues, toOption_newValues]
  by_cases h : ∀ c ∈ clauses, (newValue text cols old c).toOption.isSome
  · rw [if_pos h, if_pos (hall.mp h), Option.map_some, Option.map_some]
    congr 1
    refine assign_perm hlaid (hperm.filterMap _) (fun v hv => ?_) ?_ hold
    · obtain ⟨c, -, hc⟩ := List.mem_filterMap.mp hv
      exact (hvalue c v hc).1
    · refine List.pairwise_filterMap.mpr ?_
      have hnames : clauses.Pairwise fun c d => c.lhs.colName ≠ d.lhs.colName := List.pairwise_map.mp hdistinct
      refine hnames.imp fun {c d} hne v hv w hw heq => hne ?_
      rw [← (hvalue c v hv).2, ← (hvalue d w hw).2, heq]
  · rw [if_neg h, if_neg fun h' => h (hall.mpr h')]

/-! ### Clauses that do not read what others set -/

/-- The columns that an expression reads. -/
def reads : Expr → List String
  | .val _ => []
  | .col c => [c.colName]
  | .arith lhs _ rhs => reads lhs ++ reads rhs
  | .other => []

/-- A value that is no string has four bytes. -/
def Typed (cols : List Catalog.ColMeta) : Prop := ∀ c ∈ cols, c.type ≠ .string → c.len = 4

theorem cellValue_congr {col : Catalog.ColMeta} {record record' : Bytes} (htyped : col.type ≠ .string → col.len = 4)
    (h : (record.drop col.offset).take col.len = (record'.drop col.offset).take col.len) : cellValue col record = cellValue col record' := by
  unfold cellValue Value.fromRaw
  cases htype : col.type with
  | int =>
    rw [htyped (by simp [htype])] at h
    simp only
    rw [readInt, readInt, ← readWord_take, h, readWord_take]
  | float =>
    rw [htyped (by simp [htype])] at h
    simp only
    rw [← readWord_take, h, readWord_take]
  | string => simp only [h]

/-- The value of an expression depends on the columns that it reads. -/
theorem evaluate_congr {record record' : Bytes} (expr : Expr)
    (h : ∀ col ∈ cols, col.name ∈ reads expr → cellValue col record = cellValue col record') :
    evaluate cols record expr = evaluate cols record' expr := by
  induction expr with
  | val v => rfl
  | other => rfl
  | col c =>
    rw [evaluate, evaluate, evaluateColumn, evaluateColumn]
    cases hfind : cols.find? (·.name = c.colName) with
    | none => rfl
    | some col =>
      have hname := List.find?_some hfind
      simp only
      rw [h col (List.mem_of_find?_eq_some hfind) (by simpa [reads] using hname)]
  | arith lhs op rhs ihl ihr =>
    rw [evaluate, evaluate, ihl fun col hcol hread => h col hcol (List.mem_append_left _ hread),
      ihr fun col hcol hread => h col hcol (List.mem_append_right _ hread)]

/-- Setting other columns leaves a cell. -/
theorem cellValue_assign {values : List (Catalog.ColMeta × Bytes)} {size : Nat} {record : Bytes} (hlaid : LaidOut cols size)
    (htyped : Typed cols) (hfits : ∀ v ∈ values, Fits cols v) (hrecord : record.length = size) {col : Catalog.ColMeta} (hcol : col ∈ cols)
    (hother : ∀ v ∈ values, v.1 ≠ col) : cellValue col (assign values record) = cellValue col record := by
  induction values generalizing record with
  | nil => rfl
  | cons v values ih =>
    obtain ⟨hv, hvalues⟩ := List.forall_mem_cons.mp hfits
    obtain ⟨hne, hothers⟩ := List.forall_mem_cons.mp hother
    have hin := hlaid.inside v.1 hv.col
    have hlen := hv.len
    have hapart := hlaid.apart hv.col hcol hne
    have hkeep : cellValue col (writeAt record v.1.offset v.2) = cellValue col record :=
      cellValue_congr (htyped col hcol) (take_drop_writeAt (by omega) (by omega))
    rw [← hkeep]
    exact ih hvalues ((length_writeAt (by omega)).trans hrecord) hothers

theorem mem_newValues {values : List (Catalog.ColMeta × Bytes)} {v : Catalog.ColMeta × Bytes}
    (h : newValues text cols clauses old = .ok values) (hv : v ∈ values) : ∃ c ∈ clauses, newValue text cols old c = .ok v := by
  induction clauses generalizing values with
  | nil =>
    cases h
    cases hv
  | cons c clauses ih =>
    rw [newValues, List.mapM_cons] at h
    obtain ⟨w, hw, hrest⟩ := Runs.ok_of_bind h
    obtain ⟨ws, hws, hvalues⟩ := Runs.ok_of_bind hrest
    cases hvalues
    rcases List.mem_cons.mp hv with rfl | hv
    · exact ⟨c, List.mem_cons_self, hw⟩
    · obtain ⟨d, hd, hnew⟩ := ih hws hv
      exact ⟨d, List.mem_cons_of_mem c hd, hnew⟩

/-- A statement in which no clause reads a column that another one sets computes its values from the old row. -/
theorem undisturbed_of_unread {size : Nat} (hlaid : LaidOut cols size) (htyped : Typed cols) (hold : old.length = size)
    (hunread : ∀ pre clause post, clauses = pre ++ clause :: post → ∀ c ∈ pre, ∀ expr ∈ clause.expr, c.lhs.colName ∉ reads expr) :
    Undisturbed text cols clauses old := by
  intro pre clause post heq values hvalues
  have hvalue : ∀ v ∈ values, Fits cols v ∧ ∃ c ∈ pre, v.1.name = c.lhs.colName := by
    intro v hv
    obtain ⟨c, hc, hnew⟩ := mem_newValues hvalues hv
    obtain ⟨hfits, hname⟩ := fits_newValue hnew
    exact ⟨hfits, c, hc, hname⟩
  have hexpr : ∀ expr ∈ clause.expr, evaluate cols (assign values old) expr = evaluate cols old expr := by
    intro expr hexpr
    refine evaluate_congr expr fun col hcol hread => cellValue_assign hlaid htyped (fun v hv => (hvalue v hv).1) hold hcol fun v hv hsame => ?_
    obtain ⟨c, hc, hname⟩ := (hvalue v hv).2
    rw [hsame] at hname
    exact hunread pre clause post heq c hc expr hexpr (hname ▸ hread)
  unfold newValue evaluateSetClause
  cases hclause : clause.expr with
  | none => rfl
  | some expr => simp only [hexpr expr hclause]

/-- `UPDATE` computes every value of a row from the row as it was before the statement, whatever the order of the clauses, and so
    leaves one row for all orders, if and only if in no order a clause changes its value in that row when the columns of
    the clauses before it are set. -/
theorem update_from_old_iff (text : FloatText) (tab : String) (defs : List Catalog.SmManager.ColDef) {old : Bytes} {clauses : List SetClause}
    (hold : old.length = Catalog.SmManager.recordSize defs) (hdistinct : (clauses.map (·.lhs.colName)).Nodup) :
    (ComputedFromOld text (Catalog.SmManager.layout tab 0 defs) clauses old ↔
      Undisturbed text (Catalog.SmManager.layout tab 0 defs) clauses old) ∧
    (((∀ cs, cs.Perm clauses → ComputedFromOld text (Catalog.SmManager.layout tab 0 defs) cs old) ∧
      ∀ cs, cs.Perm clauses → (setClauses text (Catalog.SmManager.layout tab 0 defs) cs old).toOption =
        (setClauses text (Catalog.SmManager.layout tab 0 defs) clauses old).toOption) ↔
      ∀ cs, cs.Perm clauses → Undisturbed text (Catalog.SmManager.layout tab 0 defs) cs old) := by
  have hlaid := (laidOut_layout tab 0 defs).1
  refine ⟨computedFromOld_iff, fun h cs hcs => computedFromOld_iff.mp (h.1 cs hcs), fun h => ?_⟩
  refine ⟨fun cs hcs => computedFromOld_iff.mpr (h cs hcs), fun cs hcs => ?_⟩
  rw [(h cs hcs).setClauses_eq, (h clauses (.refl _)).setClauses_eq]
  exact (newValues_perm hlaid hold hdistinct hcs.symm).symm

/-- A row with two columns, which are swapped by way of a third one. -/
def threeInts : List Catalog.SmManager.ColDef := [⟨"a", .int, 4⟩, ⟨"b", .int, 4⟩, ⟨"c", .int, 4⟩]

/-- No text is a float. -/
def noFloats : FloatText := ⟨fun _ => none, fun _ => []⟩

/-- `SET col = other`. -/
def copyClause (col other : String) : SetClause := ⟨⟨"t", col⟩, .int 0, none, some (.col ⟨"t", other⟩)⟩

theorem update_from_old_iff_copy :
    ComputedFromOld noFloats (Catalog.SmManager.layout "t" 0 threeInts) [copyClause "a" "b", copyClause "c" "b"] (List.replicate 12 1) ↔
      Undisturbed noFloats (Catalog.SmManager.layout "t" 0 threeInts) [copyClause "a" "b", copyClause "c" "b"] (List.replicate 12 1) :=
  (update_from_old_iff noFloats "t" threeInts (by decide) (by decide)).1

/-- `SET a = b, b = a` does not swap the columns: both get the old value of `b`. -/
theorem not_update_from_old_swap : ∃ old : Bytes, old.length = Catalog.SmManager.recordSize threeInts ∧
    setClauses noFloats (Catalog.SmManager.layout "t" 0 threeInts) [copyClause "a" "b", copyClause "b" "a"] old =
      .ok [2, 0, 0, 0, 2, 0, 0, 0, 3, 0, 0, 0] ∧
    (newValues noFloats (Catalog.SmManager.layout "t" 0 threeInts) [copyClause "a" "b", copyClause "b" "a"] old).map (assign · old) =
      .ok [2, 0, 0, 0, 1, 0, 0, 0, 3, 0, 0, 0] :=
  ⟨[1, 0, 0, 0, 2, 0, 0, 0, 3, 0, 0, 0], by decide, rfl, rfl⟩

end UpdateExecutor
end Sql
end Rmdb
