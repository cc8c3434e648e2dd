import Rmdb.Sql.Portal

/-! The shape of records: the columns of an operator lie within its tuples, and what it makes of records has the length that it
announces. -/

namespace Rmdb.Sql
open Outcomes

/-! ### Positions -/

theorem pick_range {α : Type} (l : List α) : pick l (List.range l.length) = l := by
  induction l with
  | nil => rfl
  | cons x xs ih =>
    rw [List.length_cons, List.range_succ_eq_map]
    unfold pick at *
    rw [List.filterMap_cons, List.filterMap_map]
    simp only [List.getElem?_cons_zero, Function.comp_def, List.getElem?_cons_succ]
    rw [ih]

/-- All positions in another order give the elements in that order. -/
theorem pick_perm {α : Type} {l : List α} {positions : List Nat} (h : positions.Perm (List.range l.length)) :
    (pick l positions).Perm l := by
  have hp := h.filterMap (l[·]?)
  exact hp.trans (List.Perm.of_eq (pick_range l))

/-! ### Columns -/

theorem Laid.le {off : Nat} {cols : List Catalog.ColMeta} (h : Laid off cols) :
    ∀ c ∈ cols, c.offset + c.len ≤ off + recordSize cols := by
  induction cols generalizing off with
  | nil =>
    intro c hc
    cases hc
  | cons d ds ih =>
    intro c hc
    have hsum : recordSize (d :: ds) = d.len + recordSize ds := List.sum_cons
    rcases List.mem_cons.mp hc with rfl | hc
    · rw [h.1, hsum]
      omega
    · have := ih h.2 c hc
      omega

/-- The cell of a column in cells that stand one behind the other. -/
theorem Laid.cell {α : Type} {l : List α} {col : α → Catalog.ColMeta} {g : α → Bytes} {off : Nat} (hlaid : Laid off (l.map col))
    (hlen : ∀ x ∈ l, (g x).length = (col x).len) {x : α} (hx : x ∈ l) :
    off ≤ (col x).offset ∧ ((l.flatMap g).drop ((col x).offset - off)).take (col x).len = g x := by
  induction l generalizing off with
  | nil => cases hx
  | cons y l ih =>
    obtain ⟨hy, hl⟩ := List.forall_mem_cons.mp hlen
    obtain ⟨hoff, hrest⟩ := hlaid
    rw [List.flatMap_cons]
    rcases List.mem_cons.mp hx with rfl | hx
    · refine ⟨hoff.ge, ?_⟩
      rw [hoff, Nat.sub_self, List.drop_zero, ← hy, List.take_left]
    · obtain ⟨hle, hcell⟩ := ih hrest hl hx
      have hskip : (col x).offset - off = (g y).length + ((col x).offset - (off + (col y).len)) := by omega
      exact ⟨by omega, by rw [hskip, List.drop_length_add_append, hcell]⟩

theorem relay_laid (off : Nat) (cols : List Catalog.ColMeta) : Laid off (relay off cols) := by
  induction cols generalizing off with
  | nil => trivial
  | cons c cs ih => exact ⟨rfl, ih _⟩

@[simp]
theorem recordSize_relay (off : Nat) (cols : List Catalog.ColMeta) : recordSize (relay off cols) = recordSize cols := by
  induction cols generalizing off with
  | nil => rfl
  | cons c cs ih => exact congrArg (c.len + ·) (ih _)

theorem projCols_laid (cols : List Catalog.ColMeta) (seen : List String) (off : Nat) (tcs : List TabCol) :
    Laid off ((projCols cols seen off tcs).map (·.1)) := by
  induction tcs generalizing seen off with
  | nil => trivial
  | cons tc tcs ih =>
    rw [projCols]
    split
    · exact ih _ _
    · split
      · exact ih _ _
      · exact ⟨rfl, ih _ _⟩

/-- A column that a scan puts out is one of its table, at the offset beside it. -/
theorem projCols_mem {cols : List Catalog.ColMeta} {seen : List String} {off : Nat} {tcs : List TabCol}
    {p : Catalog.ColMeta × Nat} (h : p ∈ projCols cols seen off tcs) :
    ∃ c ∈ cols, p.2 = c.offset ∧ p.1 = { c with offset := p.1.offset } := by
  induction tcs generalizing seen off with
  | nil => cases h
  | cons tc tcs ih =>
    rw [projCols] at h
    split at h
    · exact ih h
    · split at h
      · exact ih h
      · next c hc =>
        rcases List.mem_cons.mp h with rfl | h
        · exact ⟨c, List.mem_of_find?_eq_some hc, rfl, rfl⟩
        · exact ih h

/-- Cells that lie within a record have together the length of their columns. -/
theorem length_flatMap_cells {α : Type} {l : List α} {rec : Bytes} (off len : α → Nat)
    (h : ∀ x ∈ l, off x + len x ≤ rec.length) :
    (l.flatMap fun x => (rec.drop (off x)).take (len x)).length = (l.map len).sum := by
  rw [List.length_flatMap]
  refine congrArg List.sum (List.map_congr_left fun x hx => ?_)
  have := h x hx
  rw [List.length_take, List.length_drop]
  omega

/-! ### What operators make of records -/

theorem scanOut_length {cols : List Catalog.ColMeta} (hlaid : Laid 0 cols) (proj : List TabCol) {rec : Bytes}
    (h : rec.length = recordSize cols) : ((scanOut cols proj).project rec).length = (scanOut cols proj).len := by
  unfold scanOut
  simp only
  split
  · refine (length_flatMap_cells (fun p : Catalog.ColMeta × Nat => p.2) (fun p => p.1.len) fun p hp => ?_).trans ?_
    · obtain ⟨c, hc, hoff, heq⟩ := projCols_mem hp
      have := hlaid.le c hc
      rw [hoff, congrArg Catalog.ColMeta.len heq, h]
      simpa using this
    · unfold recordSize
      rw [List.map_map]
      rfl
  · exact h

theorem scanOut_within {cols : List Catalog.ColMeta} (hlaid : Laid 0 cols) (proj : List TabCol) :
    ∀ c ∈ (scanOut cols proj).cols, c.offset + c.len ≤ (scanOut cols proj).len := by
  unfold scanOut
  simp only
  split
  · intro c hc
    simpa using (projCols_laid cols [] 0 proj).le c hc
  · intro c hc
    simpa using hlaid.le c hc

theorem extendRun_read (cur : ProjectionRun) (cs : List Catalog.ColMeta) (rec : Bytes) :
    ((extendRun cur cs).flatMap fun run => (rec.drop run.srcOffset).take run.len) =
      (rec.drop cur.srcOffset).take cur.len ++ cs.flatMap fun c => (rec.drop c.offset).take c.len := by
  induction cs generalizing cur with
  | nil => simp [extendRun]
  | cons c cs ih =>
    rw [extendRun]
    split
    · next h => rw [ih, List.flatMap_cons, List.take_add, List.drop_drop, h, List.append_assoc]
    · rw [List.flatMap_cons, ih, List.flatMap_cons]

theorem projectionRuns_read (cols : List Catalog.ColMeta) (rec : Bytes) :
    ((projectionRuns cols).flatMap fun run => (rec.drop run.srcOffset).take run.len) =
      cols.flatMap fun c => (rec.drop c.offset).take c.len := by
  cases cols with
  | nil => rfl
  | cons c cs => exact extendRun_read _ cs rec

theorem selectedCols_sub {prev : List Catalog.ColMeta} {selCols : List TabCol} {sel : List Catalog.ColMeta}
    (h : selectedCols prev selCols = .ok sel) : ∀ c ∈ sel, c ∈ prev := by
  unfold selectedCols at h
  split at h
  · cases h
    intro c hc
    split at hc
    · exact hc
    · exact List.mem_of_mem_take hc
  · refine (Meets.mapM (F := fun _ => True) fun target _ => ?_).of_ok h
    unfold getCol
    split
    · next c hc => exact List.mem_of_find?_eq_some hc
    · trivial

theorem valueBytes_length (col : Catalog.ColMeta) (v : Value) : (valueBytes col v).length = col.len := by
  unfold valueBytes
  simp only [List.length_append, List.length_take, List.length_replicate]
  omega

theorem rowBytes_length {cols : List Catalog.ColMeta} {row : List Value} (h : row.length = cols.length) :
    ((cols.zip row).flatMap fun p => valueBytes p.1 p.2).length = recordSize cols := by
  induction cols generalizing row with
  | nil => rfl
  | cons c cs ih =>
    cases row with
    | nil => cases h
    | cons v vs =>
      rw [List.zip_cons_cons, List.flatMap_cons, List.length_append, valueBytes_length, ih (Nat.succ.inj h)]
      rfl

theorem buildOutputColumns_laid {prev : List Catalog.ColMeta} {i off : Nat} {es : List ColItem} {cols : List Catalog.ColMeta}
    (h : buildOutputColumns prev i off es = .ok cols) : Laid off cols ∧ cols.length = es.length := by
  induction es generalizing i off cols with
  | nil =>
    cases h
    exact ⟨trivial, rfl⟩
  | cons e es ih =>
    rw [buildOutputColumns] at h
    simp only at h
    split at h
    · obtain ⟨type, -, h⟩ := ok_of_bind h
      obtain ⟨col, hcol, h⟩ := ok_of_bind h
      cases hcol
      obtain ⟨rest, hrest, h⟩ := ok_of_bind h
      cases h
      exact ⟨⟨rfl, (ih hrest).1⟩, congrArg Nat.succ (ih hrest).2⟩
    · obtain ⟨d, -, h⟩ := ok_of_bind h
      obtain ⟨col, hcol, h⟩ := ok_of_bind h
      cases hcol
      obtain ⟨rest, hrest, h⟩ := ok_of_bind h
      cases h
      exact ⟨⟨rfl, (ih hrest).1⟩, congrArg Nat.succ (ih hrest).2⟩

end Rmdb.Sql
