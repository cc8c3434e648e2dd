import Rmdb.Sql.Projection
import Rmdb.Theorems.Sql.Shape

/-! The merged copies of a projection are the copies of its columns. -/

namespace Rmdb.Sql

/-- The copies go to places one behind the other. -/
def Adjacent : Nat → List CopyRun → Prop
  | _, [] => True
  | off, run :: runs => run.dstOffset = off ∧ Adjacent (off + run.len) runs

/-- What the copy of a run puts into the buffer. -/
def CopyRun.cell (data : Bytes) (run : CopyRun) : Bytes := (data.drop run.srcOffset).take run.len

/-- The bytes that all runs copy. -/
def copiedLen (runs : List CopyRun) : Nat := (runs.map (·.len)).sum

/-- The copies of the columns one by one. -/
def columnRuns (cols : List (Catalog.ColMeta × Catalog.ColMeta)) : List CopyRun := cols.map fun p => columnRun p.1 p.2

section Copies
variable {data buf : Bytes} {run cur : CopyRun} {runs : List CopyRun} {off : Nat}

theorem CopyRun.length_cell (h : run.srcOffset + run.len ≤ data.length) : (run.cell data).length = run.len := by
  rw [cell, List.length_take, List.length_drop]
  omega

/-- Copies to places one behind the other put their cells there. -/
theorem copyAll_eq (hadj : Adjacent off runs) (hsrc : ∀ run ∈ runs, run.srcOffset + run.len ≤ data.length)
    (hbuf : off + copiedLen runs ≤ buf.length) :
    copyAll data runs buf = buf.take off ++ runs.flatMap (CopyRun.cell data) ++ buf.drop (off + copiedLen runs) := by
  induction runs generalizing off buf with
  | nil => simp [copyAll, copiedLen]
  | cons run runs ih =>
    obtain ⟨hdst, hadj⟩ := hadj
    obtain ⟨hrun, hsrc⟩ := List.forall_mem_cons.mp hsrc
    have hcell := CopyRun.length_cell hrun
    have hlen : copiedLen (run :: runs) = run.len + copiedLen runs := by simp [copiedLen]
    rw [hlen] at hbuf ⊢
    -- the buffer after the first copy
    obtain ⟨next, hnext⟩ : ∃ next, next = buf.take off ++ run.cell data ++ buf.drop (off + run.len) := ⟨_, rfl⟩
    have hcopy : run.copy data buf = next := by rw [CopyRun.copy, hdst, hnext, CopyRun.cell]
    have hwritten : (buf.take off ++ run.cell data).length = off + run.len := by
      rw [List.length_append, hcell, List.length_take]
      omega
    have hhead : next.take (off + run.len) = buf.take off ++ run.cell data := by rw [hnext, List.take_left' hwritten]
    have htail : next.drop (off + run.len + copiedLen runs) = buf.drop (off + (run.len + copiedLen runs)) := by
      rw [hnext, List.drop_append, List.drop_eq_nil_of_le (by omega), hwritten, Nat.add_sub_cancel_left, List.nil_append,
        List.drop_drop, Nat.add_assoc]
    have hroom : off + run.len + copiedLen runs ≤ next.length := by
      rw [hnext, List.length_append, hwritten, List.length_drop]
      omega
    show copyAll data runs (run.copy data buf) = _
    rw [hcopy, ih hadj hsrc hroom, hhead, htail, List.flatMap_cons]
    simp only [List.append_assoc]

end Copies

/-! ### Runs -/

section Runs
variable {prev src : Catalog.ColMeta} {cur : CopyRun} {rest sel : List (Catalog.ColMeta × Catalog.ColMeta)} {len off : Nat}

/-- The open run ends where the column before ends. -/
def CopyRun.EndsAt (cur : CopyRun) (prev : Catalog.ColMeta) : Prop := prev.offset + prev.len = cur.srcOffset + cur.len

theorem columnRun_endsAt (src dst : Catalog.ColMeta) : (columnRun src dst).EndsAt src := rfl

theorem CopyRun.EndsAt.extend (h : cur.EndsAt prev) (hsrc : prev.offset + prev.len = src.offset) :
    CopyRun.EndsAt { cur with len := cur.len + src.len } src := by
  unfold EndsAt at h ⊢
  dsimp only
  omega

theorem runsFrom_adjacent (hadj : Adjacent (cur.dstOffset + cur.len) (columnRuns rest)) :
    Adjacent cur.dstOffset (runsFrom prev cur rest) := by
  induction rest generalizing prev cur with
  | nil => exact ⟨rfl, trivial⟩
  | cons p rest ih =>
    obtain ⟨hdst, hadj⟩ := hadj
    rw [runsFrom]
    split
    · have hext : Adjacent (cur.dstOffset + (cur.len + p.1.len)) (columnRuns rest) := by
        rw [← Nat.add_assoc]
        exact hadj
      exact @ih p.1 { cur with len := cur.len + p.1.len } hext
    · refine ⟨rfl, ?_⟩
      rw [← hdst] at hadj ⊢
      exact ih hadj

/-- The runs copy the bytes that the columns do. -/
theorem runsFrom_cells (data : Bytes) (hend : cur.EndsAt prev) : (runsFrom prev cur rest).flatMap (CopyRun.cell data) =
    cur.cell data ++ (columnRuns rest).flatMap (CopyRun.cell data) := by
  induction rest generalizing prev cur with
  | nil => simp [runsFrom, columnRuns]
  | cons p rest ih =>
    rw [runsFrom]
    split
    · next hsrc =>
      have hcell : CopyRun.cell data { cur with len := cur.len + p.1.len } = cur.cell data ++ (columnRun p.1 p.2).cell data := by
        unfold CopyRun.EndsAt at hend
        rw [CopyRun.cell, CopyRun.cell, CopyRun.cell, List.take_add, List.drop_drop, columnRun, ← hsrc, hend]
      rw [ih (hend.extend hsrc), hcell, List.append_assoc]
      rfl
    · rw [List.flatMap_cons, ih (columnRun_endsAt p.1 p.2)]
      rfl

theorem runsFrom_copiedLen : copiedLen (runsFrom prev cur rest) = cur.len + copiedLen (columnRuns rest) := by
  induction rest generalizing prev cur with
  | nil => simp [runsFrom, columnRuns, copiedLen]
  | cons p rest ih =>
    have hcons : copiedLen (columnRuns (p :: rest)) = p.1.len + copiedLen (columnRuns rest) := by simp [columnRuns, copiedLen, columnRun]
    rw [runsFrom, hcons]
    split
    · rw [ih]
      exact Nat.add_assoc _ _ _
    · have hfirst : copiedLen (cur :: runsFrom p.1 (columnRun p.1 p.2) rest) = cur.len + copiedLen (runsFrom p.1 (columnRun p.1 p.2) rest) := by
        simp [copiedLen]
      rw [hfirst, ih]
      rfl

theorem runsFrom_within (hend : cur.EndsAt prev) (hcur : cur.srcOffset + cur.len ≤ len) (hcols : ∀ p ∈ rest, p.1.offset + p.1.len ≤ len) :
    ∀ run ∈ runsFrom prev cur rest, run.srcOffset + run.len ≤ len := by
  induction rest generalizing prev cur with
  | nil => exact List.forall_mem_singleton.mpr hcur
  | cons p rest ih =>
    obtain ⟨hp, hcols⟩ := List.forall_mem_cons.mp hcols
    rw [runsFrom]
    split
    · next hsrc =>
      have hext := hend.extend hsrc
      refine ih hext ?_ hcols
      unfold CopyRun.EndsAt at hext
      omega
    · exact List.forall_mem_cons.mpr ⟨hcur, ih (columnRun_endsAt p.1 p.2) hp hcols⟩

theorem copyRuns_adjacent (hadj : Adjacent off (columnRuns sel)) : Adjacent off (copyRuns sel) := by
  cases sel with
  | nil => trivial
  | cons p rest =>
    obtain ⟨hdst, hadj⟩ := hadj
    rw [← hdst] at hadj ⊢
    exact runsFrom_adjacent hadj

theorem copyRuns_cells (data : Bytes) (sel : List (Catalog.ColMeta × Catalog.ColMeta)) :
    (copyRuns sel).flatMap (CopyRun.cell data) = (columnRuns sel).flatMap (CopyRun.cell data) := by
  cases sel with
  | nil => rfl
  | cons p rest => exact runsFrom_cells data (columnRun_endsAt p.1 p.2)

theorem copyRuns_copiedLen (sel : List (Catalog.ColMeta × Catalog.ColMeta)) : copiedLen (copyRuns sel) = copiedLen (columnRuns sel) := by
  cases sel with
  | nil => rfl
  | cons p rest =>
    rw [copyRuns, runsFrom_copiedLen]
    simp [columnRuns, copiedLen]

theorem copyRuns_within (hcols : ∀ p ∈ sel, p.1.offset + p.1.len ≤ len) : ∀ run ∈ copyRuns sel, run.srcOffset + run.len ≤ len := by
  cases sel with
  | nil => exact fun run hrun => (by cases hrun)
  | cons p rest =>
    obtain ⟨hp, hcols⟩ := List.forall_mem_cons.mp hcols
    exact runsFrom_within (columnRun_endsAt p.1 p.2) hp hcols

theorem Adjacent.within {runs : List CopyRun} (h : Adjacent off runs) : ∀ run ∈ runs, run.dstOffset + run.len ≤ off + copiedLen runs := by
  induction runs generalizing off with
  | nil => exact fun run hrun => (by cases hrun)
  | cons run runs ih =>
    obtain ⟨hdst, h⟩ := h
    have hlen : copiedLen (run :: runs) = run.len + copiedLen runs := by simp [copiedLen]
    refine List.forall_mem_cons.mpr ⟨by omega, fun r hr => ?_⟩
    have := ih h r hr
    omega

end Runs

/-! ### The columns of a projection -/

/-- The selected columns with those of the result. -/
def outputCols (sel : List Catalog.ColMeta) : List (Catalog.ColMeta × Catalog.ColMeta) := sel.zip (relay 0 sel)

theorem relay_adjacent (off : Nat) (sel : List Catalog.ColMeta) : Adjacent off (columnRuns (sel.zip (relay off sel))) := by
  induction sel generalizing off with
  | nil => trivial
  | cons c cs ih => exact ⟨rfl, ih (off + c.len)⟩

theorem relay_copiedLen (off : Nat) (sel : List Catalog.ColMeta) : copiedLen (columnRuns (sel.zip (relay off sel))) = recordSize sel := by
  induction sel generalizing off with
  | nil => rfl
  | cons c cs ih =>
    have hrest := ih (off + c.len)
    simp only [copiedLen, columnRuns, recordSize, relay, List.zip_cons_cons, List.map_cons, List.sum_cons] at hrest ⊢
    rw [hrest]
    rfl

theorem relay_cells (data : Bytes) (off : Nat) (sel : List Catalog.ColMeta) :
    (columnRuns (sel.zip (relay off sel))).flatMap (CopyRun.cell data) = sel.flatMap fun c => (data.drop c.offset).take c.len := by
  induction sel generalizing off with
  | nil => rfl
  | cons c cs ih => exact congrArg ((data.drop c.offset).take c.len ++ ·) (ih (off + c.len))

theorem mem_outputCols {sel : List Catalog.ColMeta} {p : Catalog.ColMeta × Catalog.ColMeta} (h : p ∈ outputCols sel) : p.1 ∈ sel :=
  (List.of_mem_zip h).1

/-- For any columns of the operator below that lie in its records, and any selection of them, the merged copies of `Next` make the
    record that copies of the columns one by one do, whatever was in the buffer, and stay within the record and the buffer. -/
theorem projection_copies {cols sel : List Catalog.ColMeta} {selCols : List TabCol} {len : Nat}
    (hsel : selectedCols cols selCols = .ok sel) (hcols : ∀ c ∈ cols, c.offset + c.len ≤ len) :
    (∀ data buf : Bytes, data.length = len → buf.length = recordSize sel →
      copyAll data (copyRuns (outputCols sel)) buf = copyAll data (columnRuns (outputCols sel)) buf ∧
      copyAll data (copyRuns (outputCols sel)) buf = (projectionRuns sel).flatMap fun run => (data.drop run.srcOffset).take run.len) ∧
    ∀ run ∈ copyRuns (outputCols sel), run.srcOffset + run.len ≤ len ∧ run.dstOffset + run.len ≤ recordSize sel := by
  have hwithin : ∀ p ∈ outputCols sel, p.1.offset + p.1.len ≤ len := fun p hp => hcols _ (selectedCols_sub hsel _ (mem_outputCols hp))
  have hsize : copiedLen (columnRuns (outputCols sel)) = recordSize sel := relay_copiedLen 0 sel
  have hcolumns : Adjacent 0 (columnRuns (outputCols sel)) := relay_adjacent 0 sel
  have hruns := copyRuns_adjacent hcolumns
  refine ⟨fun data buf hdata hbuf => ?_, fun run hrun => ⟨copyRuns_within hwithin run hrun, ?_⟩⟩
  · have hlen : 0 + copiedLen (columnRuns (outputCols sel)) ≤ buf.length := by rw [hsize, hbuf, Nat.zero_add]
    have hmerged := copyAll_eq hruns (fun run hrun => hdata ▸ copyRuns_within hwithin run hrun) (copyRuns_copiedLen (outputCols sel) ▸ hlen)
    have hsource : ∀ run ∈ columnRuns (outputCols sel), run.srcOffset + run.len ≤ data.length := fun run hrun => by
      obtain ⟨p, hp, rfl⟩ := List.mem_map.mp hrun
      exact hdata ▸ hwithin p hp
    have hsingle := copyAll_eq hcolumns hsource hlen
    refine ⟨?_, ?_⟩
    · rw [hmerged, hsingle, copyRuns_cells, copyRuns_copiedLen]
    · rw [hmerged, copyRuns_cells, copyRuns_copiedLen, hsize, projectionRuns_read]
      have hcells : (columnRuns (outputCols sel)).flatMap (CopyRun.cell data) = sel.flatMap fun c => (data.drop c.offset).take c.len :=
        relay_cells data 0 sel
      rw [hcells, List.take_zero, List.nil_append, Nat.zero_add, List.drop_eq_nil_of_le (Nat.le_of_eq hbuf), List.append_nil]
  · have := hruns.within run hrun
    rw [copyRuns_copiedLen, hsize] at this
    omega

def abCols : List Catalog.ColMeta := [⟨"t", "a", .int, 4, 0, false⟩, ⟨"t", "b", .int, 4, 4, false⟩]

theorem projection_copies_two :
    copyAll (putInt 1 ++ putInt 2) (copyRuns (outputCols (abCols.reverse ++ abCols))) (List.replicate 16 0) =
      copyAll (putInt 1 ++ putInt 2) (columnRuns (outputCols (abCols.reverse ++ abCols))) (List.replicate 16 0) :=
  ((@projection_copies abCols _ [⟨"t", "b"⟩, ⟨"t", "a"⟩, ⟨"t", "a"⟩, ⟨"t", "b"⟩] 8 (by decide) (by decide)).1 _ _
    (by decide) (by decide)).1

end Rmdb.Sql
