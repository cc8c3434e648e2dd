import Rmdb.Lib.Outcome
import Rmdb.Theorems.Txn.Undo

/-! What scans return: a sequential scan visits every record of the table file, an index scan the row that an entry names,
and `get_record_mvcc` decides what is seen there. -/

namespace Rmdb
open RmFile

namespace Db
variable {T I : Type} {db : Schema T I}

/-- The record of a row as a transaction sees it. -/
def seen (db : Schema T I) (s : Db T I) (id : Int) (tab : T) (rid : Rid) : Option Bytes :=
  if visitRecord (s.mvccMap (tab, db.slot tab rid)) id = .success then s.row tab rid else none

section
variable {s : Db T I} {tab : T} {rid : Rid}

/-- A record is in a slot of a page of the file. -/
theorem inFile_of_row (hfile : Sound (db.recordSize tab) (s.fhs tab)) (h : (s.row tab rid).isSome) :
    db.IsSlot tab rid ∧ 1 ≤ rid.pageNo ∧ rid.pageNo < (s.fhs tab).numPages := by
  obtain ⟨hper, l, H⟩ := hfile
  rw [row, lookup] at h
  cases hp : (s.fhs tab).pages rid.pageNo with
  | none => simp [hp] at h
  | some page =>
    rw [hp, Option.bind_some] at h
    obtain ⟨h1, h2⟩ := H.bounds hp
    have hlen := (H.page _ _ hp).length
    split at h
    · next h0 =>
      have hlt : rid.slotNo.toNat < page.slots.length := by
        by_contra hge
        rw [List.getElem?_eq_none (by omega)] at h
        cases h
      have hper' : (s.fhs tab).perPage = db.perPage tab := hper
      exact ⟨⟨by omega, h0, by omega⟩, h1, h2⟩
    · cases h

theorem mem_rmScan (hfile : Sound (db.recordSize tab) (s.fhs tab)) : rid ∈ s.rmScan tab ↔ (s.row tab rid).isSome := by
  simp only [rmScan, List.mem_flatMap, List.mem_range, List.mem_filter, List.mem_map]
  constructor
  · rintro ⟨p, -, -, h⟩
    exact h
  · intro h
    obtain ⟨⟨-, h0, h1⟩, hp, hn⟩ := inFile_of_row hfile h
    have hper : (s.fhs tab).perPage = db.perPage tab := hfile.1
    refine ⟨rid.pageNo.toNat, by omega, ⟨rid.slotNo.toNat, by omega, ?_⟩, h⟩
    have hp0 : 0 ≤ rid.pageNo := by omega
    rw [Int.toNat_of_nonneg h0, Int.toNat_of_nonneg hp0]

theorem getRecordMvcc_seen (hfile : Sound (db.recordSize tab) (s.fhs tab)) (h : (s.row tab rid).isSome) (id : Int) :
    s.getRecordMvcc db id tab rid = .ok (s.seen db id tab rid) := by
  obtain ⟨hslot, -⟩ := inFile_of_row hfile h
  by_cases hvisit : visitRecord (s.mvccMap (tab, db.slot tab rid)) id = .success
  · rcases getRecordMvcc_spec hfile hslot id with ⟨rec, ⟨-, hrow⟩, hget⟩ | ⟨hno, -⟩ | ⟨-, hnone, -⟩
    · rw [hget, seen, if_pos hvisit, hrow]
    · exact absurd hvisit hno
    · rw [hnone] at h
      cases h
  · rw [getRecordMvcc, seen, if_neg hvisit, if_neg hvisit]

/-- What a sequential scan yields: every record of the table, as the transaction sees it, that meets the conditions. -/
theorem seqScan_spec (hfile : Sound (db.recordSize tab) (s.fhs tab)) (id : Int) (conds : List (Condition (db.tab tab))) :
    ∃ rows, s.seqScan db id tab conds = .ok rows ∧ ∀ r, r ∈ rows ↔ (s.row tab r.1).isSome ∧ r.2 = s.seen db id tab r.1 ∧
      (conds = [] ∨ ∃ b, r.2 = some b ∧ evalConds conds b = true) := by
  have hat : ∀ rid ∈ s.rmScan tab, s.seqScanAt db id tab conds rid = .ok
      (if conds = [] then some (rid, s.seen db id tab rid)
        else ((s.seen db id tab rid).filter (evalConds conds)).map fun b => (rid, some b)) := by
    intro rid hrid
    rw [seqScanAt, getRecordMvcc_seen hfile ((mem_rmScan hfile).mp hrid)]
    simp only [bind, Except.bind]
    split <;> rfl
  refine ⟨_, by rw [seqScan, Outcomes.mapM_ok hat]; rfl, fun r => ?_⟩
  rw [List.filterMap_map, List.mem_filterMap]
  constructor
  · rintro ⟨rid, hrid, heq⟩
    have hrow := (mem_rmScan hfile).mp hrid
    by_cases hc : conds = []
    · simp only [Function.comp_apply, if_pos hc, Option.some.injEq] at heq
      subst heq
      exact ⟨hrow, rfl, Or.inl hc⟩
    · simp only [Function.comp_apply, if_neg hc, Option.map_eq_some_iff, Option.filter_eq_some_iff] at heq
      obtain ⟨b, ⟨hb, heval⟩, rfl⟩ := heq
      exact ⟨hrow, hb.symm, Or.inr ⟨b, rfl, heval⟩⟩
  · rintro ⟨hrow, hseen, hc⟩
    refine ⟨r.1, (mem_rmScan hfile).mpr hrow, ?_⟩
    by_cases hnil : conds = []
    · simp only [Function.comp_apply, if_pos hnil, ← hseen]
    · rcases hc with hc | ⟨b, hb, heval⟩
      · exact absurd hc hnil
      · simp only [Function.comp_apply, if_neg hnil, ← hseen, hb, Option.filter_some, heval, if_true, Option.map_some]
        rw [← hb]

/-- `get_record` returns the record at the position. -/
theorem row_of_getRecord {buf : Bytes} (h : (s.fhs tab).getRecord rid = .ok buf) : s.row tab rid = some buf := by
  rw [getRecord] at h
  obtain ⟨page, hpage, h⟩ := Runs.ok_of_bind h
  obtain ⟨n, hn, h⟩ := Runs.ok_of_bind h
  rw [fetchPageHandle] at hpage
  rw [slotIndex] at hn
  split at hpage
  · cases hpage
  · split at hpage
    · next hp =>
      cases hpage
      split at hn
      · next hslot =>
        cases hn
        split at h
        · next hbuf =>
          cases h
          rw [row, lookup, hp, Option.bind_some, if_pos hslot.1, hbuf]
        · cases h
      · cases hn
    · cases hpage

/-- What an index scan yields at a key. -/
theorem indexScanAt_iff (hfile : Sound (db.recordSize tab) (s.fhs tab)) {id : Int} {i : I}
    {conds : List (Condition (db.tab tab))} {key b : Bytes} :
    s.indexScanAt db id tab i conds key = .ok (some (rid, b)) ↔
      s.ihs (i, key) = some rid ∧ s.seen db id tab rid = some b ∧ cmpConds conds b = true := by
  rw [indexScanAt]
  cases hkey : s.ihs (i, key) with
  | none => simp
  | some r =>
    constructor
    · intro h
      cases hget : s.getRecordMvcc db id tab r with
      | error e =>
        simp only [hget] at h
        cases e <;> cases h
      | ok rec =>
        simp only [hget, Except.ok.injEq, Option.map_eq_some_iff, Option.filter_eq_some_iff, Prod.mk.injEq] at h
        obtain ⟨b', ⟨rfl, heval⟩, rfl, rfl⟩ := h
        refine ⟨rfl, ?_, heval⟩
        rw [getRecordMvcc] at hget
        split at hget
        · next hvisit =>
          obtain ⟨buf, hbuf, hget⟩ := Runs.ok_of_bind hget
          cases hget
          rw [seen, if_pos hvisit, row_of_getRecord hbuf]
        · cases hget
    · rintro ⟨heq, hseen, heval⟩
      cases heq
      have hrow : (s.row tab rid).isSome := by
        rw [seen] at hseen
        split at hseen
        · rw [hseen]
          rfl
        · cases hseen
      simp only [getRecordMvcc_seen hfile hrow, hseen, Option.filter_some, heval, if_true, Option.map_some]

end

end Db
end Rmdb
