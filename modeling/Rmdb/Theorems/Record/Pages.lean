import Rmdb.Theorems.Record.Operations
import Rmdb.Recovery.Recover

/-! Record files without their free pages: what the operations of recovery do to the records, also when the list of free
pages is broken. -/

namespace Rmdb
namespace RmFile
variable {f g : RmFile} {n : Nat} {p head : Int} {page old : RmPage} {rid : Rid}

/-- The pages of a file that was opened: all up to `num_pages`, with `n` slots each. -/
structure Paged (n : Nat) (f : RmFile) : Prop where
  perPage : f.perPage = n
  pages : ∀ p, (f.pages p).isSome ↔ 1 ≤ p ∧ p < f.numPages
  header : 1 ≤ f.numPages
  next : f.fd2pageno = f.numPages
  slots : ∀ p page, f.pages p = some page → page.slots.length = n

/-- The position is a slot of a record page. -/
def IsSlotOf (n : Nat) (rid : Rid) : Prop := rid.pageNo ≠ 0 ∧ 0 ≤ rid.slotNo ∧ rid.slotNo < n

theorem Paged.write (h : Paged n f) (hp : f.pages p = some old) (hlen : page.slots.length = n) : Paged n (f.write p page head) where
  perPage := h.perPage
  pages q := by
    rw [write_pages, write_numPages]
    split
    · rename_i hq
      subst hq
      simpa [hp] using h.pages q
    · exact h.pages q
  header := h.header
  next := h.next
  slots q page' hq := by
    rw [write_pages] at hq
    split at hq
    · cases hq
      exact hlen
    · exact h.slots q page' hq

theorem Paged.fetch (h : Paged n f) (hrid : IsSlotOf n rid) :
    (f.lookup rid = none ∧ ¬(1 ≤ rid.pageNo ∧ rid.pageNo < f.numPages) ∧
        f.fetchPageHandle rid.pageNo = .error (.recordNotFound rid.pageNo (-1))) ∨
      ∃ page i, rid = ⟨rid.pageNo, (i : Nat)⟩ ∧ i < n ∧ f.pages rid.pageNo = some page ∧
        f.fetchPageHandle rid.pageNo = .ok page ∧ f.slotIndex rid.slotNo = .ok i ∧ f.lookup rid = page.slots[i]?.getD none := by
  obtain ⟨h0, hlo, hhi⟩ := hrid
  cases hp : f.pages rid.pageNo with
  | none =>
    have hout : ¬(1 ≤ rid.pageNo ∧ rid.pageNo < f.numPages) := by
      rw [← h.pages, hp]
      simp
    refine .inl ⟨?_, hout, ?_⟩
    · rw [lookup, hp]
      rfl
    · rw [fetchPageHandle, if_pos (by omega)]
  | some page =>
    have hin : 1 ≤ rid.pageNo ∧ rid.pageNo < f.numPages := (h.pages _).mp (by rw [hp]; rfl)
    obtain ⟨i, hi⟩ := Int.eq_ofNat_of_zero_le hlo
    refine .inr ⟨page, i, ?_, by omega, rfl, ?_, ?_, ?_⟩
    · rw [← hi]
    · rw [fetchPageHandle, if_neg (by omega), hp]
    · rw [slotIndex, if_pos ⟨hlo, by rw [h.perPage]; exact hhi⟩, hi]
      rfl
    · rw [lookup, hp, Option.bind_some, if_pos hlo, hi]
      rfl

/-- A write that sets one slot of a page. -/
theorem Paged.set (h : Paged n f) (page : RmPage) (head : Int) {i : Nat} (hi : i < n) (hp : f.pages p = some old)
    {v : Option Bytes} (hslots : page.slots = old.slots.set i v) :
    Paged n (f.write p page head) ∧ ∀ r, (f.write p page head).lookup r = if r = ⟨p, i⟩ then v else f.lookup r := by
  have hlen := h.slots p old hp
  refine ⟨h.write hp (by rw [hslots, List.length_set, hlen]), fun r => ?_⟩
  have hold := slotsOf_of_page hp
  refine lookup_set (fun q => ?_) (by rw [hold, hlen]; exact hi)
  rw [slotsOf_write, hold, hslots]

/-- The file with `m` pages after a change of the record at one position. -/
structure Changed (n : Nat) (m : Int) (f g : RmFile) (rid : Rid) (v : Option Bytes) : Prop where
  paged : Paged n g
  numPages : g.numPages = m
  lookup : ∀ r, g.lookup r = if r = rid then v else f.lookup r

theorem Paged.updateRecord (h : Paged n f) (hrid : IsSlotOf n rid) (buf : Bytes) :
    (f.lookup rid = none ∧ ∃ s, f.updateRecord rid buf = .error (.recordNotFound rid.pageNo s)) ∨
      ∃ g, (f.lookup rid).isSome ∧ f.updateRecord rid buf = .ok g ∧ Changed n f.numPages f g rid (some buf) := by
  rcases h.fetch hrid with ⟨hnone, -, hfetch⟩ | ⟨page, i, hr, hi, hp, hfetch, hidx, hlookup⟩
  · exact .inl ⟨hnone, -1, by simp only [RmFile.updateRecord, hfetch, bind, Except.bind]⟩
  · simp only [RmFile.updateRecord, hfetch, hidx, bind, Except.bind, ← hlookup]
    cases hl : f.lookup rid with
    | none => exact .inl ⟨rfl, _, rfl⟩
    | some old =>
      obtain ⟨hpaged, hget⟩ := h.set { page with slots := page.slots.set i (some buf) } f.firstFreePageNo hi hp rfl
      exact .inr ⟨_, rfl, rfl, hpaged, rfl, fun r => by rw [hr]; exact hget r⟩

theorem Paged.deleteRecord (h : Paged n f) (hrid : IsSlotOf n rid) :
    (f.lookup rid = none ∧ ∃ s, f.deleteRecord rid = .error (.recordNotFound rid.pageNo s)) ∨
      ∃ g, (f.lookup rid).isSome ∧ f.deleteRecord rid = .ok g ∧ Changed n f.numPages f g rid none := by
  rcases h.fetch hrid with ⟨hnone, -, hfetch⟩ | ⟨page, i, hr, hi, hp, hfetch, hidx, hlookup⟩
  · exact .inl ⟨hnone, -1, by simp only [RmFile.deleteRecord, hfetch, bind, Except.bind]⟩
  · simp only [RmFile.deleteRecord, hfetch, hidx, bind, Except.bind, ← hlookup]
    cases hl : f.lookup rid with
    | none => exact .inl ⟨rfl, _, rfl⟩
    | some old =>
      have hwrite : ∀ (page' : RmPage) (head : Int), page'.slots = page.slots.set i none →
          Changed n f.numPages f (f.write rid.pageNo page' head) rid none := by
        intro page' head hslots
        obtain ⟨hpaged, hget⟩ := h.set page' head hi hp hslots
        exact ⟨hpaged, rfl, fun r => by rw [hr]; exact hget r⟩
      refine .inr ?_
      simp only [Option.isNone_some, Bool.false_eq_true, if_false, releasePageHandle]
      split
      · split
        · exact ⟨_, rfl, rfl, hwrite _ _ rfl⟩
        · exact ⟨_, rfl, rfl, hwrite _ _ rfl⟩
      · exact ⟨_, rfl, rfl, hwrite _ _ rfl⟩

theorem Paged.create (h : Paged n f) :
    Paged n f.createNewPageHandle.1 ∧ f.createNewPageHandle.1.numPages = f.numPages + 1 ∧
      ∀ r, f.createNewPageHandle.1.lookup r = f.lookup r := by
  have hnum : f.createNewPageHandle.1.numPages = f.numPages + 1 := by
    simp only [createNewPageHandle, setPage, h.next]
    omega
  have hpages : ∀ q, f.createNewPageHandle.1.pages q =
      if q = f.numPages then some ⟨0, f.firstFreePageNo, List.replicate f.perPage none⟩ else f.pages q := by
    intro q
    simp only [createNewPageHandle, setPage, h.next]
  refine ⟨⟨h.perPage, fun q => ?_, by have := h.header; omega, ?_, fun q page hq => ?_⟩, hnum, fun r => ?_⟩
  · have := h.header
    rw [hpages, hnum]
    split
    · simp only [Option.isSome_some, true_iff]
      omega
    · rw [h.pages q]
      omega
  · rw [hnum]
    simp only [createNewPageHandle, setPage, h.next]
  · rw [hpages] at hq
    split at hq
    · cases hq
      rw [List.length_replicate, h.perPage]
    · exact h.slots q page hq
  · have hnone : f.pages f.numPages = none := by
      rw [← Option.not_isSome_iff_eq_none, h.pages]
      omega
    simp only [RmFile.lookup, hpages]
    split
    · rename_i hr
      rw [hr, hnone]
      simp only [Option.bind_some, Option.bind_none, List.getElem?_replicate]
      split
      · split <;> rfl
      · rfl
    · rfl

theorem Paged.growFor (h : Paged n f) (p : Int) :
    Paged n (f.growFor p) ∧ (p ≤ f.numPages → (f.growFor p).numPages = max f.numPages (p + 1)) ∧
      (p < (f.growFor p).numPages ↔ p ≤ f.numPages) ∧ ∀ r, (f.growFor p).lookup r = f.lookup r := by
  unfold RmFile.growFor
  split
  · obtain ⟨hpaged, hnum, hlookup⟩ := h.create
    exact ⟨hpaged, by omega, by omega, hlookup⟩
  · exact ⟨h, by omega, by omega, fun _ => rfl⟩

/-- An insertion into a free slot of a page of the file. -/
theorem Paged.insertRecordAt (h : Paged n f) (hrid : IsSlotOf n rid) (hpage : 1 ≤ rid.pageNo ∧ rid.pageNo < f.numPages)
    (hfree : f.lookup rid = none) (buf : Bytes) :
    ∃ g, f.insertRecordAt rid buf = .ok g ∧ Changed n f.numPages f g rid (some buf) := by
  rcases h.fetch hrid with ⟨-, hout, -⟩ | ⟨page, i, hr, hi, hp, hfetch, hidx, hlookup⟩
  · exact absurd hpage hout
  · have hwrite : ∀ (page' : RmPage) (head : Int), page'.slots = page.slots.set i (some buf) →
        Changed n f.numPages f (f.write rid.pageNo page' head) rid (some buf) := by
      intro page' head hslots
      obtain ⟨hpaged, hget⟩ := h.set page' head hi hp hslots
      exact ⟨hpaged, rfl, fun r => by rw [hr]; exact hget r⟩
    simp only [RmFile.insertRecordAt, hfetch, hidx, bind, Except.bind, ← hlookup, hfree, Option.isSome_none,
      Bool.false_eq_true, if_false, unlinkIfFull]
    split
    · split
      · exact ⟨_, rfl, hwrite _ _ rfl⟩
      · exact ⟨_, rfl, hwrite _ _ rfl⟩
    · exact ⟨_, rfl, hwrite _ _ rfl⟩

/-- The record that recovery puts into a slot goes there if it is free and the file reaches to its page. -/
theorem Paged.putRecord (h : Paged n f) (hrid : IsSlotOf n rid) (value : Bytes) :
    (1 ≤ rid.pageNo ∧ rid.pageNo ≤ f.numPages →
        ∃ g, f.putRecord rid value = .ok g ∧ Changed n (max f.numPages (rid.pageNo + 1)) f g rid ((f.lookup rid).or (some value))) ∧
      (¬(1 ≤ rid.pageNo ∧ rid.pageNo ≤ f.numPages) → ∃ e, f.putRecord rid value = .error e) := by
  obtain ⟨hpaged, hnum, hlt, hsame⟩ := h.growFor rid.pageNo
  have hfetch := hpaged.fetch hrid
  constructor
  · rintro ⟨hpos, hin⟩
    have hlt' := hlt.mpr hin
    rcases hfetch with ⟨-, hout, -⟩ | ⟨page, i, hr, hi, hp, hfetch, hidx, hlookup⟩
    · exact absurd ⟨hpos, hlt'⟩ hout
    · have hocc : (f.growFor rid.pageNo).slotIsOccupied rid = .ok (f.lookup rid).isSome := by
        simp only [slotIsOccupied, if_neg (Int.not_le.mpr hlt'), hfetch, hidx, bind, Except.bind, ← hlookup, hsame]
      simp only [RmFile.putRecord, hocc, bind, Except.bind]
      cases hl : f.lookup rid with
      | some v =>
        refine ⟨_, rfl, hpaged, hnum hin, fun r => ?_⟩
        rw [hsame]
        split
        · rename_i hr'
          rw [hr', hl]
          rfl
        · rfl
      | none =>
        obtain ⟨g, hg, hchanged⟩ := hpaged.insertRecordAt hrid ⟨hpos, hlt'⟩ ((hsame rid).trans hl) value
        refine ⟨g, hg, hchanged.paged, hchanged.numPages.trans (hnum hin), fun r => ?_⟩
        rw [hchanged.lookup, hsame]
        rfl
  · intro hout
    rcases hfetch with ⟨hnone, hout', hfetch⟩ | ⟨page, i, hr, hi, hp, -⟩
    · have hinsert : (f.growFor rid.pageNo).insertRecordAt rid value = .error (.recordNotFound rid.pageNo (-1)) := by
        simp only [RmFile.insertRecordAt, hfetch, bind, Except.bind]
      simp only [RmFile.putRecord, slotIsOccupied, hfetch, bind, Except.bind]
      split
      · rename_i b hb
        exact ⟨_, rfl⟩
      · rename_i b hb
        split at hb
        · cases hb
          exact ⟨_, hinsert⟩
        · cases hb
    · have hin := (hpaged.pages rid.pageNo).mp (by rw [hp]; rfl)
      exact absurd ⟨hin.1, hlt.mp hin.2⟩ hout

end RmFile
end Rmdb
