import Rmdb.Record.File
import Rmdb.Lib.Links
import Rmdb.Lib.Runs

/-! The free pages of a record file: the pages with a free slot, linked from the file header.

Every operation writes one page and the head of the list. `Heap f l` says that `l` lists the free pages of `f`; the
elementary writes keep the list, take its head off or push a page. -/

namespace Rmdb
open Links

namespace RmFile

/-- The page after `p` in the list of free pages. -/
def nextFree (f : RmFile) (p : Int) : Int := ((f.pages p).map (·.nextFreePageNo)).getD rmNoPage

/-- A record page with fewer records than slots. -/
def HasRoom (f : RmFile) (p : Int) : Prop := ∃ page, f.pages p = some page ∧ page.numRecords < f.perPage

/-- The list from `first_free_page_no` along `next_free_page_no` ends, has no page twice and holds the pages with room. -/
structure FreePages (f : RmFile) (l : List Int) : Prop where
  linked : Linked f.nextFree rmNoPage f.firstFreePageNo l
  nodup : l.Nodup
  mem : ∀ p, p ∈ l ↔ f.HasRoom p

/-- The invariant of a record file: the free pages are linked, and `num_records` counts the set bits of a page. -/
structure HeapInv (f : RmFile) : Prop where
  free : ∃ l, f.FreePages l
  pages : ∀ p, (f.pages p).isSome ↔ 1 ≤ p ∧ p < f.numPages
  count : ∀ p page, f.pages p = some page → page.numRecords = page.slots.countP (·.isSome)

/-- What a record page is apart from its link. -/
structure PageOk (perPage : Nat) (page : RmPage) : Prop where
  length : page.slots.length = perPage
  count : page.numRecords = page.slots.countP (·.isSome)

/-- A file with the list of its free pages. -/
structure Heap (f : RmFile) (l : List Int) : Prop extends FreePages f l where
  slot : 0 < f.perPage
  pages : ∀ p, (f.pages p).isSome ↔ 1 ≤ p ∧ p < f.numPages
  header : 1 ≤ f.numPages
  next : f.fd2pageno = f.numPages
  page : ∀ p page, f.pages p = some page → PageOk f.perPage page

/-- A page and the head of the free pages are written. -/
def write (f : RmFile) (p : Int) (page : RmPage) (head : Int) : RmFile := { f with firstFreePageNo := head }.setPage p page

section
variable {f : RmFile} {l : List Int} {p q head : Int} {page old : RmPage}

theorem Heap.inv (H : Heap f l) : HeapInv f := ⟨⟨l, H.toFreePages⟩, H.pages, fun p page h => (H.page p page h).count⟩

/-! ### Writes -/

@[simp] theorem write_perPage : (f.write p page head).perPage = f.perPage := rfl
@[simp] theorem write_numPages : (f.write p page head).numPages = f.numPages := rfl
@[simp] theorem write_first : (f.write p page head).firstFreePageNo = head := rfl
@[simp] theorem write_fd2pageno : (f.write p page head).fd2pageno = f.fd2pageno := rfl

theorem write_pages : (f.write p page head).pages q = if q = p then some page else f.pages q := rfl

theorem setPage_eq_write : f.setPage p page = f.write p page f.firstFreePageNo := rfl

theorem nextFree_write : (f.write p page head).nextFree q = if q = p then page.nextFreePageNo else f.nextFree q := by
  simp only [nextFree, write_pages]
  split <;> rfl

theorem nextFree_of_page (h : f.pages p = some page) : f.nextFree p = page.nextFreePageNo := by
  simp only [nextFree, h, Option.map_some, Option.getD_some]

theorem hasRoom_write : (f.write p page head).HasRoom q ↔ if q = p then page.numRecords < f.perPage else f.HasRoom q := by
  simp only [HasRoom, write_pages, write_perPage]
  split <;> simp

theorem hasRoom_of_page (h : f.pages p = some page) : f.HasRoom p ↔ page.numRecords < f.perPage := by
  simp only [HasRoom, h, Option.some.injEq, exists_eq_left']

/-- A write of a record page keeps everything but the list of free pages. -/
theorem Heap.write_of (H : Heap f l) (hp : f.pages p = some old) (hok : PageOk f.perPage page) {l' : List Int}
    (hfree : FreePages (f.write p page head) l') : Heap (f.write p page head) l' where
  toFreePages := hfree
  slot := H.slot
  header := H.header
  next := H.next
  pages := fun q => by
    rw [write_pages, write_numPages, ← H.pages q]
    split
    · next hq => simp [hq, hp]
    · rfl
  page := fun q page' hq => by
    rw [write_pages] at hq
    split at hq
    · cases hq
      exact hok
    · exact H.page q page' hq

/-- A page that stays full, or stays one with room, keeps its place. -/
theorem Heap.keep (H : Heap f l) (hp : f.pages p = some old) (hok : PageOk f.perPage page)
    (hnext : page.nextFreePageNo = old.nextFreePageNo) (hroom : page.numRecords < f.perPage ↔ old.numRecords < f.perPage) :
    Heap (f.write p page f.firstFreePageNo) l := by
  refine H.write_of hp hok ⟨H.linked.congr fun q _ => ?_, H.nodup, fun q => ?_⟩
  · rw [nextFree_write]
    split
    · next hq => rw [hq, nextFree_of_page hp, hnext]
    · rfl
  · rw [H.mem q, hasRoom_write]
    split
    · next hq => rw [hq, hasRoom_of_page hp, hroom]
    · rfl

/-- A page that becomes full leaves the list when it is the head. -/
theorem Heap.unlink (H : Heap f (p :: l)) (hp : f.pages p = some old) (hok : PageOk f.perPage page)
    (hfull : ¬page.numRecords < f.perPage) : Heap (f.write p page old.nextFreePageNo) l := by
  obtain ⟨hnotin, hnodup⟩ := List.nodup_cons.mp H.nodup
  have hlinked := H.linked.2.2
  rw [nextFree_of_page hp] at hlinked
  have hne : ∀ q ∈ l, q ≠ p := by
    rintro q hq rfl
    exact hnotin hq
  refine H.write_of hp hok ⟨hlinked.congr fun q hq => ?_, hnodup, fun q => ?_⟩
  · rw [nextFree_write, if_neg (hne q hq)]
  · rw [hasRoom_write]
    split
    · next hq => simp [hq, hnotin, hfull]
    · next hq => rw [← H.mem q, List.mem_cons, or_iff_right hq]

theorem Heap.pageNo_ne (H : Heap f l) (hp : f.pages p = some old) : p ≠ rmNoPage := by
  have := (H.pages p).mp (by rw [hp]; rfl)
  rintro rfl
  exact absurd this.1 (by decide)

/-- A full page that gets room is pushed. -/
theorem Heap.link (H : Heap f l) (hp : f.pages p = some old) (hfull : ¬old.numRecords < f.perPage)
    (hok : PageOk f.perPage page) (hroom : page.numRecords < f.perPage) (hnext : page.nextFreePageNo = f.firstFreePageNo) :
    Heap (f.write p page p) (p :: l) := by
  have hnotin : p ∉ l := fun h => hfull ((hasRoom_of_page hp).mp ((H.mem p).mp h))
  have hhead : (f.write p page p).nextFree p = f.firstFreePageNo := by rw [nextFree_write, if_pos rfl, hnext]
  refine H.write_of hp hok ⟨?_, List.nodup_cons.mpr ⟨hnotin, H.nodup⟩, fun q => ?_⟩
  · refine H.linked.push (H.pageNo_ne hp) hhead fun q hq => ?_
    rw [nextFree_write, if_neg]
    rintro rfl
    exact hnotin hq
  · rw [hasRoom_write, List.mem_cons]
    split
    · next hq => simp [hq, hroom]
    · next hq => rw [or_iff_right hq, H.mem q]

/-- The head of the free pages is a page with room. -/
theorem Heap.first (H : Heap f l) (h : f.firstFreePageNo ≠ rmNoPage) :
    ∃ l' page, l = f.firstFreePageNo :: l' ∧ f.pages f.firstFreePageNo = some page ∧ page.numRecords < f.perPage := by
  obtain ⟨l', rfl, -⟩ := H.linked.pop h
  obtain ⟨page, hpage, hroom⟩ := (H.mem f.firstFreePageNo).mp List.mem_cons_self
  exact ⟨l', page, rfl, hpage, hroom⟩

theorem Heap.fetchPageHandle (H : Heap f l) (hp : f.pages p = some page) : f.fetchPageHandle p = .ok page := by
  have := (H.pages p).mp (by rw [hp]; rfl)
  rw [RmFile.fetchPageHandle, if_neg (by omega), hp]

theorem Heap.fetchPageHandle_none (H : Heap f l) (hp : f.pages p = none) (h0 : p ≠ 0) :
    f.fetchPageHandle p = .error (.recordNotFound p (-1)) := by
  have hnot : ¬(1 ≤ p ∧ p < f.numPages) := by
    rw [← H.pages p, hp]
    simp
  rw [RmFile.fetchPageHandle, if_pos (by omega)]

theorem pageOk_replicate (n : Nat) (next : Int) : PageOk n ⟨0, next, List.replicate n none⟩ :=
  ⟨List.length_replicate, by simp [List.countP_replicate]⟩

/-- A new page becomes the head of the free pages. -/
theorem Heap.createNewPageHandle (H : Heap f l) :
    f.createNewPageHandle = ({ f with fd2pageno := f.numPages + 1, numPages := f.numPages + 1 }.write f.numPages
        ⟨0, f.firstFreePageNo, List.replicate f.perPage none⟩ f.numPages,
      f.numPages, ⟨0, f.firstFreePageNo, List.replicate f.perPage none⟩) := by
  have hmax : max f.numPages (f.numPages + 1) = f.numPages + 1 := by omega
  simp only [RmFile.createNewPageHandle, H.next, hmax]
  rfl

theorem Heap.pages_none (H : Heap f l) (h : ¬(1 ≤ p ∧ p < f.numPages)) : f.pages p = none := by
  rwa [← H.pages p, Option.not_isSome_iff_eq_none] at h

theorem Heap.create_spec (H : Heap f l) : Heap f.createNewPageHandle.1 (f.numPages :: l) := by
  rw [H.createNewPageHandle]
  have hnone : f.pages f.numPages = none := H.pages_none (by omega)
  have hnotin : f.numPages ∉ l := by
    intro h
    obtain ⟨page, hpage, -⟩ := (H.mem f.numPages).mp h
    rw [hnone] at hpage
    cases hpage
  have hne : f.numPages ≠ rmNoPage := by
    intro h
    exact absurd (h ▸ H.header) (by decide)
  have hslot := H.slot
  exact {
    linked := by
      refine H.linked.push hne (nextFree_write.trans (if_pos rfl)) fun q hq => ?_
      rw [nextFree_write, if_neg]
      · rfl
      · rintro rfl
        exact hnotin hq
    nodup := List.nodup_cons.mpr ⟨hnotin, H.nodup⟩
    mem := fun q => by
      rw [hasRoom_write, List.mem_cons]
      split
      · next hq => simp [hq, hslot]
      · next hq =>
        rw [or_iff_right hq, H.mem q]
        rfl
    slot := H.slot
    header := by
      have := H.header
      show 1 ≤ f.numPages + 1
      omega
    next := rfl
    pages := fun q => by
      have hq := H.pages q
      have := H.header
      rw [write_pages]
      simp only [write_numPages]
      split
      · next h =>
        subst h
        simp
        omega
      · next h =>
        show (f.pages q).isSome = true ↔ _
        rw [hq]
        omega
    page := fun q page' hq => by
      rw [write_pages] at hq
      split at hq
      · cases hq
        exact pageOk_replicate _ _
      · exact H.page q page' hq }

end
end RmFile
end Rmdb
