import Rmdb.Exec.Load
import Rmdb.Theorems.Record.Refinement
import Rmdb.Theorems.Exec.Scan

/-! What `LOAD` does to the table file.

It places the records behind the first `num_records` slots of the first free page and starts a new page when that page is
full, without taking the full page out of the free pages. So it is right when the slots it takes are free and the page does
not become full. -/

namespace Rmdb
open Links

section Overwrite
variable {slots : List (Option Bytes)} {pos : Nat} {bufs : List Bytes}

theorem overwrite_length (slots : List (Option Bytes)) (pos : Nat) (bufs : List Bytes) :
    (overwrite slots pos bufs).length = slots.length := by
  induction bufs generalizing slots pos with
  | nil => rfl
  | cons b bufs ih => rw [overwrite, ih, List.length_set]

theorem overwrite_getElem? {j : Nat} (h : j < pos ∨ pos + bufs.length ≤ j) : (overwrite slots pos bufs)[j]? = slots[j]? := by
  induction bufs generalizing slots pos with
  | nil => rfl
  | cons b bufs ih =>
    rw [List.length_cons] at h
    rw [overwrite, ih (by omega), List.getElem?_set_ne (by omega)]

/-- Records in free slots. -/
theorem countP_overwrite (hlen : pos + bufs.length ≤ slots.length) (hfree : ∀ i < bufs.length, slots[pos + i]?.getD none = none) :
    (overwrite slots pos bufs).countP (·.isSome) = slots.countP (·.isSome) + bufs.length := by
  induction bufs generalizing slots pos with
  | nil => rfl
  | cons b bufs ih =>
    rw [List.length_cons] at hlen hfree
    have hlt : pos < slots.length := by omega
    have hnone : slots[pos] = none := by simpa [hlt] using hfree 0 (by omega)
    rw [overwrite, ih]
    · rw [List.countP_set hlt, hnone]
      simp only [Option.isSome_none, Bool.false_eq_true, if_false, Option.isSome_some, if_true, List.length_cons]
      omega
    · rw [List.length_set]
      omega
    · intro i hi
      rw [List.getElem?_set_ne (by omega), show pos + 1 + i = pos + (i + 1) by omega]
      exact hfree (i + 1) (by omega)

end Overwrite

namespace RmFile

/-! ### A full page among the free pages -/

/-- A page without room in the list of free pages. -/
structure Stuck (f : RmFile) (p : Int) : Prop where
  list : ∃ l, Linked f.nextFree rmNoPage f.firstFreePageNo l ∧ p ∈ l ∧ ∀ q ∈ l, q < f.fd2pageno
  full : ∃ page, f.pages p = some page ∧ f.perPage ≤ page.numRecords
  next : 0 ≤ f.fd2pageno

section
variable {f g : RmFile} {p q : Int} {page old : RmPage} {l : List Int}

theorem Stuck.not_inv (h : Stuck f p) : ¬HeapInv f := by
  intro hinv
  obtain ⟨l, hl, hmem, -⟩ := h.list
  obtain ⟨l', hl'⟩ := hinv.free
  obtain ⟨page, hpage, hfull⟩ := h.full
  rw [hl.unique hl'.linked, hl'.mem p, hasRoom_of_page hpage] at hmem
  omega

/-- Records that are added to a page leave the list alone. -/
theorem Stuck.setPage (h : Stuck f p) (hq : f.pages q = some old) (hnext : page.nextFreePageNo = old.nextFreePageNo)
    (hle : old.numRecords ≤ page.numRecords) : Stuck (f.setPage q page) p where
  list := by
    obtain ⟨l, hl, hmem, hlt⟩ := h.list
    refine ⟨l, hl.congr fun x _ => ?_, hmem, hlt⟩
    rw [setPage_eq_write, nextFree_write]
    split
    · next hx => rw [hx, hnext, nextFree_of_page hq]
    · rfl
  full := by
    obtain ⟨page', hpage', hfull⟩ := h.full
    by_cases hp : p = q
    · subst hp
      rw [hq] at hpage'
      cases hpage'
      exact ⟨page, if_pos rfl, hfull.trans hle⟩
    · exact ⟨page', (if_neg hp).trans hpage', hfull⟩
  next := h.next

theorem createNewPageHandle_file (f : RmFile) : f.createNewPageHandle.1 =
    { f with fd2pageno := f.fd2pageno + 1, numPages := max f.numPages (f.fd2pageno + 1) }.write f.fd2pageno
      ⟨0, f.firstFreePageNo, List.replicate f.perPage none⟩ f.fd2pageno := rfl

theorem Stuck.create (h : Stuck f p) : Stuck f.createNewPageHandle.1 p where
  list := by
    obtain ⟨l, hl, hmem, hlt⟩ := h.list
    have hne : f.fd2pageno ≠ rmNoPage := by
      intro heq
      exact absurd (heq ▸ h.next) (by decide)
    rw [createNewPageHandle_file]
    refine ⟨f.fd2pageno :: l, hl.push hne (nextFree_write.trans (if_pos rfl)) fun x hx => ?_, List.mem_cons_of_mem _ hmem,
      fun x hx => ?_⟩
    · rw [nextFree_write, if_neg (hlt x hx).ne]
      rfl
    · show x < f.fd2pageno + 1
      rcases List.mem_cons.mp hx with rfl | hx
      · omega
      · have := hlt x hx
        omega
  full := by
    obtain ⟨page, hpage, hfull⟩ := h.full
    obtain ⟨l, -, hmem, hlt⟩ := h.list
    exact ⟨page, (if_neg (hlt p hmem).ne).trans hpage, hfull⟩
  next := by
    have := h.next
    show 0 ≤ f.fd2pageno + 1
    omega

theorem fetchPageHandle_ok (h : f.fetchPageHandle p = .ok page) : f.pages p = some page := by
  rw [fetchPageHandle] at h
  split at h
  · cases h
  · split at h
    · cases h
      assumption
    · cases h

/-! ### One page -/

/-- How many of the records go to a page. -/
def toLoad (f : RmFile) (page : RmPage) (bufs : List Bytes) : Nat := min (f.perPage - page.numRecords.toNat) bufs.length

/-- The page with the records. -/
def loadedPage (f : RmFile) (page : RmPage) (bufs : List Bytes) : RmPage :=
  { page with
    slots := overwrite page.slots page.numRecords.toNat (bufs.take (f.toLoad page bufs))
    numRecords := page.numRecords + f.toLoad page bufs }

/-- The file and the page to go on with. -/
def advance (f : RmFile) (p : Int) (page : RmPage) : RmFile × Int :=
  if f.perPage ≤ page.numRecords then (f.createNewPageHandle.1, f.createNewPageHandle.2.1) else (f, p)

/-- The positions of the records on the page. -/
def loadedRids (f : RmFile) (p : Int) (page : RmPage) (bufs : List Bytes) : List Rid :=
  (List.range (f.toLoad page bufs)).map fun (i : Nat) => (⟨p, (page.numRecords.toNat + i : Nat)⟩ : Rid)

variable {fuel : Nat} {bufs : List Bytes} {rids : List Rid}

theorem loadPages_step (hne : bufs ≠ []) (h : loadPages (fuel + 1) f p bufs = .ok (g, rids)) :
    ∃ page rest, f.pages p = some page ∧ 0 ≤ page.numRecords ∧ page.numRecords ≤ f.perPage ∧
      loadPages fuel ((f.setPage p (f.loadedPage page bufs)).advance p (f.loadedPage page bufs)).1
        ((f.setPage p (f.loadedPage page bufs)).advance p (f.loadedPage page bufs)).2 (bufs.drop (f.toLoad page bufs)) = .ok (g, rest) ∧
      rids = f.loadedRids p page bufs ++ rest := by
  obtain ⟨b, bs, rfl⟩ := List.exists_cons_of_ne_nil hne
  rw [loadPages] at h
  obtain ⟨page, hfetch, h⟩ := Runs.ok_of_bind h
  split at h
  · cases h
  · next hrange =>
    obtain ⟨⟨g', rest⟩, hrest, h⟩ := Runs.ok_of_bind h
    cases h
    exact ⟨page, rest, fetchPageHandle_ok hfetch, by omega, by omega, hrest, rfl⟩

theorem Stuck.advance (h : Stuck f p) : Stuck (f.advance q page).1 p := by
  rw [RmFile.advance]
  split
  · exact h.create
  · exact h

/-- A full page stays among the free pages while more pages are filled. -/
theorem Stuck.loadPages (h : Stuck f p) (hload : RmFile.loadPages fuel f q bufs = .ok (g, rids)) : Stuck g p := by
  induction fuel generalizing f q bufs rids with
  | zero =>
    cases bufs with
    | nil =>
      cases hload
      exact h
    | cons b bufs => cases hload
  | succ fuel ih =>
    by_cases hne : bufs = []
    · subst hne
      cases hload
      exact h
    · obtain ⟨page, rest, hpage, -, -, hrest, -⟩ := loadPages_step hne hload
      refine ih (Stuck.advance ?_) hrest
      exact h.setPage hpage rfl (by simp only [loadedPage]; omega)

/-- The page of a heap that records fill stays among the free pages. -/
theorem Heap.stuck (H : Heap f (p :: l)) (hpage : f.pages p = some page) (hnext : old.nextFreePageNo = page.nextFreePageNo)
    (hfull : f.perPage ≤ old.numRecords) : Stuck (f.setPage p old) p where
  list := by
    refine ⟨p :: l, H.linked.congr fun x _ => ?_, List.mem_cons_self, fun x hx => ?_⟩
    · rw [setPage_eq_write, nextFree_write]
      split
      · next hx => rw [hx, hnext, nextFree_of_page hpage]
      · rfl
    · obtain ⟨page', hpage', -⟩ := (H.mem x).mp hx
      exact (H.bounds hpage').2.trans_eq H.next.symm
  full := ⟨old, if_pos rfl, hfull⟩
  next := by
    have := H.header
    rw [← H.next] at this
    show 0 ≤ f.fd2pageno
    omega

theorem Heap.loadPages_full (H : Heap f (p :: l)) (hpage : f.pages p = some page) (hne : bufs ≠ [])
    (hfull : f.perPage ≤ page.numRecords + bufs.length) (hload : RmFile.loadPages (fuel + 1) f p bufs = .ok (g, rids)) :
    Stuck g p := by
  obtain ⟨page', rest, hpage', h0, hle, hrest, -⟩ := loadPages_step hne hload
  rw [hpage] at hpage'
  cases hpage'
  have hstuck : Stuck (f.setPage p (f.loadedPage page bufs)) p := by
    refine H.stuck hpage rfl ?_
    simp only [loadedPage, toLoad]
    omega
  exact hstuck.advance.loadPages hrest

/-- Fewer records than the page has room for. -/
theorem loadPages_fit (hpage : f.pages p = some page) (hne : bufs ≠ [])
    (hroom : page.numRecords + bufs.length < f.perPage) (hload : RmFile.loadPages (fuel + 1) f p bufs = .ok (g, rids)) :
    g = f.setPage p (f.loadedPage page bufs) ∧ f.toLoad page bufs = bufs.length ∧ rids = f.loadedRids p page bufs := by
  obtain ⟨page', rest, hpage', h0, hle, hrest, hrids⟩ := loadPages_step hne hload
  rw [hpage] at hpage'
  cases hpage'
  have hall : f.toLoad page bufs = bufs.length := by
    rw [toLoad]
    omega
  have hsame : (f.setPage p (f.loadedPage page bufs)).advance p (f.loadedPage page bufs) = (f.setPage p (f.loadedPage page bufs), p) := by
    rw [advance, if_neg]
    show ¬(f.perPage : Int) ≤ page.numRecords + f.toLoad page bufs
    omega
  rw [hsame, hall, List.drop_length] at hrest
  have hnil : RmFile.loadPages fuel (f.setPage p (f.loadedPage page bufs)) p [] = .ok (f.setPage p (f.loadedPage page bufs), []) := by
    cases fuel <;> rfl
  rw [hnil] at hrest
  cases hrest
  exact ⟨rfl, hall, by rw [hrids, List.append_nil]⟩

/-- Records that go into free slots of a page and do not fill it. -/
theorem Heap.loadedPage (H : Heap f (p :: l)) (hpage : f.pages p = some page) (hroom : page.numRecords + bufs.length < f.perPage)
    (hall : f.toLoad page bufs = bufs.length)
    (hfree : ∀ i < bufs.length, page.slots[page.numRecords.toNat + i]?.getD none = none) :
    Heap (f.setPage p (f.loadedPage page bufs)) (p :: l) ∧
      ∀ rid b, f.lookup rid = some b → (f.setPage p (f.loadedPage page bufs)).lookup rid = some b := by
  have hok := H.page p page hpage
  have hcount := hok.count
  have hlen := hok.length
  constructor
  · refine H.keep hpage ⟨?_, ?_⟩ rfl ?_
    · rw [RmFile.loadedPage, overwrite_length, hlen]
    · simp only [RmFile.loadedPage, hall, List.take_length]
      rw [countP_overwrite (by omega) hfree]
      omega
    · simp only [RmFile.loadedPage, hall]
      omega
  · intro rid b hb
    rw [lookup_eq] at hb ⊢
    split at hb
    · next hslot =>
      rw [if_pos hslot, setPage_eq_write, slotsOf_write]
      split
      · next hp =>
        rw [hp, slotsOf_of_page hpage] at hb
        simp only [RmFile.loadedPage, hall, List.take_length]
        rw [overwrite_getElem?, hb]
        -- a slot among those that are written is free
        by_contra hin
        have := hfree (rid.slotNo.toNat - page.numRecords.toNat) (by omega)
        rw [show page.numRecords.toNat + (rid.slotNo.toNat - page.numRecords.toNat) = rid.slotNo.toNat by omega, hb] at this
        cases this
      · exact hb
    · cases hb

/-! ### A batch -/

theorem loadRecords_eq (h : f.freePageHandle = .ok (g, p, page)) (bufs : List Bytes) :
    f.loadRecords bufs = loadPages (bufs.length + 1) g p bufs := by
  rw [freePageHandle] at h
  rw [loadRecords]
  split at h
  · next hfirst =>
    have h₁ : f.createNewPageHandle.1 = g := congrArg (·.1) (Except.ok.inj h)
    have h₂ : f.createNewPageHandle.2.1 = p := congrArg (·.2.1) (Except.ok.inj h)
    rw [if_pos hfirst, h₁, h₂]
  · next hfirst =>
    obtain ⟨page', -, h⟩ := Runs.ok_of_bind h
    cases h
    rw [if_neg hfirst]

/-- No full page among the free pages goes away in a batch. -/
theorem Stuck.loadRecords (h : Stuck f p) (hload : f.loadRecords bufs = .ok (g, rids)) : Stuck g p := by
  rw [RmFile.loadRecords] at hload
  split at hload
  next f' p' heq =>
  split at heq
  · cases heq
    exact h.create.loadPages hload
  · cases heq
    exact h.loadPages hload

/-- There is a free slot for each of `k` records behind the first `num_records` slots of the page that an insertion goes to,
    and one more. -/
def Fits (f : RmFile) (k : Nat) : Prop :=
  k = 0 ∨ ∃ g p page, f.freePageHandle = .ok (g, p, page) ∧ page.numRecords + k < f.perPage ∧
    ∀ i < k, page.slots[page.numRecords.toNat + i]?.getD none = none

/-- What `LOAD` has to leave alone and to keep. -/
structure LoadSafe (f : RmFile) (loaded : List Loaded) (g : RmFile) : Prop where
  fresh : ∀ r ∈ loaded, f.lookup r.1 = none
  kept : ∀ rid b, f.lookup rid = some b → g.lookup rid = some b
  inv : HeapInv g

end
end RmFile

namespace LoadExecutor
open RmFile
variable {S : Type} {parse : Bytes → Option Bytes} {batchSize fuel : Nat} {feed : S → List Loaded → Except IxError S}
  {f g : RmFile} {s t : S} {lines : List Bytes} {loaded : List Loaded} {p : Int} {l : List Int}

theorem filterMap_eq_map (h : ∀ line ∈ lines, (parse line).isSome) :
    lines.filterMap parse = lines.map fun line => (parse line).getD [] := by
  rw [← List.filterMap_eq_map]
  refine List.filterMap_congr fun line hline => ?_
  obtain ⟨row, hrow⟩ := Option.isSome_iff_exists.mp (h line hline)
  simp [hrow]

/-- The first batch, and the others. -/
theorem loadBatches_step (hbatch : (lines.take batchSize).filterMap parse ≠ [])
    (h : loadBatches parse batchSize feed (fuel + 1) f s lines = .ok (g, t, loaded)) :
    ∃ f₁ rids s₁, f.loadRecords ((lines.take batchSize).filterMap parse) = .ok (f₁, rids) ∧
      feed s (rids.zip ((lines.take batchSize).filterMap parse)) = .ok s₁ ∧
      ((lines.length < batchSize ∧ g = f₁ ∧ t = s₁ ∧ loaded = rids.zip ((lines.take batchSize).filterMap parse)) ∨
        (batchSize ≤ lines.length ∧ ∃ rest, loadBatches parse batchSize feed fuel f₁ s₁ (lines.drop batchSize) = .ok (g, t, rest) ∧
          loaded = rids.zip ((lines.take batchSize).filterMap parse) ++ rest)) := by
  rw [loadBatches] at h
  split at h
  · next hnil => exact absurd hnil hbatch
  · next row rows hrows =>
    rw [hrows]
    split at h
    · cases h
    · next f₁ rids hload =>
      split at h
      · cases h
      · next s₁ hfeed =>
        refine ⟨f₁, rids, s₁, hload, hfeed, ?_⟩
        split at h
        · next hlast =>
          cases h
          exact Or.inl ⟨hlast, rfl, rfl, rfl⟩
        · next hmore =>
          obtain ⟨⟨g', t', rest⟩, hrest, h⟩ := Runs.ok_of_bind h
          cases h
          exact Or.inr ⟨by omega, rest, hrest, rfl⟩

theorem stuck_loadBatches (h : Stuck f p) (hload : loadBatches parse batchSize feed fuel f s lines = .ok (g, t, loaded)) :
    Stuck g p := by
  induction fuel generalizing f s lines loaded with
  | zero => cases hload
  | succ fuel ih =>
    by_cases hbatch : (lines.take batchSize).filterMap parse = []
    · rw [loadBatches, hbatch] at hload
      cases hload
      exact h
    · rcases loadBatches_step hbatch hload with ⟨f₁, rids, s₁, hrecords, -, ⟨-, rfl, -⟩ | ⟨-, rest, hrest, -⟩⟩
      · exact h.loadRecords hrecords
      · exact ih (h.loadRecords hrecords) hrest

/-- The lines of a file are loaded safely exactly when their records fit. -/
theorem loadBatches_safe_iff (H : Heap f l) (hbatch : f.perPage ≤ batchSize) (hparse : ∀ line ∈ lines, (parse line).isSome)
    (hload : loadBatches parse batchSize feed (fuel + 1) f s lines = .ok (g, t, loaded)) :
    LoadSafe f loaded g ↔ f.Fits lines.length := by
  have hrows : (lines.take batchSize).filterMap parse = (lines.take batchSize).map fun line => (parse line).getD [] :=
    filterMap_eq_map fun line hline => hparse line (List.mem_of_mem_take hline)
  by_cases hnil : lines = []
  · subst hnil
    rw [loadBatches, List.take_nil, List.filterMap_nil] at hload
    cases hload
    exact iff_of_true ⟨by simp, fun _ _ h => h, H.inv⟩ (Or.inl rfl)
  · have hslot := H.slot
    have hpos := List.length_pos_iff.mpr hnil
    have hne : (lines.take batchSize).filterMap parse ≠ [] := by
      rw [hrows, Ne, List.map_eq_nil_iff, List.take_eq_nil_iff]
      rintro (h | h)
      · omega
      · exact hnil h
    obtain ⟨f', p, page, l', hhandle, H', hpage, hroom, hext, hlookup⟩ := H.freePageHandle
    have hfits : f.Fits lines.length ↔ page.numRecords + lines.length < f.perPage ∧
        ∀ i < lines.length, page.slots[page.numRecords.toNat + i]?.getD none = none := by
      rw [Fits, hhandle, or_iff_right hpos.ne']
      constructor
      · rintro ⟨g, q, page', heq, h⟩
        cases heq
        exact h
      · exact fun h => ⟨f', p, page, rfl, h⟩
    have hlen : ((lines.take batchSize).filterMap parse).length = min batchSize lines.length := by
      rw [hrows, List.length_map, List.length_take]
    obtain ⟨f₁, rids, s₁, hrecords, -, hend⟩ := loadBatches_step hne hload
    rw [loadRecords_eq hhandle] at hrecords
    have h0 : 0 ≤ page.numRecords := by
      rw [(H'.page p page hpage).count]
      exact Int.natCast_nonneg _
    rw [hfits]
    by_cases hless : page.numRecords + lines.length < f.perPage
    · -- one batch, on one page
      have hlen' : ((lines.take batchSize).filterMap parse).length = lines.length := by omega
      obtain ⟨rfl, hall, hrids⟩ := loadPages_fit hpage hne (by rw [hlen', hext.perPage]; exact hless) hrecords
      rcases hend with ⟨-, rfl, -, rfl⟩ | ⟨hge, -⟩
      · constructor
        · intro hsafe
          refine ⟨hless, fun i hi => ?_⟩
          have hmem : (⟨p, (page.numRecords.toNat + i : Nat)⟩ : Rid) ∈ rids := by
            rw [hrids, loadedRids, List.mem_map]
            exact ⟨i, List.mem_range.mpr (by omega), rfl⟩
          obtain ⟨j, hj, hget⟩ := List.getElem_of_mem hmem
          have hlenr : rids.length = ((lines.take batchSize).filterMap parse).length := by
            rw [hrids, loadedRids, List.length_map, List.length_range, hall]
          have hj' : j < (rids.zip ((lines.take batchSize).filterMap parse)).length := by
            rw [List.length_zip]
            omega
          have hfresh := hsafe.fresh _ (List.getElem_mem hj')
          rw [List.getElem_zip, hget, ← hlookup, lookup_nat, slotsOf_of_page hpage] at hfresh
          exact hfresh
        · rintro ⟨-, hfree⟩
          have hfree' : ∀ i < ((lines.take batchSize).filterMap parse).length,
              page.slots[page.numRecords.toNat + i]?.getD none = none := fun i hi => hfree i (by omega)
          obtain ⟨Hg, hkept⟩ := H'.loadedPage hpage (by rw [hlen', hext.perPage]; exact hless) hall hfree'
          refine ⟨fun r hr => ?_, fun rid b hb => hkept rid b ((hlookup rid).trans hb), Hg.inv⟩
          have hr' : r.1 ∈ rids := (List.of_mem_zip hr).1
          rw [hrids, loadedRids, List.mem_map] at hr'
          obtain ⟨i, hi, hri⟩ := hr'
          rw [List.mem_range] at hi
          rw [← hri, ← hlookup, lookup_nat, slotsOf_of_page hpage]
          exact hfree' i (by omega)
      · omega
    · -- the page becomes full in the first batch
      refine iff_of_false (fun hsafe => ?_) fun h => hless h.1
      have hfull : (f'.perPage : Int) ≤ page.numRecords + ((lines.take batchSize).filterMap parse).length := by
        have := hext.perPage
        omega
      have hstuck := H'.loadPages_full hpage hne hfull hrecords
      rcases hend with ⟨-, rfl, -, -⟩ | ⟨-, rest, hrest, -⟩
      · exact hstuck.not_inv hsafe.inv
      · exact (stuck_loadBatches hstuck hrest).not_inv hsafe.inv

end LoadExecutor

open RmFile LoadExecutor

theorem RmFile.sound_exec {n : Nat} (hn : RmAccepts n) {cs : List (RmCall n)}
    (haddr : ∀ c ∈ cs, c.Addresses (numRecordsPerPage n) ∧ ∀ rid buf, c ≠ .insertRecordAt rid buf) {f : RmFile}
    (hf : Runs.exec RmFile.step (RmFile.create n) cs = .ok f) : Sound n f := by
  refine (Runs.always_of_invariant (I := Sound n) (Q := Sound n) ?_ (fun _ h => h) ⟨rfl, [], Heap.create hn⟩
    (Runs.throughout_of_forall haddr)).at_end hf
  rintro s c h ⟨hc, hat⟩
  obtain ⟨t, r, hcall, ht, -⟩ := call_spec h hc hat
  exact ⟨t, step_of_call hcall, ht⟩

/-- For every table file that inserts, updates and deletes lead to and every well-formed CSV file, a `LOAD` that ends has put its
    rows into free slots, kept the records of the table and left the free pages linked exactly when the rows fit behind the
    first `num_records` slots of the page that an insertion goes to and do not fill it. -/
theorem load_safe_iff {n : Nat} (hn : RmAccepts n) (cs : List (RmCall n))
    (haddr : ∀ c ∈ cs, c.Addresses (numRecordsPerPage n) ∧ ∀ rid buf, c ≠ .insertRecordAt rid buf) (f : RmFile)
    (hf : Runs.exec RmFile.step (RmFile.create n) cs = .ok f) {tab : TabMeta} (indexes : List (OpenIndex tab)) (header : Bytes)
    (lines : List Bytes) (hcsv : ∀ line ∈ lines, (ultraFastParse tab n line).isSome) (g : RmFile) (indexes' : List (OpenIndex tab))
    (loaded : List Loaded) (hload : LoadExecutor.next n f indexes (header :: lines) = .ok (g, indexes', loaded)) :
    LoadSafe f loaded g ↔ f.Fits lines.length := by
  obtain ⟨-, l, H⟩ := sound_exec hn haddr hf
  have hbatch : f.perPage ≤ maxBatchSize n f.perPage := by
    rw [maxBatchSize]
    omega
  rw [LoadExecutor.next.eq_def] at hload
  cases indexes with
  | nil =>
    obtain ⟨⟨g', u, loaded'⟩, hrun, hload⟩ := Runs.ok_of_bind hload
    cases hload
    exact loadBatches_safe_iff H hbatch hcsv hrun
  | cons x rest =>
    obtain ⟨⟨g', u, loaded'⟩, hrun, hload⟩ := Runs.ok_of_bind hload
    cases hload
    exact loadBatches_safe_iff H hbatch hcsv hrun

/-- The value of a computation that has one. -/
theorem ok_of_eval {E α β : Type} {x : Except E α} {h : α → β} {b : β} (heval : x.toOption.map h = some b) : ∃ a, x = .ok a ∧ h a = b := by
  cases x with
  | error e => cases heval
  | ok a => exact ⟨a, rfl, Option.some.inj heval⟩

theorem load_safe_iff_one : ∃ g indexes loaded,
    LoadExecutor.next 4 (RmFile.create 4) ([] : List (OpenIndex numTab)) [[0x61], [0x37]] = .ok (g, indexes, loaded) ∧
      LoadSafe (RmFile.create 4) loaded g := by
  obtain ⟨⟨g, indexes, loaded⟩, hload, -⟩ := ok_of_eval
    (x := LoadExecutor.next 4 (RmFile.create 4) ([] : List (OpenIndex numTab)) [[0x61], [0x37]])
    (h := fun r => r.2.2.map (·.1)) (b := [⟨1, 0⟩]) (by decide)
  refine ⟨g, indexes, loaded, hload, ?_⟩
  refine (load_safe_iff ⟨by decide, by decide⟩ [] (by simp) (RmFile.create 4) rfl [] [0x61] [[0x37]] (by decide) g indexes loaded hload).mpr ?_
  exact Or.inr ⟨_, _, _, rfl, by decide, by decide⟩

/-- Two records on a page and the first of them deleted. -/
def pageWithHole : List (RmCall 4) := [.insertRecord (zeroRecord 4), .insertRecord (zeroRecord 4), .deleteRecord ⟨1, 0⟩]

/-- The line is loaded into the slot of the record that is left. -/
theorem load_safe_hole : ∃ f g indexes loaded, Runs.exec RmFile.step (RmFile.create 4) pageWithHole = .ok f ∧
    LoadExecutor.next 4 f ([] : List (OpenIndex numTab)) [[0x61], [0x37]] = .ok (g, indexes, loaded) ∧ ¬LoadSafe f loaded g := by
  obtain ⟨f, hf, hview⟩ := Runs.exec_eval RmFile.step (RmFile.create 4) pageWithHole
    (fun f => ((LoadExecutor.next 4 f ([] : List (OpenIndex numTab)) [[0x61], [0x37]]).toOption.map fun r => r.2.2.map (·.1),
      (f.lookup ⟨1, 1⟩).isSome)) (b := (some [⟨1, 1⟩], true)) (by decide)
  simp only [Prod.mk.injEq] at hview
  obtain ⟨hload, hlookup⟩ := hview
  obtain ⟨⟨g, indexes, loaded⟩, hload, hrids⟩ := ok_of_eval hload
  refine ⟨f, g, indexes, loaded, hf, hload, fun hsafe => ?_⟩
  obtain ⟨r, hr, hrid⟩ := List.mem_map.mp (hrids ▸ List.mem_singleton.mpr rfl : (⟨1, 1⟩ : Rid) ∈ loaded.map (·.1))
  have := hsafe.fresh r hr
  rw [hrid] at this
  rw [this] at hlookup
  cases hlookup

end Rmdb
