import Rmdb.Theorems.Exec.Load

/-! How many rows a `LOAD` adds to a table file: as many as it places, when the slots behind the first `num_records` ones of the
first free page are free. -/

namespace Rmdb
namespace RmFile

/-- The number of records of a file. -/
def held (f : RmFile) : Nat := ((List.range f.numPages.toNat).map fun (p : Nat) => (f.slotsOf p).countP (·.isSome)).sum

/-- The pages of a file are those up to the next one of the disk manager, each with all its slots. -/
structure Shaped (f : RmFile) : Prop where
  next : f.numPages = f.fd2pageno
  nonneg : 0 ≤ f.fd2pageno
  page : ∀ p page, f.pages p = some page → 0 ≤ p ∧ p < f.fd2pageno ∧ page.slots.length = f.perPage

/-- The slots behind the first `num_records` ones of the first free page are free. -/
def Tail (f : RmFile) : Prop :=
  ∀ page, f.pages f.firstFreePageNo = some page → ∀ j, page.numRecords.toNat ≤ j → page.slots[j]?.getD none = none

theorem sum_map_range {g h : Nat → Nat} {n p k : Nat} (hp : p < n) (hat : g p = h p + k) (hne : ∀ q, q ≠ p → g q = h q) :
    ((List.range n).map g).sum = ((List.range n).map h).sum + k := by
  induction n with
  | zero => omega
  | succ n ih =>
    simp only [List.range_succ, List.map_append, List.map_singleton, List.sum_append, List.sum_singleton]
    by_cases hn : p = n
    · subst hn
      have hsame : (List.range p).map g = (List.range p).map h :=
        List.map_congr_left fun q hq => hne q (Nat.ne_of_lt (List.mem_range.mp hq))
      rw [hsame, hat]
      omega
    · rw [ih (by omega), hne n fun heq => hn heq.symm]
      omega

section
variable {f g : RmFile} {p : Int} {page new : RmPage}

theorem Shaped.create (n : Nat) : Shaped (RmFile.create n) := ⟨rfl, by simp [RmFile.create], fun p page h => (by cases h)⟩

/-- A page is written over. -/
theorem Shaped.write (h : Shaped f) (hp : f.pages p = some page) (hlen : new.slots.length = page.slots.length) (head : Int) :
    Shaped (f.write p new head) where
  next := h.next
  nonneg := h.nonneg
  page q old hq := by
    rw [write_pages] at hq
    split at hq
    · next heq =>
      cases hq
      subst heq
      obtain ⟨hlo, hhi, hslots⟩ := h.page q page hp
      exact ⟨hlo, hhi, hlen.trans hslots⟩
    · exact h.page q old hq

/-- The records of a page that is written over. -/
theorem Shaped.held_write (h : Shaped f) (hp : f.pages p = some page) {k : Nat}
    (hcount : new.slots.countP (·.isSome) = page.slots.countP (·.isSome) + k) (head : Int) : (f.write p new head).held = f.held + k := by
  obtain ⟨hlo, hhi, -⟩ := h.page p page hp
  obtain ⟨n, rfl⟩ := Int.eq_ofNat_of_zero_le hlo
  have hlt : n < f.numPages.toNat := by
    have := h.next
    omega
  show ((List.range f.numPages.toNat).map fun (q : Nat) => ((f.write n new head).slotsOf q).countP (·.isSome)).sum =
    ((List.range f.numPages.toNat).map fun (q : Nat) => (f.slotsOf q).countP (·.isSome)).sum + k
  refine sum_map_range hlt ?_ fun q hq => ?_
  · rw [slotsOf_write, if_pos rfl, slotsOf_of_page hp, hcount]
  · rw [slotsOf_write, if_neg (by omega)]

theorem Shaped.none_of_le (h : Shaped f) (hp : f.fd2pageno ≤ p) : f.pages p = none := by
  cases hpage : f.pages p with
  | none => rfl
  | some page =>
    have := (h.page p page hpage).2.1
    omega

theorem countP_replicate_none (n : Nat) : (List.replicate n (none : Option Bytes)).countP (·.isSome) = 0 := by
  rw [List.countP_replicate]
  rfl

theorem getElem?_replicate_none (n j : Nat) : (List.replicate n (none : Option Bytes))[j]?.getD none = none := by
  rw [List.getElem?_replicate]
  split <;> rfl

/-- A new page has no records. -/
theorem Shaped.createNewPageHandle (h : Shaped f) : Shaped f.createNewPageHandle.1 ∧ f.createNewPageHandle.1.held = f.held ∧
    f.createNewPageHandle.1.Tail := by
  have hnext := h.next
  have hnonneg := h.nonneg
  rw [createNewPageHandle_file]
  refine ⟨⟨?_, ?_, fun p page hp => ?_⟩, ?_, fun page hp j _ => ?_⟩
  · show max f.numPages (f.fd2pageno + 1) = f.fd2pageno + 1
    omega
  · show 0 ≤ f.fd2pageno + 1
    omega
  · show 0 ≤ p ∧ p < f.fd2pageno + 1 ∧ page.slots.length = f.perPage
    rw [write_pages] at hp
    split at hp
    · next heq =>
      cases hp
      exact ⟨by omega, by omega, List.length_replicate⟩
    · obtain ⟨hlo, hhi, hlen⟩ := h.page p page hp
      exact ⟨hlo, by omega, hlen⟩
  · have hsize : (max f.numPages (f.fd2pageno + 1)).toNat = f.numPages.toNat + 1 := by omega
    have hlast : ((f.numPages.toNat : Nat) : Int) = f.fd2pageno := by omega
    simp only [held, write_numPages, hsize, List.range_succ, List.map_append, List.map_singleton, List.sum_append, List.sum_singleton,
      slotsOf_write, if_pos hlast, countP_replicate_none, Nat.add_zero]
    refine congrArg List.sum (List.map_congr_left fun q hq => ?_)
    have := List.mem_range.mp hq
    rw [if_neg (by omega)]
    rfl
  · rw [write_first, write_pages, if_pos rfl] at hp
    cases hp
    exact getElem?_replicate_none _ _

theorem Shaped.lookup_createNewPageHandle (h : Shaped f) (r : Rid) : f.createNewPageHandle.1.lookup r = f.lookup r := by
  rw [lookup_eq, lookup_eq, createNewPageHandle_file, slotsOf_write]
  by_cases hr : r.pageNo = f.fd2pageno
  · have hnone : f.slotsOf r.pageNo = [] := by rw [slotsOf, h.none_of_le hr.ge]; rfl
    rw [if_pos hr, hnone, getElem?_replicate_none]
    rfl
  · rw [if_neg hr]
    rfl

/-- The records that go to a page, and the page to go on with. -/
theorem Shaped.loadPage (h : Shaped f) (htail : Tail f) (bufs : List Bytes) (hp : f.pages f.firstFreePageNo = some page)
    (h0 : 0 ≤ page.numRecords) (hle : page.numRecords ≤ f.perPage) :
    let u := ((f.setPage f.firstFreePageNo (f.loadedPage page bufs)).advance f.firstFreePageNo (f.loadedPage page bufs))
    u.2 = u.1.firstFreePageNo ∧ Shaped u.1 ∧ Tail u.1 ∧ u.1.held = f.held + f.toLoad page bufs := by
  have hlen := (h.page _ page hp).2.2
  have hload : f.toLoad page bufs ≤ f.perPage - page.numRecords.toNat ∧ f.toLoad page bufs ≤ bufs.length := by
    rw [toLoad]
    omega
  have htake : (bufs.take (f.toLoad page bufs)).length = f.toLoad page bufs := by
    rw [List.length_take]
    omega
  have hslots : (f.loadedPage page bufs).slots.length = page.slots.length := overwrite_length _ _ _
  have hcount : (f.loadedPage page bufs).slots.countP (·.isSome) = page.slots.countP (·.isSome) + f.toLoad page bufs := by
    have hover := @countP_overwrite page.slots page.numRecords.toNat (bufs.take (f.toLoad page bufs)) (by omega)
      fun i _ => htail page hp _ (Nat.le_add_right _ _)
    rwa [htake] at hover
  have hset : Shaped (f.setPage f.firstFreePageNo (f.loadedPage page bufs)) := h.write hp hslots _
  have hheld : (f.setPage f.firstFreePageNo (f.loadedPage page bufs)).held = f.held + f.toLoad page bufs := h.held_write hp hcount _
  rw [advance]
  split
  · obtain ⟨hshaped, hsame, htail'⟩ := hset.createNewPageHandle
    exact ⟨rfl, hshaped, htail', hsame.trans hheld⟩
  · refine ⟨rfl, hset, fun page' hp' j hj => ?_, hheld⟩
    rw [setPage_eq_write, write_first, write_pages, if_pos rfl] at hp'
    cases hp'
    simp only [loadedPage] at hj ⊢
    rw [overwrite_getElem? (by omega)]
    exact htail page hp j (by omega)

theorem Shaped.loadPages (h : Shaped f) (htail : Tail f) {fuel : Nat} {bufs : List Bytes} {rids : List Rid}
    (hload : RmFile.loadPages fuel f f.firstFreePageNo bufs = .ok (g, rids)) :
    Shaped g ∧ Tail g ∧ g.held = f.held + bufs.length ∧ rids.length = bufs.length := by
  induction fuel generalizing f bufs rids with
  | zero =>
    cases bufs with
    | nil =>
      cases hload
      exact ⟨h, htail, rfl, rfl⟩
    | cons b bufs => cases hload
  | succ fuel ih =>
    by_cases hne : bufs = []
    · subst hne
      cases hload
      exact ⟨h, htail, rfl, rfl⟩
    · obtain ⟨page, rest, hpage, h0, hle, hrest, rfl⟩ := loadPages_step hne hload
      obtain ⟨hfirst, hshaped, htail', hheld⟩ := h.loadPage htail bufs hpage h0 hle
      rw [hfirst] at hrest
      obtain ⟨hg, htailg, heldg, hlen⟩ := ih hshaped htail' hrest
      have hle : f.toLoad page bufs ≤ bufs.length := Nat.min_le_right _ _
      refine ⟨hg, htailg, ?_, ?_⟩
      · rw [heldg, hheld, List.length_drop]
        omega
      · rw [List.length_append, hlen, loadedRids, List.length_map, List.length_range, List.length_drop]
        omega

theorem Shaped.loadRecords (h : Shaped f) (htail : Tail f) {bufs : List Bytes} {rids : List Rid} (hload : f.loadRecords bufs = .ok (g, rids)) :
    Shaped g ∧ Tail g ∧ g.held = f.held + bufs.length ∧ rids.length = bufs.length := by
  rw [RmFile.loadRecords] at hload
  split at hload
  next f' p' heq =>
  split at heq
  · cases heq
    obtain ⟨hshaped, hsame, htail'⟩ := h.createNewPageHandle
    rw [← hsame]
    exact hshaped.loadPages htail' hload
  · cases heq
    exact h.loadPages htail hload

/-! ### The other operations -/

theorem Shaped.slotsOf_length (h : Shaped f) (hp : f.pages p = some page) : (f.slotsOf p).length = f.perPage := by
  rw [slotsOf_of_page hp]
  exact (h.page p page hp).2.2

theorem tail_of_empty (h : ∀ rid, f.lookup rid = none) : Tail f := by
  intro page hp j _
  have hnone := h ⟨f.firstFreePageNo, j⟩
  rwa [lookup_nat, slotsOf_of_page hp] at hnone

theorem Shaped.held_eq_zero (hempty : ∀ rid, f.lookup rid = none) : f.held = 0 := by
  refine List.sum_eq_zero_iff_forall_eq_nat.mpr fun x hx => ?_
  obtain ⟨p, -, rfl⟩ := List.mem_map.mp hx
  refine List.countP_eq_zero.mpr fun v hv => ?_
  obtain ⟨i, hi, rfl⟩ := List.getElem_of_mem hv
  have hnone := hempty ⟨p, i⟩
  rw [lookup_nat, List.getElem?_eq_getElem hi, Option.getD_some] at hnone
  rw [hnone]
  decide

/-- One slot of a page is written. -/
theorem lookup_write {i : Nat} {v : Option Bytes} (hp : f.pages p = some page) (hslots : new.slots = page.slots.set i v)
    (hi : i < page.slots.length) (head : Int) (r : Rid) : (f.write p new head).lookup r = if r = ⟨p, i⟩ then v else f.lookup r := by
  refine lookup_set (fun q => ?_) ?_
  · rw [slotsOf_write, hslots, slotsOf_of_page hp]
  · rwa [slotsOf_of_page hp]

theorem unlinkIfFull_eq (f : RmFile) (p : Int) (page : RmPage) : ∃ new head, f.unlinkIfFull p page = f.write p new head ∧ new.slots = page.slots := by
  rw [unlinkIfFull]
  split
  · exact ⟨_, _, rfl, rfl⟩
  · exact ⟨_, _, setPage_eq_write, rfl⟩

theorem releasePageHandle_eq (f : RmFile) (p : Int) (page : RmPage) :
    ∃ new head, f.releasePageHandle p page = f.write p new head ∧ new.slots = page.slots := by
  rw [releasePageHandle]
  split
  · exact ⟨_, _, rfl, rfl⟩
  · exact ⟨_, _, setPage_eq_write, rfl⟩

theorem slot_of_isSome {slots : List (Option Bytes)} {i : Nat} (h : ¬(slots[i]?.getD none).isNone = true) :
    ∃ hi : i < slots.length, slots[i].isSome = true := by
  by_cases hi : i < slots.length
  · rw [List.getElem?_eq_getElem hi, Option.getD_some] at h
    exact ⟨hi, Option.isSome_iff_ne_none.mpr fun hnone => h (by rw [hnone]; rfl)⟩
  · rw [List.getElem?_eq_none (by omega)] at h
    exact absurd rfl h

theorem slotIndex_ok {n : Int} {i : Nat} (h : f.slotIndex n = .ok i) : n = (i : Nat) := by
  rw [slotIndex] at h
  split at h
  · cases h
    omega
  · cases h

/-- `update_record` keeps the records where they are. -/
theorem Shaped.updateRecord (h : Shaped f) {rid : Rid} {buf : Bytes} (hok : f.updateRecord rid buf = .ok g) :
    Shaped g ∧ g.held = f.held ∧ ∀ r, (g.lookup r).isSome = (f.lookup r).isSome := by
  obtain ⟨page, hfetch, hok⟩ := Runs.ok_of_bind hok
  obtain ⟨slot, hslot, hok⟩ := Runs.ok_of_bind hok
  have hp := fetchPageHandle_ok hfetch
  split at hok
  · cases hok
  · next hnone =>
    cases hok
    obtain ⟨hi, hsome⟩ := slot_of_isSome hnone
    have hcount : (page.slots.set slot (some buf)).countP (·.isSome) = page.slots.countP (·.isSome) + 0 := by
      have hpos : 0 < page.slots.countP (·.isSome) := List.countP_pos_iff.mpr ⟨_, List.getElem_mem hi, hsome⟩
      rw [List.countP_set hi]
      simp only [hsome, if_true, Option.isSome_some]
      omega
    have hheld : (f.setPage rid.pageNo { page with slots := page.slots.set slot (some buf) }).held = f.held + 0 := h.held_write hp hcount _
    refine ⟨h.write hp List.length_set _, hheld, fun r => ?_⟩
    rw [setPage_eq_write, lookup_write hp rfl hi]
    split
    · next hr =>
      rw [hr, lookup_nat, slotsOf_of_page hp, List.getElem?_eq_getElem hi, Option.getD_some, hsome]
      rfl
    · rfl

/-- `insert_record` puts a record where none was. -/
theorem Shaped.insertRecord (h : Shaped f) {buf : Bytes} {rid : Rid} (hok : f.insertRecord buf = .ok (g, rid)) :
    Shaped g ∧ f.lookup rid = none ∧ ∀ r, g.lookup r = if r = rid then some buf else f.lookup r := by
  obtain ⟨⟨f', p, page⟩, hhandle, hok⟩ := Runs.ok_of_bind hok
  -- a new page changes no record
  have hpage : Shaped f' ∧ f'.pages p = some page ∧ ∀ r, f'.lookup r = f.lookup r := by
    rw [freePageHandle] at hhandle
    split at hhandle
    · have heq : f.createNewPageHandle = (f', p, page) := Except.ok.inj hhandle
      have hnew : f.createNewPageHandle.1.pages f.createNewPageHandle.2.1 = some f.createNewPageHandle.2.2 := if_pos rfl
      have hshaped := h.createNewPageHandle.1
      have hsame := h.lookup_createNewPageHandle
      rw [heq] at hnew hshaped hsame
      exact ⟨hshaped, hnew, hsame⟩
    · obtain ⟨page', hfetch, heq⟩ := Runs.ok_of_bind hhandle
      cases heq
      exact ⟨h, fetchPageHandle_ok hfetch, fun _ => rfl⟩
  obtain ⟨hshaped, hp, hsame⟩ := hpage
  replace hok : (if f'.perPage ≤ page.slots.findIdx (·.isNone) then Except.error RmError.outOfPage
      else .ok (f'.unlinkIfFull p { page with
        slots := page.slots.set (page.slots.findIdx (·.isNone)) (some buf), numRecords := page.numRecords + 1 },
        (⟨p, (page.slots.findIdx (·.isNone) : Nat)⟩ : Rid))) = .ok (g, rid) := hok
  split at hok
  · cases hok
  · next hslot =>
    have hlen := (hshaped.page p page hp).2.2
    have hi : page.slots.findIdx (·.isNone) < page.slots.length := by omega
    obtain ⟨new, head, heq, hslots⟩ := unlinkIfFull_eq f' p
      { page with slots := page.slots.set (page.slots.findIdx (·.isNone)) (some buf), numRecords := page.numRecords + 1 }
    have hboth : f'.write p new head = g ∧ (⟨p, (page.slots.findIdx (·.isNone) : Nat)⟩ : Rid) = rid := by
      rw [← heq]
      exact Prod.mk.inj (Except.ok.inj hok)
    obtain ⟨rfl, rfl⟩ := hboth
    refine ⟨hshaped.write hp (by rw [hslots, List.length_set]) _, ?_, fun r => by rw [lookup_write hp hslots hi, hsame]⟩
    rw [← hsame, lookup_nat, slotsOf_of_page hp, List.getElem?_eq_getElem hi, Option.getD_some]
    exact Option.isNone_iff_eq_none.mp (List.findIdx_getElem (w := hi))

/-- `delete_record` removes one. -/
theorem Shaped.deleteRecord (h : Shaped f) {rid : Rid} (hok : f.deleteRecord rid = .ok g) :
    Shaped g ∧ ∀ r, r ≠ rid → g.lookup r = f.lookup r := by
  obtain ⟨page, hfetch, hok⟩ := Runs.ok_of_bind hok
  obtain ⟨slot, hslot, hok⟩ := Runs.ok_of_bind hok
  have hp := fetchPageHandle_ok hfetch
  have hrid : rid = ⟨rid.pageNo, (slot : Nat)⟩ := by
    rw [← slotIndex_ok hslot]
  split at hok
  · cases hok
  · next hnone =>
    obtain ⟨hi, hsome⟩ := slot_of_isSome hnone
    have hwrite : ∃ new head, g = f.write rid.pageNo new head ∧ new.slots = page.slots.set slot none := by
      simp only at hok
      split at hok
      · obtain ⟨new, head, heq, hslots⟩ := releasePageHandle_eq f rid.pageNo
          { page with slots := page.slots.set slot none, numRecords := page.numRecords - 1 }
        exact ⟨new, head, (Except.ok.inj hok).symm.trans heq, hslots⟩
      · exact ⟨_, _, (Except.ok.inj hok).symm, rfl⟩
    obtain ⟨new, head, rfl, hslots⟩ := hwrite
    refine ⟨h.write hp (by rw [hslots, List.length_set]) _, fun r hr => ?_⟩
    rw [lookup_write hp hslots hi, if_neg (by rwa [← hrid])]

end
end RmFile

namespace LoadExecutor
open RmFile

theorem loadBatches_held {S : Type} {parse : Bytes → Option Bytes} {batchSize fuel : Nat} {feed : S → List Loaded → Except IxError S}
    {f g : RmFile} {s t : S} {lines : List Bytes} {loaded : List Loaded} (h : Shaped f) (htail : Tail f)
    (hload : loadBatches parse batchSize feed fuel f s lines = .ok (g, t, loaded)) : Shaped g ∧ g.held = f.held + loaded.length := by
  induction fuel generalizing f s lines loaded with
  | zero => cases hload
  | succ fuel ih =>
    by_cases hbatch : (lines.take batchSize).filterMap parse = []
    · rw [loadBatches, hbatch] at hload
      cases hload
      exact ⟨h, rfl⟩
    · obtain ⟨f₁, rids, s₁, hrecords, -, hend⟩ := loadBatches_step hbatch hload
      obtain ⟨hshaped, htail₁, hheld, hlen⟩ := h.loadRecords htail hrecords
      rcases hend with ⟨-, rfl, -, rfl⟩ | ⟨-, rest, hrest, rfl⟩
      · exact ⟨hshaped, by rw [hheld, List.length_zip, hlen, Nat.min_self]⟩
      · obtain ⟨hg, heldg⟩ := ih hshaped htail₁ hrest
        refine ⟨hg, ?_⟩
        rw [heldg, hheld, List.length_append, List.length_zip, hlen, Nat.min_self, Nat.add_assoc]

/-- What the insertions into the index of a batch keep holds after a `LOAD`. -/
theorem loadBatches_keeps {S : Type} {parse : Bytes → Option Bytes} {batchSize fuel : Nat} {feed : S → List Loaded → Except IxError S}
    {P : S → Prop} (hfeed : ∀ s rows u, feed s rows = .ok u → P s → P u) {f g : RmFile} {s t : S} {lines : List Bytes} {loaded : List Loaded}
    (hs : P s) (hload : loadBatches parse batchSize feed fuel f s lines = .ok (g, t, loaded)) : P t := by
  induction fuel generalizing f s lines loaded with
  | zero => cases hload
  | succ fuel ih =>
    by_cases hbatch : (lines.take batchSize).filterMap parse = []
    · rw [loadBatches, hbatch] at hload
      cases hload
      exact hs
    · obtain ⟨f₁, rids, s₁, -, hs₁, hend⟩ := loadBatches_step hbatch hload
      rcases hend with ⟨-, -, rfl, -⟩ | ⟨-, rest, hrest, -⟩
      · exact hfeed s _ t hs₁ hs
      · exact ih (hfeed s _ s₁ hs₁ hs) hrest

end LoadExecutor
end Rmdb
