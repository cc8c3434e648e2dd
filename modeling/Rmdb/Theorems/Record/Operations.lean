import Rmdb.Theorems.Record.FreeList
import Mathlib.Data.Int.Order.Basic
import Mathlib.Data.List.Nodup

/-! What each operation of a record file does to the records and to the free pages. -/

namespace Rmdb
namespace RmFile

/-! ### Slots -/

/-- The slots of a page. -/
def slotsOf (f : RmFile) (p : Int) : List (Option Bytes) := ((f.pages p).map (·.slots)).getD []

/-- A position in the record pages of the file. -/
def InFile (f : RmFile) (rid : Rid) : Prop :=
  0 ≤ rid.slotNo ∧ rid.slotNo < f.perPage ∧ 1 ≤ rid.pageNo ∧ rid.pageNo < f.numPages

section
variable {f g : RmFile} {l : List Int} {p q head : Int} {page old : RmPage} {rid : Rid} {v : Option Bytes} {i n : Nat}

theorem slotsOf_write : (f.write p page head).slotsOf q = if q = p then page.slots else f.slotsOf q := by
  simp only [slotsOf, write_pages]
  split <;> rfl

theorem slotsOf_of_page (h : f.pages p = some page) : f.slotsOf p = page.slots := by
  simp only [slotsOf, h, Option.map_some, Option.getD_some]

theorem lookup_eq : f.lookup rid = if 0 ≤ rid.slotNo then (f.slotsOf rid.pageNo)[rid.slotNo.toNat]?.getD none else none := by
  rw [lookup, slotsOf]
  cases f.pages rid.pageNo with
  | none => simp
  | some page => rfl

theorem lookup_nat {i : Nat} : f.lookup ⟨p, i⟩ = (f.slotsOf p)[i]?.getD none := by
  rw [lookup_eq]
  simp

/-- A slot that is set changes one record. -/
theorem lookup_set (hs : ∀ q, g.slotsOf q = if q = p then (f.slotsOf p).set i v else f.slotsOf q)
    (hi : i < (f.slotsOf p).length) : g.lookup rid = if rid = ⟨p, i⟩ then v else f.lookup rid := by
  rw [lookup_eq, lookup_eq, hs]
  obtain ⟨q, j⟩ := rid
  by_cases hq : q = p
  · subst hq
    by_cases hj : 0 ≤ j
    · obtain ⟨j, rfl⟩ := Int.eq_ofNat_of_zero_le hj
      simp only [hj, if_true, Int.toNat_natCast, List.getElem?_set, Rid.mk.injEq, true_and, Int.natCast_inj]
      by_cases hij : i = j
      · subst hij
        simp [hi]
      · simp [hij, Ne.symm hij]
    · rw [if_neg hj, if_neg hj, if_neg]
      rintro ⟨-, rfl⟩
      exact hj (Int.natCast_nonneg i)
  · have : (⟨q, j⟩ : Rid) ≠ ⟨p, i⟩ := fun h => hq (congrArg Rid.pageNo h)
    simp [hq, this]

/-! ### Pages -/

theorem PageOk.count_le (h : PageOk n page) : page.numRecords ≤ n := by
  have := List.countP_le_length (p := (fun o : Option Bytes => o.isSome)) (l := page.slots)
  rw [h.length] at this
  rw [h.count]
  exact Int.ofNat_le.mpr this

/-- The records of a page after a slot is set. -/
theorem PageOk.set (h : PageOk n page) (hi : i < n) (v : Option Bytes) {k : Int}
    (hk : k = page.numRecords - (if (page.slots[i]?.getD none).isSome then 1 else 0) + if v.isSome then 1 else 0) :
    PageOk n { page with slots := page.slots.set i v, numRecords := k } where
  length := by rw [List.length_set, h.length]
  count := by
    have hlt : i < page.slots.length := h.length ▸ hi
    have hget : page.slots[i]?.getD none = page.slots[i] := by simp [hlt]
    have hcount := List.countP_set (p := (fun o : Option Bytes => o.isSome)) (a := v) hlt
    simp only [hk, hget, h.count, hcount]
    have hpos : page.slots[i].isSome = true → 0 < page.slots.countP (·.isSome) := fun hs =>
      List.countP_pos_iff.mpr ⟨_, List.getElem_mem hlt, hs⟩
    split
    · next hs =>
      have := hpos hs
      split <;> omega
    · split <;> omega

theorem PageOk.room_of_free (h : PageOk n page) (hi : i < n) (hfree : page.slots[i]?.getD none = none) :
    page.numRecords < n := by
  have hlt : i < page.slots.length := h.length ▸ hi
  have hget : page.slots[i] = none := by simpa [hlt] using hfree
  have hne : page.slots.countP (·.isSome) ≠ page.slots.length := by
    intro heq
    have := List.countP_eq_length.mp heq _ (List.getElem_mem hlt)
    rw [hget] at this
    cases this
  have := List.countP_le_length (p := (fun o : Option Bytes => o.isSome)) (l := page.slots)
  rw [h.count]
  have := h.length
  omega

/-- A page with room has a free slot, and `first_bit` finds one. -/
theorem PageOk.findIdx (h : PageOk n page) (hroom : page.numRecords < n) :
    page.slots.findIdx (·.isNone) < n ∧ page.slots[page.slots.findIdx (·.isNone)]?.getD none = none := by
  have hlt : page.slots.findIdx (·.isNone) < page.slots.length := by
    rw [List.findIdx_lt_length]
    by_contra hall
    have : page.slots.countP (·.isSome) = page.slots.length := by
      rw [List.countP_eq_length]
      intro o ho
      cases o with
      | none => exact absurd ⟨none, ho, rfl⟩ hall
      | some b => rfl
    rw [h.count, this, h.length] at hroom
    omega
  refine ⟨h.length ▸ hlt, ?_⟩
  have hnone := List.findIdx_getElem (p := (fun o : Option Bytes => o.isNone)) (w := hlt)
  simpa [hlt] using hnone

/-! ### The page an insertion goes to -/

/-- What stays the same for the clients of a file while pages are added. -/
structure Extends (f g : RmFile) : Prop where
  perPage : g.perPage = f.perPage
  numPages : f.numPages ≤ g.numPages

theorem Extends.refl (f : RmFile) : Extends f f := ⟨rfl, le_rfl⟩

theorem Extends.trans {h : RmFile} (h₁ : Extends f g) (h₂ : Extends g h) : Extends f h :=
  ⟨h₂.perPage.trans h₁.perPage, h₁.numPages.trans h₂.numPages⟩

theorem InFile.mono (hin : InFile f rid) (h : Extends f g) : InFile g rid :=
  ⟨hin.1, h.perPage ▸ hin.2.1, hin.2.2.1, hin.2.2.2.trans_le h.numPages⟩

theorem Heap.freePageHandle (H : Heap f l) :
    ∃ g p page l', f.freePageHandle = .ok (g, p, page) ∧ Heap g (p :: l') ∧ g.pages p = some page ∧
      page.numRecords < g.perPage ∧ Extends f g ∧ ∀ rid, g.lookup rid = f.lookup rid := by
  by_cases hfirst : f.firstFreePageNo = rmNoPage
  · have hcreate := H.create_spec
    have heq := H.createNewPageHandle
    have hslot := H.slot
    rw [heq] at hcreate
    refine ⟨_, _, _, l, by rw [RmFile.freePageHandle, if_pos hfirst, heq], hcreate, if_pos rfl, ?_, ⟨rfl, ?_⟩, fun rid => ?_⟩
    · simpa using hslot
    · show f.numPages ≤ f.numPages + 1
      omega
    · rw [lookup_eq, lookup_eq, slotsOf_write]
      split
      · split
        · next hq =>
          rw [slotsOf, hq, H.pages_none (by omega)]
          simp [List.getElem?_replicate]
          split <;> rfl
        · rfl
      · rfl
  · obtain ⟨l', page, rfl, hpage, hroom⟩ := H.first hfirst
    refine ⟨f, _, page, l', ?_, H, hpage, hroom, Extends.refl f, fun _ => rfl⟩
    rw [RmFile.freePageHandle, if_neg hfirst, H.fetchPageHandle hpage]
    rfl

/-- The head of the free pages after records were put into it. -/
theorem Heap.unlinkIfFull (H : Heap f (p :: l)) (hp : f.pages p = some old) (hroom : old.numRecords < f.perPage)
    (hok : PageOk f.perPage page) (hnext : page.nextFreePageNo = old.nextFreePageNo) :
    Heap (f.unlinkIfFull p page) (if page.numRecords = f.perPage then l else p :: l) ∧ Extends f (f.unlinkIfFull p page) ∧
      ∀ q, (f.unlinkIfFull p page).slotsOf q = if q = p then page.slots else f.slotsOf q := by
  by_cases hfull : page.numRecords = f.perPage
  · have heq : f.unlinkIfFull p page = f.write p { page with nextFreePageNo := rmNoPage } old.nextFreePageNo := by
      rw [RmFile.unlinkIfFull, if_pos hfull, hnext]
      rfl
    rw [heq, if_pos hfull]
    exact ⟨H.unlink hp ⟨hok.length, hok.count⟩ (by simpa using hfull.ge), ⟨rfl, le_rfl⟩, fun q => slotsOf_write⟩
  · have hlt : page.numRecords < f.perPage := lt_of_le_of_ne hok.count_le hfull
    have heq : f.unlinkIfFull p page = f.write p page f.firstFreePageNo := by
      rw [RmFile.unlinkIfFull, if_neg hfull]
      rfl
    rw [heq, if_neg hfull]
    exact ⟨H.keep hp hok hnext (iff_of_true hlt hroom), ⟨rfl, le_rfl⟩, fun q => slotsOf_write⟩

/-! ### insert_record -/

theorem slotsOf_length (H : Heap f l) (hp : f.pages p = some page) : (f.slotsOf p).length = f.perPage := by
  rw [slotsOf_of_page hp, (H.page p page hp).length]

theorem Heap.bounds (H : Heap f l) (hp : f.pages p = some page) : 1 ≤ p ∧ p < f.numPages := (H.pages p).mp (by rw [hp]; rfl)

/-- `insert_record(buf)` puts the record into a free slot of a record page. -/
theorem Heap.insertRecord (H : Heap f l) (buf : Bytes) :
    ∃ g rid l', f.insertRecord buf = .ok (g, rid) ∧ Heap g l' ∧ Extends f g ∧ InFile g rid ∧ f.lookup rid = none ∧
      ∀ r, g.lookup r = if r = rid then some buf else f.lookup r := by
  obtain ⟨g, p, page, l₁, heq, Hg, hpage, hroom, hext, hlookup⟩ := H.freePageHandle
  have hok := Hg.page p page hpage
  obtain ⟨hlt, hfree⟩ := hok.findIdx hroom
  have hset := hok.set hlt (some buf) (k := page.numRecords + 1) (by simp [hfree])
  obtain ⟨H', hext', hslots⟩ := Hg.unlinkIfFull hpage hroom hset rfl
  have hold : g.slotsOf p = page.slots := slotsOf_of_page hpage
  refine ⟨_, ⟨p, page.slots.findIdx (·.isNone)⟩, _, ?_, H', hext.trans hext', ?_, ?_, fun r => ?_⟩
  · simp only [RmFile.insertRecord, heq, bind, Except.bind, if_neg (Nat.not_le.mpr hlt)]
  · have := Hg.bounds hpage
    exact InFile.mono ⟨Int.natCast_nonneg _, Int.ofNat_lt.mpr hlt, this.1, this.2⟩ hext'
  · rw [← hlookup, lookup_nat, hold, hfree]
  · rw [lookup_set (f := g) (p := p) (v := some buf) (fun q => by rw [hslots q, hold]), hlookup]
    rw [hold, hok.length]
    exact hlt

/-! ### Operations on a position -/

/-- A position names a slot of a record page, or a page that the file does not have. -/
theorem Heap.fetch (H : Heap f l) (h0 : rid.pageNo ≠ 0) (hslot : 0 ≤ rid.slotNo ∧ rid.slotNo < f.perPage) :
    (f.lookup rid = none ∧ f.fetchPageHandle rid.pageNo = .error (.recordNotFound rid.pageNo (-1))) ∨
      ∃ page i, rid = ⟨rid.pageNo, (i : Nat)⟩ ∧ i < f.perPage ∧ f.pages rid.pageNo = some page ∧
        f.fetchPageHandle rid.pageNo = .ok page ∧ f.slotIndex rid.slotNo = .ok i ∧ f.lookup rid = page.slots[i]?.getD none := by
  cases hp : f.pages rid.pageNo with
  | none =>
    left
    refine ⟨?_, H.fetchPageHandle_none hp h0⟩
    rw [lookup, hp]
    rfl
  | some page =>
    right
    obtain ⟨i, hi⟩ := Int.eq_ofNat_of_zero_le hslot.1
    refine ⟨page, i, ?_, by omega, rfl, H.fetchPageHandle hp, ?_, ?_⟩
    · rw [← hi]
    · rw [slotIndex, if_pos hslot, hi]
      rfl
    · rw [lookup, hp, Option.bind_some, if_pos hslot.1, hi]
      rfl

/-- `get_record` of a position. -/
theorem Heap.getRecord (H : Heap f l) (h0 : rid.pageNo ≠ 0) (hslot : 0 ≤ rid.slotNo ∧ rid.slotNo < f.perPage) :
    (f.lookup rid = none ∧ ∃ s, f.getRecord rid = .error (.recordNotFound rid.pageNo s)) ∨
      ∃ buf, f.lookup rid = some buf ∧ f.getRecord rid = .ok buf := by
  rcases H.fetch h0 hslot with ⟨hnone, hfetch⟩ | ⟨page, i, hrid, hi, hp, hfetch, hidx, hlookup⟩
  · exact Or.inl ⟨hnone, -1, by simp only [RmFile.getRecord, hfetch, bind, Except.bind]⟩
  · simp only [RmFile.getRecord, hfetch, hidx, bind, Except.bind, ← hlookup]
    cases h : f.lookup rid with
    | none => exact Or.inl ⟨rfl, _, rfl⟩
    | some buf => exact Or.inr ⟨buf, rfl, rfl⟩

/-- `update_record` of a position. -/
theorem Heap.updateRecord (H : Heap f l) (h0 : rid.pageNo ≠ 0) (hslot : 0 ≤ rid.slotNo ∧ rid.slotNo < f.perPage) (buf : Bytes) :
    (f.lookup rid = none ∧ ∃ s, f.updateRecord rid buf = .error (.recordNotFound rid.pageNo s)) ∨
      ∃ g, (f.lookup rid).isSome ∧ f.updateRecord rid buf = .ok g ∧ Heap g l ∧ Extends f g ∧
        ∀ r, g.lookup r = if r = rid then some buf else f.lookup r := by
  rcases H.fetch h0 hslot with ⟨hnone, hfetch⟩ | ⟨page, i, hrid, hi, hp, hfetch, hidx, hlookup⟩
  · exact Or.inl ⟨hnone, -1, by simp only [RmFile.updateRecord, hfetch, bind, Except.bind]⟩
  · have hok := H.page _ page hp
    simp only [RmFile.updateRecord, hfetch, hidx, bind, Except.bind, ← hlookup]
    cases h : f.lookup rid with
    | none => exact Or.inl ⟨rfl, _, rfl⟩
    | some r₀ =>
      have hset := hok.set hi (some buf) (k := page.numRecords) (by simp [← hlookup, h])
      have hold := slotsOf_of_page hp
      refine Or.inr ⟨_, rfl, rfl, H.keep hp hset rfl Iff.rfl, ⟨rfl, le_rfl⟩, fun r => ?_⟩
      rw [setPage_eq_write, hrid]
      refine lookup_set (fun q => ?_) ?_
      · rw [slotsOf_write, hold]
      · rw [slotsOf_length H hp]
        exact hi

/-- `delete_record` of a position. -/
theorem Heap.deleteRecord (H : Heap f l) (h0 : rid.pageNo ≠ 0) (hslot : 0 ≤ rid.slotNo ∧ rid.slotNo < f.perPage) :
    (f.lookup rid = none ∧ ∃ s, f.deleteRecord rid = .error (.recordNotFound rid.pageNo s)) ∨
      ∃ g l', (f.lookup rid).isSome ∧ f.deleteRecord rid = .ok g ∧ Heap g l' ∧ Extends f g ∧
        ∀ r, g.lookup r = if r = rid then none else f.lookup r := by
  rcases H.fetch h0 hslot with ⟨hnone, hfetch⟩ | ⟨page, i, hrid, hi, hp, hfetch, hidx, hlookup⟩
  · exact Or.inl ⟨hnone, -1, by simp only [RmFile.deleteRecord, hfetch, bind, Except.bind]⟩
  · have hok := H.page _ page hp
    simp only [RmFile.deleteRecord, hfetch, hidx, bind, Except.bind, ← hlookup]
    cases h : f.lookup rid with
    | none => exact Or.inl ⟨rfl, _, rfl⟩
    | some r₀ =>
      have hset := hok.set hi none (k := page.numRecords - 1) (by simp [← hlookup, h])
      have hle := hok.count_le
      have hold := slotsOf_of_page hp
      have hlen := slotsOf_length H hp
      have hget : ∀ (page' : RmPage) (head : Int), page'.slots = page.slots.set i none →
          ∀ r, (f.write rid.pageNo page' head).lookup r = if r = rid then none else f.lookup r := by
        intro page' head hs r
        rw [hrid]
        refine lookup_set (fun q => ?_) (hlen ▸ hi)
        rw [slotsOf_write, hold, hs]
      right
      by_cases hfull : page.numRecords = f.perPage
      · have hfirst : f.firstFreePageNo ≠ rid.pageNo := by
          intro heq
          obtain ⟨l', page', -, hpage', hroom⟩ := H.first (heq ▸ H.pageNo_ne hp)
          rw [heq, hp] at hpage'
          cases hpage'
          omega
        simp only [Option.isNone_some, Bool.false_eq_true, if_false, hfull, if_true, releasePageHandle, if_pos hfirst]
        refine ⟨_, rid.pageNo :: l, rfl, rfl, H.link hp (by omega) ⟨hset.length, ?_⟩ ?_ rfl, ⟨rfl, le_rfl⟩, hget _ _ rfl⟩
        · simpa [hfull] using hset.count
        · exact Int.sub_lt_self _ Int.one_pos
      · simp only [Option.isNone_some, Bool.false_eq_true, if_false, hfull]
        refine ⟨_, l, rfl, rfl, H.keep hp hset rfl ?_, ⟨rfl, le_rfl⟩, hget _ _ rfl⟩
        simp only
        omega

/-! ### insert_record at a position -/

/-- An insertion at the position takes the last free slot of its page. -/
def Fills (f : RmFile) (rid : Rid) : Prop :=
  f.lookup rid = none ∧ ∃ page, f.pages rid.pageNo = some page ∧ page.numRecords + 1 = f.perPage

/-- A page that is filled in the middle of the list stays in it. -/
theorem Heap.not_inv_of_filled (H : Heap f l) (hp : f.pages p = some old) (hroom : old.numRecords < f.perPage)
    (hnext : page.nextFreePageNo = old.nextFreePageNo) (hfull : ¬page.numRecords < f.perPage) :
    ¬HeapInv (f.write p page f.firstFreePageNo) := by
  intro hinv
  obtain ⟨l', hl'⟩ := hinv.free
  have hlinked : Links.Linked f.nextFree rmNoPage f.firstFreePageNo l' := by
    refine hl'.linked.congr fun q _ => ?_
    rw [nextFree_write]
    split
    · next hq => rw [hq, hnext, nextFree_of_page hp]
    · rfl
  have hmem : p ∈ l' := hlinked.unique H.linked ▸ (H.mem p).mpr ⟨old, hp, hroom⟩
  have := hasRoom_write.mp ((hl'.mem p).mp hmem)
  rw [if_pos rfl] at this
  exact hfull this

/-- `insert_record(rid, buf)` keeps the free pages unless it fills a page that is not their head. -/
theorem Heap.insertRecordAt (H : Heap f l) (h0 : rid.pageNo ≠ 0) (hslot : 0 ≤ rid.slotNo ∧ rid.slotNo < f.perPage)
    (buf : Bytes) :
    (¬f.Fills rid ∧ (f.insertRecordAt rid buf = .error (.recordNotFound rid.pageNo (-1)) ∨
        f.insertRecordAt rid buf = .error .slotOccupied)) ∨
      ∃ g, f.insertRecordAt rid buf = .ok g ∧
        ((f.Fills rid → f.firstFreePageNo = rid.pageNo) → (∃ l', Heap g l') ∧ Extends f g) ∧
        (¬(f.Fills rid → f.firstFreePageNo = rid.pageNo) → ¬HeapInv g) := by
  rcases H.fetch h0 hslot with ⟨hnone, hfetch⟩ | ⟨page, i, hrid, hi, hp, hfetch, hidx, hlookup⟩
  · refine Or.inl ⟨?_, Or.inl (by simp only [RmFile.insertRecordAt, hfetch, bind, Except.bind])⟩
    rintro ⟨-, page, hpage, -⟩
    rw [H.fetchPageHandle hpage] at hfetch
    cases hfetch
  · have hok := H.page _ page hp
    simp only [RmFile.insertRecordAt, hfetch, hidx, bind, Except.bind, ← hlookup]
    cases h : f.lookup rid with
    | some r₀ =>
      refine Or.inl ⟨?_, Or.inr rfl⟩
      rintro ⟨hnone, -⟩
      rw [h] at hnone
      cases hnone
    | none =>
      have hfree : page.slots[i]?.getD none = none := hlookup.symm.trans h
      have hroom := hok.room_of_free hi hfree
      have hset := hok.set hi (some buf) (k := page.numRecords + 1) (by simp [hfree])
      have hfills : f.Fills rid ↔ page.numRecords + 1 = f.perPage := by
        simp only [Fills, h, hp, Option.some.injEq, exists_eq_left', true_and]
      right
      by_cases hfirst : f.firstFreePageNo = rid.pageNo
      · obtain ⟨l', page', hl, -, -⟩ := H.first (hfirst ▸ H.pageNo_ne hp)
        rw [hfirst] at hl
        subst hl
        obtain ⟨hheap, hext, -⟩ := H.unlinkIfFull hp hroom hset rfl
        simp only [Option.isSome_none, Bool.false_eq_true, if_false, hfirst, if_true]
        exact ⟨_, rfl, fun _ => ⟨⟨_, hheap⟩, hext⟩, fun hnot => absurd (fun _ => trivial) hnot⟩
      · simp only [Option.isSome_none, Bool.false_eq_true, if_false, if_neg hfirst]
        have hle := hset.count_le
        simp only at hle
        refine ⟨_, rfl, fun hkeep => ⟨⟨l, H.keep hp hset rfl ?_⟩, rfl, le_rfl⟩, fun hnot => ?_⟩
        · have : page.numRecords + 1 ≠ f.perPage := fun heq => hfirst (hkeep (hfills.mpr heq))
          simp only
          omega
        · have hfull : page.numRecords + 1 = f.perPage := hfills.mp (Classical.not_imp.mp hnot).1
          refine H.not_inv_of_filled hp hroom rfl ?_
          simp only
          omega

/-! ### insert_records_batch -/

theorem fillSlots_nil (i : Nat) (slots : List (Option Bytes)) : fillSlots i slots [] = (slots, []) := by
  cases slots <;> rfl

theorem fillSlots_some (i : Nat) (r : Bytes) (slots : List (Option Bytes)) (b : Bytes) (bufs : List Bytes) :
    fillSlots i (some r :: slots) (b :: bufs) =
      (some r :: (fillSlots (i + 1) slots (b :: bufs)).1, (fillSlots (i + 1) slots (b :: bufs)).2) := rfl

theorem fillSlots_none (i : Nat) (slots : List (Option Bytes)) (b : Bytes) (bufs : List Bytes) :
    fillSlots i (none :: slots) (b :: bufs) =
      (some b :: (fillSlots (i + 1) slots bufs).1, i :: (fillSlots (i + 1) slots bufs).2) := rfl

/-- What the loop over the slots of a page does. -/
structure Filled (i : Nat) (slots : List (Option Bytes)) (bufs : List Bytes) (slots' : List (Option Bytes)) (ns : List Nat) :
    Prop where
  length : slots'.length = slots.length
  count : slots'.countP (·.isSome) = slots.countP (·.isSome) + ns.length
  placed : ns.length = min bufs.length (slots.length - slots.countP (·.isSome))
  nodup : ns.Nodup
  free : ∀ n ∈ ns, i ≤ n ∧ n < i + slots.length ∧ slots[n - i]?.getD none = none
  get : ∀ j, slots'[j]?.getD none = ((ns.zip bufs).lookup (i + j)).or (slots[j]?.getD none)

end

theorem lookup_zip_none {α β : Type} [BEq α] [LawfulBEq α] {a : α} {as : List α} {bs : List β} (h : a ∉ as) :
    (as.zip bs).lookup a = none := by
  induction as generalizing bs with
  | nil => rfl
  | cons x as ih =>
    cases bs with
    | nil => rfl
    | cons b bs =>
      rw [List.mem_cons, not_or] at h
      rw [List.zip_cons_cons, List.lookup_cons, beq_false_of_ne h.1]
      exact ih h.2

/-- The loop puts records into the free slots, in order, until there are no more records or slots. -/
theorem fillSlots_spec (i : Nat) (slots : List (Option Bytes)) (bufs : List Bytes) :
    Filled i slots bufs (fillSlots i slots bufs).1 (fillSlots i slots bufs).2 := by
  induction slots generalizing i bufs with
  | nil => exact ⟨rfl, rfl, by simp [fillSlots], List.nodup_nil, by simp [fillSlots], by simp [fillSlots]⟩
  | cons o slots ih =>
    cases bufs with
    | nil =>
      rw [fillSlots_nil]
      exact ⟨rfl, rfl, by simp, List.nodup_nil, by simp, by simp⟩
    | cons b bufs =>
      have hle := List.countP_le_length (p := (fun o : Option Bytes => o.isSome)) (l := slots)
      cases o with
      | some r =>
        have F := ih (i + 1) (b :: bufs)
        rw [fillSlots_some]
        refine ⟨by simp [F.length], by simp [F.count]; omega, ?_, F.nodup, fun n hn => ?_, fun j => ?_⟩
        · simp only [F.placed, List.length_cons, List.countP_cons, Option.isSome_some, if_true]
          omega
        · obtain ⟨h₁, h₂, h₃⟩ := F.free n hn
          have : n - i = (n - (i + 1)) + 1 := by omega
          exact ⟨by omega, by rw [List.length_cons]; omega, by rw [this]; simpa using h₃⟩
        · cases j with
          | zero =>
            have hnot : i ∉ (fillSlots (i + 1) slots (b :: bufs)).2 := fun h => absurd (F.free i h).1 (by omega)
            simp [lookup_zip_none hnot]
          | succ j =>
            have := F.get j
            rw [show i + (j + 1) = i + 1 + j by omega]
            simpa using this
      | none =>
        have F := ih (i + 1) bufs
        have hnot : i ∉ (fillSlots (i + 1) slots bufs).2 := fun h => absurd (F.free i h).1 (by omega)
        rw [fillSlots_none]
        refine ⟨by simp [F.length], by simp [F.count]; omega, ?_, List.nodup_cons.mpr ⟨hnot, F.nodup⟩, fun n hn => ?_,
          fun j => ?_⟩
        · simp only [F.placed, List.length_cons, List.countP_cons, Option.isSome_none, Bool.false_eq_true, if_false]
          omega
        · rcases List.mem_cons.mp hn with rfl | hn
          · exact ⟨by omega, by rw [List.length_cons]; omega, by simp⟩
          · obtain ⟨h₁, h₂, h₃⟩ := F.free n hn
            have : n - i = (n - (i + 1)) + 1 := by omega
            exact ⟨by omega, by rw [List.length_cons]; omega, by rw [this]; simpa using h₃⟩
        · cases j with
          | zero => simp
          | succ j =>
            have := F.get j
            rw [List.zip_cons_cons, List.lookup_cons, beq_false_of_ne (by omega), show i + (j + 1) = i + 1 + j by omega]
            simpa using this

/-- The records that a batch puts into one page. -/
theorem lookup_fill {f g : RmFile} {p : Int} {slots' : List (Option Bytes)} {ns : List Nat} {bufs : List Bytes} {rid : Rid}
    (hs : ∀ q, g.slotsOf q = if q = p then slots' else f.slotsOf q) (F : Filled 0 (f.slotsOf p) bufs slots' ns) :
    g.lookup rid = (((ns.map fun (n : Nat) => (⟨p, n⟩ : Rid)).zip bufs).lookup rid).or (f.lookup rid) := by
  have hzip : ∀ (ns : List Nat) (bufs : List Bytes) (j : Nat),
      ((ns.map fun (n : Nat) => (⟨p, n⟩ : Rid)).zip bufs).lookup ⟨p, j⟩ = (ns.zip bufs).lookup j := by
    intro ns
    induction ns with
    | nil => exact fun _ _ => rfl
    | cons n ns ih =>
      intro bufs j
      cases bufs with
      | nil => rfl
      | cons b bufs =>
        simp only [List.map_cons, List.zip_cons_cons, List.lookup_cons, ih bufs j]
        by_cases hj : j = n
        · simp [hj]
        · have : (⟨p, j⟩ : Rid) ≠ ⟨p, n⟩ := fun h => hj (Int.ofNat.inj (congrArg Rid.slotNo h))
          rw [beq_false_of_ne hj, beq_false_of_ne this]
  obtain ⟨q, j⟩ := rid
  by_cases hq : q = p ∧ 0 ≤ j
  · obtain ⟨rfl, hj⟩ := hq
    obtain ⟨j, rfl⟩ := Int.eq_ofNat_of_zero_le hj
    rw [lookup_nat, lookup_nat, hs, if_pos rfl, hzip, F.get j, Nat.zero_add]
  · have hnotin : (⟨q, j⟩ : Rid) ∉ ns.map fun (n : Nat) => (⟨p, n⟩ : Rid) := by
      intro h
      obtain ⟨n, -, hn⟩ := List.mem_map.mp h
      cases hn
      exact hq ⟨rfl, Int.natCast_nonneg n⟩
    rw [lookup_zip_none hnotin, Option.none_or, lookup_eq, lookup_eq, hs]
    by_cases hp : q = p
    · rw [if_neg fun h => hq ⟨hp, h⟩, if_neg fun h => hq ⟨hp, h⟩]
    · rw [if_neg hp]

/-- What a batch insertion of `bufs` that returns `rids` does to a file. -/
structure Batch (f : RmFile) (bufs : List Bytes) (g : RmFile) (rids : List Rid) : Prop where
  ext : Extends f g
  length : rids.length = bufs.length
  nodup : rids.Nodup
  fresh : ∀ rid ∈ rids, f.lookup rid = none ∧ InFile g rid
  get : ∀ rid, g.lookup rid = ((rids.zip bufs).lookup rid).or (f.lookup rid)

theorem Batch.nil (f : RmFile) : Batch f [] f [] := ⟨Extends.refl f, rfl, List.nodup_nil, by simp, by simp⟩

/-- One page of a batch, and the others. -/
theorem Batch.append {f g h : RmFile} {as bs : List Bytes} {rids sids : List Rid} (A : Batch f as g rids) (B : Batch g bs h sids) :
    Batch f (as ++ bs) h (rids ++ sids) := by
  have hdisj : ∀ rid ∈ rids, rid ∉ sids := by
    intro rid hr hs
    have hnone := (B.fresh rid hs).1
    rw [A.get rid, Option.or_eq_none_iff] at hnone
    obtain ⟨i, hi, rfl⟩ := List.getElem_of_mem hr
    have hi' : i < as.length := A.length ▸ hi
    have hmem : (rids[i], as[i]) ∈ rids.zip as := by
      rw [← List.getElem_zip (h := by rw [List.length_zip]; omega)]
      exact List.getElem_mem _
    exact List.lookup_eq_none_iff.mp hnone.1 _ hmem |> fun h => by simp at h
  refine ⟨A.ext.trans B.ext, by simp [A.length, B.length], ?_, fun rid hr => ?_, fun rid => ?_⟩
  · refine List.nodup_append.mpr ⟨A.nodup, B.nodup, ?_⟩
    rintro rid hr sid hs rfl
    exact hdisj rid hr hs
  · rcases List.mem_append.mp hr with hr | hr
    · exact ⟨(A.fresh rid hr).1, (A.fresh rid hr).2.mono B.ext⟩
    · have hnone := (B.fresh rid hr).1
      rw [A.get rid, Option.or_eq_none_iff] at hnone
      exact ⟨hnone.2, (B.fresh rid hr).2⟩
  · rw [B.get rid, A.get rid, List.zip_append A.length, List.lookup_append, Option.or_assoc]
    by_cases hr : rid ∈ rids
    · rw [lookup_zip_none (hdisj rid hr), Option.none_or]
      rfl
    · rw [lookup_zip_none hr, Option.none_or, Option.none_or]

/-- One page of a batch: the head of the free pages takes as many records as it has free slots. -/
theorem Heap.fill {g : RmFile} {p : Int} {l : List Int} {page : RmPage} (H : Heap g (p :: l)) (hp : g.pages p = some page)
    (hroom : page.numRecords < g.perPage) (bufs : List Bytes) :
    ∃ slots ns, fillSlots 0 page.slots (bufs.take (g.perPage - page.numRecords).toNat) = (slots, ns) ∧
      (bufs ≠ [] → ns ≠ []) ∧
      (∃ l', Heap (g.unlinkIfFull p { page with slots := slots, numRecords := page.numRecords + ns.length }) l') ∧
      Batch g (bufs.take ns.length) (g.unlinkIfFull p { page with slots := slots, numRecords := page.numRecords + ns.length })
        (ns.map fun (n : Nat) => (⟨p, n⟩ : Rid)) := by
  have hok := H.page p page hp
  have hcount := hok.count
  have hlen := hok.length
  have hpos : 1 ≤ (g.perPage - page.numRecords).toNat := by omega
  have F := fillSlots_spec 0 page.slots (bufs.take (g.perPage - page.numRecords).toNat)
  generalize fillSlots 0 page.slots (bufs.take (g.perPage - page.numRecords).toNat) = r at F
  obtain ⟨slots, ns⟩ := r
  simp only at F
  have hns : ns.length = min bufs.length (g.perPage - page.numRecords).toNat := by
    rw [F.placed, List.length_take]
    omega
  have htake : bufs.take (g.perPage - page.numRecords).toNat = bufs.take ns.length := by
    rw [List.take_eq_take_iff]
    omega
  have hok' : PageOk g.perPage { page with slots := slots, numRecords := page.numRecords + ns.length } :=
    ⟨F.length.trans hlen, by simp only [F.count, hcount]; omega⟩
  obtain ⟨hheap, hext, hslots⟩ := H.unlinkIfFull hp hroom hok' rfl
  have hold : g.slotsOf p = page.slots := slotsOf_of_page hp
  have F' : Filled 0 (g.slotsOf p) (bufs.take ns.length) slots ns := by
    rw [hold, ← htake]
    exact F
  have hb := H.bounds hp
  refine ⟨slots, ns, rfl, fun hne hnil => ?_, ⟨_, hheap⟩, hext, ?_, ?_, fun rid hr => ?_, fun rid => lookup_fill hslots F'⟩
  · have := List.length_pos_iff.mpr hne
    rw [hnil, List.length_nil] at hns
    omega
  · rw [List.length_map, List.length_take]
    omega
  · refine List.Nodup.map (fun a b h => ?_) F.nodup
    exact Int.ofNat.inj (congrArg Rid.slotNo h)
  · obtain ⟨n, hn, rfl⟩ := List.mem_map.mp hr
    obtain ⟨-, h₂, h₃⟩ := F.free n hn
    refine ⟨?_, InFile.mono ⟨Int.natCast_nonneg n, ?_, hb.1, hb.2⟩ hext⟩
    · rw [lookup_nat, hold]
      exact h₃
    · show (n : Int) < g.perPage
      omega

/-- `insert_records_batch` ends, and every record has a position of its own. -/
theorem Heap.insertRecordsLoop {f : RmFile} {l : List Int} (H : Heap f l) {fuel : Nat} {bufs : List Bytes} (hfuel : bufs.length ≤ fuel) :
    ∃ g rids l', RmFile.insertRecordsLoop fuel f bufs = .ok (g, rids) ∧ Heap g l' ∧ Batch f bufs g rids := by
  induction fuel generalizing f l bufs with
  | zero =>
    have : bufs = [] := List.length_eq_zero_iff.mp (by omega)
    subst this
    exact ⟨f, [], l, rfl, H, Batch.nil f⟩
  | succ fuel ih =>
    cases bufs with
    | nil => exact ⟨f, [], l, rfl, H, Batch.nil f⟩
    | cons b bufs =>
      obtain ⟨g, p, page, l₁, heq, Hg, hpage, hroom, hext, hlookup⟩ := H.freePageHandle
      obtain ⟨slots, ns, hfill, hne, ⟨l₂, H₂⟩, hbatch⟩ := Hg.fill hpage hroom (b :: bufs)
      have hpos := List.length_pos_iff.mpr (hne (by simp))
      have hless : ((b :: bufs).drop ns.length).length ≤ fuel := by
        rw [List.length_drop]
        omega
      obtain ⟨h, rids, l₃, hloop, H₃, hrest⟩ := ih H₂ hless
      have hall := hbatch.append hrest
      rw [List.take_append_drop] at hall
      refine ⟨h, _, l₃, ?_, H₃, ⟨hext.trans hall.ext, hall.length, hall.nodup, fun rid hr => ?_, fun rid => ?_⟩⟩
      · simp only [RmFile.insertRecordsLoop, heq, hfill, hloop, bind, Except.bind]
      · rw [← hlookup]
        exact hall.fresh rid hr
      · rw [← hlookup]
        exact hall.get rid

theorem Heap.insertRecordsBatch {f : RmFile} {l : List Int} (H : Heap f l) (bufs : List Bytes) :
    ∃ g rids l', f.insertRecordsBatch bufs = .ok (g, rids) ∧ Heap g l' ∧ Batch f bufs g rids :=
  H.insertRecordsLoop (Nat.le_add_right _ _)

end RmFile
end Rmdb
