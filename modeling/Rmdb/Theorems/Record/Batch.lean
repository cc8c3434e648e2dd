import Rmdb.Record.Batch
import Rmdb.Theorems.Record.Refinement

/-! `insert_records_batch` beside `insert_record` for each record.

In the pages the two do the same: a page takes as many records as it has free slots, and each of them goes where
`insert_record` puts it. What differs is the log and the `MvccMap`. -/

namespace Rmdb
open Links

namespace RmFile
variable {f g : RmFile} {l : List Int} {p : Int} {page : RmPage} {rid : Rid} {buf : Bytes} {bufs : List Bytes}

/-! ### One page -/

/-- The first record of a batch goes into the first free slot, the others behind it. -/
theorem fillSlots_cons (i : Nat) (slots : List (Option Bytes)) (hlt : slots.findIdx (·.isNone) < slots.length) (b : Bytes) (bufs : List Bytes) :
    fillSlots i slots (b :: bufs) =
      ((fillSlots i (slots.set (slots.findIdx (·.isNone)) (some b)) bufs).1,
        (i + slots.findIdx (·.isNone)) :: (fillSlots i (slots.set (slots.findIdx (·.isNone)) (some b)) bufs).2) := by
  induction slots generalizing i with
  | nil => cases hlt
  | cons o slots ih =>
    cases o with
    | none =>
      rw [fillSlots_none, List.findIdx_cons]
      cases bufs with
      | nil => simp [fillSlots_nil]
      | cons b' bufs => simp [fillSlots_some]
    | some r =>
      have hidx : (some r :: slots).findIdx (·.isNone) = slots.findIdx (·.isNone) + 1 := by simp [List.findIdx_cons]
      rw [hidx, List.length_cons] at hlt
      rw [hidx, fillSlots_some, ih (i + 1) (by omega), List.set_cons_succ]
      cases bufs with
      | nil =>
        simp only [fillSlots_nil]
        rw [show i + 1 + slots.findIdx (·.isNone) = i + (slots.findIdx (·.isNone) + 1) by omega]
      | cons b' bufs =>
        rw [fillSlots_some]
        rw [show i + 1 + slots.findIdx (·.isNone) = i + (slots.findIdx (·.isNone) + 1) by omega]

theorem unlinkIfFull_setPage (f : RmFile) (p : Int) (page page' : RmPage) :
    (f.setPage p page').unlinkIfFull p page = f.unlinkIfFull p page := by
  have hpages : ∀ page'' : RmPage, (fun q => if q = p then some page'' else if q = p then some page' else f.pages q) =
      fun q => if q = p then some page'' else f.pages q := by
    intro page''
    funext q
    split <;> rfl
  simp only [unlinkIfFull, setPage, hpages]

/-- The page that an insertion goes to, with the record. -/
def withRecord (page : RmPage) (buf : Bytes) : RmPage :=
  { page with slots := page.slots.set (page.slots.findIdx (·.isNone)) (some buf), numRecords := page.numRecords + 1 }

/-- `insert_record` on the page that `create_page_handle` gives out. -/
theorem Heap.insertRecord_eq (Hg : Heap g (p :: l)) (hhandle : f.freePageHandle = .ok (g, p, page)) (hpage : g.pages p = some page)
    (hroom : page.numRecords < g.perPage) (buf : Bytes) :
    f.insertRecord buf = .ok (g.unlinkIfFull p (withRecord page buf), ⟨p, page.slots.findIdx (·.isNone)⟩) := by
  obtain ⟨hlt, -⟩ := (Hg.page p page hpage).findIdx hroom
  simp only [RmFile.insertRecord, hhandle, bind, Except.bind, if_neg (Nat.not_le.mpr hlt)]
  rfl

/-- The records that a batch puts on a page, and the others. -/
theorem insertRecordsLoop_page {fuel : Nat} (hhandle : f.freePageHandle = .ok (g, p, page)) (b : Bytes) (bufs : List Bytes)
    {slots : List (Option Bytes)} {ns : List Nat}
    (hfill : fillSlots 0 page.slots ((b :: bufs).take (g.perPage - page.numRecords).toNat) = (slots, ns)) :
    RmFile.insertRecordsLoop (fuel + 1) f (b :: bufs) =
      (RmFile.insertRecordsLoop fuel (g.unlinkIfFull p { page with slots := slots, numRecords := page.numRecords + ns.length })
        ((b :: bufs).drop ns.length)).map fun r => (r.1, ns.map (fun (n : Nat) => (⟨p, n⟩ : Rid)) ++ r.2) := by
  rw [RmFile.insertRecordsLoop]
  simp only [hhandle, hfill, bind, Except.bind]
  rfl

/-- More fuel changes nothing. -/
theorem Heap.insertRecordsLoop_succ (H : Heap f l) {fuel : Nat} (hfuel : bufs.length ≤ fuel) :
    RmFile.insertRecordsLoop (fuel + 1) f bufs = RmFile.insertRecordsLoop fuel f bufs := by
  induction fuel generalizing f l bufs with
  | zero =>
    rw [List.length_eq_zero_iff.mp (Nat.le_zero.mp hfuel)]
    rfl
  | succ fuel ih =>
    cases bufs with
    | nil => rfl
    | cons b bufs =>
      obtain ⟨g, p, page, l₁, heq, Hg, hpage, hroom, -, -⟩ := H.freePageHandle
      obtain ⟨slots, ns, hfill, hne, ⟨l₂, H₂⟩, -⟩ := Hg.fill hpage hroom (b :: bufs)
      have hpos := List.length_pos_iff.mpr (hne (by simp))
      have hless : ((b :: bufs).drop ns.length).length ≤ fuel := by
        rw [List.length_drop]
        omega
      rw [insertRecordsLoop_page heq b bufs hfill, insertRecordsLoop_page heq b bufs hfill, ih H₂ hless]

/-- One step of a batch is an `insert_record`. -/
theorem Heap.insertRecordsLoop_cons (H : Heap f l) {fuel : Nat} (hfuel : bufs.length ≤ fuel) (buf : Bytes) :
    ∃ f₁ rid l₁, f.insertRecord buf = .ok (f₁, rid) ∧ Heap f₁ l₁ ∧ RmFile.insertRecordsLoop (fuel + 1) f (buf :: bufs) =
      (RmFile.insertRecordsLoop (fuel + 1) f₁ bufs).map fun r => (r.1, rid :: r.2) := by
  obtain ⟨g, p, page, l₁, heq, Hg, hpage, hroom, -, -⟩ := H.freePageHandle
  have hok := Hg.page p page hpage
  obtain ⟨hlt, hfree⟩ := hok.findIdx hroom
  have hset := hok.set hlt (some buf) (k := page.numRecords + 1) (by simp [hfree])
  have hfill := fillSlots_cons 0 page.slots (hok.length ▸ hlt) buf
  have H₁ : Heap (g.unlinkIfFull p (withRecord page buf)) _ := (Hg.unlinkIfFull hpage hroom hset rfl).1
  refine ⟨_, _, _, Hg.insertRecord_eq heq hpage hroom buf, H₁, ?_⟩
  by_cases hfull : page.numRecords + 1 = g.perPage
  · -- the record fills the page
    have htake : fillSlots 0 page.slots ((buf :: bufs).take (g.perPage - page.numRecords).toNat) =
        ((withRecord page buf).slots, [page.slots.findIdx (·.isNone)]) := by
      rw [show (g.perPage - page.numRecords).toNat = 1 by omega, List.take_succ_cons, List.take_zero, hfill, fillSlots_nil,
        Nat.zero_add]
      rfl
    rw [insertRecordsLoop_page heq buf bufs htake, H₁.insertRecordsLoop_succ hfuel]
    rfl
  · -- the page goes on with the next record
    have hkeep : g.unlinkIfFull p (withRecord page buf) = g.setPage p (withRecord page buf) := if_neg hfull
    have hroom₁ : (g.perPage - page.numRecords).toNat = (g.perPage - (page.numRecords + 1)).toNat + 1 := by
      have := hset.count_le
      simp only at this
      omega
    rw [hkeep]
    cases bufs with
    | nil =>
      have htake : fillSlots 0 page.slots ([buf].take (g.perPage - page.numRecords).toNat) =
          ((withRecord page buf).slots, [page.slots.findIdx (·.isNone)]) := by
        rw [hroom₁, List.take_succ_cons, List.take_nil, hfill, fillSlots_nil, Nat.zero_add]
        rfl
      rw [insertRecordsLoop_page heq buf [] htake, List.drop_of_length_le (Nat.le_refl 1)]
      have hsame : ∀ n, RmFile.insertRecordsLoop n (g.setPage p (withRecord page buf)) [] = .ok (g.setPage p (withRecord page buf), []) :=
        fun n => by cases n <;> rfl
      have hset' : g.unlinkIfFull p { page with slots := (withRecord page buf).slots, numRecords := page.numRecords + 1 } =
          g.setPage p (withRecord page buf) := hkeep
      simp only [List.length_singleton, Int.natCast_one, hset', hsame]
      rfl
    | cons b bufs =>
      have hpage' : (g.setPage p (withRecord page buf)).pages p = some (withRecord page buf) := if_pos rfl
      have H' : Heap (g.setPage p (withRecord page buf)) (p :: l₁) := by
        have h := H₁
        rw [hkeep, if_neg hfull] at h
        exact h
      have hhandle : (g.setPage p (withRecord page buf)).freePageHandle = .ok (g.setPage p (withRecord page buf), p, withRecord page buf) := by
        have hfirst : (g.setPage p (withRecord page buf)).firstFreePageNo = p := H'.linked.1
        rw [RmFile.freePageHandle, hfirst, if_neg (H'.pageNo_ne hpage'), H'.fetchPageHandle hpage']
        rfl
      obtain ⟨slots, ns, hrest⟩ : ∃ slots ns, fillSlots 0 (withRecord page buf).slots
          ((b :: bufs).take (g.perPage - (page.numRecords + 1)).toNat) = (slots, ns) := ⟨_, _, rfl⟩
      have htake : fillSlots 0 page.slots ((buf :: b :: bufs).take (g.perPage - page.numRecords).toNat) =
          (slots, page.slots.findIdx (·.isNone) :: ns) := by
        have hrest' : fillSlots 0 (page.slots.set (page.slots.findIdx (·.isNone)) (some buf))
          ((b :: bufs).take (g.perPage - (page.numRecords + 1)).toNat) = (slots, ns) := hrest
        rw [hroom₁, List.take_succ_cons, hfill, Nat.zero_add, hrest']
      rw [insertRecordsLoop_page heq buf (b :: bufs) htake, insertRecordsLoop_page hhandle b bufs hrest, unlinkIfFull_setPage]
      have hcount : page.numRecords + ((page.slots.findIdx (·.isNone) :: ns).length : Nat) = (withRecord page buf).numRecords + ns.length := by
        rw [List.length_cons, Int.natCast_succ]
        simp only [withRecord]
        omega
      rw [hcount, List.length_cons, List.drop_succ_cons]
      have hmap : ∀ x : Except RmError (RmFile × List Rid),
          (x.map fun r => (r.1, (page.slots.findIdx (·.isNone) :: ns).map (fun (n : Nat) => (⟨p, n⟩ : Rid)) ++ r.2)) =
            (x.map fun r => (r.1, ns.map (fun (n : Nat) => (⟨p, n⟩ : Rid)) ++ r.2)).map fun r =>
              (r.1, ⟨p, (page.slots.findIdx (·.isNone) : Nat)⟩ :: r.2) := by
        intro x
        cases x <;> rfl
      exact hmap _

/-- A batch does to the pages what `insert_record` does for one record after another. -/
theorem Heap.insertRecordsLoop_eq (H : Heap f l) {fuel : Nat} (hfuel : bufs.length ≤ fuel) :
    RmFile.insertRecordsLoop (fuel + 1) f bufs = f.insertRecords bufs := by
  induction bufs generalizing f l with
  | nil => rfl
  | cons buf bufs ih =>
    rw [List.length_cons] at hfuel
    obtain ⟨f₁, rid, l₁, hins, H₁, hloop⟩ := H.insertRecordsLoop_cons (by omega : bufs.length ≤ fuel) buf
    rw [hloop, ih H₁ (by omega)]
    simp only [RmFile.insertRecords, hins, bind, Except.bind]
    rfl

theorem Heap.insertRecordsBatch_eq (H : Heap f l) (bufs : List Bytes) : f.insertRecordsBatch bufs = f.insertRecords bufs := by
  have hpos := H.header
  obtain ⟨m, hm⟩ : ∃ m, bufs.length + f.numPages.toNat = m + 1 := ⟨bufs.length + f.numPages.toNat - 1, by omega⟩
  rw [RmFile.insertRecordsBatch, hm, H.insertRecordsLoop_eq (by omega)]

/-! ### The positions without a record -/

/-- The free slots of a page, or all slots of one that the file does not have yet. -/
def vacant (f : RmFile) (p : Int) : List Rid :=
  ((List.range f.perPage).filter fun (i : Nat) => (f.lookup ⟨p, i⟩).isNone).map fun (i : Nat) => ⟨p, i⟩

/-- The next `k` positions to be filled: on the free pages `l`, and then on new pages. -/
def vacancies (f : RmFile) (l : List Int) (k : Nat) : List Rid :=
  ((l ++ (List.range k).map fun (j : Nat) => f.fd2pageno + j).flatMap f.vacant).take k

/-- The first number with a property, and the others. -/
theorem filter_range_first {n i : Nat} {P : Nat → Bool} (hi : i < n) (hP : P i = true) (hmin : ∀ j < i, P j = false) :
    (List.range n).filter P = i :: (List.range n).filter fun j => P j && decide (j ≠ i) := by
  obtain ⟨m, rfl⟩ : ∃ m, n = i + (m + 1) := ⟨n - i - 1, by omega⟩
  have hlow : (List.range i).filter P = [] := List.filter_eq_nil_iff.mpr fun j hj => by
    rw [hmin j (List.mem_range.mp hj)]
    exact Bool.false_ne_true
  have hlow' : ((List.range i).filter fun j => P j && decide (j ≠ i)) = [] := List.filter_eq_nil_iff.mpr fun j hj => by
    rw [hmin j (List.mem_range.mp hj), Bool.false_and]
    exact Bool.false_ne_true
  have hhigh : ((List.range m).map fun j => i + (j + 1)).filter P =
      ((List.range m).map fun j => i + (j + 1)).filter fun j => P j && decide (j ≠ i) := by
    refine List.filter_congr fun j hj => ?_
    obtain ⟨k, -, rfl⟩ := List.mem_map.mp hj
    simp
  rw [List.range_add, List.range_succ_eq_map, List.map_cons, List.map_map, List.filter_append, List.filter_append, hlow, hlow',
    List.nil_append, List.nil_append, Nat.add_zero, List.filter_cons_of_pos hP, List.filter_cons_of_neg (by simp)]
  exact congrArg (i :: ·) hhigh

theorem vacant_congr (hper : g.perPage = f.perPage) {p : Int} (h : ∀ i : Nat, g.lookup ⟨p, i⟩ = f.lookup ⟨p, i⟩) : g.vacant p = f.vacant p := by
  simp only [vacant, hper, h]

theorem Heap.vacant_full (H : Heap f l) (hp : f.pages p = some page) (hnot : p ∉ l) : f.vacant p = [] := by
  have hok := H.page p page hp
  rw [vacant, List.map_eq_nil_iff, List.filter_eq_nil_iff]
  intro i hi hnone
  rw [lookup_nat, slotsOf_of_page hp, Option.isNone_iff_eq_none] at hnone
  exact hnot ((H.mem p).mpr ⟨page, hp, hok.room_of_free (List.mem_range.mp hi) hnone⟩)

theorem Heap.vacant_new (H : Heap f l) {q : Int} (hq : f.numPages ≤ q) : (f.vacant q).length = f.perPage := by
  have hnone : ∀ i : Nat, (f.lookup ⟨q, i⟩).isNone = true := by
    intro i
    rw [lookup_nat, slotsOf, H.pages_none (by omega)]
    rfl
  simp [vacant, hnone]

/-- `insert_record` takes the first vacancy. -/
theorem Heap.vacant_insert (Hg : Heap g (p :: l)) (hpage : g.pages p = some page) (hroom : page.numRecords < g.perPage)
    (hper : f.perPage = g.perPage) (hget : ∀ r, f.lookup r = if r = ⟨p, (page.slots.findIdx (·.isNone) : Nat)⟩ then some buf else g.lookup r) :
    g.vacant p = ⟨p, (page.slots.findIdx (·.isNone) : Nat)⟩ :: f.vacant p := by
  obtain ⟨hlt, hfree⟩ := (Hg.page p page hpage).findIdx hroom
  have hlookup : ∀ i : Nat, g.lookup ⟨p, i⟩ = page.slots[i]?.getD none := fun i => by rw [lookup_nat, slotsOf_of_page hpage]
  have hfirst := filter_range_first (P := fun i : Nat => (g.lookup ⟨p, i⟩).isNone) hlt (by rw [hlookup, hfree]; rfl) fun j hj => by
    have hlen := (Hg.page p page hpage).length
    have := List.not_of_lt_findIdx hj
    rw [hlookup, List.getElem?_eq_getElem (by omega), Option.getD_some]
    exact this
  rw [vacant, hfirst, List.map_cons, vacant, hper]
  refine congrArg (_ :: ·) (congrArg (List.map _) (List.filter_congr fun j _ => ?_))
  rw [hget]
  by_cases hj : j = page.slots.findIdx (·.isNone)
  · simp [hj]
  · simp [hj, Int.natCast_inj]

theorem Heap.length_fresh (H : Heap f l) (k : Nat) :
    k ≤ (((List.range k).map fun (j : Nat) => f.fd2pageno + j).flatMap f.vacant).length := by
  have hslot := H.slot
  induction k with
  | zero => exact Nat.zero_le _
  | succ k ih =>
    rw [List.range_succ, List.map_append, List.flatMap_append, List.length_append, List.map_singleton, List.flatMap_singleton,
      H.vacant_new (by rw [H.next]; omega)]
    omega

/-- The position of a record that is inserted is the first vacancy, and the others stay. -/
theorem Heap.insertRecord_vacancies (H : Heap f l) (buf : Bytes) :
    ∃ f₁ rid l₁, f.insertRecord buf = .ok (f₁, rid) ∧ Heap f₁ l₁ ∧ f₁.perPage = f.perPage ∧
      ∀ k, f.vacancies l (k + 1) = rid :: f₁.vacancies l₁ k := by
  obtain ⟨g, p, page, l', heq, Hg, hpage, hroom, hext, hlookup⟩ := H.freePageHandle
  have hok := Hg.page p page hpage
  obtain ⟨hlt, hfree⟩ := hok.findIdx hroom
  have hset := hok.set hlt (some buf) (k := page.numRecords + 1) (by simp [hfree])
  obtain ⟨H₁, hext₁, hslots⟩ := Hg.unlinkIfFull hpage hroom hset rfl
  have hper : (g.unlinkIfFull p (withRecord page buf)).perPage = g.perPage := hext₁.perPage
  have hold : g.slotsOf p = page.slots := slotsOf_of_page hpage
  have hget : ∀ r, (g.unlinkIfFull p (withRecord page buf)).lookup r =
      if r = ⟨p, (page.slots.findIdx (·.isNone) : Nat)⟩ then some buf else g.lookup r := by
    intro r
    refine lookup_set (fun q => ?_) (by rw [hold, hok.length]; exact hlt)
    rw [hold]
    exact hslots q
  have hvacant := Hg.vacant_insert hpage hroom hper hget
  have hothers : ∀ q, q ≠ p → (g.unlinkIfFull p (withRecord page buf)).vacant q = g.vacant q := by
    intro q hq
    refine vacant_congr hper fun i => ?_
    rw [hget, if_neg fun h => hq (congrArg Rid.pageNo h)]
  have hsame : g.vacant = f.vacant := funext fun q => vacant_congr hext.perPage fun i => hlookup _
  have hfd : (g.unlinkIfFull p (withRecord page buf)).fd2pageno = g.fd2pageno := by
    rw [RmFile.unlinkIfFull]
    split <;> rfl
  have hnotin : p ∉ l' := (List.nodup_cons.mp Hg.nodup).1
  have hpages : ∀ X : List Int, ((if page.numRecords + 1 = g.perPage then l' else p :: l') ++ X).flatMap (g.unlinkIfFull p (withRecord page buf)).vacant =
      (g.unlinkIfFull p (withRecord page buf)).vacant p ++ (l' ++ X).flatMap (g.unlinkIfFull p (withRecord page buf)).vacant := by
    intro X
    by_cases hfull : page.numRecords + 1 = g.perPage
    · have hpage' : ∃ page', (g.unlinkIfFull p (withRecord page buf)).pages p = some page' := by
        rw [RmFile.unlinkIfFull]
        split <;> exact ⟨_, if_pos rfl⟩
      obtain ⟨page', hpage'⟩ := hpage'
      have hnone := H₁.vacant_full hpage' (by simpa only [hfull, if_true] using hnotin)
      rw [if_pos hfull, show (g.unlinkIfFull p (withRecord page buf)).vacant p = [] from hnone, List.nil_append]
    · rw [if_neg hfull, List.cons_append, List.flatMap_cons]
  have hrest : ∀ X : List Int, p ∉ X → (l' ++ X).flatMap (g.unlinkIfFull p (withRecord page buf)).vacant = (l' ++ X).flatMap g.vacant := by
    intro X hX
    refine List.flatMap_congr fun q hq => hothers q ?_
    rintro rfl
    exact (List.mem_append.mp hq).elim hnotin hX
  refine ⟨_, _, _, Hg.insertRecord_eq heq hpage hroom buf, H₁, hper.trans hext.perPage, fun k => ?_⟩
  simp only [vacancies, hpages, hfd, ← hsame]
  by_cases hfirst : f.firstFreePageNo = rmNoPage
  · -- the page is a new one
    have hl : l = [] := by
      cases l with
      | nil => rfl
      | cons q l => exact absurd hfirst H.linked.2.1
    obtain ⟨hp, hnext, hl'⟩ : p = f.numPages ∧ g.fd2pageno = f.numPages + 1 ∧ l' = [] := by
      have hcreate := H.create_spec
      rw [RmFile.freePageHandle, if_pos hfirst] at heq
      rw [H.createNewPageHandle] at heq hcreate
      cases heq
      exact ⟨rfl, rfl, (List.cons.inj (Hg.linked.unique hcreate.linked)).2.trans hl⟩
    have hfresh : p ∉ (List.range k).map fun (j : Nat) => g.fd2pageno + j := by
      intro hmem
      obtain ⟨j, -, hj⟩ := List.mem_map.mp hmem
      omega
    have hmap : ((List.range (k + 1)).map fun (j : Nat) => f.fd2pageno + j) = p :: (List.range k).map fun (j : Nat) => g.fd2pageno + j := by
      rw [List.range_succ_eq_map, List.map_cons, List.map_map, H.next, hnext, hp]
      refine congrArg₂ List.cons (Int.add_zero _) (List.map_congr_left fun j _ => ?_)
      simp only [Function.comp_apply, Nat.succ_eq_add_one, Int.natCast_add, Int.natCast_one]
      omega
    rw [hrest _ hfresh, hmap, hl, hl', List.nil_append, List.nil_append, List.flatMap_cons, hvacant, List.cons_append, List.take_succ_cons]
  · rw [RmFile.freePageHandle, if_neg hfirst] at heq
    obtain ⟨page', -, heq⟩ := Runs.ok_of_bind heq
    cases heq
    have hl : l = f.firstFreePageNo :: l' := H.linked.unique Hg.linked
    have hfresh : ∀ n, f.firstFreePageNo ∉ (List.range n).map fun (j : Nat) => f.fd2pageno + j := by
      intro n hmem
      obtain ⟨j, -, hj⟩ := List.mem_map.mp hmem
      have := Hg.bounds hpage
      have := Hg.next
      omega
    rw [hrest _ (hfresh k), hl, List.cons_append, List.flatMap_cons, hvacant, List.cons_append, List.take_succ_cons, List.range_succ,
      List.map_append, ← List.append_assoc, List.flatMap_append, ← List.append_assoc, List.take_append_of_le_length]
    have := Hg.length_fresh k
    rw [List.length_append, List.flatMap_append, List.length_append]
    omega

/-- One record after another fills one vacancy after another. -/
theorem Heap.insertRecords (H : Heap f l) (bufs : List Bytes) :
    ∃ g l', f.insertRecords bufs = .ok (g, f.vacancies l bufs.length) ∧ Heap g l' ∧ g.perPage = f.perPage := by
  induction bufs generalizing f l with
  | nil => exact ⟨f, l, by simp [RmFile.insertRecords, vacancies], H, rfl⟩
  | cons buf bufs ih =>
    obtain ⟨f₁, rid, l₁, hins, H₁, hper, hvac⟩ := H.insertRecord_vacancies buf
    obtain ⟨g, l', hrest, H', hper'⟩ := ih H₁
    refine ⟨g, l', ?_, H', hper'.trans hper⟩
    rw [List.length_cons, hvac]
    simp only [RmFile.insertRecords, hins, hrest, bind, Except.bind]

end RmFile

namespace RmFileHandle
open RmFile
variable {s : RmFileHandle} {l : List Int} {ctx : Option Context} {bufs : List Bytes}

/-- The log records of insertions one by one. -/
def recordLog (ctx : Option Context) (rows : List (Rid × Bytes)) : List (LogRecord String) :=
  match ctx with
  | some ⟨true, txn, tab⟩ => rows.map fun r => .insert (txn.getD invalidTxnId) tab r.1 r.2
  | _ => []

/-- The `MvccMap` after insertions one by one. -/
def marked (s : RmFileHandle) (ctx : Option Context) (rids : List Rid) : Int → Option HeapTupleFields :=
  match ctx.bind (·.txn) with
  | some id => fun x => if x ∈ rids.map s.slot then some (insertMark id) else s.mvccMap x
  | none => s.mvccMap

theorem logInsert_eq (s : RmFileHandle) (ctx : Option Context) (rid : Rid) (buf : Bytes) :
    s.logInsert ctx rid buf = { s with log := s.log ++ recordLog ctx [(rid, buf)] } := by
  match ctx with
  | none => simp [logInsert, recordLog]
  | some ⟨true, txn, tab⟩ => rfl
  | some ⟨false, txn, tab⟩ => simp [logInsert, recordLog]

theorem recordLog_cons (ctx : Option Context) (r : Rid × Bytes) (rows : List (Rid × Bytes)) :
    recordLog ctx (r :: rows) = recordLog ctx [r] ++ recordLog ctx rows := by
  match ctx with
  | none => rfl
  | some ⟨true, txn, tab⟩ => rfl
  | some ⟨false, txn, tab⟩ => rfl

theorem recordLog_nil (ctx : Option Context) : recordLog ctx [] = [] := by
  match ctx with
  | none => rfl
  | some ⟨true, txn, tab⟩ => rfl
  | some ⟨false, txn, tab⟩ => rfl

theorem marked_nil (s : RmFileHandle) (ctx : Option Context) : s.marked ctx [] = s.mvccMap := by
  rw [marked]
  split
  · simp
  · rfl

theorem markInsert_eq (s : RmFileHandle) (ctx : Option Context) (rid : Rid) :
    s.markInsert ctx rid = { s with mvccMap := s.marked ctx [rid] } := by
  simp only [markInsert, marked]
  cases ctx.bind (·.txn) with
  | none => rfl
  | some id =>
    refine congrArg (fun m => { s with mvccMap := m }) (funext fun x => ?_)
    simp [Function.update_apply]

theorem marked_congr {t : RmFileHandle} (hper : t.file.perPage = s.file.perPage) (hmap : t.mvccMap = s.mvccMap) (rids : List Rid) :
    t.marked ctx rids = s.marked ctx rids := by
  have hslot : t.slot = s.slot := funext fun r => by rw [slot, slot, hper]
  simp only [marked, hslot, hmap]

theorem marked_cons {t : RmFileHandle} {rid : Rid} (hper : t.file.perPage = s.file.perPage) (hmap : t.mvccMap = s.marked ctx [rid])
    (rids : List Rid) : t.marked ctx rids = s.marked ctx (rid :: rids) := by
  have hslot : t.slot = s.slot := funext fun r => by rw [slot, slot, hper]
  simp only [marked, hslot, hmap]
  cases ctx.bind (·.txn) with
  | none => rfl
  | some id =>
    funext x
    by_cases hx : x ∈ rids.map s.slot
    · simp only [hx, if_true, List.map_cons, List.mem_cons, or_true]
    · simp [hx]

/-- What insertions one by one write. -/
theorem insertRecords_eq (H : Heap s.file l) (bufs : List Bytes) : ∃ f, s.file.insertRecords bufs = .ok (f, s.file.vacancies l bufs.length) ∧
    s.insertRecords ctx bufs = .ok (⟨f, s.marked ctx (s.file.vacancies l bufs.length),
      s.log ++ recordLog ctx ((s.file.vacancies l bufs.length).zip bufs)⟩, s.file.vacancies l bufs.length) := by
  induction bufs generalizing s l with
  | nil =>
    have hnone : s.file.vacancies l 0 = [] := by rw [vacancies, List.take_zero]
    rw [List.length_nil, hnone]
    refine ⟨s.file, rfl, ?_⟩
    rw [marked_nil, List.zip_nil_left, recordLog_nil, List.append_nil]
    rfl
  | cons buf bufs ih =>
    obtain ⟨f₁, rid, l₁, hins, H₁, hper, hvac⟩ := H.insertRecord_vacancies buf
    obtain ⟨f, hf, hall⟩ := ih (s := ({ s with file := f₁ }.logInsert ctx rid buf).markInsert ctx rid) (l := l₁) (by
      rw [markInsert_eq, logInsert_eq]
      exact H₁)
    have hone : s.insertRecord ctx buf = .ok (({ s with file := f₁ }.logInsert ctx rid buf).markInsert ctx rid, rid) := by
      simp only [insertRecord, hins, bind, Except.bind]
    have hmarks : ∀ rids, (({ s with file := f₁ }.logInsert ctx rid buf).markInsert ctx rid).marked ctx rids = s.marked ctx (rid :: rids) := by
      refine marked_cons ?_ ?_
      · rw [markInsert_eq, logInsert_eq]
        exact hper
      · rw [markInsert_eq, logInsert_eq]
        exact marked_congr (s := s) (t := { s with file := f₁, log := s.log ++ recordLog ctx [(rid, buf)] }) hper rfl [rid]
    have hfile : (({ s with file := f₁ }.logInsert ctx rid buf).markInsert ctx rid).file = f₁ := by rw [markInsert_eq, logInsert_eq]
    have hlog : (({ s with file := f₁ }.logInsert ctx rid buf).markInsert ctx rid).log = s.log ++ recordLog ctx [(rid, buf)] := by
      rw [markInsert_eq, logInsert_eq]
    rw [hfile] at hf hall
    rw [hmarks, hlog] at hall
    rw [List.length_cons, hvac]
    refine ⟨f, by simp only [RmFile.insertRecords, hins, hf, bind, Except.bind], ?_⟩
    rw [List.zip_cons_cons, recordLog_cons, ← List.append_assoc]
    simp only [insertRecords, hone, hall, bind, Except.bind]

/-- The `MvccMap` is as it was exactly when the rows have the mark already. -/
theorem marked_eq_iff (rids : List Rid) : s.marked ctx rids = s.mvccMap ↔
    ∀ id, ctx.bind (·.txn) = some id → ∀ rid ∈ rids, s.mvccMap (s.slot rid) = some (insertMark id) := by
  rw [marked]
  cases ctx.bind (·.txn) with
  | none => simp
  | some id =>
    simp only [Option.some.injEq, forall_eq']
    constructor
    · intro h rid hrid
      rw [← congrFun h (s.slot rid), if_pos (List.mem_map_of_mem hrid)]
    · intro h
      funext x
      split
      · next hx =>
        obtain ⟨rid, hrid, rfl⟩ := List.mem_map.mp hx
        exact (h rid hrid).symm
      · rfl

/-- Both write the same log exactly when there is no log manager or a transaction, or no row. -/
theorem recordLog_eq_iff {rows : List (Rid × Bytes)} : recordLog ctx rows = batchLog ctx rows ↔
    rows = [] ∨ ∀ c, ctx = some c → c.logMgr = true → c.txn.isSome := by
  match ctx with
  | none => simp [recordLog, batchLog]
  | some ⟨false, txn, tab⟩ => simp [recordLog, batchLog]
  | some ⟨true, some id, tab⟩ => simp [recordLog, batchLog]
  | some ⟨true, none, tab⟩ => simp [recordLog, batchLog]

/-- Nothing tells a batch from insertions one by one: no record is inserted, or nobody logs or marks the rows, or the rows
    have the mark of the transaction already. -/
def Untold (s : RmFileHandle) (l : List Int) (ctx : Option Context) (k : Nat) : Prop :=
  k = 0 ∨ (∀ c, ctx = some c → c.logMgr = false ∧ c.txn = none) ∨
    ∃ c id, ctx = some c ∧ c.txn = some id ∧ ∀ rid ∈ s.file.vacancies l k, s.mvccMap (s.slot rid) = some (insertMark id)

theorem length_vacancies (H : Heap s.file l) (k : Nat) : (s.file.vacancies l k).length = k := by
  rw [vacancies, List.length_take, List.flatMap_append, List.length_append]
  have := H.length_fresh k
  omega

/-- For every table file with its free pages linked, every list of records and every context, `insert_records_batch` does what
    `insert_record` does for each record in order exactly when the log records and the marks make no difference. -/
theorem insertRecordsBatch_same_iff {s : RmFileHandle} {l : List Int} (H : Heap s.file l) (ctx : Option Context) (bufs : List Bytes) :
    s.insertRecordsBatch ctx bufs = s.insertRecords ctx bufs ↔ s.Untold l ctx bufs.length := by
  obtain ⟨f, hf, hall⟩ := @insertRecords_eq s l ctx H bufs
  have hbatch : s.insertRecordsBatch ctx bufs = .ok (⟨f, s.mvccMap,
      s.log ++ batchLog ctx ((s.file.vacancies l bufs.length).zip bufs)⟩, s.file.vacancies l bufs.length) := by
    rw [← H.insertRecordsBatch_eq] at hf
    simp only [insertRecordsBatch, hf, bind, Except.bind]
  have hrows : (s.file.vacancies l bufs.length).zip bufs = [] ↔ bufs.length = 0 := by
    rw [List.zip_eq_nil_iff, ← List.length_eq_zero_iff, length_vacancies H, List.length_eq_zero_iff, or_self]
  rw [hbatch, hall, Except.ok.injEq, Prod.mk.injEq, RmFileHandle.mk.injEq, List.append_cancel_left_eq, eq_comm (a := s.mvccMap),
    marked_eq_iff, eq_comm (a := batchLog _ _), recordLog_eq_iff, hrows, Untold]
  simp only [true_and, and_true]
  constructor
  · rintro ⟨hmarks, hzero | hlog⟩
    · exact Or.inl hzero
    · by_cases hzero : bufs.length = 0
      · exact Or.inl hzero
      right
      match ctx with
      | none => exact Or.inl fun c hc => by cases hc
      | some ⟨log, none, tab⟩ =>
        refine Or.inl fun c hc => ?_
        cases hc
        have := hlog _ rfl
        cases log with
        | false => exact ⟨rfl, rfl⟩
        | true => cases this rfl
      | some ⟨log, some id, tab⟩ => exact Or.inr ⟨_, id, rfl, rfl, hmarks id rfl⟩
  · rintro (hzero | hno | ⟨c, id, rfl, htxn, hmarked⟩)
    · refine ⟨fun id _ rid hrid => ?_, Or.inl hzero⟩
      rw [hzero, vacancies, List.take_zero] at hrid
      cases hrid
    · refine ⟨fun id hid => ?_, Or.inr fun c hc hlog => ?_⟩
      · obtain ⟨c, rfl, hc⟩ := Option.bind_eq_some_iff.mp hid
        rw [(hno c rfl).2] at hc
        cases hc
      · rw [(hno c hc).1] at hlog
        cases hlog
    · refine ⟨fun id' hid => ?_, Or.inr fun c' hc' _ => ?_⟩
      · rw [Option.bind_some, htxn] at hid
        cases hid
        exact hmarked
      · cases hc'
        rw [htxn]
        rfl

/-- A new table file. -/
def newHandle (recordSize : Nat) : RmFileHandle := ⟨RmFile.create recordSize, fun _ => none, []⟩

theorem insertRecordsBatch_same_iff_none : (newHandle 4).insertRecordsBatch none [[1, 2, 3, 4], [5, 6, 7, 8]] =
    (newHandle 4).insertRecords none [[1, 2, 3, 4], [5, 6, 7, 8]] :=
  (insertRecordsBatch_same_iff (s := newHandle 4) (Heap.create ⟨by decide, by decide⟩) none _).mpr (Or.inr (Or.inl fun _ h => (by cases h)))

/-- The batch leaves out the mark of the transaction. -/
theorem insertRecordsBatch_unmarked : ∃ s : RmFileHandle, (∃ l, Heap s.file l) ∧
    s.insertRecordsBatch (some ⟨true, some 1, "t"⟩) [[1, 2, 3, 4]] ≠ s.insertRecords (some ⟨true, some 1, "t"⟩) [[1, 2, 3, 4]] := by
  refine ⟨newHandle 4, ⟨[], Heap.create ⟨by decide, by decide⟩⟩, fun h => ?_⟩
  have hmarks := congrArg (fun r => r.toOption.map fun q => q.1.mvccMap ((newHandle 4).slot ⟨1, 0⟩)) h
  exact absurd hmarks (by decide)

end RmFileHandle
end Rmdb
