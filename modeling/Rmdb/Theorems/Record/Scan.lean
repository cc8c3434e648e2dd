import Rmdb.Record.Scan
import Rmdb.Theorems.Record.Pins
import Rmdb.Theorems.Record.Refinement

/-! `RmScan` visits the records of a file in the order of their positions. -/

namespace Rmdb
namespace RmFile
variable {f : RmFile} {p curr : Int} {rid r : Rid} {rest : List Rid} {n : Nat}

/-- The bit of the slot is set in the bitmap of its page. -/
def bitSet (f : RmFile) (rid : Rid) : Bool :=
  (f.pages rid.pageNo).any fun page => decide (rid.slotNo < f.perPage) && page.isSet rid.slotNo

/-- The first position comes before the second one. -/
def Before (a b : Rid) : Prop := a.pageNo < b.pageNo ∨ a.pageNo = b.pageNo ∧ a.slotNo < b.slotNo

/-- The set bits of a page behind a slot. -/
def pageRids (f : RmFile) (p curr : Int) : List Rid :=
  ((List.range f.perPage).filter fun (i : Nat) => curr < i && (f.pages p).any (·.isSet i)).map fun (i : Nat) => ⟨p, i⟩

/-- The set bits of `n` pages from `p` on, in the first one those behind a slot. -/
def pagesRids (f : RmFile) : Nat → Int → Int → List Rid
  | 0, _, _ => []
  | n + 1, p, curr => f.pageRids p curr ++ f.pagesRids n (p + 1) rmNoPage

/-- What is in front of a scan at a position. -/
def pending (f : RmFile) (rid : Rid) : List Rid := f.pagesRids (f.numPages - rid.pageNo).toNat rid.pageNo rid.slotNo

theorem mem_pageRids : rid ∈ f.pageRids p curr ↔ rid.pageNo = p ∧ curr < rid.slotNo ∧ 0 ≤ rid.slotNo ∧ f.bitSet rid = true := by
  obtain ⟨q, slot⟩ := rid
  simp only [pageRids, bitSet, List.mem_map, List.mem_filter, List.mem_range, Bool.and_eq_true, decide_eq_true_eq, Rid.mk.injEq]
  constructor
  · rintro ⟨i, ⟨hi, hcurr, hset⟩, rfl, rfl⟩
    refine ⟨rfl, hcurr, Int.natCast_nonneg i, ?_⟩
    rw [Option.any_eq_true] at hset ⊢
    obtain ⟨page, hpage, hbit⟩ := hset
    exact ⟨page, hpage, by rw [hbit, Bool.and_true]; exact decide_eq_true (by omega)⟩
  · rintro ⟨rfl, hcurr, hslot, hset⟩
    rw [Option.any_eq_true] at hset
    obtain ⟨page, hpage, hbit⟩ := hset
    rw [Bool.and_eq_true, decide_eq_true_eq] at hbit
    refine ⟨slot.toNat, ⟨by omega, by omega, ?_⟩, rfl, Int.toNat_of_nonneg hslot⟩
    rw [Int.toNat_of_nonneg hslot, Option.any_eq_true]
    exact ⟨page, hpage, hbit.2⟩

theorem pageRids_ascending : (f.pageRids p curr).Pairwise Before := by
  refine List.pairwise_map.mpr ((List.pairwise_lt_range.filter _).imp fun h => Or.inr ⟨rfl, ?_⟩)
  exact Int.ofNat_lt.mpr h

/-- The bits behind the first one that is set. -/
theorem filter_behind {l : List Nat} (hl : l.Pairwise (· < ·)) (test : Nat → Bool) {i : Nat} {is : List Nat}
    (h : (l.filter fun (j : Nat) => decide (curr < j) && test j) = i :: is) :
    is = l.filter fun (j : Nat) => decide ((i : Int) < j) && test j := by
  induction l with
  | nil => cases h
  | cons a l ih =>
    obtain ⟨ha, hl⟩ := List.pairwise_cons.mp hl
    rw [List.filter_cons] at h
    split at h
    · next hpass =>
      obtain ⟨rfl, rfl⟩ := List.cons.inj h
      rw [Bool.and_eq_true, decide_eq_true_eq] at hpass
      rw [List.filter_cons, if_neg (by simp)]
      refine List.filter_congr fun j hj => ?_
      have := ha j hj
      rw [decide_eq_true (by omega : curr < (j : Int)), decide_eq_true (by omega : (a : Int) < j)]
    · have hi : i ∈ l := (List.mem_filter.mp (h ▸ List.mem_cons_self ..)).1
      have := ha i hi
      rw [List.filter_cons, if_neg (by simp; omega)]
      exact ih hl h

theorem pageRids_behind (h : f.pageRids p curr = r :: rest) : rest = f.pageRids p r.slotNo := by
  obtain ⟨i, is, hfilter, rfl, rfl⟩ := List.map_eq_cons_iff.mp h
  rw [pageRids, ← filter_behind List.pairwise_lt_range _ hfilter]

/-- The pages from `p` on are there. -/
def Full (f : RmFile) (n : Nat) (p : Int) : Prop := ∀ i : Nat, i < n → (f.pages (p + i)).isSome ∧ 0 ≤ p + i ∧ p + i < f.numPages

theorem Full.succ (h : f.Full (n + 1) p) : f.Full n (p + 1) := by
  intro i hi
  have := h (i + 1) (by omega)
  rwa [show p + ((i + 1 : Nat) : Int) = p + 1 + i by omega] at this

theorem Full.fetch (h : f.Full (n + 1) p) : ∃ page, f.pages p = some page ∧ f.fetchPageHandle p = .ok page := by
  obtain ⟨hsome, hlow, hhigh⟩ := h 0 (by omega)
  rw [Int.natCast_zero, Int.add_zero] at hsome hlow hhigh
  obtain ⟨page, hpage⟩ := Option.isSome_iff_exists.mp hsome
  exact ⟨page, hpage, by rw [fetchPageHandle, if_neg (by omega), hpage]⟩

/-- The loop stops at the first bit in front of it, and behind the pages if there is none. -/
theorem scanLoop_eq (curr : Int) (h : f.Full n p) : ∃ slotNo, f.scanLoop n p curr = .ok ((f.pagesRids n p curr).headD ⟨rmNoPage, slotNo⟩) := by
  induction n generalizing p curr with
  | zero => exact ⟨curr, rfl⟩
  | succ n ih =>
    obtain ⟨page, hpage, hfetch⟩ := h.fetch
    rw [scanLoop, hfetch]
    show ∃ slotNo, (if page.nextBit f.perPage curr < f.perPage then _ else _) = _
    have hany : (fun i : Nat => decide (curr < i) && (f.pages p).any (·.isSet i)) = fun i : Nat => decide (curr < i) && page.isSet i := by
      rw [hpage]
      rfl
    have hhead : ((List.range f.perPage).filter fun i : Nat => decide (curr < i) && page.isSet i).head? =
        (List.range f.perPage).find? fun i : Nat => decide (curr < i) && page.isSet i := List.head?_filter
    rw [pagesRids, pageRids, hany, RmPage.nextBit]
    cases hfind : (List.range f.perPage).find? fun i : Nat => decide (curr < i) && page.isSet i with
    | none =>
      rw [hfind, List.head?_eq_none_iff] at hhead
      rw [hhead, Option.getD_none, if_neg (Nat.lt_irrefl _)]
      exact ih rmNoPage h.succ
    | some i =>
      rw [hfind] at hhead
      obtain ⟨is, his⟩ := List.head?_eq_some_iff.mp hhead
      have hi : i < f.perPage := List.mem_range.mp (List.mem_of_find?_eq_some hfind)
      rw [his, Option.getD_some, if_pos hi]
      exact ⟨0, rfl⟩

/-- Behind the first bit in front of a scan are the others. -/
theorem pagesRids_behind (h : f.pagesRids n p curr = r :: rest) (hn : n = (f.numPages - p).toNat) :
    p ≤ r.pageNo ∧ rest = f.pending r := by
  induction n generalizing p curr with
  | zero => cases h
  | succ n ih =>
    rw [pagesRids] at h
    rcases List.append_eq_cons_iff.mp h with ⟨-, hrest⟩ | ⟨first, hfirst, rfl⟩
    · obtain ⟨hle, htail⟩ := ih hrest (by omega)
      exact ⟨by omega, htail⟩
    · have hpage : r.pageNo = p := (mem_pageRids.mp (hfirst ▸ List.mem_cons_self ..)).1
      refine ⟨hpage.ge, ?_⟩
      rw [pending, hpage, ← hn, pagesRids, pageRids_behind hfirst]

theorem mem_pagesRids : rid ∈ f.pagesRids n p curr ↔ p ≤ rid.pageNo ∧ rid.pageNo < p + n ∧ 0 ≤ rid.slotNo ∧ f.bitSet rid = true ∧
    (rid.pageNo = p → curr < rid.slotNo) := by
  induction n generalizing p curr with
  | zero =>
    refine iff_of_false List.not_mem_nil ?_
    rintro ⟨h, h', -⟩
    omega
  | succ n ih =>
    rw [pagesRids, List.mem_append, mem_pageRids, ih]
    constructor
    · rintro (⟨rfl, hcurr, hslot, hset⟩ | ⟨hlow, hhigh, hslot, hset, -⟩)
      · exact ⟨Int.le_refl _, by omega, hslot, hset, fun _ => hcurr⟩
      · exact ⟨by omega, by omega, hslot, hset, fun heq => by omega⟩
    · rintro ⟨hlow, hhigh, hslot, hset, hcurr⟩
      by_cases hpage : rid.pageNo = p
      · exact Or.inl ⟨hpage, hcurr hpage, hslot, hset⟩
      · exact Or.inr ⟨by omega, by omega, hslot, hset, fun _ => Int.lt_of_lt_of_le (by decide) hslot⟩

theorem pagesRids_ascending : (f.pagesRids n p curr).Pairwise Before := by
  induction n generalizing p curr with
  | zero => exact .nil
  | succ n ih =>
    rw [pagesRids, List.pairwise_append]
    refine ⟨pageRids_ascending, ih, fun a ha b hb => Or.inl ?_⟩
    have ha := (mem_pageRids.mp ha).1
    have hb := (mem_pagesRids.mp hb).1
    omega

theorem HeapInv.full (H : HeapInv f) (hp : 1 ≤ p) : f.Full (f.numPages - p).toNat p := fun i hi =>
  ⟨(H.pages _).mpr ⟨by omega, by omega⟩, by omega, by omega⟩

/-- A scan goes through what is in front of it. -/
theorem HeapInv.scanNext (H : HeapInv f) (rid : Rid) (hp : 1 ≤ rid.pageNo) {fuel : Nat} (hfuel : (f.pending rid).length ≤ fuel) :
    ∃ next, f.scanNext rid = .ok next ∧ f.scanRids fuel next = .ok (f.pending rid) := by
  obtain ⟨slotNo, hnext⟩ := scanLoop_eq rid.slotNo (H.full hp)
  refine ⟨_, hnext, ?_⟩
  change f.scanRids fuel ((f.pending rid).headD ⟨rmNoPage, slotNo⟩) = _
  generalize hl : f.pending rid = l at hfuel ⊢
  clear hnext
  induction l generalizing rid fuel slotNo with
  | nil => cases fuel <;> rfl
  | cons r rest ih =>
    obtain ⟨hle, hrest⟩ := pagesRids_behind hl rfl
    have hr : 1 ≤ r.pageNo := Int.le_trans hp hle
    obtain ⟨slotNo', hnext⟩ := scanLoop_eq r.slotNo (H.full hr)
    cases fuel with
    | zero => cases hfuel
    | succ fuel =>
      have hnext' : f.scanNext r = .ok (rest.headD ⟨rmNoPage, slotNo'⟩) := hrest ▸ hnext
      have hin : r.pageNo ≠ rmNoPage := by
        rw [rmNoPage]
        omega
      rw [List.headD_cons, scanRids, if_neg hin, hnext']
      show (f.scanRids fuel (rest.headD ⟨rmNoPage, slotNo'⟩) >>= fun rest => .ok (r :: rest)) = _
      rw [ih r hr slotNo' hrest.symm (Nat.le_of_succ_le_succ hfuel)]
      rfl

/-- The scan of a file ends, and visits the slots whose bits are set in the order of their positions. -/
theorem rmScan_visits (H : HeapInv f) : ∃ rids, (∀ fuel, rids.length ≤ fuel → f.scan fuel = .ok rids) ∧ rids.Pairwise Before ∧
    ∀ rid, rid ∈ rids ↔ 0 ≤ rid.slotNo ∧ f.bitSet rid = true := by
  refine ⟨f.pending ⟨1, rmNoPage⟩, fun fuel hfuel => ?_, pagesRids_ascending, fun rid => ?_⟩
  · obtain ⟨next, hnext, hrids⟩ := H.scanNext ⟨1, rmNoPage⟩ (Int.le_refl 1) hfuel
    rw [RmFile.scan, RmFile.rmScan, hnext]
    exact hrids
  · rw [pending, mem_pagesRids]
    constructor
    · rintro ⟨-, -, hslot, hset, -⟩
      exact ⟨hslot, hset⟩
    · rintro ⟨hslot, hset⟩
      obtain ⟨page, hpage, -⟩ := (Option.any_eq_true ..).mp hset
      have := (H.pages rid.pageNo).mp (by rw [hpage]; rfl)
      exact ⟨this.1, by omega, hslot, hset, fun _ => Int.lt_of_lt_of_le (by decide) hslot⟩

/-- The file of the witness holds one record. -/
theorem rmScan_visits_one : ∃ f rid, (RmFile.create 4).insertRecord [1, 2, 3, 4] = .ok (f, rid) ∧
    ∃ rids, (∀ fuel, rids.length ≤ fuel → f.scan fuel = .ok rids) ∧ rids.Pairwise Before ∧
      ∀ rid, rid ∈ rids ↔ 0 ≤ rid.slotNo ∧ f.bitSet rid = true := by
  obtain ⟨f, rid, l, hins, H, -⟩ := (Heap.create (n := 4) ⟨by decide, by decide⟩).insertRecord [1, 2, 3, 4]
  exact ⟨f, rid, hins, rmScan_visits H.inv⟩

end RmFile

namespace RecordLayer
open Hoare RmFile
variable {T : Type} {tabs : Tables T} {t : T} {f : RmFile} {page : RmPage}

/-! ### The scan through the buffer pool -/

theorem triple_fetchFile {p : Int} (hpage : f.pages p = some page) : Triple (fun s => s.fhs t = f) (fetchPageHandle tabs t p)
    (fun a s => s.fhs t = f ∧ a = page) (fun _ _ => True) := by
  intro s hs
  by_cases hin : p < 0 ∨ (s.fhs t).numPages ≤ p
  · rw [after_fetch_out hin]
    exact ⟨fun a ha => (by cases ha), fun _ _ => trivial⟩
  obtain ⟨pool, r, hr⟩ : ∃ pool r, s.pool.fetchPage ⟨tabs.fd t, p⟩ = (pool, r) := ⟨_, _, rfl⟩
  obtain ⟨hstate, -, -⟩ := after_fetch (by omega) (by omega) hr
  have hres : ∀ a, (after (fetchPageHandle tabs t p) s).1 = .ok a → ((s.fhs t).pages p).getD ⟨0, rmNoPage, []⟩ = a := by
    have hdef : fetchPageHandle tabs t p = MonadState.get >>= fun s : RecordLayer T => ite _ _ _ := rfl
    rw [hdef]
    show ∀ a, (after (ite _ _ _) s).1 = _ → _
    rw [if_neg hin, hr]
    rcases r with e | (_ | fr)
    · exact fun a ha => (by cases ha)
    · exact fun a ha => (by cases ha)
    · exact fun a ha => Except.ok.inj ha
  refine ⟨fun a ha => ?_, fun _ _ => trivial⟩
  have ha' := hres a ha
  rw [hs, hpage] at ha'
  exact ⟨by rw [hstate]; exact hs, ha'.symm⟩

theorem triple_scanFile {n : Nat} {p slotNo : Int} (hfull : f.Full n p) : Triple (fun s => s.fhs t = f) (scanLoop tabs t n p slotNo)
    (fun rid s => s.fhs t = f ∧ f.scanLoop n p slotNo = .ok rid) (fun _ _ => True) := by
  induction n generalizing p slotNo with
  | zero => exact Triple.pure fun _ h => ⟨h, rfl⟩
  | succ n ih =>
    obtain ⟨page, hpage, hfetch⟩ := hfull.fetch
    refine (triple_fetchFile hpage).bind fun a => Triple.get fun s hs => ?_
    obtain ⟨hs, rfl⟩ := hs
    have hunpin : Triple (fun s' => s' = s) (unpinPage tabs t p false) (fun _ s => s.fhs t = f) (fun _ _ => True) :=
      Triple.modify fun _ h => by rw [h]; exact hs
    refine Triple.ite (fun hlt => ?_) fun hge => ?_
    · refine hunpin.bind fun _ => Triple.pure fun s' hs' => ⟨hs', ?_⟩
      rw [hs] at hlt ⊢
      rw [RmFile.scanLoop, hfetch]
      exact if_pos hlt
    · refine hunpin.bind fun _ => (ih hfull.succ).imp_post fun rid s' h => ⟨h.1, ?_⟩
      rw [hs] at hge
      rw [RmFile.scanLoop, hfetch]
      exact (if_neg hge).trans h.2

/-- What a scan through the pool returns is what the scan of the file does. -/
theorem triple_scanNext_file (H : HeapInv f) {rid : Rid} (hp : 1 ≤ rid.pageNo) : Triple (fun s => s.fhs t = f) (scanNext tabs t rid)
    (fun next s => s.fhs t = f ∧ f.scanNext rid = .ok next) (fun _ _ => True) := by
  refine Triple.get fun s hs => ?_
  rw [hs]
  exact (triple_scanFile (H.full hp)).at_state hs

end RecordLayer
end Rmdb
