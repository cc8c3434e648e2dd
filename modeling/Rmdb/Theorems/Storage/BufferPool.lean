import Rmdb.Storage.BufferPool
import Rmdb.Lib.Runs
import Mathlib.Data.Int.Order.Basic

/-! The frames of the buffer pool.

A frame is free, evictable or pinned. An operation that returns changes the state of at most one frame; `Good` holds what
the operations need besides the claim on the frames. -/

namespace Rmdb

/-! ### The replacer -/

namespace ClockReplacer
variable {r r' : ClockReplacer} {fr i : Nat} {o : Option Nat}

/-- What `victim` does to the frames in the replacer. -/
structure Victim (r r' : ClockReplacer) (o : Option Nat) : Prop where
  size : r'.size = r.size
  frames : ∀ i, (r'.frames i).inReplacer = if o = some i then false else (r.frames i).inReplacer
  found : ∀ fr, o = some fr → (r.frames fr).inReplacer = true

theorem victimLoop_spec (scans : Nat) (r : ClockReplacer) : Victim r (victimLoop scans r).1 (victimLoop scans r).2 := by
  induction scans generalizing r with
  | zero => exact ⟨rfl, fun i => by simp [victimLoop], fun fr h => by cases h⟩
  | succ scans ih =>
    rw [victimLoop]
    by_cases hin : (r.frames r.clockHand).inReplacer = true
    · by_cases href : (r.frames r.clockHand).ref = true
      · simp only [hin, href, if_true]
        have V := ih { r.setFrame r.clockHand ⟨true, false⟩ with clockHand := (r.clockHand + 1) % r.size }
        have hsame : ∀ i, ((r.setFrame r.clockHand ⟨true, false⟩).frames i).inReplacer = (r.frames i).inReplacer := by
          intro i
          simp only [setFrame]
          split
          · next h => rw [h, hin]
          · rfl
        refine ⟨V.size, fun i => ?_, fun fr h => ?_⟩
        · rw [V.frames i, hsame i]
        · rw [← hsame fr]
          exact V.found fr h
      · simp only [hin, href, if_true]
        refine ⟨rfl, fun i => ?_, fun fr h => ?_⟩
        · by_cases hi : i = r.clockHand
          · simp [setFrame, hi]
          · simp [setFrame, hi, Ne.symm hi]
        · cases h
          exact hin
    · simp only [if_neg hin]
      have V := ih { r with clockHand := (r.clockHand + 1) % r.size }
      exact ⟨V.size, V.frames, V.found⟩

theorem victim_spec (r : ClockReplacer) : Victim r r.victim.1 r.victim.2 := by
  rw [victim]
  split
  · exact ⟨rfl, fun i => by simp, fun fr h => by cases h⟩
  · exact victimLoop_spec _ r

theorem pin_size : (r.pin fr).size = r.size := by
  rw [pin]
  split
  · rfl
  · split <;> rfl

theorem unpin_size : (r.unpin fr).size = r.size := by
  rw [unpin]
  split
  · rfl
  · split <;> rfl

theorem pin_frames (h : fr < r.size) : ((r.pin fr).frames i).inReplacer = if i = fr then false else (r.frames i).inReplacer := by
  rw [pin, if_neg (Nat.not_le.mpr h)]
  by_cases hin : (r.frames fr).inReplacer = true
  · rw [if_pos hin]
    simp only [setFrame]
    split <;> rfl
  · rw [if_neg hin]
    split
    · next hi => rw [hi, Bool.eq_false_iff.mpr hin]
    · rfl

theorem unpin_frames (h : fr < r.size) : ((r.unpin fr).frames i).inReplacer = if i = fr then true else (r.frames i).inReplacer := by
  rw [unpin, if_neg (Nat.not_le.mpr h)]
  split
  · simp only [setFrame]
    split <;> rfl
  · simp only [setFrame]
    split <;> rfl

end ClockReplacer

/-! ### The states of a frame -/

namespace BufferPool

def InTable (s : BufferPool) (fr : Nat) : Prop := ∃ id, s.pageTable id = some fr

def InReplacer (s : BufferPool) (fr : Nat) : Prop := (s.replacer.frames fr).inReplacer = true

/-- In `free_list_` and not in `page_table_`. -/
def Free (s : BufferPool) (fr : Nat) : Prop := fr ∈ s.freeList ∧ ¬s.InTable fr

/-- Evictable in the replacer, with `pin_count` 0 and in `page_table_`. -/
def Evictable (s : BufferPool) (fr : Nat) : Prop := s.InReplacer fr ∧ (s.pages fr).pinCount = 0 ∧ s.InTable fr

/-- Pinned and in `page_table_`, but not evictable. -/
def Pinned (s : BufferPool) (fr : Nat) : Prop := 0 < (s.pages fr).pinCount ∧ s.InTable fr ∧ ¬s.InReplacer fr

/-- A frame is in exactly one of the three states: neither in the replacer while it is free, nor in the free list while it
    is evictable or pinned. -/
def OneState (s : BufferPool) (fr : Nat) : Prop :=
  (s.Free fr ∧ ¬s.InReplacer fr) ∨ (s.Evictable fr ∧ fr ∉ s.freeList) ∨ (s.Pinned fr ∧ fr ∉ s.freeList)

/-- The representation invariant of the pool. -/
structure Inv (s : BufferPool) : Prop where
  injective : ∀ id id' fr, s.pageTable id = some fr → s.pageTable id' = some fr → id = id'
  table : ∀ id fr, s.pageTable id = some fr → fr < s.poolSize ∧ (s.pages fr).id = id
  frames : ∀ fr, fr < s.poolSize → s.OneState fr
  nodup : s.freeList.Nodup

/-- The invariant, with what the operations need to keep it: a free frame holds no page, and every page has a number. -/
structure Good (s : BufferPool) : Prop extends Inv s where
  free : ∀ fr ∈ s.freeList, fr < s.poolSize ∧ (s.pages fr).pinCount = 0 ∧ (s.pages fr).id.pageNo = invalidPageId
  named : ∀ id fr, s.pageTable id = some fr → 0 ≤ id.pageNo
  size : s.replacer.size = s.poolSize
  evictable : ∀ fr, s.InReplacer fr → fr < s.poolSize

theorem Good.create (poolSize : Nat) (fds : Nat → Int) (disk : Disk) : Good (create poolSize fds disk) where
  injective := fun id id' fr h => by cases h
  table := fun id fr h => by cases h
  frames := fun fr h => Or.inl ⟨⟨List.mem_range.mpr h, by rintro ⟨id, hid⟩; cases hid⟩, by simp [InReplacer, BufferPool.create, ClockReplacer.create]⟩
  nodup := List.nodup_range
  free := fun fr h => ⟨List.mem_range.mp h, rfl, rfl⟩
  named := fun id fr h => by cases h
  size := rfl
  evictable := fun fr h => by cases h

section
variable {s t : BufferPool} {fr : Nat} {id : PageId}

theorem Good.notMem_of_table (h : Good s) (ht : s.pageTable id = some fr) : fr ∉ s.freeList := by
  rcases h.frames fr (h.table id fr ht).1 with ⟨⟨-, hnot⟩, -⟩ | ⟨-, hnot⟩ | ⟨-, hnot⟩
  · exact absurd ⟨id, ht⟩ hnot
  · exact hnot
  · exact hnot

/-- Nothing that the invariant reads changes. -/
structure Same (s t : BufferPool) : Prop where
  poolSize : t.poolSize = s.poolSize
  rsize : t.replacer.size = s.replacer.size
  id : ∀ i, (t.pages i).id = (s.pages i).id
  pinCount : ∀ i, (t.pages i).pinCount = (s.pages i).pinCount
  pageTable : t.pageTable = s.pageTable
  freeList : t.freeList = s.freeList
  replacer : ∀ i, (t.replacer.frames i).inReplacer = (s.replacer.frames i).inReplacer

theorem Same.trans {u : BufferPool} (h : Same s t) (h' : Same t u) : Same s u where
  poolSize := h'.poolSize.trans h.poolSize
  rsize := h'.rsize.trans h.rsize
  id := fun i => (h'.id i).trans (h.id i)
  pinCount := fun i => (h'.pinCount i).trans (h.pinCount i)
  pageTable := h'.pageTable.trans h.pageTable
  freeList := h'.freeList.trans h.freeList
  replacer := fun i => (h'.replacer i).trans (h.replacer i)

theorem Good.of_same (h : Good s) (k : Same s t) : Good t := by
  have hin : ∀ i, t.InReplacer i ↔ s.InReplacer i := fun i => by rw [InReplacer, InReplacer, k.replacer i]
  have htab : ∀ i, t.InTable i ↔ s.InTable i := fun i => by rw [InTable, InTable, k.pageTable]
  exact {
    injective := by rw [k.pageTable]; exact h.injective
    table := fun id fr ht => by
      rw [k.pageTable] at ht
      rw [k.poolSize, k.id fr]
      exact h.table id fr ht
    frames := fun fr hfr => by
      rw [k.poolSize] at hfr
      simp only [OneState, Free, Evictable, Pinned, hin, htab, k.freeList, k.pinCount]
      exact h.frames fr hfr
    nodup := k.freeList ▸ h.nodup
    free := fun fr hfr => by
      rw [k.freeList] at hfr
      rw [k.poolSize, k.pinCount fr, k.id fr]
      exact h.free fr hfr
    named := by rw [k.pageTable]; exact h.named
    size := by rw [k.rsize, k.poolSize, h.size]
    evictable := fun fr hfr => by
      rw [k.poolSize]
      exact h.evictable fr ((hin fr).mp hfr) }

/-! ### Operations -/

/-- A frame that was free or evictable is given to a page and pinned. -/
structure Loads (s : BufferPool) (fr : Nat) (id : PageId) (t : BufferPool) : Prop where
  poolSize : t.poolSize = s.poolSize
  rsize : t.replacer.size = s.replacer.size
  other : ∀ i, i ≠ fr → t.pages i = s.pages i
  pageId : (t.pages fr).id = id
  pinned : 0 < (t.pages fr).pinCount
  table : ∀ q, t.pageTable q = if q = id then some fr else if q = (s.pages fr).id then none else s.pageTable q
  freeList : t.freeList = s.freeList.erase fr
  replacer : ∀ i, (t.replacer.frames i).inReplacer = if i = fr then false else (s.replacer.frames i).inReplacer

/-- The frames that `find_victim_page` may give out. -/
def Available (s : BufferPool) (fr : Nat) : Prop := fr ∈ s.freeList ∨ s.InReplacer fr

/-- The page that a frame to be given out held before. -/
theorem Good.old_page (h : Good s) (hav : s.Available fr) {id' : PageId} {g : Nat} (hg : s.pageTable id' = some g) :
    g = fr ↔ id' = (s.pages fr).id := by
  have hid := (h.table id' g hg).2
  constructor
  · rintro rfl
    exact hid.symm
  · rintro rfl
    rcases hav with hfree | hin
    · -- a free frame holds no page with a number
      have := h.named _ g hg
      rw [(h.free fr hfree).2.2] at this
      exact absurd this (by decide)
    · rcases h.frames fr (h.evictable fr hin) with ⟨-, hnot⟩ | ⟨⟨-, -, id'', hid''⟩, -⟩ | ⟨⟨-, -, hnot⟩, -⟩
      · exact absurd hin hnot
      · rw [(h.table id'' fr hid'').2, hid''] at hg
        exact (Option.some.inj hg).symm
      · exact absurd hin hnot

/-- A page that is loaded has its entry, and the entries of the other frames stay. -/
theorem Good.load_table (h : Good s) (hav : s.Available fr) (k : Loads s fr id t) (hnew : ∀ g, s.pageTable id = some g → g = fr)
    (q : PageId) (g : Nat) : t.pageTable q = some g ↔ (q = id ∧ g = fr) ∨ (g ≠ fr ∧ s.pageTable q = some g) := by
  rw [k.table q]
  by_cases hq : q = id
  · subst hq
    simp only [if_true, Option.some.injEq, true_and]
    refine ⟨fun heq => Or.inl heq.symm, ?_⟩
    rintro (heq | ⟨hne, hg⟩)
    · exact heq.symm
    · exact absurd (hnew g hg) hne
  · rw [if_neg hq]
    by_cases hold : q = (s.pages fr).id
    · rw [if_pos hold]
      refine ⟨fun heq => absurd heq (by simp), ?_⟩
      rintro (⟨heq, -⟩ | ⟨hne, hg⟩)
      · exact absurd heq hq
      · exact absurd ((h.old_page hav hg).mpr hold) hne
    · rw [if_neg hold]
      refine ⟨fun hg => Or.inr ⟨fun heq => hold ((h.old_page hav hg).mp heq), hg⟩, ?_⟩
      rintro (⟨heq, -⟩ | ⟨-, hg⟩)
      · exact absurd heq hq
      · exact hg

/-- A page that is not in the pool, or only in the frame itself, is loaded. -/
theorem Good.load (h : Good s) (hav : s.Available fr) (k : Loads s fr id t) (hid : 0 ≤ id.pageNo)
    (hnew : ∀ g, s.pageTable id = some g → g = fr) : Good t := by
  have hlt : fr < s.poolSize := by
    rcases hav with hfree | hin
    · exact (h.free fr hfree).1
    · exact h.evictable fr hin
  have htab := h.load_table hav k hnew
  have hin : ∀ i, i ≠ fr → (t.InReplacer i ↔ s.InReplacer i) := fun i hi => by
    rw [InReplacer, InReplacer, k.replacer i, if_neg hi]
  have hint : ∀ i, i ≠ fr → (t.InTable i ↔ s.InTable i) := fun i hi => by
    simp only [InTable, htab]
    refine exists_congr fun q => ⟨?_, fun hg => Or.inr ⟨hi, hg⟩⟩
    rintro (⟨-, heq⟩ | ⟨-, hg⟩)
    · exact absurd heq hi
    · exact hg
  have hmem : ∀ i, i ∈ t.freeList ↔ i ≠ fr ∧ i ∈ s.freeList := fun i => by rw [k.freeList, h.nodup.mem_erase_iff]
  have hpage : ∀ q g, t.pageTable q = some g → g < t.poolSize ∧ (t.pages g).id = q := by
    intro q g hg
    rw [k.poolSize]
    rcases (htab q g).mp hg with ⟨rfl, rfl⟩ | ⟨hne, hg⟩
    · exact ⟨hlt, k.pageId⟩
    · rw [k.other g hne]
      exact h.table q g hg
  exact {
    injective := fun q q' g hq hq' => (hpage q g hq).2.symm.trans (hpage q' g hq').2
    table := hpage
    frames := fun i hi => by
      by_cases hifr : i = fr
      · subst hifr
        refine Or.inr (Or.inr ⟨⟨k.pinned, ⟨id, (htab id i).mpr (Or.inl ⟨rfl, rfl⟩)⟩, ?_⟩, fun hf => ((hmem i).mp hf).1 rfl⟩)
        rw [InReplacer, k.replacer i, if_pos rfl]
        exact Bool.false_ne_true
      · rw [k.poolSize] at hi
        simp only [OneState, Free, Evictable, Pinned, hin i hifr, hint i hifr, hmem, k.other i hifr, ne_eq, hifr,
          not_false_eq_true, true_and]
        exact h.frames i hi
    nodup := by
      rw [k.freeList]
      exact h.nodup.erase fr
    free := fun i hi => by
      obtain ⟨hne, hi⟩ := (hmem i).mp hi
      rw [k.poolSize, k.other i hne]
      exact h.free i hi
    named := fun q g hg => by
      rcases (htab q g).mp hg with ⟨rfl, -⟩ | ⟨-, hg⟩
      · exact hid
      · exact h.named q g hg
    size := by rw [k.rsize, k.poolSize, h.size]
    evictable := fun i hi => by
      rw [k.poolSize]
      by_cases hifr : i = fr
      · exact hifr ▸ hlt
      · exact h.evictable i ((hin i hifr).mp hi) }

/-- A page that is in the pool in another frame already is loaded a second time: the frame is in no state. -/
theorem Good.load_twice (h : Good s) (k : Loads s fr id t) {g : Nat} (hg : s.pageTable id = some g) (hne : g ≠ fr) : ¬Inv t := by
  intro hinv
  have hnot : ¬t.InTable g := by
    rintro ⟨q, hq⟩
    rw [k.table q] at hq
    split at hq
    · exact hne (Option.some.inj hq).symm
    · next hqid =>
      split at hq
      · cases hq
      · exact hqid (((h.table q g hq).2.symm.trans (h.table id g hg).2))
  have hlt : g < t.poolSize := k.poolSize ▸ (h.table id g hg).1
  rcases hinv.frames g hlt with ⟨⟨hfree, -⟩, -⟩ | ⟨⟨-, -, hin⟩, -⟩ | ⟨⟨-, hin, -⟩, -⟩
  · rw [k.freeList] at hfree
    exact h.notMem_of_table hg (List.mem_of_mem_erase hfree)
  · exact hnot hin
  · exact hnot hin

/-- The pin count of a page in the pool changes. -/
structure Repins (s : BufferPool) (fr : Nat) (t : BufferPool) : Prop where
  poolSize : t.poolSize = s.poolSize
  rsize : t.replacer.size = s.replacer.size
  other : ∀ i, i ≠ fr → (t.pages i).pinCount = (s.pages i).pinCount
  id : ∀ i, (t.pages i).id = (s.pages i).id
  pageTable : t.pageTable = s.pageTable
  freeList : t.freeList = s.freeList
  replacer : ∀ i, i ≠ fr → (t.replacer.frames i).inReplacer = (s.replacer.frames i).inReplacer
  count : (t.InReplacer fr ∧ (t.pages fr).pinCount = 0) ∨ (0 < (t.pages fr).pinCount ∧ ¬t.InReplacer fr)

theorem Good.repin (h : Good s) (hfr : s.pageTable id = some fr) (k : Repins s fr t) : Good t := by
  have hin : ∀ i, i ≠ fr → (t.InReplacer i ↔ s.InReplacer i) := fun i hi => by rw [InReplacer, InReplacer, k.replacer i hi]
  have htab : ∀ i, t.InTable i ↔ s.InTable i := fun i => by rw [InTable, InTable, k.pageTable]
  have hnot := h.notMem_of_table hfr
  exact {
    injective := by rw [k.pageTable]; exact h.injective
    table := fun q g hg => by
      rw [k.pageTable] at hg
      rw [k.poolSize, k.id g]
      exact h.table q g hg
    frames := fun i hi => by
      by_cases hifr : i = fr
      · subst hifr
        have hin : t.InTable i := (htab i).mpr ⟨id, hfr⟩
        rw [← k.freeList] at hnot
        rcases k.count with ⟨hrep, hzero⟩ | ⟨hpos, hrep⟩
        · exact Or.inr (Or.inl ⟨⟨hrep, hzero, hin⟩, hnot⟩)
        · exact Or.inr (Or.inr ⟨⟨hpos, hin, hrep⟩, hnot⟩)
      · rw [k.poolSize] at hi
        simp only [OneState, Free, Evictable, Pinned, hin i hifr, htab, k.freeList, k.other i hifr]
        exact h.frames i hi
    nodup := k.freeList ▸ h.nodup
    free := fun i hi => by
      rw [k.freeList] at hi
      have hne : i ≠ fr := fun heq => hnot (heq ▸ hi)
      rw [k.poolSize, k.other i hne, k.id i]
      exact h.free i hi
    named := by rw [k.pageTable]; exact h.named
    size := by rw [k.rsize, k.poolSize, h.size]
    evictable := fun i hi => by
      rw [k.poolSize]
      by_cases hifr : i = fr
      · exact hifr ▸ (h.table id fr hfr).1
      · exact h.evictable i ((hin i hifr).mp hi) }

theorem findVictimPage_nil (h : s.freeList = []) :
    s.findVictimPage = ({ s with replacer := s.replacer.victim.1 }, s.replacer.victim.2) := by
  simp only [findVictimPage, h]

theorem findVictimPage_cons {rest : List Nat} (h : s.freeList = fr :: rest) :
    s.findVictimPage = ({ s with freeList := rest }, some fr) := by
  simp only [findVictimPage, h]

/-- The frame that `find_victim_page` gives out, and what it changes. -/
theorem findVictimPage_spec (s : BufferPool) :
    (∃ t, s.findVictimPage = (t, none) ∧ Same s t) ∨
      ∃ r fr, s.findVictimPage = ({ s with freeList := s.freeList.erase fr, replacer := r }, some fr) ∧ s.Available fr ∧
        r.size = s.replacer.size ∧
        ∀ i, i ≠ fr → (r.frames i).inReplacer = (s.replacer.frames i).inReplacer := by
  cases hfree : s.freeList with
  | cons fr rest =>
    refine Or.inr ⟨s.replacer, fr, ?_, Or.inl (hfree ▸ List.mem_cons_self), rfl, fun _ _ => rfl⟩
    rw [findVictimPage_cons hfree, List.erase_cons_head]
  | nil =>
    have V := s.replacer.victim_spec
    rw [findVictimPage_nil hfree]
    cases ho : s.replacer.victim.2 with
    | none =>
      rw [ho] at V
      refine Or.inl ⟨_, rfl, rfl, V.size, fun _ => rfl, fun _ => rfl, rfl, rfl, fun i => ?_⟩
      rw [V.frames i, if_neg (by simp)]
    | some fr =>
      rw [ho] at V
      refine Or.inr ⟨s.replacer.victim.1, fr, ?_, Or.inr (V.found fr rfl), V.size, fun i hi => ?_⟩
      · rw [List.erase_nil, ← hfree]
      · rw [V.frames i, if_neg fun h => hi (Option.some.inj h).symm]

theorem updatePage_spec (h : s.updatePage fr id = .ok t) :
    ∃ disk dirty, t = { s with
      disk := disk
      pageTable := fun q => if q = id then some fr else if q = (s.pages fr).id then none else s.pageTable q
      pages := fun i => if i = fr then { s.pages fr with id := id, data := zeroPage, isDirty := dirty } else s.pages i } := by
  obtain ⟨disk, -, ht⟩ := Runs.ok_of_bind h
  cases ht
  exact ⟨disk, _, rfl⟩

theorem Good.available_lt (h : Good s) (hav : s.Available fr) : fr < s.poolSize := by
  rcases hav with hfree | hin
  · exact (h.free fr hfree).1
  · exact h.evictable fr hin

theorem Good.pinCount_victim (h : Good s) (hav : s.Available fr) : (s.pages fr).pinCount = 0 := by
  rcases hav with hfree | hin
  · exact (h.free fr hfree).2.1
  · rcases h.frames fr (h.evictable fr hin) with ⟨-, hnot⟩ | ⟨⟨-, hzero, -⟩, -⟩ | ⟨⟨-, -, hnot⟩, -⟩
    · exact absurd hin hnot
    · exact hzero
    · exact absurd hin hnot

/-- The replacer after the victim is pinned. -/
theorem Good.pin_victim (h : Good s) {r : ClockReplacer} (hsize : r.size = s.replacer.size) (hav : s.Available fr)
    (hrep : ∀ i, i ≠ fr → (r.frames i).inReplacer = (s.replacer.frames i).inReplacer) (i : Nat) :
    ((r.pin fr).frames i).inReplacer = if i = fr then false else (s.replacer.frames i).inReplacer := by
  have hlt : fr < r.size := by
    rw [hsize, h.size]
    exact h.available_lt hav
  rw [ClockReplacer.pin_frames hlt]
  split
  · rfl
  · next hi => exact hrep i hi

/-- A frame that is given out, and then holds page `id`. -/
theorem Good.loads (h : Good s) {r : ClockReplacer} (hsize : r.size = s.replacer.size) (hav : s.Available fr)
    (hrep : ∀ i, i ≠ fr → (r.frames i).inReplacer = (s.replacer.frames i).inReplacer) {id : PageId} (disk : Disk) {pages : Nat → Page}
    (hother : ∀ i, i ≠ fr → pages i = s.pages i) {page : Page} (hid : page.id = id) (hpin : 0 < page.pinCount) :
    Loads s fr id ({ s with
      freeList := s.freeList.erase fr
      replacer := r.pin fr
      disk := disk
      pageTable := fun q => if q = id then some fr else if q = (s.pages fr).id then none else s.pageTable q
      pages := pages }.setPage fr page) where
  poolSize := rfl
  rsize := ClockReplacer.pin_size.trans hsize
  other i hi := by
    simp only [setPage, if_neg hi]
    exact hother i hi
  pageId := by
    simp only [setPage, if_pos]
    exact hid
  pinned := by
    simp only [setPage, if_pos]
    exact hpin
  table _ := rfl
  freeList := rfl
  replacer := h.pin_victim hsize hav hrep

theorem readPage_ok {d : Disk} {data : Bytes} (h : d.readPage id = .ok data) : 0 ≤ id.pageNo := by
  by_contra hneg
  rw [Disk.readPage, if_pos (by omega)] at h
  cases h

theorem Good.fetchPage (h : Good s) {o : Option Nat} (hok : (s.fetchPage id).2 = .ok o) : Good (s.fetchPage id).1 := by
  cases hp : s.pageTable id with
  | some fr =>
    have hlt : fr < s.replacer.size := h.size ▸ (h.table id fr hp).1
    have hcount : 0 ≤ (s.pages fr).pinCount := by
      rcases h.frames fr (h.table id fr hp).1 with ⟨⟨-, hnot⟩, -⟩ | ⟨⟨-, hzero, -⟩, -⟩ | ⟨⟨hpos, -⟩, -⟩
      · exact absurd ⟨id, hp⟩ hnot
      · exact hzero.ge
      · exact hpos.le
    simp only [BufferPool.fetchPage, hp]
    exact h.repin hp {
      poolSize := rfl
      rsize := ClockReplacer.pin_size
      other := fun i hi => by simp only [setPage, if_neg hi]
      id := fun i => by
        simp only [setPage]
        split
        · next hi => rw [hi]
        · rfl
      pageTable := rfl
      freeList := rfl
      replacer := fun i hi => (ClockReplacer.pin_frames hlt).trans (if_neg hi)
      count := by
        right
        refine ⟨?_, ?_⟩
        · simp only [setPage, if_pos]
          omega
        · simp only [InReplacer, setPage, ClockReplacer.pin_frames hlt, if_pos]
          exact Bool.false_ne_true }
  | none =>
    rcases findVictimPage_spec s with ⟨t, heq, hsame⟩ | ⟨r, fr, heq, hav, hsize, hrep⟩
    · simp only [BufferPool.fetchPage, hp, heq]
      exact h.of_same hsame
    · simp only [BufferPool.fetchPage, hp, heq] at hok ⊢
      split at hok
      · cases hok
      · next u hu =>
        obtain ⟨disk, dirty, rfl⟩ := updatePage_spec hu
        split at hok
        · cases hok
        · next data hread =>
          have hload : Loads s fr id ({ s with
              freeList := s.freeList.erase fr
              replacer := r.pin fr
              disk := disk
              pageTable := fun q => if q = id then some fr else if q = (s.pages fr).id then none else s.pageTable q
              pages := fun i => if i = fr then { s.pages fr with id := id, data := zeroPage, isDirty := dirty } else s.pages i
              }.setPage fr ⟨id, data, dirty, (s.pages fr).pinCount + 1⟩) :=
            h.loads hsize hav hrep disk (fun i hi => if_neg hi) rfl (by simp only [h.pinCount_victim hav]; exact Int.one_pos)
          simp only [if_true]
          exact h.load hav hload (readPage_ok hread) fun g hg => absurd (hp.symm.trans hg) (by simp)

theorem Good.unpinPage (h : Good s) (isDirty : Bool) : Good (s.unpinPage id isDirty).1 := by
  cases hp : s.pageTable id with
  | none =>
    simp only [BufferPool.unpinPage, hp]
    exact h
  | some fr =>
    by_cases hzero : (s.pages fr).pinCount = 0
    · simp only [BufferPool.unpinPage, hp, if_pos hzero]
      exact h
    · have hlt : fr < s.replacer.size := h.size ▸ (h.table id fr hp).1
      obtain ⟨hpos, hnot⟩ : 0 < (s.pages fr).pinCount ∧ ¬s.InReplacer fr := by
        rcases h.frames fr (h.table id fr hp).1 with ⟨⟨-, hnot⟩, -⟩ | ⟨⟨-, h0, -⟩, -⟩ | ⟨⟨hpos, -, hrep⟩, -⟩
        · exact absurd ⟨id, hp⟩ hnot
        · exact absurd h0 hzero
        · exact ⟨hpos, hrep⟩
      simp only [BufferPool.unpinPage, hp, if_neg hzero]
      exact h.repin hp {
        poolSize := rfl
        rsize := by
          simp only [setPage]
          split
          · exact ClockReplacer.unpin_size
          · rfl
        other := fun i hi => by simp only [setPage, if_neg hi]
        id := fun i => by
          simp only [setPage]
          split
          · next hi => rw [hi]
          · rfl
        pageTable := rfl
        freeList := rfl
        replacer := fun i hi => by
          simp only [setPage]
          split
          · exact (ClockReplacer.unpin_frames hlt).trans (if_neg hi)
          · rfl
        count := by
          by_cases hone : (s.pages fr).pinCount - 1 = 0
          · left
            simp [InReplacer, setPage, hone, ClockReplacer.unpin_frames hlt]
          · right
            simp only [InReplacer, setPage, if_pos, if_neg hone]
            exact ⟨by omega, hnot⟩ }

theorem Same.clean (s : BufferPool) (disk : Disk) (fr : Nat) :
    Same s ({ s with disk := disk }.setPage fr { s.pages fr with isDirty := false }) where
  poolSize := rfl
  rsize := rfl
  id := fun i => by
    simp only [setPage]
    split
    · next hi => rw [hi]
    · rfl
  pinCount := fun i => by
    simp only [setPage]
    split
    · next hi => rw [hi]
    · rfl
  pageTable := rfl
  freeList := rfl
  replacer := fun i => rfl

theorem Same.refl (s : BufferPool) : Same s s := ⟨rfl, rfl, fun _ => rfl, fun _ => rfl, rfl, rfl, fun _ => rfl⟩

theorem same_flushPage (s : BufferPool) (id : PageId) : Same s (s.flushPage id).1 := by
  rw [flushPage]
  split
  · exact Same.refl s
  · split
    · exact Same.refl s
    · split
      · exact Same.refl s
      · exact Same.clean s _ _

theorem same_flushFrames (fd : Int) (frs : List Nat) (s : BufferPool) : Same s (flushFrames fd frs s).1 := by
  induction frs generalizing s with
  | nil => exact Same.refl s
  | cons fr frs ih =>
    simp only [flushFrames]
    split
    · split
      · exact Same.refl s
      · exact (Same.clean s _ fr).trans (ih _)
    · exact ih s

/-- `new_page` gives the page that the disk manager allocates to a victim. -/
theorem Good.newPage (h : Good s) {fd : Int} {o : Option (PageId × Nat)} (hok : (s.newPage fd).2 = .ok o) :
    (s.findVictimPage.2 = none ∧ Same s (s.newPage fd).1) ∨
      ∃ fr, s.findVictimPage.2 = some fr ∧ s.Available fr ∧ Loads s fr ⟨fd, s.disk.fd2pageno fd⟩ (s.newPage fd).1 := by
  rcases findVictimPage_spec s with ⟨t, heq, hsame⟩ | ⟨r, fr, heq, hav, hsize, hrep⟩
  · left
    simp only [BufferPool.newPage, heq]
    exact ⟨trivial, hsame⟩
  · right
    refine ⟨fr, by rw [heq], hav, ?_⟩
    simp only [BufferPool.newPage, heq, Disk.allocatePage] at hok ⊢
    split at hok
    · cases hok
    · next u hu =>
      obtain ⟨disk, dirty, rfl⟩ := updatePage_spec hu
      exact h.loads hsize hav hrep disk (fun i hi => if_neg hi) (by simp only [if_pos]) Int.one_pos

/-- `delete_page` of a page in the pool that nobody has pinned leaves its frame free and in the page table. -/
theorem Good.deletePage (h : Good s) {b : Bool} (hok : (s.deletePage id).2 = .ok b) :
    (s.deletePage id).1 = s ∧ (∀ fr, s.pageTable id = some fr → (s.pages fr).pinCount ≠ 0) ∨
      ∃ fr, s.pageTable id = some fr ∧ (s.pages fr).pinCount = 0 ∧ ¬Inv (s.deletePage id).1 := by
  cases hp : s.pageTable id with
  | none =>
    left
    simp only [BufferPool.deletePage, hp]
    exact ⟨trivial, fun fr hfr => by cases hfr⟩
  | some fr =>
    by_cases hpin : (s.pages fr).pinCount = 0
    · right
      refine ⟨fr, rfl, hpin, ?_⟩
      simp only [BufferPool.deletePage, hp, hpin, ne_eq, not_true_eq_false, if_false] at hok ⊢
      split at hok
      · cases hok
      · next u hu =>
        obtain ⟨disk, dirty, rfl⟩ := updatePage_spec hu
        intro hinv
        have hlt := (h.table id fr hp).1
        have hmem : fr ∈ s.freeList ++ [fr] := by simp
        rcases hinv.frames fr hlt with ⟨⟨-, hnot⟩, -⟩ | ⟨-, hnot⟩ | ⟨-, hnot⟩
        · exact hnot ⟨id, if_pos rfl⟩
        · exact hnot hmem
        · exact hnot hmem
    · left
      simp only [BufferPool.deletePage, hp, ne_eq, hpin, not_false_eq_true, if_true]
      refine ⟨trivial, fun g hg => ?_⟩
      cases hg
      exact hpin

/-! ### Runs -/

/-- The call deletes no page of the pool that nobody has pinned, and is not given the number of a page that another frame
    of the pool holds. -/
def Harmless (s : BufferPool) : BpCall → Prop
  | .deletePage id => ∀ fr, s.pageTable id = some fr → (s.pages fr).pinCount ≠ 0
  | .newPage fd => ∀ g fr, s.pageTable ⟨fd, s.disk.fd2pageno fd⟩ = some g → s.findVictimPage.2 = some fr → g = fr
  | .fetchPage _ | .unpinPage _ _ | .flushPage _ | .flushAllPages _ => True

theorem succeeded_ok {α : Type} {r : BufferPool × Except DiskError α} (h : succeeded r = .ok t) : (∃ a, r.2 = .ok a) ∧ r.1 = t := by
  obtain ⟨u, o⟩ := r
  cases o with
  | error e => cases h
  | ok a =>
    cases h
    exact ⟨⟨a, rfl⟩, rfl⟩

/-- A call whose disk operations succeed keeps the pool exactly when it is harmless. -/
theorem step_spec (h : Good s) {c : BpCall} (hstep : s.step c = .ok t) :
    (s.Harmless c → Good t) ∧ (¬s.Harmless c → ¬Inv t) := by
  cases c with
  | fetchPage id =>
    obtain ⟨⟨o, hok⟩, rfl⟩ := succeeded_ok hstep
    exact ⟨fun _ => h.fetchPage hok, fun hnot => absurd trivial hnot⟩
  | newPage fd =>
    obtain ⟨⟨o, hok⟩, rfl⟩ := succeeded_ok hstep
    rcases h.newPage hok with ⟨hnone, hsame⟩ | ⟨fr, hvictim, hav, hload⟩
    · refine ⟨fun _ => h.of_same hsame, fun hnot => absurd (fun g fr _ hv => ?_) hnot⟩
      rw [hnone] at hv
      cases hv
    · refine ⟨fun hharm => h.load hav hload (Int.natCast_nonneg _) fun g hg => hharm g fr hg hvictim, fun hnot => ?_⟩
      simp only [Harmless, Classical.not_forall] at hnot
      obtain ⟨g, fr', hg, hv, hne⟩ := hnot
      rw [hvictim] at hv
      cases hv
      exact h.load_twice hload hg hne
  | unpinPage id isDirty =>
    cases hstep
    exact ⟨fun _ => h.unpinPage isDirty, fun hnot => absurd trivial hnot⟩
  | flushPage id =>
    obtain ⟨-, rfl⟩ := succeeded_ok hstep
    exact ⟨fun _ => h.of_same (same_flushPage s id), fun hnot => absurd trivial hnot⟩
  | deletePage id =>
    obtain ⟨⟨b, hok⟩, rfl⟩ := succeeded_ok hstep
    rcases h.deletePage hok with ⟨heq, hharm⟩ | ⟨fr, hfr, hpin, hbroken⟩
    · rw [heq]
      exact ⟨fun _ => h, fun hnot => absurd hharm hnot⟩
    · exact ⟨fun hharm => absurd hpin (hharm fr hfr), fun _ => hbroken⟩
  | flushAllPages fd =>
    obtain ⟨-, rfl⟩ := succeeded_ok hstep
    exact ⟨fun _ => h.of_same (same_flushFrames fd _ s), fun hnot => absurd trivial hnot⟩

end
end BufferPool

open BufferPool

/-- In every run of a pool whose disk operations succeed, every frame is free, evictable or pinned in all states exactly
    when no call deletes a page that nobody has pinned, and no new page gets the number of a page in another frame. -/
theorem bufferPool_inv_iff (poolSize : Nat) (fds : Nat → Int) (disk : Disk) (cs : List BpCall)
    (hdisk : ∃ t, Runs.exec BufferPool.step (BufferPool.create poolSize fds disk) cs = .ok t) :
    Runs.Always BufferPool.step Inv (BufferPool.create poolSize fds disk) cs ↔
      Runs.Throughout BufferPool.step Harmless (BufferPool.create poolSize fds disk) cs := by
  obtain ⟨t, ht⟩ := hdisk
  refine Runs.always_iff_throughout (I := Good) ?_ (fun s h => h.toInv) (Good.create poolSize fds disk)
    (Runs.throughout_of_exec ht)
  rintro s c h ⟨u, hu⟩
  exact ⟨u, hu, step_spec h hu⟩

/-- A disk on which nothing has been written. -/
def emptyDisk : Disk := ⟨fun _ => none, fun _ => 0⟩

theorem bufferPool_inv_iff_one : Runs.Always BufferPool.step Inv (BufferPool.create 1 (fun _ => 0) emptyDisk)
    [.newPage 3, .unpinPage ⟨3, 0⟩ true, .fetchPage ⟨3, 0⟩, .flushAllPages 3] := by
  obtain ⟨t, ht, -⟩ := Runs.exec_eval BufferPool.step (BufferPool.create 1 (fun _ => 0) emptyDisk)
    [.newPage 3, .unpinPage ⟨3, 0⟩ true, .fetchPage ⟨3, 0⟩, .flushAllPages 3] (·.poolSize) (b := 1) (by decide)
  refine (bufferPool_inv_iff _ _ _ _ ⟨t, ht⟩).mpr ⟨?_, fun _ _ => ⟨trivial, fun _ _ => ⟨trivial, fun _ _ => ⟨trivial, fun _ _ => trivial⟩⟩⟩⟩
  intro g fr hg
  cases hg

/-- A page is created, released and deleted twice. -/
def deleteTwice : List BpCall := [.newPage 3, .unpinPage ⟨3, 0⟩ false, .deletePage ⟨3, 0⟩, .deletePage ⟨3, 0⟩]

/-- The frame of the page is in the free list twice. -/
theorem bufferPool_inv_deleted : ¬Runs.Always BufferPool.step Inv (BufferPool.create 1 (fun _ => 0) emptyDisk) deleteTwice := by
  intro h
  obtain ⟨t, ht, hview⟩ := Runs.exec_eval BufferPool.step (BufferPool.create 1 (fun _ => 0) emptyDisk) deleteTwice
    (·.freeList) (b := [0, 0]) (by decide)
  have := (h.at_end ht).nodup
  rw [hview] at this
  exact absurd this (by decide)

end Rmdb
