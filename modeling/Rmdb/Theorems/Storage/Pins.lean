import Rmdb.Theorems.Storage.Flat

/-! The pin counts of the buffer pool, and the pages whose bytes would be lost with their frame: those in the pool that are
neither dirty nor as they are on the disk. -/

namespace Rmdb
namespace BufferPool
variable {s t : BufferPool} {id q : PageId} {fr : Nat} {d : Disk} {data : Bytes}

/-- The pin count of a page; a page that is not in the pool has none. -/
def pins (s : BufferPool) (id : PageId) : Int := (s.pageTable id).elim 0 fun fr => (s.pages fr).pinCount

theorem pins_some (h : s.pageTable id = some fr) : s.pins id = (s.pages fr).pinCount := by rw [pins, h, Option.elim_some]

theorem pins_none (h : s.pageTable id = none) : s.pins id = 0 := by rw [pins, h, Option.elim_none]

theorem pins_of (htab : t.pageTable q = s.pageTable q) (hs : s.pageTable q = some fr) : t.pins q = (t.pages fr).pinCount :=
  pins_some (htab.trans hs)

theorem pins_congr (htab : t.pageTable q = s.pageTable q)
    (hcount : ∀ g, s.pageTable q = some g → (t.pages g).pinCount = (s.pages g).pinCount) : t.pins q = s.pins q := by
  cases hs : s.pageTable q with
  | none => rw [pins_none hs, pins_none (htab.trans hs)]
  | some g => rw [pins_some hs, pins_of htab hs, hcount g hs]

/-- A page with pins is in the pool. -/
theorem table_of_pins (h : 0 < s.pins id) : ∃ fr, s.pageTable id = some fr := by
  cases hid : s.pageTable id with
  | none =>
    rw [pins_none hid] at h
    exact absurd h (by decide)
  | some fr => exact ⟨fr, rfl⟩

theorem Good.pins_nonneg (h : Good s) (id : PageId) : 0 ≤ s.pins id := by
  cases hid : s.pageTable id with
  | none => exact (pins_none hid).ge
  | some fr =>
    rw [pins_some hid]
    rcases h.frames fr (h.table id fr hid).1 with ⟨⟨-, hnot⟩, -⟩ | ⟨⟨-, hzero, -⟩, -⟩ | ⟨⟨hpos, -⟩, -⟩
    · exact absurd ⟨id, hid⟩ hnot
    · exact hzero.ge
    · exact hpos.le

/-- The page is in the pool or on the disk. -/
def Present (s : BufferPool) (id : PageId) : Prop := (s.pageTable id).isSome = true ∨ (s.disk.pages id).isSome = true

/-- The page is in the pool, and its bytes are neither marked dirty nor on the disk. -/
def Unmarked (s : BufferPool) (id : PageId) : Prop :=
  ∃ fr, s.pageTable id = some fr ∧ (s.pages fr).isDirty = false ∧ s.disk.pages id ≠ some (s.pages fr).data

/-- From `s` to `t` nothing happened to the page that `t` has not marked. -/
def Marks (s t : BufferPool) (id : PageId) : Prop := t.Unmarked id → s.Unmarked id ∧ t.view id = s.view id

theorem Marks.trans {u : BufferPool} (h : Marks s t id) (h' : Marks t u id) : Marks s u id := by
  intro hun
  obtain ⟨hun', hview⟩ := h' hun
  obtain ⟨hun'', hview'⟩ := h hun'
  exact ⟨hun'', hview.trans hview'⟩

theorem Marks.refl (id : PageId) : Marks s s id := fun hun => ⟨hun, rfl⟩

/-! ### A page is pinned -/

/-- The page has one pin more, and the pinned pages stay where they are. -/
structure Takes (s : BufferPool) (id : PageId) (fr : Nat) (t : BufferPool) : Prop where
  good : Good t
  table : t.pageTable id = some fr
  pins : ∀ q, t.pins q = s.pins q + if q = id then 1 else 0
  pinned : ∀ q g, s.pageTable q = some g → 0 < s.pins q → t.pageTable q = some g
  marks : ∀ q, q ≠ id → Marks s t q

/-- A page is brought into the frame of another one that nobody has pinned. -/
theorem Good.takes_brought (h : Good s) (k : Brought s fr id data d t) (W : s.WrittenBack fr d)
    (hnew : ∀ g, s.pageTable id = some g → g = fr) (hnum : 0 ≤ id.pageNo) : Takes s id fr t := by
  have htab := h.load_table k.available k.toLoads hnew
  have hzero := h.pinCount_victim k.available
  refine ⟨h.load k.available k.toLoads hnum hnew, (htab id fr).mpr (.inl ⟨rfl, rfl⟩), fun q => ?_, fun q g hg hpos => ?_,
    fun q hq => ?_⟩
  · by_cases hq : q = id
    · subst hq
      have hpin : s.pins q = 0 := by
        cases hs : s.pageTable q with
        | none => exact pins_none hs
        | some g => rw [pins_some hs, hnew g hs, hzero]
      rw [pins_some ((htab q fr).mpr (.inl ⟨rfl, rfl⟩)), k.pin, hpin, if_pos rfl]
      rfl
    · rw [if_neg hq, Int.add_zero]
      cases ht : t.pageTable q with
      | some g =>
        rcases (htab q g).mp ht with ⟨hid, -⟩ | ⟨hne, hg⟩
        · exact absurd hid hq
        · rw [pins_some ht, pins_some hg, k.other g hne]
      | none =>
        rw [pins_none ht]
        cases hs : s.pageTable q with
        | none => rw [pins_none hs]
        | some g =>
          by_cases hg : g = fr
          · rw [pins_some hs, hg, hzero]
          · rw [(htab q g).mpr (.inr ⟨hg, hs⟩)] at ht
            cases ht
  · refine (htab q g).mpr (.inr ⟨?_, hg⟩)
    rintro rfl
    rw [pins_some hg, hzero] at hpos
    exact absurd hpos (by decide)
  · rintro ⟨g, hg, hclean, hdisk⟩
    rcases (htab q g).mp hg with ⟨hid, -⟩ | ⟨hne, hs⟩
    · exact absurd hid hq
    · rw [k.other g hne] at hclean hdisk
      rw [k.disk] at hdisk
      refine ⟨⟨g, hs, hclean, fun hin => hdisk (W.kept q _ hin fun hfr => ?_)⟩, ?_⟩
      · exact absurd (Option.some.inj (hs.symm.trans hfr)) hne
      · rw [view_some hg, view_some hs, k.other g hne]

/-- `fetch_page` of a page in the pool. -/
theorem fetchPage_hit (hid : s.pageTable id = some fr) : s.fetchPage id = ({ s with replacer := s.replacer.pin fr }.setPage fr
    { s.pages fr with pinCount := (s.pages fr).pinCount + 1 }, .ok (some fr)) := by
  simp only [fetchPage, hid]

/-- A change of one frame that keeps its page changes nothing for another page. -/
theorem Good.other_frame (h : Good s) (hid : s.pageTable id = some fr) {g : Nat} (hg : s.pageTable q = some g) (hq : q ≠ id) : g ≠ fr := by
  rintro rfl
  exact hq (h.injective q id g hg hid)

theorem Good.takes_hit (h : Good s) (hid : s.pageTable id = some fr) :
    Takes s id fr (s.fetchPage id).1 ∧ Marks s (s.fetchPage id).1 id := by
  have hgood := h.fetchPage (congrArg Prod.snd (fetchPage_hit hid))
  rw [fetchPage_hit hid] at hgood ⊢
  have hpages : ∀ g, g ≠ fr → ({ s with replacer := s.replacer.pin fr }.setPage fr
      { s.pages fr with pinCount := (s.pages fr).pinCount + 1 }).pages g = s.pages g := fun g hg => if_neg hg
  refine ⟨⟨hgood, hid, fun q => ?_, fun q g hg _ => hg, fun q hq => ?_⟩, ?_⟩
  · by_cases hq : q = id
    · subst hq
      rw [pins_some hid, if_pos rfl]
      refine Eq.trans (pins_of (s := s) rfl hid) ?_
      simp [setPage]
    · rw [if_neg hq, Int.add_zero]
      exact pins_congr rfl fun g hs => by rw [hpages g (h.other_frame hid hs hq)]
  · rintro ⟨g, hg, hclean, hdisk⟩
    have hne := h.other_frame hid hg hq
    rw [hpages g hne] at hclean hdisk
    exact ⟨⟨g, hg, hclean, hdisk⟩, view_congr rfl (fun _ => rfl) fun g' hg' => by rw [hpages g' (h.other_frame hid hg' hq)]⟩
  · rintro ⟨g, hg, hclean, hdisk⟩
    obtain rfl : g = fr := Option.some.inj (Eq.trans (Eq.symm hg) hid)
    simp only [setPage, if_pos] at hclean hdisk
    refine ⟨⟨g, hid, hclean, hdisk⟩, ?_⟩
    refine Eq.trans (view_some (s := _) hg) ?_
    rw [view_some hid]
    simp [setPage]

/-! ### A page is unpinned or written -/

/-- `unpin_page` of a page that has a pin. -/
theorem unpinPage_pinned (hid : s.pageTable id = some fr) (hpos : 0 < s.pins id) (isDirty : Bool) :
    s.unpinPage id isDirty = ({ s with
      replacer := if (s.pages fr).pinCount - 1 = 0 then s.replacer.unpin fr else s.replacer }.setPage fr
      { s.pages fr with pinCount := (s.pages fr).pinCount - 1, isDirty := (s.pages fr).isDirty || isDirty }, true) := by
  rw [pins_some hid] at hpos
  simp only [unpinPage, hid, if_neg (show (s.pages fr).pinCount ≠ 0 by omega)]

/-- The page has one pin less. -/
structure Gives (s : BufferPool) (id : PageId) (isDirty : Bool) (t : BufferPool) : Prop where
  good : Good t
  disk : t.disk = s.disk
  table : t.pageTable = s.pageTable
  pins : ∀ q, t.pins q = s.pins q + if q = id then -1 else 0
  marks : ∀ q, Marks s t q
  dirty : isDirty = true → ¬t.Unmarked id

theorem Good.gives (h : Good s) (hpos : 0 < s.pins id) (isDirty : Bool) : Gives s id isDirty (s.unpinPage id isDirty).1 := by
  obtain ⟨fr, hid⟩ := table_of_pins hpos
  have hgood : Good (s.unpinPage id isDirty).1 := h.unpinPage isDirty
  rw [unpinPage_pinned hid hpos] at hgood ⊢
  have hpages : ∀ g, g ≠ fr → ({ s with
      replacer := if (s.pages fr).pinCount - 1 = 0 then s.replacer.unpin fr else s.replacer }.setPage fr
      { s.pages fr with pinCount := (s.pages fr).pinCount - 1, isDirty := (s.pages fr).isDirty || isDirty }).pages g =
      s.pages g := fun g hg => if_neg hg
  refine ⟨hgood, rfl, rfl, fun q => ?_, fun q => ?_, fun hdirty => ?_⟩
  · by_cases hq : q = id
    · subst hq
      rw [if_pos rfl, pins_some hid]
      refine Eq.trans (pins_of (s := s) rfl hid) ?_
      simp only [setPage, if_pos]
      rfl
    · rw [if_neg hq, Int.add_zero]
      exact pins_congr rfl fun g hs => by rw [hpages g (h.other_frame hid hs hq)]
  · rintro ⟨g, hg, hclean, hdisk⟩
    by_cases hne : g = fr
    · subst hne
      simp only [setPage, if_pos, Bool.or_eq_false_iff] at hclean hdisk
      refine ⟨⟨g, hg, hclean.1, hdisk⟩, ?_⟩
      refine Eq.trans (view_some (s := _) hg) ?_
      rw [view_some (s := s) hg]
      simp [setPage]
    · rw [hpages g hne] at hclean hdisk
      refine ⟨⟨g, hg, hclean, hdisk⟩, ?_⟩
      refine Eq.trans (view_some (s := _) hg) ?_
      rw [view_some (s := s) hg, hpages g hne]
  · rintro ⟨g, hg, hclean, -⟩
    obtain rfl : g = fr := Option.some.inj (Eq.trans (Eq.symm hg) hid)
    simp only [setPage, if_pos, Bool.or_eq_false_iff] at hclean
    rw [hdirty] at hclean
    exact absurd hclean.2 (by decide)

/-- A write to the frame of a page changes nothing but its bytes. -/
theorem Good.written (h : Good s) (hid : s.pageTable id = some fr) (data : Bytes) :
    Good (s.setPage fr { s.pages fr with data := data }) ∧
      (∀ q, (s.setPage fr { s.pages fr with data := data }).pins q = s.pins q) ∧
      ∀ q, q ≠ id → Marks s (s.setPage fr { s.pages fr with data := data }) q := by
  have hpages : ∀ g, g ≠ fr → (s.setPage fr { s.pages fr with data := data }).pages g = s.pages g := fun g hg => if_neg hg
  refine ⟨h.of_same ⟨rfl, rfl, fun i => ?_, fun i => ?_, rfl, rfl, fun _ => rfl⟩, fun q => pins_congr rfl fun g hs => ?_,
    fun q hq => ?_⟩
  · by_cases hi : i = fr
    · subst hi
      simp [setPage]
    · rw [hpages i hi]
  · by_cases hi : i = fr
    · subst hi
      simp [setPage]
    · rw [hpages i hi]
  · by_cases hg : g = fr
    · subst hg
      simp [setPage]
    · rw [hpages g hg]
  · rintro ⟨g, hg, hclean, hdisk⟩
    have hne := h.other_frame hid hg hq
    rw [hpages g hne] at hclean hdisk
    exact ⟨⟨g, hg, hclean, hdisk⟩, view_congr rfl (fun _ => rfl) fun g' hg' => by rw [hpages g' (h.other_frame hid hg' hq)]⟩

/-! ### The pages of a file -/

/-- The number of every page of the file that there is has been given out. -/
def GivenOut (fd : Int) (s : BufferPool) : Prop := ∀ p, s.Present ⟨fd, p⟩ → p < s.disk.fd2pageno fd

theorem writeBack_fd2pageno {page : Page} {d : Disk} (h : s.writeBack page = .ok d) : d.fd2pageno = s.disk.fd2pageno := by
  unfold writeBack at h
  split at h
  · unfold Disk.writePage at h
    split at h
    · cases h
    · cases h
      rfl
  · cases h
    rfl

theorem writeBack_present {page : Page} (h : s.writeBack page = .ok d) (hq : (d.pages q).isSome = true) :
    (s.disk.pages q).isSome = true ∨ page.id.pageNo ≠ invalidPageId ∧ q.fd = page.id.fd ∧ q.pageNo ≤ page.id.pageNo := by
  unfold writeBack at h
  split at h
  · next hdirty =>
    unfold Disk.writePage at h
    split at h
    · cases h
    · cases h
      by_cases hid : q = page.id
      · exact .inr ⟨hdirty.2, by rw [hid], by rw [hid]⟩
      · by_cases hgap : q.fd = page.id.fd ∧ 0 ≤ q.pageNo ∧ q.pageNo < page.id.pageNo
        · exact .inr ⟨hdirty.2, hgap.1, Int.le_of_lt hgap.2.2⟩
        · simp only [if_neg hid, if_neg hgap] at hq
          exact .inl hq
  · cases h
    exact .inl hq

theorem Good.givenOut_writeBack {fd : Int} (h : Good s) (hgiven : GivenOut fd s) (hav : s.Available fr)
    (hback : t.writeBack (s.pages fr) = .ok d) (hdisk : t.disk.pages = s.disk.pages) {p : Int} (hp : (d.pages ⟨fd, p⟩).isSome = true) : p < s.disk.fd2pageno fd := by
  rcases writeBack_present hback hp with hin | ⟨hvalid, hfd, hle⟩
  · rw [hdisk] at hin
    exact hgiven p (.inr hin)
  · rcases h.victim_page hav with ⟨htab, -⟩ | ⟨-, hid⟩
    · have hid : (⟨fd, (s.pages fr).id.pageNo⟩ : PageId) = (s.pages fr).id := by rw [show fd = (s.pages fr).id.fd from hfd]
      have hlt := hgiven (s.pages fr).id.pageNo (.inl (by rw [hid, htab]; rfl))
      exact Int.lt_of_le_of_lt hle hlt
    · exact absurd hid hvalid

/-- Nothing but the replacer changes when no frame is given out. -/
theorem Good.no_victim (h : Good s) (hnone : s.findVictimPage.2 = none) :
    s.findVictimPage.1 = { s with replacer := s.replacer.victim.1 } ∧ Good { s with replacer := s.replacer.victim.1 } := by
  have heq := findVictimPage_none hnone
  rcases findVictimPage_spec s with ⟨t, ht, hsame⟩ | ⟨r, fr, ht, -⟩
  · have hgood := h.of_same hsame
    rw [heq] at ht ⊢
    cases ht
    exact ⟨rfl, hgood⟩
  · rw [ht] at hnone
    cases hnone

/-- `fetch_page`. -/
theorem Good.fetch_spec {fd : Int} (h : Good s) (hgiven : GivenOut fd s) (id : PageId) :
    (∃ e, (s.fetchPage id).2 = .error e) ∨
      (∃ r, s.fetchPage id = ({ s with replacer := r }, .ok none) ∧ Good { s with replacer := r }) ∨
      ∃ t fr, s.fetchPage id = (t, .ok (some fr)) ∧ Takes s id fr t ∧ Marks s t id ∧ GivenOut fd t := by
  cases hid : s.pageTable id with
  | some fr =>
    obtain ⟨takes, hmarks⟩ := h.takes_hit hid
    rw [fetchPage_hit hid] at takes hmarks ⊢
    exact .inr (.inr ⟨_, fr, rfl, takes, hmarks, hgiven⟩)
  | none =>
    rcases h.fetch_miss hid with ⟨hnone, hfetch⟩ | ⟨fr, d, -, hback, W, hload, hfail⟩
    · obtain ⟨hr, hgood⟩ := h.no_victim hnone
      exact .inr (.inl ⟨_, by rw [hfetch, hr], hgood⟩)
    · cases hread : d.readPage id with
      | error e => exact .inl ⟨e, hfail e hread⟩
      | ok data =>
        obtain ⟨t, hfetch, k⟩ := hload data hread
        have hnew : ∀ g, s.pageTable id = some g → g = fr := fun g hg => by rw [hid] at hg; cases hg
        have hstored := Disk.readPage_spec hread
        have takes := h.takes_brought k W hnew (readPage_ok hread)
        have hcounter := writeBack_fd2pageno hback
        refine .inr (.inr ⟨t, fr, hfetch, takes, ?_, ?_⟩)
        · rintro ⟨g, hg, -, hdisk⟩
          obtain rfl : g = fr := Option.some.inj (hg.symm.trans takes.table)
          rw [k.disk, k.data, hstored] at hdisk
          exact absurd rfl hdisk
        · intro p hp
          rw [k.disk, hcounter]
          rcases hp with hp | hp
          · obtain ⟨g, hg⟩ := Option.isSome_iff_exists.mp hp
            rcases (h.load_table k.available k.toLoads hnew _ g).mp hg with ⟨heq, -⟩ | ⟨-, hs⟩
            · refine h.givenOut_writeBack hgiven k.available hback rfl ?_
              rw [heq, hstored]
              rfl
            · exact hgiven p (.inl (by rw [hs]; rfl))
          · rw [k.disk] at hp
            exact h.givenOut_writeBack hgiven k.available hback rfl hp

/-- `new_page`, which gives out a number that no page has. -/
theorem Good.new_spec {fd : Int} (h : Good s) (hgiven : GivenOut fd s) :
    (∃ r, s.newPage fd = ({ s with replacer := r }, .ok none) ∧ Good { s with replacer := r }) ∨
      ∃ t fr, s.newPage fd = (t, .ok (some (⟨fd, s.disk.fd2pageno fd⟩, fr))) ∧ Takes s ⟨fd, s.disk.fd2pageno fd⟩ fr t ∧
        GivenOut fd t := by
  rcases h.new_brought fd with ⟨hnone, hnew⟩ | ⟨fr, d, t, -, hback, W, hnew, k⟩
  · obtain ⟨hr, hgood⟩ := h.no_victim hnone
    exact .inl ⟨_, by rw [hnew, hr], hgood⟩
  · have hfresh : s.pageTable ⟨fd, s.disk.fd2pageno fd⟩ = none := by
      refine Option.eq_none_iff_forall_ne_some.mpr fun g hg => ?_
      exact absurd (hgiven _ (.inl (by rw [hg]; rfl))) (Int.lt_irrefl _)
    have htab : ∀ g, s.pageTable ⟨fd, s.disk.fd2pageno fd⟩ = some g → g = fr := fun g hg => by rw [hfresh] at hg; cases hg
    have hcounter : d.fd2pageno fd = s.disk.fd2pageno fd + 1 := by
      rw [writeBack_fd2pageno hback]
      simp only [Disk.allocatePage, if_pos]
    refine .inr ⟨t, fr, hnew, h.takes_brought k W htab (Int.natCast_nonneg _), fun p hp => ?_⟩
    have hlt : p < s.disk.fd2pageno fd ∨ p = s.disk.fd2pageno fd := by
      rcases hp with hp | hp
      · obtain ⟨g, hg⟩ := Option.isSome_iff_exists.mp hp
        rcases (h.load_table k.available k.toLoads htab _ g).mp hg with ⟨heq, -⟩ | ⟨-, hs⟩
        · exact .inr (congrArg PageId.pageNo heq)
        · exact .inl (hgiven p (.inl (by rw [hs]; rfl)))
      · rw [k.disk] at hp
        exact .inl (h.givenOut_writeBack hgiven k.available hback rfl hp)
    rw [k.disk, hcounter]
    rcases hlt with hlt | rfl
    · push_cast
      omega
    · push_cast
      omega

end BufferPool
end Rmdb
