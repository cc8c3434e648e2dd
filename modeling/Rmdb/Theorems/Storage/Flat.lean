import Rmdb.Theorems.Storage.Clock
import Rmdb.Storage.Client

/-! The buffer pool over the disk is a flat store. A page is in a frame or on the disk; the frame of a page that nobody has
pinned is dirty, or the disk has the same bytes. -/

namespace Rmdb

/-! ### The disk -/

/-- What `write_page` does. -/
structure Disk.Written (d : Disk) (id : PageId) (data : Bytes) (d' : Disk) : Prop where
  at_id : d'.pages id = some data
  kept : ∀ q b, q ≠ id → d.pages q = some b → d'.pages q = some b
  contents : ∀ q, q ≠ id → d'.contents q = d.contents q

theorem Disk.writePage_spec (d : Disk) {id : PageId} (data : Bytes) (h : 0 ≤ id.pageNo) :
    ∃ d', d.writePage id data = .ok d' ∧ d.Written id data d' := by
  refine ⟨⟨fun q => if q = id then some data else if q.fd = id.fd ∧ 0 ≤ q.pageNo ∧ q.pageNo < id.pageNo then
    some ((d.pages q).getD zeroPage) else d.pages q, d.fd2pageno⟩, ?_, if_pos rfl, fun q b hq hb => ?_, fun q hq => ?_⟩
  · rw [writePage, if_neg (by omega)]
  · simp only [if_neg hq, hb, Option.getD_some, ite_self]
  · unfold Disk.contents
    simp only [if_neg hq]
    split <;> rfl

theorem Disk.readPage_spec {d : Disk} {id : PageId} {data : Bytes} (h : d.readPage id = .ok data) : d.pages id = some data := by
  unfold readPage at h
  split at h
  · cases h
  · split at h
    · next hd => rw [hd, Except.ok.inj h]
    · cases h

namespace BufferPool
variable {s t : BufferPool} {fr g : Nat} {id q : PageId}

/-- The contents of a page: in the frame that holds it, or on the disk. -/
def view (s : BufferPool) (id : PageId) : Bytes := (s.pageTable id).elim (s.disk.contents id) fun fr => (s.pages fr).data

theorem view_some (h : s.pageTable id = some fr) : s.view id = (s.pages fr).data := by rw [view, h, Option.elim_some]

theorem view_none (h : s.pageTable id = none) : s.view id = s.disk.contents id := by rw [view, h, Option.elim_none]

theorem view_congr (htab : t.pageTable q = s.pageTable q) (hnone : s.pageTable q = none → t.disk.contents q = s.disk.contents q)
    (hsome : ∀ g, s.pageTable q = some g → (t.pages g).data = (s.pages g).data) : t.view q = s.view q := by
  cases hq : s.pageTable q with
  | none => rw [view_none hq, view_none (htab.trans hq), hnone hq]
  | some g => rw [view_some hq, view_some (htab.trans hq), hsome g hq]

/-- A frame to be given out holds a page that nobody has pinned, or none. -/
theorem Good.victim_page (h : Good s) (hav : s.Available fr) :
    (s.pageTable (s.pages fr).id = some fr ∧ 0 ≤ (s.pages fr).id.pageNo) ∨
      s.pageTable (s.pages fr).id = none ∧ (s.pages fr).id.pageNo = invalidPageId := by
  rcases hav with hfree | hin
  · obtain ⟨-, -, hid⟩ := h.free fr hfree
    right
    refine ⟨Option.eq_none_iff_forall_ne_some.mpr fun g hg => ?_, hid⟩
    have := h.named _ g hg
    rw [hid] at this
    exact absurd this (by decide)
  · left
    rcases h.frames fr (h.evictable fr hin) with ⟨-, hnot⟩ | ⟨⟨-, -, id, hid⟩, -⟩ | ⟨⟨-, -, hnot⟩, -⟩
    · exact absurd hin hnot
    · rw [(h.table id fr hid).2]
      exact ⟨hid, h.named id fr hid⟩
    · exact absurd hin hnot

/-- The disk after the write-back of a victim. -/
structure WrittenBack (s : BufferPool) (fr : Nat) (d : Disk) : Prop where
  page : s.pageTable (s.pages fr).id = some fr → (s.pages fr).isDirty = true → d.pages (s.pages fr).id = some (s.pages fr).data
  kept : ∀ q b, s.disk.pages q = some b → (s.pageTable q = some fr → (s.pages fr).isDirty = false) → d.pages q = some b
  contents : ∀ q, s.pageTable q ≠ some fr → d.contents q = s.disk.contents q

theorem Good.writeBack (h : Good s) (hav : s.Available fr) :
    ∃ d, s.writeBack (s.pages fr) = .ok d ∧ s.WrittenBack fr d := by
  rw [BufferPool.writeBack]
  rcases h.victim_page hav with ⟨htab, hnum⟩ | ⟨htab, hid⟩
  · have hvalid : (s.pages fr).id.pageNo ≠ invalidPageId := by
      intro heq
      rw [heq] at hnum
      exact absurd hnum (by decide)
    by_cases hdirty : (s.pages fr).isDirty = true
    · rw [if_pos ⟨hdirty, hvalid⟩]
      obtain ⟨d, hd, W⟩ := s.disk.writePage_spec (s.pages fr).data hnum
      refine ⟨d, hd, fun _ _ => W.at_id, fun q b hb hq => ?_, fun q hq => ?_⟩
      · refine W.kept q b (fun heq => ?_) hb
        rw [hq (heq ▸ htab)] at hdirty
        cases hdirty
      · exact W.contents q fun heq => hq (heq ▸ htab)
    · rw [if_neg fun hall => hdirty hall.1]
      exact ⟨s.disk, rfl, fun _ hd => absurd hd hdirty, fun q b hb _ => hb, fun q _ => rfl⟩
  · rw [if_neg fun hall => hall.2 hid]
    refine ⟨s.disk, rfl, fun htab' => ?_, fun q b hb _ => hb, fun q _ => rfl⟩
    rw [htab] at htab'
    cases htab'

/-! ### Loading a page -/

/-- A victim `fr` that was given to the page `id` with these contents, pinned once. -/
structure Brought (s : BufferPool) (fr : Nat) (id : PageId) (data : Bytes) (d : Disk) (t : BufferPool) : Prop extends Loads s fr id t where
  available : s.Available fr
  counted : s.replacer.Counted → t.replacer.Counted
  data : (t.pages fr).data = data
  pin : (t.pages fr).pinCount = 1
  disk : t.disk = d

theorem findVictimPage_counted (h : s.replacer.Counted) : s.findVictimPage.1.replacer.Counted := by
  cases hfree : s.freeList with
  | nil =>
    rw [findVictimPage_nil hfree]
    exact h.victim
  | cons fr rest =>
    rw [findVictimPage_cons hfree]
    exact h

/-- No frame is given out only if all are pinned. -/
theorem Good.allPinned (h : Good s) (hc : s.replacer.Counted) (hnone : s.findVictimPage.2 = none) : s.AllPinned := by
  cases hfree : s.freeList with
  | cons fr rest =>
    rw [findVictimPage_cons hfree] at hnone
    cases hnone
  | nil =>
    rw [findVictimPage_nil hfree] at hnone
    intro fr hlt
    have hout : ¬s.InReplacer fr := by
      rw [InReplacer, hc.victim_none hnone (h.size ▸ hlt)]
      exact Bool.false_ne_true
    rcases h.frames fr hlt with ⟨⟨hmem, -⟩, -⟩ | ⟨⟨hin, -⟩, -⟩ | ⟨⟨hpos, -⟩, -⟩
    · rw [hfree] at hmem
      cases hmem
    · exact absurd hin hout
    · exact hpos

theorem findVictimPage_none (h : s.findVictimPage.2 = none) :
    s.findVictimPage = ({ s with replacer := s.replacer.victim.1 }, none) := by
  cases hfree : s.freeList with
  | cons fr rest =>
    rw [findVictimPage_cons hfree] at h
    cases h
  | nil =>
    rw [findVictimPage_nil hfree] at h ⊢
    rw [h, hfree]

/-- A page that is not in the pool is fetched: no frame is given out, or the disk is read after the write-back. -/
theorem Good.fetch_miss (h : Good s) (hp : s.pageTable id = none) :
    s.findVictimPage.2 = none ∧ s.fetchPage id = (s.findVictimPage.1, .ok none) ∨
      ∃ fr d, s.findVictimPage.2 = some fr ∧ s.writeBack (s.pages fr) = .ok d ∧ s.WrittenBack fr d ∧
        (∀ data, d.readPage id = .ok data → ∃ t, s.fetchPage id = (t, .ok (some fr)) ∧ Brought s fr id data d t) ∧
        ∀ e, d.readPage id = .error e → (s.fetchPage id).2 = .error e := by
  have hcount := findVictimPage_counted (s := s)
  rcases findVictimPage_spec s with ⟨t, heq, -⟩ | ⟨r, fr, heq, hav, hsize, hrep⟩
  · left
    simp only [BufferPool.fetchPage, hp, heq, and_self]
  · right
    obtain ⟨d, hd, W⟩ := h.writeBack hav
    have hupdate : ({ s with freeList := s.freeList.erase fr, replacer := r } : BufferPool).updatePage fr id = .ok { s with
        freeList := s.freeList.erase fr
        replacer := r
        disk := d
        pageTable := fun q => if q = id then some fr else if q = (s.pages fr).id then none else s.pageTable q
        pages := fun i => if i = fr then ⟨id, zeroPage, if (s.pages fr).id.pageNo = invalidPageId then (s.pages fr).isDirty else false,
          (s.pages fr).pinCount⟩ else s.pages i } := by
      have hd' : ({ s with freeList := s.freeList.erase fr, replacer := r } : BufferPool).writeBack (s.pages fr) = .ok d := hd
      simp only [updatePage, hd', bind, Except.bind]
      rfl
    refine ⟨fr, d, by rw [heq], hd, W, fun data hread => ?_, fun e hread => by simp only [BufferPool.fetchPage, hp, heq, hupdate, hread]⟩
    simp only [BufferPool.fetchPage, hp, heq, hupdate, hread]
    refine ⟨_, rfl, ?_⟩
    rw [heq] at hcount
    exact {
      toLoads := h.loads hsize hav hrep d (fun i hi => if_neg hi) rfl (by simp only [h.pinCount_victim hav]; exact Int.one_pos)
      available := hav
      counted := fun hc => (hcount hc).pin fr
      data := by simp only [setPage, if_pos]
      pin := by
        simp only [setPage, if_pos, h.pinCount_victim hav]
        rfl
      disk := rfl }

theorem Good.new_brought (h : Good s) (fd : Int) :
    s.findVictimPage.2 = none ∧ s.newPage fd = (s.findVictimPage.1, .ok none) ∨
      ∃ fr d t, s.findVictimPage.2 = some fr ∧
        ({ s with disk := (s.disk.allocatePage fd).1 } : BufferPool).writeBack (s.pages fr) = .ok d ∧ s.WrittenBack fr d ∧
        s.newPage fd = (t, .ok (some (⟨fd, s.disk.fd2pageno fd⟩, fr))) ∧
        Brought s fr ⟨fd, s.disk.fd2pageno fd⟩ zeroPage d t := by
  have hcount := findVictimPage_counted (s := s)
  rcases findVictimPage_spec s with ⟨t, heq, -⟩ | ⟨r, fr, heq, hav, hsize, hrep⟩
  · left
    simp only [BufferPool.newPage, heq, and_self]
  · right
    have hgood : Good { s with disk := (s.disk.allocatePage fd).1 } :=
      h.of_same ⟨rfl, rfl, fun _ => rfl, fun _ => rfl, rfl, rfl, fun _ => rfl⟩
    obtain ⟨d, hd, W⟩ := hgood.writeBack hav
    have hupdate : ({ s with freeList := s.freeList.erase fr, replacer := r, disk := (s.disk.allocatePage fd).1 } :
        BufferPool).updatePage fr ⟨fd, s.disk.fd2pageno fd⟩ = .ok { s with
        freeList := s.freeList.erase fr
        replacer := r
        disk := d
        pageTable := fun q => if q = ⟨fd, s.disk.fd2pageno fd⟩ then some fr else if q = (s.pages fr).id then none else s.pageTable q
        pages := fun i => if i = fr then ⟨⟨fd, s.disk.fd2pageno fd⟩, zeroPage,
          if (s.pages fr).id.pageNo = invalidPageId then (s.pages fr).isDirty else false, (s.pages fr).pinCount⟩ else s.pages i } := by
      have hd' : ({ s with freeList := s.freeList.erase fr, replacer := r, disk := (s.disk.allocatePage fd).1 } :
          BufferPool).writeBack (s.pages fr) = .ok d := hd
      simp only [updatePage, hd', bind, Except.bind]
      rfl
    refine ⟨fr, d, _, by rw [heq], hd, ⟨W.page, W.kept, W.contents⟩, by
      simp only [BufferPool.newPage, heq, Disk.allocatePage] at hupdate ⊢
      rw [hupdate], ?_⟩
    rw [heq] at hcount
    exact {
      toLoads := h.loads hsize hav hrep d (fun i hi => if_neg hi) (by simp only [if_pos]) Int.one_pos
      available := hav
      counted := fun hc => (hcount hc).pin fr
      data := by simp only [setPage, if_pos]
      pin := by simp only [setPage, if_pos]
      disk := rfl }

end BufferPool

/-! ### Sessions -/

namespace PoolSession
open BufferPool
variable {C : Type} [DecidableEq C] {s : PoolSession C} {fr : Nat} {id : PageId} {c : C}

/-- The pins of the clients are those of the frames. A frame has the bytes of the disk, or it is dirty, or a client that wrote
    to it will unpin it as dirty. -/
structure Inv (s : PoolSession C) : Prop where
  good : Good s.pool
  counted : s.pool.replacer.Counted
  held : ∀ p ∈ s.pins, s.pool.pageTable p.id = some p.frame
  count : ∀ id fr, s.pool.pageTable id = some fr → (s.pool.pages fr).pinCount = s.pins.countP (·.id = id)
  saved : ∀ id fr, s.pool.pageTable id = some fr →
    (s.pool.pages fr).isDirty = true ∨ s.pool.disk.pages id = some (s.pool.pages fr).data ∨ ∃ c, (c, id) ∈ s.wrote
  owes : ∀ c id, (c, id) ∈ s.wrote → s.Holds c id

theorem Inv.start (poolSize : Nat) (fds : Nat → Int) (disk : Disk) : Inv (start poolSize fds disk : PoolSession C) where
  good := Good.create poolSize fds disk
  counted := ClockReplacer.Counted.create poolSize
  held := fun p hp => by cases hp
  count := fun id fr h => by cases h
  saved := fun id fr h => by cases h
  owes := fun c id h => by cases h

theorem Inv.saved_of_unpinned (h : Inv s) (hid : s.pool.pageTable id = some fr) (hzero : (s.pool.pages fr).pinCount = 0) :
    (s.pool.pages fr).isDirty = true ∨ s.pool.disk.pages id = some (s.pool.pages fr).data := by
  rcases h.saved id fr hid with hdirty | hdisk | ⟨c, hc⟩
  · exact .inl hdirty
  · exact .inr hdisk
  · obtain ⟨p, hp, hpin⟩ := h.owes c id hc
    have hcount := h.count id fr hid
    rw [hzero] at hcount
    have hnone : s.pins.countP (·.id = id) = 0 := by omega
    have := List.countP_eq_zero.mp hnone p hp
    simp only [isPin, decide_eq_true_eq] at hpin this
    exact absurd hpin.2 this

/-- A page that is brought into the pool. Another page that was in the frame is on the disk. -/
theorem Inv.brought (h : Inv s) (wrote : List (C × PageId)) {data : Bytes} {d : Disk} {t : BufferPool}
    (k : Brought s.pool fr id data d t) (W : s.pool.WrittenBack fr d) (hnum : 0 ≤ id.pageNo)
    (hnew : ∀ g, s.pool.pageTable id = some g → g = fr)
    (hsaved : d.pages id = some data ∨ (c, id) ∈ wrote)
    (hsub : ∀ x ∈ s.wrote, x ∈ wrote) (hsup : ∀ x ∈ wrote, x ∈ s.wrote ∨ x = (c, id)) :
    Inv (⟨t, ⟨c, id, fr⟩ :: s.pins, wrote⟩ : PoolSession C) ∧ ∀ q, q ≠ id → t.view q = s.pool.view q := by
  have htab := h.good.load_table k.available k.toLoads hnew
  have hzero := h.good.pinCount_victim k.available
  -- the frame of a pin is not the victim, and the page of a pin is not the new one
  have hpin : ∀ p ∈ s.pins, p.frame ≠ fr ∧ p.id ≠ id := by
    intro p hp
    have hframe : p.frame ≠ fr := by
      intro hfr
      have hcount := h.count p.id p.frame (h.held p hp)
      rw [hfr, hzero] at hcount
      have hnone : s.pins.countP (·.id = p.id) = 0 := by omega
      have := List.countP_eq_zero.mp hnone p hp
      simp at this
    exact ⟨hframe, fun hid => hframe (hnew _ (hid ▸ h.held p hp))⟩
  have hholds : ∀ c' q, s.Holds c' q → Holds (⟨t, ⟨c, id, fr⟩ :: s.pins, wrote⟩ : PoolSession C) c' q := by
    rintro c' q ⟨p, hp, hpin⟩
    exact ⟨p, List.mem_cons_of_mem _ hp, hpin⟩
  refine ⟨?_, fun q hq => ?_⟩
  · exact {
      good := h.good.load k.available k.toLoads hnum hnew
      counted := k.counted h.counted
      held := fun p hp => by
        rcases List.mem_cons.mp hp with rfl | hp
        · exact (htab id fr).mpr (.inl ⟨rfl, rfl⟩)
        · exact (htab _ _).mpr (.inr ⟨(hpin p hp).1, h.held p hp⟩)
      count := fun q g hg => by
        rw [List.countP_cons]
        rcases (htab q g).mp hg with ⟨rfl, rfl⟩ | ⟨hne, hg⟩
        · have hnone : s.pins.countP (·.id = q) = 0 := by
            rw [List.countP_eq_zero]
            exact fun p hp => by simpa using (hpin p hp).2
          rw [k.pin, hnone]
          simp
        · have hq : id ≠ q := by
            rintro rfl
            exact hne (hnew g hg)
          rw [k.other g hne, h.count q g hg]
          simp [hq]
      saved := fun q g hg => by
        rcases (htab q g).mp hg with ⟨rfl, rfl⟩ | ⟨hne, hg⟩
        · rw [k.disk, k.data]
          exact .inr (hsaved.imp_right fun hw => ⟨c, hw⟩)
        · rw [k.other g hne, k.disk]
          rcases h.saved q g hg with hdirty | hdisk | ⟨c', hc'⟩
          · exact .inl hdirty
          · exact .inr (.inl (W.kept q _ hdisk fun hfr => absurd (Option.some.inj (hg.symm.trans hfr)) hne))
          · exact .inr (.inr ⟨c', hsub _ hc'⟩)
      owes := fun c' q hw => by
        rcases hsup _ hw with hw | heq
        · exact hholds c' q (h.owes c' q hw)
        · cases heq
          exact ⟨_, List.mem_cons_self, by simp [isPin]⟩ }
  · cases ht : t.pageTable q with
    | some g =>
      rcases (htab q g).mp ht with ⟨hid, -⟩ | ⟨hne, hg⟩
      · exact absurd hid hq
      · rw [view_some ht, view_some hg, k.other g hne]
    | none =>
      rw [view_none ht, k.disk]
      by_cases hfr : s.pool.pageTable q = some fr
      · -- the page that was in the frame
        obtain rfl := (h.good.table q fr hfr).2
        have hpage : d.pages (s.pool.pages fr).id = some (s.pool.pages fr).data := by
          by_cases hdirty : (s.pool.pages fr).isDirty = true
          · exact W.page hfr hdirty
          · have hdisk := (h.saved_of_unpinned hfr hzero).resolve_left hdirty
            exact W.kept _ _ hdisk fun _ => Bool.eq_false_iff.mpr hdirty
        rw [view_some hfr, Disk.contents, hpage, Option.getD_some]
      · have hnone : s.pool.pageTable q = none := by
          refine Option.eq_none_iff_forall_ne_some.mpr fun g hg => ?_
          have hne : g ≠ fr := fun heq => hfr (heq ▸ hg)
          rw [(htab q g).mpr (.inr ⟨hne, hg⟩)] at ht
          cases ht
        rw [view_none hnone, W.contents q hfr]

/-- A page of the pool is pinned once more. -/
theorem Inv.fetch_hit (h : Inv s) (hid : s.pool.pageTable id = some fr) :
    (s.pool.fetchPage id).2 = .ok (some fr) ∧
      Inv (⟨(s.pool.fetchPage id).1, ⟨c, id, fr⟩ :: s.pins, s.wrote⟩ : PoolSession C) ∧
      ((s.pool.fetchPage id).1.pages fr).data = s.pool.view id ∧ (s.pool.fetchPage id).1.view = s.pool.view := by
  have hfetch : s.pool.fetchPage id = ({ s.pool with replacer := s.pool.replacer.pin fr }.setPage fr
      { s.pool.pages fr with pinCount := (s.pool.pages fr).pinCount + 1 }, .ok (some fr)) := by
    simp only [fetchPage, hid]
  have hgood := h.good.fetchPage (congrArg Prod.snd hfetch)
  rw [hfetch] at hgood ⊢
  have hpages : ∀ g, (({ s.pool with replacer := s.pool.replacer.pin fr }.setPage fr
      { s.pool.pages fr with pinCount := (s.pool.pages fr).pinCount + 1 }).pages g).data = (s.pool.pages g).data := by
    intro g
    simp only [setPage]
    split
    · next hg => rw [hg]
    · rfl
  refine ⟨rfl, ?_, ?_, ?_⟩
  · exact {
      good := hgood
      counted := h.counted.pin fr
      held := fun p hp => by
        rcases List.mem_cons.mp hp with rfl | hp
        · exact hid
        · exact h.held p hp
      count := fun q g hg => by
        have hcount := h.count q g hg
        rw [List.countP_cons]
        by_cases hq : q = id
        · subst hq
          obtain rfl : g = fr := Option.some.inj (hg.symm.trans hid)
          simp [setPage, hcount]
        · have hne : g ≠ fr := by
            rintro rfl
            exact hq (h.good.injective q id g hg hid)
          simp [setPage, hne, Ne.symm hq, hcount]
      saved := fun q g hg => by
        rw [hpages]
        have hdirty : (({ s.pool with replacer := s.pool.replacer.pin fr }.setPage fr
            { s.pool.pages fr with pinCount := (s.pool.pages fr).pinCount + 1 }).pages g).isDirty = (s.pool.pages g).isDirty := by
          simp only [setPage]
          split
          · next hg => rw [hg]
          · rfl
        rw [hdirty]
        exact h.saved q g hg
      owes := fun c' q hw => by
        obtain ⟨p, hp, hpin⟩ := h.owes c' q hw
        exact ⟨p, List.mem_cons_of_mem _ hp, hpin⟩ }
  · rw [hpages, view_some hid]
  · exact funext fun q => view_congr rfl (fun _ => rfl) fun g _ => hpages g

/-- A client that holds a page writes to it. -/
theorem Inv.write (h : Inv s) (hhold : s.Holds c id) (data : Bytes) :
    ∃ fr, s.step (.write c id data) = .ok { s with
        pool := s.pool.setPage fr { s.pool.pages fr with data := data }, wrote := (c, id) :: s.wrote } ∧
      Inv { s with pool := s.pool.setPage fr { s.pool.pages fr with data := data }, wrote := (c, id) :: s.wrote } ∧
      (s.pool.setPage fr { s.pool.pages fr with data := data }).view = Function.update s.pool.view id data := by
  obtain ⟨p, hfind⟩ : ∃ p, s.pins.find? (isPin c id) = some p := by
    obtain ⟨p, hp, hpin⟩ := hhold
    exact Option.isSome_iff_exists.mp (List.find?_isSome.mpr ⟨p, hp, hpin⟩)
  have hmem := List.mem_of_find?_eq_some hfind
  have hpin : p.client = c ∧ p.id = id := by simpa [isPin] using List.find?_some hfind
  have hid : s.pool.pageTable id = some p.frame := hpin.2 ▸ h.held p hmem
  have hfields : ∀ g, ((s.pool.setPage p.frame { s.pool.pages p.frame with data := data }).pages g).id = (s.pool.pages g).id ∧
      ((s.pool.setPage p.frame { s.pool.pages p.frame with data := data }).pages g).pinCount = (s.pool.pages g).pinCount := by
    intro g
    simp only [setPage]
    split
    · next hg => rw [hg]; exact ⟨rfl, rfl⟩
    · exact ⟨rfl, rfl⟩
  refine ⟨p.frame, by simp only [step, hfind], ?_, ?_⟩
  · exact {
      good := h.good.of_same ⟨rfl, rfl, fun g => (hfields g).1, fun g => (hfields g).2, rfl, rfl, fun _ => rfl⟩
      counted := h.counted
      held := h.held
      count := fun q g hg => by
        rw [(hfields g).2]
        exact h.count q g hg
      saved := fun q g hg => by
        by_cases hq : q = id
        · exact .inr (.inr ⟨c, by rw [hq]; exact List.mem_cons_self⟩)
        · have hne : g ≠ p.frame := by
            rintro rfl
            exact hq (h.good.injective q id _ hg hid)
          simp only [setPage, if_neg hne]
          rcases h.saved q g hg with hdirty | hdisk | ⟨c', hc'⟩
          · exact .inl hdirty
          · exact .inr (.inl hdisk)
          · exact .inr (.inr ⟨c', List.mem_cons_of_mem _ hc'⟩)
      owes := fun c' q hw => by
        rcases List.mem_cons.mp hw with heq | hw
        · cases heq
          exact hhold
        · exact h.owes c' q hw }
  · funext q
    by_cases hq : q = id
    · subst hq
      have hid' : (s.pool.setPage p.frame { s.pool.pages p.frame with data := data }).pageTable q = some p.frame := hid
      rw [Function.update_self, view_some hid']
      simp only [setPage, if_pos]
    · rw [Function.update_of_ne hq]
      refine view_congr rfl (fun _ => rfl) fun g hg => ?_
      have hne : g ≠ p.frame := by
        rintro rfl
        exact hq (h.good.injective q id _ hg hid)
      simp only [setPage, if_neg hne]

/-- A frame is written to the disk. -/
theorem Inv.clean (h : Inv s) {d : Disk} (hid : s.pool.pageTable id = some fr) (W : s.pool.disk.Written id (s.pool.pages fr).data d) :
    Inv { s with pool := { s.pool with disk := d }.setPage fr { s.pool.pages fr with isDirty := false } } ∧
      ({ s.pool with disk := d }.setPage fr { s.pool.pages fr with isDirty := false }).view = s.pool.view := by
  have hpages : ∀ g, (({ s.pool with disk := d }.setPage fr { s.pool.pages fr with isDirty := false }).pages g).data =
      (s.pool.pages g).data := by
    intro g
    simp only [setPage]
    split
    · next hg => rw [hg]
    · rfl
  have hsame := Same.clean s.pool d fr
  refine ⟨?_, funext fun q => view_congr rfl (fun hnone => W.contents q fun hq => ?_) fun g _ => hpages g⟩
  · exact {
      good := h.good.of_same hsame
      counted := h.counted
      held := h.held
      count := fun q g hg => by
        rw [hsame.pinCount]
        exact h.count q g hg
      saved := fun q g hg => by
        rw [hpages]
        by_cases hq : q = id
        · subst hq
          obtain rfl : g = fr := Option.some.inj (Eq.trans (Eq.symm hg) hid)
          exact .inr (.inl W.at_id)
        · have hne : g ≠ fr := by
            rintro rfl
            exact hq (h.good.injective q id g hg hid)
          simp only [setPage, if_neg hne]
          rcases h.saved q g hg with hdirty | hdisk | hw
          · exact .inl hdirty
          · exact .inr (.inl (W.kept q _ hq hdisk))
          · exact .inr (.inr hw)
      owes := h.owes }
  · rw [hq, hid] at hnone
    cases hnone

theorem Inv.flushPage (h : Inv s) (id : PageId) :
    Inv { s with pool := (s.pool.flushPage id).1 } ∧ (s.pool.flushPage id).1.view = s.pool.view := by
  unfold BufferPool.flushPage
  split
  · exact ⟨h, rfl⟩
  · next fr hid =>
    split
    · exact ⟨h, rfl⟩
    · obtain ⟨d, hd, W⟩ := s.pool.disk.writePage_spec (s.pool.pages fr).data (h.good.named id fr hid)
      simp only [hd]
      exact h.clean hid W

theorem Inv.flushFrames (h : Inv s) (fd : Int) {frs : List Nat} (hfrs : ∀ fr ∈ frs, fr < s.pool.poolSize) :
    Inv { s with pool := (flushFrames fd frs s.pool).1 } ∧ (flushFrames fd frs s.pool).1.view = s.pool.view := by
  induction frs generalizing s with
  | nil => exact ⟨h, rfl⟩
  | cons fr frs ih =>
    have hrest : ∀ g ∈ frs, g < s.pool.poolSize := fun g hg => hfrs g (List.mem_cons_of_mem fr hg)
    simp only [BufferPool.flushFrames]
    split
    · next hfd =>
      -- a frame with a page number is in the page table
      obtain ⟨id, hid⟩ : s.pool.InTable fr := by
        rcases h.good.frames fr (hfrs fr List.mem_cons_self) with ⟨⟨hfree, -⟩, -⟩ | ⟨⟨-, -, hin⟩, -⟩ | ⟨⟨-, hin, -⟩, -⟩
        · exact absurd (h.good.free fr hfree).2.2 hfd.2
        · exact hin
        · exact hin
      obtain rfl := (h.good.table id fr hid).2
      obtain ⟨d, hd, W⟩ := s.pool.disk.writePage_spec (s.pool.pages fr).data (h.good.named _ fr hid)
      simp only [hd]
      obtain ⟨hinv, hview⟩ := h.clean hid W
      obtain ⟨hinv', hview'⟩ := ih hinv hrest
      exact ⟨hinv', hview'.trans hview⟩
    · exact ih h hrest

theorem countP_eraseP_isPin (hhold : s.Holds c id) (q : PageId) :
    ((s.pins.eraseP (isPin c id)).countP (·.id = q) : Int) = s.pins.countP (·.id = q) - if q = id then 1 else 0 := by
  obtain ⟨p, hp, hpin⟩ := hhold
  obtain ⟨a, A, B, -, ha, heq, herase⟩ := List.exists_of_eraseP hp hpin
  obtain ⟨-, rfl⟩ : a.client = c ∧ a.id = id := by simpa [isPin] using ha
  rw [herase, heq, List.countP_append, List.countP_append, List.countP_cons]
  by_cases hq : a.id = q
  · simp only [hq, decide_true, if_true]
    omega
  · simp only [hq, Ne.symm hq, decide_false, if_false, Bool.false_eq_true]
    omega

/-- A client releases a pin, or there is none to release. -/
theorem Inv.unpinPage (h : Inv s) (isDirty : Bool) (hown : s.Holds c id ∨ ∀ p ∈ s.pins, p.id ≠ id)
    (hwrote : (c, id) ∈ s.wrote → isDirty = true) :
    ∃ t, s.step (.unpinPage c id isDirty) = .ok t ∧ Inv t ∧ t.pool.view = s.pool.view := by
  have hgood : Good (s.pool.unpinPage id isDirty).1 := h.good.unpinPage isDirty
  cases hid : s.pool.pageTable id with
  | none => exact ⟨s, by simp [step, BufferPool.unpinPage, hid], h, rfl⟩
  | some fr =>
    by_cases hzero : (s.pool.pages fr).pinCount = 0
    · exact ⟨s, by simp [step, BufferPool.unpinPage, hid, hzero], h, rfl⟩
    · have hhold : s.Holds c id := by
        rcases hown with hhold | hnone
        · exact hhold
        · have hcount := h.count id fr hid
          rw [List.countP_eq_zero.mpr fun p hp => by simpa using hnone p hp] at hcount
          exact absurd hcount hzero
      have hunpin : s.pool.unpinPage id isDirty = ({ s.pool with
          replacer := if (s.pool.pages fr).pinCount - 1 = 0 then s.pool.replacer.unpin fr else s.pool.replacer }.setPage fr
          { s.pool.pages fr with
            pinCount := (s.pool.pages fr).pinCount - 1, isDirty := (s.pool.pages fr).isDirty || isDirty }, true) := by
        simp only [BufferPool.unpinPage, hid, if_neg hzero]
      rw [hunpin] at hgood
      refine ⟨⟨(s.pool.unpinPage id isDirty).1, s.pins.eraseP (isPin c id), s.wrote.filter (· ≠ (c, id))⟩,
        by simp only [step, hunpin, if_true], ?_, ?_⟩ <;> rw [hunpin]
      · exact {
          good := hgood
          counted := by
            simp only [setPage]
            split
            · exact h.counted.unpin fr
            · exact h.counted
          held := fun p hp => h.held p (List.mem_of_mem_eraseP hp)
          count := fun q g hg => by
            have hcount := h.count q g hg
            rw [countP_eraseP_isPin hhold]
            by_cases hq : q = id
            · subst hq
              obtain rfl : g = fr := Option.some.inj (Eq.trans (Eq.symm hg) hid)
              simp only [setPage, if_pos, hcount]
            · have hne : g ≠ fr := by
                rintro rfl
                exact hq (h.good.injective q id g hg hid)
              simp only [setPage, if_neg hne, if_neg hq, hcount, Int.sub_zero]
          saved := fun q g hg => by
            have hsaved := h.saved q g hg
            by_cases hq : q = id
            · subst hq
              obtain rfl : g = fr := Option.some.inj (Eq.trans (Eq.symm hg) hid)
              simp only [setPage, if_pos, Bool.or_eq_true, List.mem_filter]
              rcases hsaved with hdirty | hdisk | ⟨c', hc'⟩
              · exact .inl (.inl hdirty)
              · exact .inr (.inl hdisk)
              · by_cases hcc : c' = c
                · exact .inl (.inr (hwrote (hcc ▸ hc')))
                · exact .inr (.inr ⟨c', hc', by simp [hcc]⟩)
            · have hne : g ≠ fr := by
                rintro rfl
                exact hq (h.good.injective q id g hg hid)
              simp only [setPage, if_neg hne, List.mem_filter]
              rcases hsaved with hdirty | hdisk | ⟨c', hc'⟩
              · exact .inl hdirty
              · exact .inr (.inl hdisk)
              · exact .inr (.inr ⟨c', hc', by simp [hq]⟩)
          owes := fun c' q hw => by
            obtain ⟨hw, hne⟩ := List.mem_filter.mp hw
            obtain ⟨p, hp, hpin⟩ := h.owes c' q hw
            refine ⟨p, (List.mem_eraseP_of_neg fun hpin' => ?_).mpr hp, hpin⟩
            simp only [isPin, decide_eq_true_eq] at hpin hpin'
            simp only [ne_eq, Prod.mk.injEq, decide_eq_true_eq] at hne
            exact hne ⟨hpin.1.symm.trans hpin'.1, hpin.2.symm.trans hpin'.2⟩ }
      · refine funext fun q => view_congr rfl (fun _ => rfl) fun g _ => ?_
        simp only [setPage]
        split
        · next hg => rw [hg]
        · rfl

/-! ### Runs -/

/-- If a frame is given out, the file of the page reaches to it once the victim is written back. -/
def canRead (s : BufferPool) (id : PageId) : Bool :=
  s.findVictimPage.2.all fun fr => (s.writeBack (s.pages fr)).toOption.all fun d => (d.readPage id).toOption.isSome

/-- A page that is fetched is in the pool or can be read, and a new page is not given the number of a page in another frame. -/
def Reads (s : PoolSession C) : ClientAct C → Prop
  | .fetchPage _ id => s.pool.pageTable id = none → canRead s.pool id = true
  | .newPage _ fd => s.pool.Harmless (.newPage fd)
  | .write _ _ _ | .unpinPage _ _ _ | .flushPage _ | .flushAllPages _ => True

theorem Inv.no_victim (h : Inv s) (hnone : s.pool.findVictimPage.2 = none) :
    Inv { s with pool := s.pool.findVictimPage.1 } ∧ s.pool.findVictimPage.1.view = s.pool.view ∧ s.pool.AllPinned := by
  have hcounted := findVictimPage_counted h.counted
  rcases findVictimPage_spec s.pool with ⟨t, heq, hsame⟩ | ⟨r, fr, heq, -⟩
  · have hgood := h.good.of_same hsame
    rw [findVictimPage_none hnone] at heq hcounted ⊢
    cases heq
    exact ⟨⟨hgood, hcounted, h.held, h.count, h.saved, h.owes⟩, rfl, h.good.allPinned h.counted hnone⟩
  · rw [heq] at hnone
    cases hnone

theorem Inv.step (h : Inv s) {a : ClientAct C} (hdis : s.Disciplined a) (hreads : s.Reads a) :
    ∃ t, s.step a = .ok t ∧ Inv t ∧ s.pool.Answers s.pool.view a ∧ t.pool.view = FlatStore.after s a t s.pool.view := by
  cases a with
  | fetchPage c id =>
    cases hid : s.pool.pageTable id with
    | some fr =>
      obtain ⟨hres, hinv, hdata, hview⟩ := h.fetch_hit (c := c) hid
      refine ⟨_, by simp only [PoolSession.step, hres], hinv, ⟨fun g hg => ?_, fun hnone => ?_⟩, hview⟩
      · rw [hres] at hg
        cases hg
        exact hdata
      · rw [hres] at hnone
        cases hnone
    | none =>
      rcases h.good.fetch_miss hid with ⟨hnone, hfetch⟩ | ⟨fr, d, hvictim, hback, W, hload, -⟩
      · obtain ⟨hinv, hview, hall⟩ := h.no_victim hnone
        refine ⟨_, by simp only [PoolSession.step, hfetch], hinv, ⟨fun g hg => ?_, fun _ => hall⟩, hview⟩
        rw [hfetch] at hg
        cases hg
      · obtain ⟨data, hread⟩ : ∃ data, d.readPage id = .ok data := by
          have hcan : (d.readPage id).toOption.isSome = true := by
            simpa [canRead, hvictim, hback, Except.toOption] using hreads hid
          cases hread : d.readPage id with
          | error e =>
            rw [hread] at hcan
            cases hcan
          | ok data => exact ⟨data, rfl⟩
        obtain ⟨t, hfetch, k⟩ := hload data hread
        have hpage := Disk.readPage_spec hread
        obtain ⟨hinv, hother⟩ := h.brought (c := c) s.wrote k W (readPage_ok hread) (fun g hg => by rw [hid] at hg; cases hg)
          (.inl hpage) (fun x hx => hx) (fun x hx => .inl hx)
        have hcontents : s.pool.view id = data := by
          rw [view_none hid, ← W.contents id (by simp [hid]), Disk.contents, hpage, Option.getD_some]
        refine ⟨_, by simp only [PoolSession.step, hfetch], hinv, ⟨fun g hg => ?_, fun hnone => ?_⟩, funext fun q => ?_⟩
        · rw [hfetch] at hg ⊢
          cases hg
          rw [hcontents]
          exact k.data
        · rw [hfetch] at hnone
          cases hnone
        · by_cases hq : q = id
          · subst hq
            have htab : t.pageTable q = some fr := (k.table q).trans (if_pos rfl)
            show t.view q = s.pool.view q
            rw [view_some htab, k.data, hcontents]
          · exact hother q hq
  | newPage c fd =>
    rcases h.good.new_brought fd with ⟨hnone, hnew⟩ | ⟨fr, d, t, hvictim, -, W, hnew, k⟩
    · obtain ⟨hinv, hview, hall⟩ := h.no_victim hnone
      refine ⟨_, by simp only [PoolSession.step, hnew], hinv, ⟨fun id g hg => ?_, fun _ => hall⟩, ?_⟩
      · rw [hnew] at hg
        cases hg
      · simp only [FlatStore.after, hnew]
        exact hview
    · obtain ⟨hinv, hother⟩ := h.brought (c := c) ((c, ⟨fd, s.pool.disk.fd2pageno fd⟩) :: s.wrote) k W (Int.natCast_nonneg _)
        (fun g hg => hreads g fr hg hvictim) (.inr List.mem_cons_self) (fun x hx => List.mem_cons_of_mem _ hx)
        (fun x hx => (List.mem_cons.mp hx).symm)
      refine ⟨_, by simp only [PoolSession.step, hnew], hinv, ⟨fun id g hg => ?_, fun hnone => ?_⟩, funext fun q => ?_⟩
      · rw [hnew] at hg ⊢
        cases hg
        exact k.data
      · rw [hnew] at hnone
        cases hnone
      · simp only [FlatStore.after, hnew, FlatStore.write]
        by_cases hq : q = ⟨fd, s.pool.disk.fd2pageno fd⟩
        · subst hq
          have htab : t.pageTable ⟨fd, s.pool.disk.fd2pageno fd⟩ = some fr := (k.table _).trans (if_pos rfl)
          rw [Function.update_self, view_some htab, k.data]
        · rw [Function.update_of_ne hq]
          exact hother q hq
  | write c id data =>
    obtain ⟨fr, hstep, hinv, hview⟩ := h.write hdis data
    exact ⟨_, hstep, hinv, trivial, hview⟩
  | unpinPage c id isDirty =>
    obtain ⟨t, hstep, hinv, hview⟩ := h.unpinPage isDirty hdis.1 hdis.2
    exact ⟨t, hstep, hinv, trivial, hview⟩
  | flushPage id =>
    obtain ⟨hinv, hview⟩ := h.flushPage id
    exact ⟨_, rfl, hinv, trivial, hview⟩
  | flushAllPages fd =>
    obtain ⟨hinv, hview⟩ := h.flushFrames fd (fun fr hfr => List.mem_range.mp hfr)
    exact ⟨_, rfl, hinv, trivial, hview⟩

end PoolSession

open BufferPool PoolSession

/-- In every run of clients that pin what they write and unpin it as dirty, the pool gives back what was written last, and gives
    out no page only when all frames are pinned, as long as no page is fetched that is neither in the pool nor on the disk. -/
theorem bufferPool_refines_flatStore {C : Type} [DecidableEq C] (poolSize : Nat) (fds : Nat → Int) (disk : Disk)
    {as : List (ClientAct C)}
    (hdis : Runs.Throughout PoolSession.step Disciplined (PoolSession.start poolSize fds disk) as)
    (hreads : Runs.Throughout PoolSession.step Reads (PoolSession.start poolSize fds disk) as) :
    Runs.EachStep (Runs.noting PoolSession.step FlatStore.after) (fun p a q => p.1.pool.Answers p.2 a ∧ q.1.pool.view = q.2)
      (PoolSession.start poolSize fds disk, disk.contents) as := by
  refine Runs.eachStep_of_invariant (I := fun p => p.1.Inv ∧ p.1.pool.view = p.2) ?_ ⟨Inv.start poolSize fds disk, rfl⟩
    ((Runs.throughout_noting _ _).mpr (hdis.and hreads))
  rintro ⟨s, f⟩ a ⟨hinv, hview⟩ ⟨hd, hr⟩
  obtain rfl : s.pool.view = f := hview
  obtain ⟨t, hstep, hinv', hans, hview'⟩ := hinv.step hd hr
  exact ⟨_, Runs.noting_ok hstep _, ⟨hinv', hview'⟩, hans, hview'⟩

/-- A client writes to the page that it creates, which is evicted and fetched again. -/
def writeAndEvict : List (ClientAct Unit) :=
  [.newPage () 3, .write () ⟨3, 0⟩ [7], .unpinPage () ⟨3, 0⟩ true, .newPage () 3, .unpinPage () ⟨3, 1⟩ true, .fetchPage () ⟨3, 0⟩]

def readsTest (s : PoolSession Unit) : ClientAct Unit → Bool
  | .fetchPage _ id => (s.pool.pageTable id).isSome || canRead s.pool id
  | .newPage _ fd => (s.pool.pageTable ⟨fd, s.pool.disk.fd2pageno fd⟩).isNone
  | .write _ _ _ | .unpinPage _ _ _ | .flushPage _ | .flushAllPages _ => true

theorem reads_of_test (s : PoolSession Unit) (a : ClientAct Unit) (h : readsTest s a = true) : s.Reads a := by
  cases a with
  | fetchPage c id =>
    intro hnone
    simpa [readsTest, hnone] using h
  | newPage c fd =>
    intro g fr hg
    simp [readsTest, hg] at h
  | write c id data => trivial
  | unpinPage c id isDirty => trivial
  | flushPage id => trivial
  | flushAllPages fd => trivial

theorem bufferPool_refines_flatStore_evicted :
    Runs.EachStep (Runs.noting PoolSession.step FlatStore.after) (fun p a q => p.1.pool.Answers p.2 a ∧ q.1.pool.view = q.2)
      (PoolSession.start 1 (fun _ => 0) emptyDisk, emptyDisk.contents) writeAndEvict := by
  refine bufferPool_refines_flatStore 1 _ emptyDisk ?_ (Runs.throughout_of_check reads_of_test (by decide))
  exact Runs.throughout_of_check (fun s a h => of_decide_eq_true h) (by decide)

/-- A client fetches a page that does not exist. -/
def fetchMissing : List (ClientAct Unit) := [.fetchPage () ⟨3, 0⟩]

/-- There is a frame that nobody has pinned, and no page can be created. -/
def frameLost (s : PoolSession Unit) : Bool :=
  match (s.pool.newPage 3).2 with
  | .ok none => (s.pool.pages 0).pinCount = 0 && s.pool.poolSize = 1
  | .ok (some _) => false
  | .error _ => false

/-- The frame that was taken for the missing page is neither free nor evictable nor pinned. -/
theorem bufferPool_loses_frame :
    Runs.Throughout PoolSession.step Disciplined (PoolSession.start 1 (fun _ => 0) emptyDisk) (fetchMissing ++ [.newPage () 3]) ∧
    ¬Runs.EachStep (Runs.noting PoolSession.step FlatStore.after) (fun p a q => p.1.pool.Answers p.2 a ∧ q.1.pool.view = q.2)
      (PoolSession.start 1 (fun _ => 0) emptyDisk, emptyDisk.contents) (fetchMissing ++ [.newPage () 3]) := by
  refine ⟨⟨trivial, fun _ _ => ⟨trivial, fun _ _ => trivial⟩⟩, fun h => ?_⟩
  obtain ⟨t, ht, hview⟩ := Runs.exec_eval (Runs.noting PoolSession.step FlatStore.after)
    (PoolSession.start 1 (fun _ => 0) emptyDisk, emptyDisk.contents) fetchMissing (fun p => frameLost p.1) (b := true) (by decide)
  obtain ⟨u, -, ⟨-, hall⟩, -⟩ := h.at_exec ht
  unfold frameLost at hview
  split at hview
  · next hnone =>
    simp only [Bool.and_eq_true, decide_eq_true_eq] at hview
    have hpos := hall hnone 0 (by omega)
    omega
  · cases hview
  · cases hview

end Rmdb
