import Rmdb.Storage.DiskIo
import Rmdb.Theorems.Storage.BufferPool

/-! What an exception inside `fetch_page` leaves behind.

The victim has been taken out of the free list or the replacer when the disk operations run, and nothing puts it back; when
the read fails, the page table names the page already. -/

namespace Rmdb.BufferPool
variable {io : DiskIo} {s t : BufferPool} {id : PageId} {fr : Nat} {e : DiskError}

/-- The frame is in circulation: free, evictable, or held by somebody who will release it. -/
def InCirculation (s : BufferPool) (fr : Nat) : Prop := fr ∈ s.freeList ∨ s.InReplacer fr ∨ 0 < (s.pages fr).pinCount

/-- What an exception of `fetch_page` must leave: a pool with its invariant and with all its frames, in which a later
    `fetch_page` of the page returns what it reads from the disk. -/
structure Recovered (t : BufferPool) (id : PageId) : Prop where
  inv : Inv t
  frames : ∀ fr < t.poolSize, t.InCirculation fr
  rereads : ∀ (io : DiskIo) (fr : Nat), (t.fetchPageIo io id).2 = .ok (some fr) →
    io.readPage (t.fetchPageIo io id).1.disk id = .ok ((t.fetchPageIo io id).1.pages fr).data

/-- A frame that is lost breaks the invariant. -/
theorem OneState.inCirculation (h : s.OneState fr) : s.InCirculation fr := by
  rcases h with ⟨⟨hfree, -⟩, -⟩ | ⟨⟨hrep, -⟩, -⟩ | ⟨⟨hpin, -⟩, -⟩
  · exact Or.inl hfree
  · exact Or.inr (Or.inl hrep)
  · exact Or.inr (Or.inr hpin)

theorem updatePageIo_spec (h : s.updatePageIo io fr id = .ok t) : ∃ disk dirty, t = { s with
    disk := disk
    pageTable := fun q => if q = id then some fr else if q = (s.pages fr).id then none else s.pageTable q
    pages := fun i => if i = fr then { s.pages fr with id := id, data := zeroPage, isDirty := dirty } else s.pages i } := by
  rw [updatePageIo] at h
  obtain ⟨disk, -, h⟩ := Runs.ok_of_bind h
  cases h
  exact ⟨disk, _, rfl⟩

/-- The victim has no place in the pool while the disk operations run. -/
theorem Good.victim_lost (h : Good s) (hv : s.findVictimPage = (t, some fr)) :
    fr < s.poolSize ∧ t.poolSize = s.poolSize ∧ fr ∉ t.freeList ∧ ¬t.InReplacer fr ∧ (t.pages fr).pinCount = 0 := by
  cases hfree : s.freeList with
  | cons fr' rest =>
    rw [findVictimPage_cons hfree] at hv
    cases hv
    have hmem : fr ∈ s.freeList := hfree ▸ List.mem_cons_self
    obtain ⟨hlt, hzero, -⟩ := h.free fr hmem
    refine ⟨hlt, rfl, (List.nodup_cons.mp (hfree ▸ h.nodup)).1, fun hrep => ?_, hzero⟩
    rcases h.frames fr hlt with ⟨-, hnot⟩ | ⟨-, hnot⟩ | ⟨-, hnot⟩
    · exact hnot hrep
    · exact hnot hmem
    · exact hnot hmem
  | nil =>
    have V := s.replacer.victim_spec
    rw [findVictimPage_nil hfree, Prod.mk.injEq] at hv
    obtain ⟨rfl, hfr⟩ := hv
    have hav : s.Available fr := Or.inr (V.found fr hfr)
    refine ⟨h.available_lt hav, rfl, hfree ▸ List.not_mem_nil, fun hrep => ?_, h.pinCount_victim hav⟩
    rw [InReplacer, V.frames fr, if_pos hfr] at hrep
    cases hrep

/-- Whichever operation fails, the frame of the victim is lost. -/
theorem Good.lost_of_error (h : Good s) (herr : (s.fetchPageIo io id).2 = .error e) :
    ∃ fr < (s.fetchPageIo io id).1.poolSize, ¬(s.fetchPageIo io id).1.InCirculation fr := by
  cases hp : s.pageTable id with
  | some fr =>
    simp only [fetchPageIo, hp] at herr
    cases herr
  | none =>
    match hv : s.findVictimPage with
    | (t, none) =>
      simp only [fetchPageIo, hp, hv] at herr
      cases herr
    | (t, some fr) =>
      obtain ⟨hlt, hsize, hfree, hrep, hpin⟩ := h.victim_lost hv
      have hlost : ¬t.InCirculation fr := by
        rintro (hin | hin | hin)
        · exact hfree hin
        · exact hrep hin
        · exact absurd hpin hin.ne'
      cases hu : t.updatePageIo io fr id with
      | error e' =>
        -- the write-back raises before anything else is changed
        simp only [fetchPageIo, hp, hv, hu]
        exact ⟨fr, hsize ▸ hlt, hlost⟩
      | ok u =>
        cases hr : io.readPage u.disk id with
        | error e' =>
          -- the page table names the new page, which nobody has pinned
          simp only [fetchPageIo, hp, hv, hu, hr]
          obtain ⟨disk, dirty, rfl⟩ := updatePageIo_spec hu
          refine ⟨fr, hsize ▸ hlt, fun hin => hlost ?_⟩
          simpa only [InCirculation, InReplacer, if_pos] using hin
        | ok data =>
          simp only [fetchPageIo, hp, hv, hu, hr] at herr
          cases herr

/-- A page whose read has failed is returned by the next `fetch_page` without a read: it is all zeros. -/
theorem fetch_unread (hnone : s.pageTable id = none) (hv : s.findVictimPage = (t, some fr)) {u : BufferPool}
    (hu : t.updatePageIo io fr id = .ok u) (hr : io.readPage u.disk id = .error e) (io' : DiskIo) :
    ∃ v, (s.fetchPageIo io id).1.fetchPageIo io' id = (v, .ok (some fr)) ∧ (v.pages fr).data = zeroPage := by
  have hstate : (s.fetchPageIo io id).1 = u := by simp only [fetchPageIo, hnone, hv, hu, hr]
  obtain ⟨disk, dirty, rfl⟩ := updatePageIo_spec hu
  rw [hstate]
  simp only [fetchPageIo, if_pos]
  exact ⟨_, rfl, by simp only [setPage, if_pos]⟩

/-- For every state of the pool and every page, an exception of `read_page` or `write_page` inside `fetch_page` leaves a pool
    that has not recovered from it. -/
theorem fetchPage_never_recovers {s : BufferPool} (h : Good s) (io : DiskIo) (id : PageId) (e : DiskError)
    (herr : (s.fetchPageIo io id).2 = .error e) : ¬Recovered (s.fetchPageIo io id).1 id := by
  intro hrec
  obtain ⟨fr, hlt, hlost⟩ := h.lost_of_error herr
  exact hlost (hrec.frames fr hlt)

/-- A page that is not in the file. -/
theorem fetchPage_never_recovers_missing :
    ¬Recovered ((create 1 (fun _ => 0) emptyDisk).fetchPageIo ⟨Disk.readPage, fun _ id _ => .error (.writeFailed id)⟩ ⟨3, 0⟩).1 ⟨3, 0⟩ :=
  fetchPage_never_recovers (Good.create 1 (fun _ => 0) emptyDisk) _ ⟨3, 0⟩ (.readFailed ⟨3, 0⟩) rfl

/-- The page is not in the file: the only frame is lost, and the page then passes for one of zeros that was read. -/
theorem fetchPage_not_recovered : ∃ s : BufferPool, Good s ∧ (s.fetchPageIo .working ⟨3, 0⟩).2 = .error (.readFailed ⟨3, 0⟩) ∧
    ¬Inv (s.fetchPageIo .working ⟨3, 0⟩).1 ∧ ¬Recovered (s.fetchPageIo .working ⟨3, 0⟩).1 ⟨3, 0⟩ := by
  have hlost : ¬((create 1 (fun _ => 0) emptyDisk).fetchPageIo .working ⟨3, 0⟩).1.InCirculation 0 := by
    rintro (hin | hin | hin)
    · cases hin
    · cases hin
    · exact absurd hin (by decide)
  refine ⟨create 1 (fun _ => 0) emptyDisk, Good.create 1 _ _, rfl, fun hinv => ?_, fun hrec => ?_⟩
  · exact hlost (hinv.frames 0 Nat.zero_lt_one).inCirculation
  · cases hrec.rereads .working 0 rfl

end Rmdb.BufferPool
