import Rmdb.Theorems.Record.Operations
import Mathlib.Data.Finmap

/-! A record file over whole runs: its free pages stay linked, and it is a finite map from positions to records. -/

namespace Rmdb
open RmFile

theorem numRecordsPerPage_pos {n : Nat} (h : RmAccepts n) : 0 < numRecordsPerPage n := by
  obtain ⟨-, hle⟩ := h
  rw [rmMaxRecordSize] at hle
  rw [numRecordsPerPage, pageSize, sizeofRmFileHdr]
  exact Nat.div_pos (by omega) (by omega)

namespace RmFile
variable {n : Nat}

theorem Heap.create (h : RmAccepts n) : Heap (RmFile.create n) [] where
  linked := rfl
  nodup := List.nodup_nil
  mem := fun p => by simp [HasRoom, RmFile.create]
  slot := numRecordsPerPage_pos h
  pages := fun p => by
    simp only [RmFile.create, Option.isSome_none, Bool.false_eq_true, false_iff]
    omega
  header := le_rfl
  next := rfl
  page := fun p page hp => by cases hp

/-- The head of the free pages is the page that the insertion at a position fills, if it fills one. -/
def FillsHead (f : RmFile) (c : RmCall n) : Prop :=
  ∀ rid buf, c = .insertRecordAt rid buf → f.Fills rid → f.firstFreePageNo = rid.pageNo

/-- A file with its free pages linked and as many slots on a page as `create_file` set. -/
def Sound (n : Nat) (f : RmFile) : Prop := f.perPage = numRecordsPerPage n ∧ ∃ l, Heap f l

theorem Sound.of_extends {f g : RmFile} (h : Sound n f) (hext : Extends f g) {l : List Int} (H : Heap g l) : Sound n g :=
  ⟨hext.perPage.trans h.1, l, H⟩

/-! ### Calls -/

section
variable {f g : RmFile} {c : RmCall n} {r : RmReply}

theorem call_ok (h : f.callResult c = .ok (g, r)) : f.call c = .ok (g, r) := by simp only [call, h]

theorem call_notFound {p s : Int} (h : f.callResult c = .error (.recordNotFound p s)) :
    f.call c = .ok (f, .raised (.recordNotFound p s)) := by simp only [call, h]

theorem call_occupied (h : f.callResult c = .error .slotOccupied) : f.call c = .ok (f, .raised .slotOccupied) := by
  simp only [call, h]

theorem step_of_call (h : f.call c = .ok (g, r)) : f.step c = .ok g := by simp only [step, h, Except.map]

/-- What a call does to the records of a file and what it returns. -/
def Effect (f : RmFile) (c : RmCall n) (g : RmFile) (r : RmReply) : Prop :=
  match c with
  | .insertRecord buf => ∃ rid, r = .rid rid ∧ InFile g rid ∧ f.lookup rid = none ∧
      ∀ q, g.lookup q = if q = rid then some buf.val else f.lookup q
  | .insertRecordsBatch bufs => ∃ rids, r = .rids rids ∧ Batch f (bufs.map (·.val)) g rids
  | .deleteRecord rid => (f.lookup rid = none ∧ g = f ∧ ∃ s, r = .raised (.recordNotFound rid.pageNo s)) ∨
      ((f.lookup rid).isSome ∧ r = .done ∧ ∀ q, g.lookup q = if q = rid then none else f.lookup q)
  | .updateRecord rid buf => (f.lookup rid = none ∧ g = f ∧ ∃ s, r = .raised (.recordNotFound rid.pageNo s)) ∨
      ((f.lookup rid).isSome ∧ r = .done ∧ ∀ q, g.lookup q = if q = rid then some buf.val else f.lookup q)
  | .getRecord rid => g = f ∧ ((f.lookup rid = none ∧ ∃ s, r = .raised (.recordNotFound rid.pageNo s)) ∨
      ∃ buf, f.lookup rid = some buf ∧ r = .record buf)
  | .insertRecordAt _ _ => True

/-- Every call but an insertion at a position keeps the free pages linked. -/
theorem call_spec (h : Sound n f) (haddr : c.Addresses (numRecordsPerPage n)) (hat : ∀ rid buf, c ≠ .insertRecordAt rid buf) :
    ∃ g r, f.call c = .ok (g, r) ∧ Sound n g ∧ Effect f c g r := by
  obtain ⟨l, H⟩ := h.2
  cases c with
  | insertRecord buf =>
    obtain ⟨g, rid, l', hop, H', hext, hin, hfresh, hget⟩ := H.insertRecord buf.val
    refine ⟨g, .rid rid, call_ok ?_, h.of_extends hext H', rid, rfl, hin, hfresh, hget⟩
    simp only [callResult, hop, bind, Except.bind]
  | insertRecordAt rid buf => exact absurd rfl (hat rid buf)
  | insertRecordsBatch bufs =>
    obtain ⟨g, rids, l', hop, H', hbatch⟩ := H.insertRecordsBatch (bufs.map (·.val))
    refine ⟨g, .rids rids, call_ok ?_, h.of_extends hbatch.ext H', rids, rfl, hbatch⟩
    simp only [callResult, hop, bind, Except.bind]
  | deleteRecord rid =>
    obtain ⟨h0, hslot⟩ := haddr
    rw [← h.1] at hslot
    rcases H.deleteRecord h0 hslot with ⟨hnone, s, hop⟩ | ⟨g, l', hsome, hop, H', hext, hget⟩
    · refine ⟨f, _, call_notFound (by simp only [callResult, hop, bind, Except.bind]), h, Or.inl ⟨hnone, rfl, s, rfl⟩⟩
    · refine ⟨g, .done, call_ok ?_, h.of_extends hext H', Or.inr ⟨hsome, rfl, hget⟩⟩
      simp only [callResult, hop, bind, Except.bind]
  | updateRecord rid buf =>
    obtain ⟨h0, hslot⟩ := haddr
    rw [← h.1] at hslot
    rcases H.updateRecord h0 hslot buf.val with ⟨hnone, s, hop⟩ | ⟨g, hsome, hop, H', hext, hget⟩
    · refine ⟨f, _, call_notFound (by simp only [callResult, hop, bind, Except.bind]), h, Or.inl ⟨hnone, rfl, s, rfl⟩⟩
    · refine ⟨g, .done, call_ok ?_, h.of_extends hext H', Or.inr ⟨hsome, rfl, hget⟩⟩
      simp only [callResult, hop, bind, Except.bind]
  | getRecord rid =>
    obtain ⟨h0, hslot⟩ := haddr
    rw [← h.1] at hslot
    rcases H.getRecord h0 hslot with ⟨hnone, s, hop⟩ | ⟨buf, hsome, hop⟩
    · refine ⟨f, _, call_notFound (by simp only [callResult, hop, bind, Except.bind]), h, rfl, Or.inl ⟨hnone, s, rfl⟩⟩
    · refine ⟨f, .record buf, call_ok ?_, h, rfl, Or.inr ⟨buf, hsome, rfl⟩⟩
      simp only [callResult, hop, bind, Except.bind]

/-- A call keeps the free pages linked exactly when it does not fill a page in the middle of the list. -/
theorem step_freePages (h : Sound n f) (haddr : c.Addresses (numRecordsPerPage n)) :
    ∃ g, f.step c = .ok g ∧ (FillsHead f c → Sound n g) ∧ (¬FillsHead f c → ¬HeapInv g) := by
  by_cases hat : ∃ rid buf, c = .insertRecordAt rid buf
  · obtain ⟨rid, buf, rfl⟩ := hat
    obtain ⟨l, H⟩ := h.2
    obtain ⟨h0, hslot⟩ := haddr
    rw [← h.1] at hslot
    have hhead : FillsHead f (RmCall.insertRecordAt rid buf) ↔ (f.Fills rid → f.firstFreePageNo = rid.pageNo) := by
      refine ⟨fun hf => hf rid buf rfl, ?_⟩
      rintro hf _ _ heq
      cases heq
      exact hf
    rw [hhead]
    rcases H.insertRecordAt h0 hslot buf.val with ⟨hfills, hop | hop⟩ | ⟨g, hop, hkeep, hbreak⟩
    · have hcall := call_notFound (f := f) (c := RmCall.insertRecordAt rid buf) (p := rid.pageNo) (s := -1)
        (by simp only [callResult, hop, bind, Except.bind])
      exact ⟨f, step_of_call hcall, fun _ => h, fun hnot => absurd (fun hf => absurd hf hfills) hnot⟩
    · have hcall := call_occupied (f := f) (c := RmCall.insertRecordAt rid buf)
        (by simp only [callResult, hop, bind, Except.bind])
      exact ⟨f, step_of_call hcall, fun _ => h, fun hnot => absurd (fun hf => absurd hf hfills) hnot⟩
    · have hcall : f.call (RmCall.insertRecordAt rid buf) = .ok (g, .done) :=
        call_ok (by simp only [callResult, hop, bind, Except.bind])
      refine ⟨g, step_of_call hcall, fun hf => ?_, hbreak⟩
      obtain ⟨⟨l', H'⟩, hext⟩ := hkeep hf
      exact h.of_extends hext H'
  · have hat' : ∀ rid buf, c ≠ .insertRecordAt rid buf := fun rid buf heq => hat ⟨rid, buf, heq⟩
    obtain ⟨g, r, hcall, hg, -⟩ := call_spec h haddr hat'
    exact ⟨g, step_of_call hcall, fun _ => hg, fun hnot => absurd (fun rid buf heq => absurd heq (hat' rid buf)) hnot⟩

end
end RmFile

/-- In every run on a new table file the free pages stay linked and the record counts right exactly when every
    `insert_record(rid, buf)` that fills a page does so at the head of the free pages. -/
theorem rmFile_heapInv_iff {n : Nat} (hn : RmAccepts n) (cs : List (RmCall n))
    (haddr : ∀ c ∈ cs, c.Addresses (numRecordsPerPage n)) :
    Runs.Always RmFile.step HeapInv (RmFile.create n) cs ↔ Runs.Throughout RmFile.step FillsHead (RmFile.create n) cs :=
  Runs.always_iff_throughout (I := Sound n) (D := fun _ c => c.Addresses (numRecordsPerPage n))
    (fun _ _ h hc => step_freePages h hc) (fun _ h => h.2.choose_spec.inv) ⟨rfl, [], Heap.create hn⟩
    (Runs.throughout_of_forall haddr)

/-- A record of zeros. -/
def zeroRecord (n : Nat) : Record n := ⟨List.replicate n 0, List.length_replicate⟩

theorem rmFile_heapInv_iff_four : Runs.Always RmFile.step HeapInv (RmFile.create 4)
    [.insertRecord (zeroRecord 4), .deleteRecord ⟨1, 0⟩, .insertRecordsBatch [zeroRecord 4, zeroRecord 4]] := by
  refine (rmFile_heapInv_iff ⟨by decide, by decide⟩ _ ?_).mpr ?_
  · simp [RmCall.Addresses]
    decide
  · exact ⟨by simp [FillsHead], fun _ _ => ⟨by simp [FillsHead], fun _ _ => ⟨by simp [FillsHead], fun _ _ => trivial⟩⟩⟩

/-- Two full pages, a record of each deleted, and the slot of the first page filled again by position. -/
def refillSecond : List (RmCall 512) :=
  [.insertRecordsBatch (List.replicate 14 (zeroRecord 512)), .deleteRecord ⟨1, 0⟩, .deleteRecord ⟨2, 0⟩,
    .insertRecordAt ⟨1, 0⟩ (zeroRecord 512)]

/-- Page 1 is full again and stays behind page 2 in the list of free pages. -/
theorem rmFile_heapInv_refilled : ¬Runs.Always RmFile.step HeapInv (RmFile.create 512) refillSecond := by
  intro h
  obtain ⟨t, ht, hview⟩ := Runs.exec_eval RmFile.step (RmFile.create 512) refillSecond
    (fun t => (t.firstFreePageNo, t.nextFree 2, (t.pages 1).map (·.numRecords), t.perPage)) (b := (2, 1, some 7, 7))
    (by decide)
  simp only [Prod.mk.injEq] at hview
  obtain ⟨hfirst, hnext, hcount, hper⟩ := hview
  obtain ⟨l, hl⟩ := (h.at_end ht).free
  obtain ⟨l₁, rfl, hl₁⟩ := hl.linked.pop (by rw [hfirst]; decide)
  rw [hfirst, hnext] at hl₁
  obtain ⟨l₂, rfl, -⟩ := hl₁.pop (by decide)
  obtain ⟨page, hpage, hroom⟩ := (hl.mem 1).mp (by simp)
  rw [hpage, Option.map_some, Option.some.injEq] at hcount
  rw [hcount, hper] at hroom
  exact absurd hroom (by decide)

/-! ### The map of a file -/

/-- A finite map from positions to records. -/
abbrev RmMap (n : Nat) := Finmap fun _ : Rid => Record n

/-- What a call on the map returns and leaves. -/
inductive RmMap.Step {n : Nat} (m : RmMap n) : RmCall n → RmReply → RmMap n → Prop where
  | insertRecord (buf : Record n) (rid : Rid) : rid ∉ m → Step m (.insertRecord buf) (.rid rid) (m.insert rid buf)
  | insertRecordsBatch (bufs : List (Record n)) (rids : List Rid) : rids.length = bufs.length → rids.Nodup → (∀ rid ∈ rids, rid ∉ m) →
    Step m (.insertRecordsBatch bufs) (.rids rids) ((rids.zip bufs).foldr (fun e m => m.insert e.1 e.2) m)
  | deleteRecord (rid : Rid) : rid ∈ m → Step m (.deleteRecord rid) .done (m.erase rid)
  | deleteRecord_missing (rid : Rid) (slot : Int) : rid ∉ m →
    Step m (.deleteRecord rid) (.raised (.recordNotFound rid.pageNo slot)) m
  | updateRecord (rid : Rid) (buf : Record n) : rid ∈ m → Step m (.updateRecord rid buf) .done (m.insert rid buf)
  | updateRecord_missing (rid : Rid) (buf : Record n) (slot : Int) : rid ∉ m →
    Step m (.updateRecord rid buf) (.raised (.recordNotFound rid.pageNo slot)) m
  | getRecord (rid : Rid) (buf : Record n) : m.lookup rid = some buf → Step m (.getRecord rid) (.record buf.val) m
  | getRecord_missing (rid : Rid) (slot : Int) : rid ∉ m →
    Step m (.getRecord rid) (.raised (.recordNotFound rid.pageNo slot)) m

/-- The positions that an insertion returns. -/
def RmReply.newRids : RmReply → List Rid
  | .rid r => [r]
  | .rids rs => rs
  | .done | .record _ | .raised _ => []

namespace RmFile

/-- The records of the file are those of the map. -/
def Refines {n : Nat} (f : RmFile) (m : RmMap n) : Prop := ∀ rid, f.lookup rid = (m.lookup rid).map (·.val)

section
variable {n : Nat} {f g : RmFile} {m m' : RmMap n} {c : RmCall n} {r : RmReply} {rid : Rid}

theorem Refines.mem_iff (h : Refines f m) : rid ∈ m ↔ (f.lookup rid).isSome := by
  rw [h rid, Option.isSome_map, Finmap.lookup_isSome]

theorem Refines.notMem_iff (h : Refines f m) : rid ∉ m ↔ f.lookup rid = none := by
  rw [h.mem_iff, Option.not_isSome_iff_eq_none]

theorem Refines.insert (h : Refines f m) {buf : Record n}
    (hget : ∀ q, g.lookup q = if q = rid then some buf.val else f.lookup q) : Refines g (m.insert rid buf) := by
  intro q
  rw [hget q]
  by_cases hq : q = rid
  · subst hq
    rw [if_pos rfl, Finmap.lookup_insert]
    rfl
  · rw [if_neg hq, Finmap.lookup_insert_of_ne m hq, h q]

theorem Refines.erase (h : Refines f m) (hget : ∀ q, g.lookup q = if q = rid then none else f.lookup q) :
    Refines g (m.erase rid) := by
  intro q
  rw [hget q]
  by_cases hq : q = rid
  · subst hq
    rw [if_pos rfl, Finmap.lookup_erase]
    rfl
  · rw [if_neg hq, Finmap.lookup_erase_ne hq, h q]

theorem lookup_insertAll (m : RmMap n) (rids : List Rid) (bufs : List (Record n)) (rid : Rid) :
    ((((rids.zip bufs).foldr (fun e m => m.insert e.1 e.2) m).lookup rid).map (·.val) : Option Bytes) =
      ((rids.zip (bufs.map (·.val))).lookup rid).or ((m.lookup rid).map (·.val)) := by
  induction rids generalizing bufs with
  | nil => rfl
  | cons a rids ih =>
    cases bufs with
    | nil => rfl
    | cons b bufs =>
      simp only [List.zip_cons_cons, List.foldr_cons, List.map_cons, List.lookup_cons]
      by_cases hr : rid = a
      · subst hr
        simp [Finmap.lookup_insert]
      · rw [Finmap.lookup_insert_of_ne _ hr, beq_false_of_ne hr]
        exact ih bufs

/-- The effect of a call on a file is a step of its map. -/
theorem Effect.step (h : Refines f m) (heff : Effect f c g r) (hat : ∀ rid buf, c ≠ .insertRecordAt rid buf) :
    ∃ m', RmMap.Step m c r m' ∧ Refines g m' ∧ ∀ rid ∈ r.newRids, InFile g rid := by
  cases c with
  | insertRecord buf =>
    obtain ⟨rid, rfl, hin, hfresh, hget⟩ := heff
    refine ⟨_, .insertRecord buf rid (h.notMem_iff.mpr hfresh), h.insert hget, ?_⟩
    simpa [RmReply.newRids] using hin
  | insertRecordAt rid buf => exact absurd rfl (hat rid buf)
  | insertRecordsBatch bufs =>
    obtain ⟨rids, rfl, hbatch⟩ := heff
    refine ⟨_, .insertRecordsBatch bufs rids ?_ hbatch.nodup fun rid hr => h.notMem_iff.mpr (hbatch.fresh rid hr).1, ?_,
      fun rid hr => (hbatch.fresh rid hr).2⟩
    · rw [hbatch.length, List.length_map]
    · intro rid
      rw [hbatch.get rid, h rid, lookup_insertAll]
  | deleteRecord rid =>
    rcases heff with ⟨hnone, rfl, s, rfl⟩ | ⟨hsome, rfl, hget⟩
    · exact ⟨m, .deleteRecord_missing rid s (h.notMem_iff.mpr hnone), h, by simp [RmReply.newRids]⟩
    · exact ⟨_, .deleteRecord rid (h.mem_iff.mpr hsome), h.erase hget, by simp [RmReply.newRids]⟩
  | updateRecord rid buf =>
    rcases heff with ⟨hnone, rfl, s, rfl⟩ | ⟨hsome, rfl, hget⟩
    · exact ⟨m, .updateRecord_missing rid buf s (h.notMem_iff.mpr hnone), h, by simp [RmReply.newRids]⟩
    · exact ⟨_, .updateRecord rid buf (h.mem_iff.mpr hsome), h.insert hget, by simp [RmReply.newRids]⟩
  | getRecord rid =>
    rcases heff with ⟨rfl, ⟨hnone, s, rfl⟩ | ⟨buf, hsome, rfl⟩⟩
    · exact ⟨m, .getRecord_missing rid s (h.notMem_iff.mpr hnone), h, by simp [RmReply.newRids]⟩
    · rw [h rid, Option.map_eq_some_iff] at hsome
      obtain ⟨rec, hrec, rfl⟩ := hsome
      exact ⟨m, .getRecord rid rec hrec, h, by simp [RmReply.newRids]⟩

end
end RmFile

/-- A call on a file that refines a map is a step of the map with the same reply, and what it returns as a new position is
    one of the record pages. -/
def RmFile.Simulates {n : Nat} (f : RmFile) (c : RmCall n) (g : RmFile) : Prop :=
  ∀ m, Refines f m → ∃ r m', f.call c = .ok (g, r) ∧ RmMap.Step m c r m' ∧ Refines g m' ∧ ∀ rid ∈ r.newRids, InFile g rid

/-- A new table file refines the empty map, and in every run without insertions at a position every call is a step of the
    map. -/
theorem rmFile_refines {n : Nat} (hn : RmAccepts n) (cs : List (RmCall n))
    (haddr : ∀ c ∈ cs, c.Addresses (numRecordsPerPage n) ∧ ∀ rid buf, c ≠ .insertRecordAt rid buf) :
    Refines (RmFile.create n) (∅ : RmMap n) ∧ Runs.EachStep RmFile.step Simulates (RmFile.create n) cs := by
  refine ⟨fun rid => by simp [RmFile.lookup, RmFile.create], ?_⟩
  refine Runs.eachStep_of_invariant (I := Sound n) ?_ ⟨rfl, [], Heap.create hn⟩ (Runs.throughout_of_forall haddr)
  rintro f c h ⟨hc, hat⟩
  obtain ⟨g, r, hcall, hg, heff⟩ := call_spec h hc hat
  refine ⟨g, step_of_call hcall, hg, fun m hm => ?_⟩
  obtain ⟨m', hstep, hm', hnew⟩ := heff.step hm hat
  exact ⟨r, m', hcall, hstep, hm', hnew⟩

theorem rmFile_refines_four : Runs.EachStep RmFile.step Simulates (RmFile.create 4)
    [.insertRecord (zeroRecord 4), .getRecord ⟨1, 0⟩, .deleteRecord ⟨1, 0⟩, .getRecord ⟨1, 0⟩] := by
  refine (rmFile_refines ⟨by decide, by decide⟩ _ ?_).2
  simp [RmCall.Addresses]
  decide

end Rmdb
