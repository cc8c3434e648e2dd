import Rmdb.Record.Layer
import Rmdb.Theorems.Storage.Pins
import Rmdb.Lib.Hoare

/-! The pins of the record layer. Every operation unpins the page that it fetched at each of its exits, but `is_record` does
not, and `commit` calls it for each row that the transaction has written. -/

namespace Rmdb

/-! ### The pool -/

namespace BufferPool
variable {s t : BufferPool} {id q : PageId} {fr : Nat} {x : Option PageId}

/-- The pool of the record layer. A page in it is dirty or on the disk, except for one that was just created, and has a number
    that the disk manager has given out. -/
structure Kept (x : Option PageId) (s : BufferPool) : Prop where
  good : Good s
  counted : s.replacer.Counted
  stored : ∀ id fr, s.pageTable id = some fr → x ≠ some id → (s.pages fr).isDirty = true ∨ (s.disk.pages id).isSome = true
  numbered : ∀ id fr, s.pageTable id = some fr → id.pageNo < s.disk.fd2pageno id.fd

/-- The page has `k` pins more, and nothing was lost. -/
structure Moved (s : BufferPool) (id : PageId) (k : Int) (t : BufferPool) : Prop where
  pins : ∀ q, t.pins q = s.pins q + if q = id then k else 0
  present : ∀ q, s.Present q → t.Present q

/-- A page is brought into the frame of another one that nobody has pinned. -/
theorem Kept.brought (h : Kept none s) {data : Bytes} {d : Disk} (k : Brought s fr id data d t) (W : s.WrittenBack fr d)
    (hnew : ∀ g, s.pageTable id = some g → g = fr) (hnum : 0 ≤ id.pageNo) (hstored : x = some id ∨ (d.pages id).isSome = true)
    (hcounter : ∀ i, s.disk.fd2pageno i ≤ d.fd2pageno i) (hlt : id.pageNo < d.fd2pageno id.fd) : Kept x t ∧ Moved s id 1 t := by
  have htab := h.good.load_table k.available k.toLoads hnew
  have takes := h.good.takes_brought k W hnew hnum
  have hdisk : ∀ q, (s.disk.pages q).isSome = true → (d.pages q).isSome = true := by
    intro q hq
    obtain ⟨b, hb⟩ := Option.isSome_iff_exists.mp hq
    by_cases hlost : s.pageTable q = some fr ∧ (s.pages fr).isDirty = true
    · obtain rfl := (h.good.table q fr hlost.1).2
      rw [W.page hlost.1 hlost.2]
      rfl
    · rw [W.kept q b hb fun hfr => Bool.eq_false_iff.mpr fun hdirty => hlost ⟨hfr, hdirty⟩]
      rfl
  -- the page that was in the frame goes to the disk
  have hout : ∀ q, s.pageTable q = some fr → (d.pages q).isSome = true := by
    intro q hq
    rcases h.stored q fr hq (by simp) with hdirty | hstored
    · obtain rfl := (h.good.table q fr hq).2
      rw [W.page hq hdirty]
      rfl
    · exact hdisk q hstored
  refine ⟨⟨takes.good, k.counted h.counted, fun q g hg hq => ?_, fun q g hg => ?_⟩, takes.pins, fun q hq => ?_⟩
  · rcases (htab q g).mp hg with ⟨rfl, rfl⟩ | ⟨hne, hg⟩
    · rw [k.disk]
      exact .inr (hstored.resolve_left hq)
    · rw [k.other g hne, k.disk]
      exact (h.stored q g hg (by simp)).imp_right (hdisk q)
  · rw [k.disk]
    rcases (htab q g).mp hg with ⟨rfl, rfl⟩ | ⟨-, hg⟩
    · exact hlt
    · have := h.numbered q g hg
      have := hcounter q.fd
      omega
  · rcases hq with hq | hq
    · obtain ⟨g, hg⟩ := Option.isSome_iff_exists.mp hq
      by_cases hgf : g = fr
      · subst hgf
        right
        rw [k.disk]
        exact hout q hg
      · left
        rw [(htab q g).mpr (.inr ⟨hgf, hg⟩)]
        rfl
    · right
      rw [k.disk]
      exact hdisk q hq

/-- Nothing but the replacer changes when no frame is given out. -/
theorem Kept.no_victim (h : Kept none s) (hnone : s.findVictimPage.2 = none) :
    ∃ r, s.findVictimPage.1 = { s with replacer := r } ∧ Kept none { s with replacer := r } := by
  obtain ⟨heq, hgood⟩ := h.good.no_victim hnone
  exact ⟨_, heq, hgood, h.counted.victim, h.stored, h.numbered⟩

/-- A page can be had: it is in the pool, or some frame is not pinned. -/
def Gets (s : BufferPool) (id : PageId) : Prop := (s.pageTable id).isSome = true ∨ ¬s.AllPinned

/-- `fetch_page` of a page that there is. -/
theorem Kept.fetch (h : Kept none s) (id : PageId) (hnum : 0 ≤ id.pageNo) (hlt : id.pageNo < s.disk.fd2pageno id.fd) (hpres : s.Present id) :
    (s.Gets id ∧ ∃ t fr, s.fetchPage id = (t, .ok (some fr)) ∧ Kept none t ∧ Moved s id 1 t ∧
        t.disk.fd2pageno = s.disk.fd2pageno) ∨
      (¬s.Gets id ∧ ∃ r, s.fetchPage id = ({ s with replacer := r }, .ok none) ∧ Kept none { s with replacer := r }) := by
  cases hid : s.pageTable id with
  | some fr =>
    left
    obtain ⟨takes, -⟩ := h.good.takes_hit hid
    have hpages : ∀ g, g ≠ fr → (s.fetchPage id).1.pages g = s.pages g := by
      intro g hg
      rw [fetchPage_hit hid]
      exact if_neg hg
    rw [fetchPage_hit hid] at takes hpages ⊢
    refine ⟨.inl (by rw [hid]; rfl), _, fr, rfl, ⟨takes.good, h.counted.pin fr, fun q g hg hx => ?_, h.numbered⟩,
      ⟨takes.pins, fun q hq => hq⟩, rfl⟩
    by_cases hg' : g = fr
    · subst hg'
      simpa [setPage] using h.stored q g hg hx
    · rw [hpages g hg']
      exact h.stored q g hg hx
  | none =>
    rcases h.good.fetch_miss hid with ⟨hnone, hfetch⟩ | ⟨fr, d, hvictim, hback, W, hload, -⟩
    · right
      obtain ⟨r, hr, hkept⟩ := h.no_victim hnone
      refine ⟨?_, r, by rw [hfetch, hr], hkept⟩
      rintro (hin | hnot)
      · rw [hid] at hin
        cases hin
      · exact hnot (h.good.allPinned h.counted hnone)
    · left
      obtain ⟨b, hb⟩ : ∃ b, s.disk.pages id = some b := by
        rcases hpres with hin | hdisk
        · rw [hid] at hin
          cases hin
        · exact Option.isSome_iff_exists.mp hdisk
      have hread : d.pages id = some b := W.kept id b hb fun hfr => by rw [hid] at hfr; cases hfr
      obtain ⟨t, hfetch, k⟩ := hload b (by rw [Disk.readPage, if_neg (by omega), hread])
      have hcounter := writeBack_fd2pageno hback
      obtain ⟨hkept, hmoved⟩ := h.brought (x := none) k W (fun g hg => by rw [hid] at hg; cases hg) hnum
        (.inr (by rw [hread]; rfl)) (fun i => Nat.le_of_eq (by rw [hcounter])) (by rw [hcounter]; exact hlt)
      refine ⟨.inr fun hall => ?_, t, fr, hfetch, hkept, hmoved, by rw [k.disk, hcounter]⟩
      have hpos := hall fr (h.good.available_lt k.available)
      rw [h.good.pinCount_victim k.available] at hpos
      exact absurd hpos (by decide)

/-- `new_page`. -/
theorem Kept.new (h : Kept none s) (fd : Int) :
    (∃ t fr, s.newPage fd = (t, .ok (some (⟨fd, s.disk.fd2pageno fd⟩, fr))) ∧ Kept (some ⟨fd, s.disk.fd2pageno fd⟩) t ∧
        Moved s ⟨fd, s.disk.fd2pageno fd⟩ 1 t ∧ (t.pageTable ⟨fd, s.disk.fd2pageno fd⟩).isSome = true ∧
        t.disk.fd2pageno = (s.disk.allocatePage fd).1.fd2pageno) ∨
      ∃ r, s.newPage fd = ({ s with replacer := r }, .ok none) ∧ Kept none { s with replacer := r } := by
  rcases h.good.new_brought fd with ⟨hnone, hnew⟩ | ⟨fr, d, t, hvictim, hback, W, hnew, k⟩
  · obtain ⟨r, hr, hkept⟩ := h.no_victim hnone
    exact .inr ⟨r, by rw [hnew, hr], hkept⟩
  · left
    have hcounter := writeBack_fd2pageno hback
    have hfresh : ∀ g, s.pageTable ⟨fd, s.disk.fd2pageno fd⟩ = some g → g = fr := by
      intro g hg
      have := h.numbered _ g hg
      simp at this
    obtain ⟨hkept, hmoved⟩ := h.brought (x := some ⟨fd, s.disk.fd2pageno fd⟩) k W hfresh (Int.natCast_nonneg _) (.inl rfl)
      (fun i => by
        rw [hcounter]
        simp only [Disk.allocatePage]
        split
        · next hi => rw [hi]; exact Nat.le_succ _
        · exact Nat.le_refl _) (by
        rw [hcounter]
        simp only [Disk.allocatePage, if_pos]
        omega)
    refine ⟨t, fr, hnew, hkept, hmoved, ?_, by rw [k.disk, hcounter]⟩
    rw [k.table, if_pos rfl]
    rfl

/-- `unpin_page` of a page with a pin. A page that was just created is unpinned as dirty. -/
theorem Kept.unpin (h : Kept x s) (isDirty : Bool) (hpos : 0 < s.pins id) (hx : x = none ∨ x = some id ∧ isDirty = true) :
    Kept none (s.unpinPage id isDirty).1 ∧ Moved s id (-1) (s.unpinPage id isDirty).1 ∧
      (s.unpinPage id isDirty).1.disk = s.disk := by
  have gives := h.good.gives hpos isDirty
  obtain ⟨fr, hid⟩ := table_of_pins hpos
  refine ⟨⟨gives.good, ?_, fun q g hg _ => ?_, fun q g hg => ?_⟩, ⟨gives.pins, fun q hq => ?_⟩, gives.disk⟩
  · rw [unpinPage_pinned hid hpos]
    simp only [setPage]
    split
    · exact h.counted.unpin fr
    · exact h.counted
  · rw [gives.table] at hg
    rw [gives.disk, unpinPage_pinned hid hpos]
    by_cases hq : q = id
    · subst hq
      obtain rfl : g = fr := Option.some.inj (Eq.trans (Eq.symm hg) hid)
      simp only [setPage, if_pos, Bool.or_eq_true]
      rcases hx with rfl | ⟨-, hdirty⟩
      · exact (h.stored q g hg (by simp)).imp_left .inl
      · exact .inl (.inr hdirty)
    · simp only [setPage, if_neg (h.good.other_frame hid hg hq)]
      refine h.stored q g hg ?_
      rcases hx with rfl | ⟨rfl, -⟩
      · simp
      · simpa using Ne.symm hq
  · rw [gives.table] at hg
    rw [gives.disk]
    exact h.numbered q g hg
  · rw [Present, gives.table, gives.disk]
    exact hq

end BufferPool

/-! ### The operations -/

namespace RecordLayer
open BufferPool Hoare
variable {T : Type} {tabs : Tables T} {s s₀ : RecordLayer T} {t : T} {x : Option PageId} {id : PageId}

/-- The pages of the files are in the pool or on the disk. -/
structure Valid (tabs : Tables T) (x : Option PageId) (s : RecordLayer T) : Prop where
  kept : Kept x s.pool
  next : ∀ t, (s.fhs t).numPages = s.pool.disk.fd2pageno (tabs.fd t)
  present : ∀ t p, 0 ≤ p → p < (s.fhs t).numPages → s.pool.Present ⟨tabs.fd t, p⟩
  perPage : ∀ t, 0 < (s.fhs t).perPage

/-- The pin count of every page is the same. -/
def SamePins (s₀ s : RecordLayer T) : Prop := ∀ q, s.pool.pins q = s₀.pool.pins q

def Balanced (tabs : Tables T) (s₀ s : RecordLayer T) : Prop := Valid tabs none s ∧ SamePins s₀ s

/-- One page has a pin more than in the state before. -/
structure Holding (tabs : Tables T) (s₀ : RecordLayer T) (x : Option PageId) (id : PageId) (s : RecordLayer T) : Prop where
  valid : Valid tabs x s
  pins : ∀ q, s.pool.pins q = s₀.pool.pins q + if q = id then 1 else 0
  nonneg : 0 ≤ s₀.pool.pins id

/-- `fetch_page_handle` returns: the page is one of the file, and it can be had. -/
def Fetches (tabs : Tables T) (s : RecordLayer T) (t : T) (p : Int) : Prop :=
  0 ≤ p ∧ p < (s.fhs t).numPages ∧ s.pool.Gets ⟨tabs.fd t, p⟩

theorem after_fetch_out {p : Int} (h : p < 0 ∨ (s.fhs t).numPages ≤ p) :
    after (fetchPageHandle tabs t p) s = (.error (.rm (.recordNotFound p (-1))), s) := by
  have hdef : fetchPageHandle tabs t p = MonadState.get >>= fun s : RecordLayer T => ite _ _ _ := rfl
  rw [hdef]
  show after (ite _ _ _) s = _
  rw [if_pos h]
  rfl

theorem after_fetch {p : Int} {pool : BufferPool} {r : Except DiskError (Option Nat)} (h0 : 0 ≤ p) (hlt : p < (s.fhs t).numPages)
    (hr : s.pool.fetchPage ⟨tabs.fd t, p⟩ = (pool, r)) : (after (fetchPageHandle tabs t p) s).2 = { s with pool := pool } ∧
      (r = .ok none → (after (fetchPageHandle tabs t p) s).1 = .error (.rm (.recordNotFound p (-1)))) ∧
      ∀ fr, r = .ok (some fr) → (after (fetchPageHandle tabs t p) s).1 = .ok (((s.fhs t).pages p).getD ⟨0, rmNoPage, []⟩) := by
  have hin : ¬(p < 0 ∨ (s.fhs t).numPages ≤ p) := by omega
  have hdef : fetchPageHandle tabs t p = MonadState.get >>= fun s : RecordLayer T => ite _ _ _ := rfl
  rw [hdef]
  show (after (ite _ _ _) s).2 = _ ∧ (_ → (after (ite _ _ _) s).1 = _) ∧ (∀ fr, _ → (after (ite _ _ _) s).1 = _)
  rw [if_neg hin, hr]
  rcases r with e | (_ | fr)
  · exact ⟨rfl, fun h => (by cases h), fun _ h => (by cases h)⟩
  · exact ⟨rfl, fun _ => rfl, fun _ h => (by cases h)⟩
  · exact ⟨rfl, fun h => (by cases h), fun _ _ => rfl⟩

theorem fetch_spec (h : Valid tabs none s) (t : T) (p : Int) :
    (Fetches tabs s t p ∧ ∃ page pool, after (fetchPageHandle tabs t p) s = (.ok page, { s with pool := pool }) ∧
        Holding tabs s none ⟨tabs.fd t, p⟩ { s with pool := pool }) ∨
      (¬Fetches tabs s t p ∧ ∃ e r, after (fetchPageHandle tabs t p) s = (.error e, { s with pool := { s.pool with replacer := r } }) ∧
        Valid tabs none { s with pool := { s.pool with replacer := r } }) := by
  by_cases hin : p < 0 ∨ (s.fhs t).numPages ≤ p
  · right
    refine ⟨fun hf => ?_, _, s.pool.replacer, after_fetch_out hin, h⟩
    obtain ⟨h0, hlt, -⟩ := hf
    omega
  · have h0 : 0 ≤ p := by omega
    have hlt : p < (s.fhs t).numPages := by omega
    obtain ⟨hgets, pool, fr, hfetch, hkept, hmoved, hcounter⟩ | ⟨hgets, r, hfetch, hkept⟩ :=
      h.kept.fetch ⟨tabs.fd t, p⟩ h0 (by rw [← h.next]; exact hlt) (h.present t p h0 hlt)
    · left
      obtain ⟨hstate, -, hres⟩ := after_fetch h0 hlt hfetch
      refine ⟨⟨h0, hlt, hgets⟩, _, pool, Prod.ext (hres fr rfl) hstate, ⟨hkept, fun u => ?_, fun u q hq hq' => ?_, h.perPage⟩,
        hmoved.pins, h.kept.good.pins_nonneg _⟩
      · rw [hcounter]
        exact h.next u
      · exact hmoved.present _ (h.present u q hq hq')
    · right
      obtain ⟨hstate, hres, -⟩ := after_fetch h0 hlt hfetch
      exact ⟨fun hf => hgets hf.2.2, _, r, Prod.ext (hres rfl) hstate, hkept, h.next, h.present, h.perPage⟩

theorem triple_fetch (s₀ : RecordLayer T) (t : T) (p : Int) :
    Triple (Balanced tabs s₀) (fetchPageHandle tabs t p) (fun _ s => Holding tabs s₀ none ⟨tabs.fd t, p⟩ s) (fun _ => Balanced tabs s₀) := by
  rintro s ⟨hvalid, hpins⟩
  rcases fetch_spec hvalid t p with ⟨-, page, pool, heq, hold⟩ | ⟨-, e, r, heq, hvalid'⟩
  · rw [heq]
    refine ⟨fun a _ => ⟨hold.valid, fun q => ?_, ?_⟩, fun e he => (by cases he)⟩
    · rw [hold.pins, hpins]
    · rw [← hpins]
      exact hold.nonneg
  · rw [heq]
    exact ⟨fun a ha => (by cases ha), fun _ _ => ⟨hvalid', fun q => hpins q⟩⟩

theorem triple_unpin (s₀ : RecordLayer T) (t : T) (p : Int) {isDirty : Bool}
    (hx : x = none ∨ x = some ⟨tabs.fd t, p⟩ ∧ isDirty = true) :
    Triple (Holding tabs s₀ x ⟨tabs.fd t, p⟩) (unpinPage tabs t p isDirty) (fun _ => Balanced tabs s₀) (fun _ => Balanced tabs s₀) := by
  refine Triple.modify fun s h => ?_
  have hpos : 0 < s.pool.pins ⟨tabs.fd t, p⟩ := by
    have := h.nonneg
    rw [h.pins, if_pos rfl]
    omega
  obtain ⟨hkept, hmoved, hdisk⟩ := h.valid.kept.unpin isDirty hpos hx
  refine ⟨⟨hkept, fun u => ?_, fun u q hq hq' => hmoved.present _ (h.valid.present u q hq hq'), h.valid.perPage⟩, fun q => ?_⟩
  · rw [hdisk]
    exact h.valid.next u
  · rw [hmoved.pins, h.pins]
    split <;> omega

/-! ### `is_record` -/

/-- Pins are taken and none are given back. -/
def Grown (tabs : Tables T) (s₀ s : RecordLayer T) : Prop := Valid tabs none s ∧ ∀ q, s₀.pool.pins q ≤ s.pool.pins q

/-- Some page has a pin more. -/
def More (tabs : Tables T) (s₀ s : RecordLayer T) : Prop := Grown tabs s₀ s ∧ ∃ q, s₀.pool.pins q < s.pool.pins q

theorem More.grown {u : RecordLayer T} (h : More tabs s₀ s) (h' : Grown tabs s u) : More tabs s₀ u := by
  obtain ⟨⟨-, hle⟩, q, hq⟩ := h
  exact ⟨⟨h'.1, fun q => Int.le_trans (hle q) (h'.2 q)⟩, q, Int.lt_of_lt_of_le hq (h'.2 q)⟩

theorem More.not_samePins (h : More tabs s₀ s) : ¬SamePins s₀ s := by
  obtain ⟨-, q, hq⟩ := h
  intro hsame
  rw [hsame q] at hq
  exact Int.lt_irrefl _ hq

theorem Holding.more (h : Holding tabs s₀ none id s) : More tabs s₀ s := by
  refine ⟨⟨h.valid, fun q => ?_⟩, id, ?_⟩
  · rw [h.pins]
    split <;> omega
  · rw [h.pins, if_pos rfl]
    omega

theorem isRecord_spec (h : Valid tabs none s) (t : T) (rid : Rid) :
    (Fetches tabs s t rid.pageNo ∧ ∃ b pool, after (isRecord tabs t rid) s = (.ok b, { s with pool := pool }) ∧
        More tabs s { s with pool := pool }) ∨
      (¬Fetches tabs s t rid.pageNo ∧ ∃ e r, after (isRecord tabs t rid) s = (.error e, { s with pool := { s.pool with replacer := r } }) ∧
        Valid tabs none { s with pool := { s.pool with replacer := r } }) := by
  rcases fetch_spec h t rid.pageNo with ⟨hf, page, pool, heq, hold⟩ | ⟨hf, e, r, heq, hvalid⟩
  · left
    refine ⟨hf, page.isSet rid.slotNo, pool, ?_, hold.more⟩
    rw [isRecord, after_bind_ok (congrArg Prod.fst heq), heq]
    rfl
  · right
    refine ⟨hf, e, r, ?_, hvalid⟩
    rw [isRecord, after_bind_error (congrArg Prod.fst heq), heq]

theorem triple_isRecord (s₀ : RecordLayer T) (t : T) (rid : Rid) :
    Triple (Grown tabs s₀) (isRecord tabs t rid) (fun _ => Grown tabs s₀) (fun _ => Grown tabs s₀) := by
  rintro s ⟨hvalid, hle⟩
  rcases isRecord_spec hvalid t rid with ⟨-, b, pool, heq, hmore⟩ | ⟨-, e, r, heq, hvalid'⟩
  · rw [heq]
    exact ⟨fun _ _ => ⟨hmore.1.1, fun q => Int.le_trans (hle q) (hmore.1.2 q)⟩, fun e he => (by cases he)⟩
  · rw [heq]
    exact ⟨fun b hb => (by cases hb), fun _ _ => ⟨hvalid', hle⟩⟩

theorem triple_findTable (s₀ : RecordLayer T) (rid : Rid) (ts : List T) :
    Triple (Grown tabs s₀) (findTable tabs rid ts) (fun _ => Grown tabs s₀) (fun _ => Grown tabs s₀) := by
  induction ts with
  | nil => exact Triple.pure fun _ h => h
  | cons t ts ih => exact (triple_isRecord s₀ t rid).bind fun found => Triple.ite (fun _ => Triple.pure fun _ h => h) fun _ => ih

theorem after_of_triple {α : Type} {P R : RecordLayer T → Prop} {m : RmM T α} (h : Triple P m (fun _ => R) fun _ => R) (hs : P s) :
    R (after m s).2 := by
  obtain ⟨hok, herr⟩ := h s hs
  cases hres : (after m s).1 with
  | ok a => exact hok a hres
  | error e => exact herr e hres

/-- The search for the table of a position takes a pin if the page can be had in the first table. -/
def Searches (tabs : Tables T) (s : RecordLayer T) (rid : Rid) : Prop := ∃ t, tabs.order.head? = some t ∧ Fetches tabs s t rid.pageNo

theorem persist_spec (h : Valid tabs none s) (rid : Rid) : (after (persistMvccVersion tabs rid) s).1 = .ok () ∧
    (Searches tabs s rid → More tabs s (after (persistMvccVersion tabs rid) s).2) ∧
      (¬Searches tabs s rid → ∃ r, (after (persistMvccVersion tabs rid) s).2 = { s with pool := { s.pool with replacer := r } } ∧
        Valid tabs none { s with pool := { s.pool with replacer := r } }) := by
  have hafter : after (persistMvccVersion tabs rid) s = (.ok (), (after (findTable tabs rid tabs.order) s).2) :=
    after_swallow _ s
  rw [hafter]
  refine ⟨rfl, ?_⟩
  unfold Searches
  cases tabs.order with
  | nil => exact ⟨fun hs => by simp at hs, fun _ => ⟨s.pool.replacer, rfl, h⟩⟩
  | cons t ts =>
    simp only [List.head?_cons, Option.some.injEq, exists_eq_left']
    have hdef : findTable tabs rid (t :: ts) = isRecord tabs t rid >>= fun found => if found then pure () else findTable tabs rid ts := rfl
    rcases isRecord_spec h t rid with ⟨hf, b, pool, heq, hmore⟩ | ⟨hf, e, r, heq, hvalid⟩
    · refine ⟨fun _ => ?_, fun hnot => absurd hf hnot⟩
      rw [hdef, after_bind_ok (congrArg Prod.fst heq), heq]
      have hrest : Triple (Grown tabs { s with pool := pool }) (if b then pure () else findTable tabs rid ts)
          (fun _ => Grown tabs { s with pool := pool }) (fun _ => Grown tabs { s with pool := pool }) :=
        Triple.ite (fun _ => Triple.pure fun _ h => h) fun _ => triple_findTable _ rid ts
      exact hmore.grown (after_of_triple hrest ⟨hmore.1.1, fun q => Int.le_refl _⟩)
    · refine ⟨fun hs => absurd hs hf, fun _ => ⟨r, ?_, hvalid⟩⟩
      rw [hdef, after_bind_error (congrArg Prod.fst heq), heq]

/-- The commit searches for a row: it has a version of the transaction. -/
def Leaks (tabs : Tables T) (s : RecordLayer T) (id : Int) (row : T × Rid) : Prop :=
  (∃ chain, s.versionChains row = some chain ∧ hasVersion chain id = true) ∧ Searches tabs s row.2

theorem hasVersion_commitLoop {chain : VersionChain} {id : Int} (commitTs : Int) (h : hasVersion chain id = false) (expire : Bool) :
    hasVersion (VersionChain.commitLoop id commitTs expire chain) id = false := by
  induction chain generalizing expire with
  | nil => rfl
  | cons v vs ih =>
    simp only [hasVersion, List.any_cons, Bool.or_eq_false_iff] at h
    have hv : ¬(v.txnId = id ∧ v.createTs = invalidTimestamp) := by simpa using h.1
    have hrest := ih h.2 false
    simp only [VersionChain.commitLoop, if_neg hv]
    simp only [hasVersion, List.any_cons, Bool.or_eq_false_iff] at hrest ⊢
    refine ⟨?_, hrest⟩
    split <;> simpa using h.1

/-! ### Operations that change a file -/

variable [DecidableEq T]

theorem triple_modifyFile (t : T) {g : RmFile → RmFile} (hg : ∀ f, (g f).numPages = f.numPages ∧ (g f).perPage = f.perPage) :
    Triple (Holding tabs s₀ x id) (modifyFile t g) (fun _ => Holding tabs s₀ x id) (fun _ => Balanced tabs s₀) := by
  refine Triple.modify fun s h => ?_
  have hfile : ∀ u, (Function.update s.fhs t (g (s.fhs t)) u).numPages = (s.fhs u).numPages ∧
      (Function.update s.fhs t (g (s.fhs t)) u).perPage = (s.fhs u).perPage := by
    intro u
    by_cases hu : u = t
    · subst hu
      rw [Function.update_self]
      exact hg _
    · rw [Function.update_of_ne hu]
      exact ⟨rfl, rfl⟩
  refine ⟨⟨h.valid.kept, fun u => ?_, fun u p hp hp' => ?_, fun u => ?_⟩, h.pins, h.nonneg⟩
  · rw [(hfile u).1]
    exact h.valid.next u
  · rw [(hfile u).1] at hp'
    exact h.valid.present u p hp hp'
  · rw [(hfile u).2]
    exact h.valid.perPage u

theorem numPages_setPage (f : RmFile) (p : Int) (page : RmPage) :
    (f.setPage p page).numPages = f.numPages ∧ (f.setPage p page).perPage = f.perPage := ⟨rfl, rfl⟩

theorem numPages_unlinkIfFull (f : RmFile) (p : Int) (page : RmPage) :
    (f.unlinkIfFull p page).numPages = f.numPages ∧ (f.unlinkIfFull p page).perPage = f.perPage := by
  unfold RmFile.unlinkIfFull
  split <;> exact ⟨rfl, rfl⟩

theorem numPages_releasePageHandle (f : RmFile) (p : Int) (page : RmPage) :
    (f.releasePageHandle p page).numPages = f.numPages ∧ (f.releasePageHandle p page).perPage = f.perPage := by
  unfold RmFile.releasePageHandle
  split <;> exact ⟨rfl, rfl⟩

/-- An insertion holds a page of the file, or one that it has just created. -/
def Placing (tabs : Tables T) (s₀ : RecordLayer T) (t : T) (r : Int × RmPage) (s : RecordLayer T) : Prop :=
  Holding tabs s₀ none ⟨tabs.fd t, r.1⟩ s ∨
    (Holding tabs s₀ (some ⟨tabs.fd t, r.1⟩) ⟨tabs.fd t, r.1⟩ s ∧ ∃ next, r.2 = ⟨0, next, List.replicate (s.fhs t).perPage none⟩)

theorem triple_create (s₀ : RecordLayer T) (t : T) :
    Triple (Balanced tabs s₀) (createNewPageHandle tabs t) (Placing tabs s₀ t) (fun _ => Balanced tabs s₀) := by
  refine Triple.get fun s hs => ?_
  rintro u rfl
  obtain ⟨hvalid, hpins⟩ := hs
  rcases hvalid.kept.new (tabs.fd t) with ⟨pool, fr, hnew, hkept, hmoved, hin, hcounter⟩ | ⟨r, hnew, hkept⟩
  · rw [hnew]
    refine ⟨fun a ha => ?_, fun e he => (by cases he)⟩
    cases ha
    have hnum := hvalid.next t
    have hfile : ∀ v, (Function.update u.fhs t (withNewPage (u.fhs t) (u.pool.disk.fd2pageno (tabs.fd t))) v).perPage = (u.fhs v).perPage ∧
        (Function.update u.fhs t (withNewPage (u.fhs t) (u.pool.disk.fd2pageno (tabs.fd t))) v).numPages =
          if v = t then (u.fhs t).numPages + 1 else (u.fhs v).numPages := by
      intro v
      by_cases hv : v = t
      · subst hv
        rw [Function.update_self, if_pos rfl]
        refine ⟨rfl, ?_⟩
        show max (u.fhs v).numPages (u.pool.disk.fd2pageno (tabs.fd v) + 1) = _
        omega
      · rw [Function.update_of_ne hv, if_neg hv]
        exact ⟨rfl, rfl⟩
    show Placing tabs s₀ t _
      ⟨pool, Function.update u.fhs t (withNewPage (u.fhs t) (u.pool.disk.fd2pageno (tabs.fd t))), u.versionChains⟩
    right
    refine ⟨⟨⟨hkept, fun v => ?_, fun v p hp hp' => ?_, fun v => ?_⟩, fun q => ?_, ?_⟩, (u.fhs t).firstFreePageNo, ?_⟩
    · rw [(hfile v).2, hcounter]
      simp only [Disk.allocatePage]
      by_cases hv : v = t
      · subst hv
        rw [if_pos rfl, if_pos rfl, hnum]
        omega
      · rw [if_neg hv, if_neg fun hfd => hv (tabs.inj v t hfd)]
        exact hvalid.next v
    · rw [(hfile v).2] at hp'
      by_cases hold : p < (u.fhs v).numPages
      · exact hmoved.present _ (hvalid.present v p hp hold)
      · by_cases hv : v = t
        · subst hv
          rw [if_pos rfl] at hp'
          obtain rfl : p = u.pool.disk.fd2pageno (tabs.fd v) := by omega
          exact .inl hin
        · rw [if_neg hv] at hp'
          exact absurd hp' hold
    · rw [(hfile v).1]
      exact hvalid.perPage v
    · rw [hmoved.pins, hpins]
    · rw [← hpins]
      exact hvalid.kept.good.pins_nonneg _
    · rw [(hfile t).1]
  · rw [hnew]
    exact ⟨fun a ha => (by cases ha), fun _ _ => ⟨⟨hkept, hvalid.next, hvalid.present, hvalid.perPage⟩, hpins⟩⟩

theorem triple_freePageHandle (s₀ : RecordLayer T) (t : T) :
    Triple (Balanced tabs s₀) (freePageHandle tabs t) (Placing tabs s₀ t) (fun _ => Balanced tabs s₀) := by
  refine Triple.get fun s hs => ?_
  refine Triple.ite (fun _ => (triple_create s₀ t).at_state hs) fun _ => ?_
  exact ((triple_fetch s₀ t _).at_state hs).bind fun page => Triple.pure fun s h => .inl h

omit [DecidableEq T] in
theorem triple_getRecord (s₀ : RecordLayer T) (t : T) (rid : Rid) :
    Triple (Balanced tabs s₀) (getRecord tabs t rid) (fun _ => Balanced tabs s₀) (fun _ => Balanced tabs s₀) := by
  refine (triple_fetch s₀ t rid.pageNo).bind fun page => Triple.ite (fun _ => ?_) fun _ => ?_
  · exact (triple_unpin s₀ t rid.pageNo (.inl rfl)).bind fun _ => Triple.throw fun _ h => h
  · exact (triple_unpin s₀ t rid.pageNo (.inl rfl)).bind fun _ => Triple.pure fun _ h => h

theorem triple_insertRecordAt (s₀ : RecordLayer T) (t : T) (rid : Rid) (buf : Bytes) :
    Triple (Balanced tabs s₀) (insertRecordAt tabs t rid buf) (fun _ => Balanced tabs s₀) (fun _ => Balanced tabs s₀) := by
  refine (triple_fetch s₀ t rid.pageNo).bind fun page => Triple.ite (fun _ => ?_) fun _ => ?_
  · exact (triple_unpin s₀ t rid.pageNo (.inl rfl)).bind fun _ => Triple.throw fun _ h => h
  · refine (triple_modifyFile t fun f => ?_).bind fun _ => triple_unpin s₀ t rid.pageNo (.inl rfl)
    split
    · exact numPages_unlinkIfFull f _ _
    · exact numPages_setPage f _ _

theorem triple_deleteRecord (s₀ : RecordLayer T) (t : T) (rid : Rid) :
    Triple (Balanced tabs s₀) (deleteRecord tabs t rid) (fun _ => Balanced tabs s₀) (fun _ => Balanced tabs s₀) := by
  refine (triple_fetch s₀ t rid.pageNo).bind fun page => Triple.ite (fun _ => ?_) fun _ => ?_
  · exact (triple_unpin s₀ t rid.pageNo (.inl rfl)).bind fun _ => Triple.throw fun _ h => h
  · refine (triple_modifyFile t fun f => ?_).bind fun _ => triple_unpin s₀ t rid.pageNo (.inl rfl)
    dsimp only
    split
    · exact numPages_releasePageHandle f _ _
    · exact numPages_setPage f _ _

theorem triple_updateRecord (s₀ : RecordLayer T) (t : T) (rid : Rid) (buf : Bytes) :
    Triple (Balanced tabs s₀) (updateRecord tabs t rid buf) (fun _ => Balanced tabs s₀) (fun _ => Balanced tabs s₀) := by
  refine (triple_fetch s₀ t rid.pageNo).bind fun page => Triple.ite (fun _ => ?_) fun _ => ?_
  · exact (triple_unpin s₀ t rid.pageNo (.inl rfl)).bind fun _ => Triple.throw fun _ h => h
  · exact (triple_modifyFile t fun f => numPages_setPage f _ _).bind fun _ => triple_unpin s₀ t rid.pageNo (.inl rfl)

omit [DecidableEq T] in
theorem Holding.loosen (h : Holding tabs s₀ none id s) : Holding tabs s₀ (some id) id s where
  valid := ⟨⟨h.valid.kept.good, h.valid.kept.counted, fun q g hg _ => h.valid.kept.stored q g hg (by simp), h.valid.kept.numbered⟩,
    h.valid.next, h.valid.present, h.valid.perPage⟩
  pins := h.pins
  nonneg := h.nonneg

theorem triple_insertRecord (s₀ : RecordLayer T) (t : T) (buf : Bytes) :
    Triple (Balanced tabs s₀) (insertRecord tabs t buf) (fun _ => Balanced tabs s₀) (fun _ => Balanced tabs s₀) := by
  refine (triple_freePageHandle s₀ t).bind ?_
  rintro ⟨p, page⟩
  have hplace : ∀ s, Placing tabs s₀ t (p, page) s → Holding tabs s₀ (some ⟨tabs.fd t, p⟩) ⟨tabs.fd t, p⟩ s := by
    rintro s (hold | ⟨hold, -⟩)
    · exact hold.loosen
    · exact hold
  refine ((triple_modifyFile t fun f => numPages_unlinkIfFull f _ _).of_imp hplace).bind fun _ => ?_
  exact (triple_unpin s₀ t p (.inr ⟨rfl, rfl⟩)).bind fun _ => Triple.pure fun _ h => h

theorem fillSlots_fresh {n : Nat} (hn : 0 < n) (buf : Bytes) (bufs : List Bytes) :
    (RmFile.fillSlots 0 (List.replicate n none) ((buf :: bufs).take ((n : Int) - 0).toNat)).2 ≠ [] := by
  obtain ⟨k, rfl⟩ := Nat.exists_eq_succ_of_ne_zero (Nat.ne_of_gt hn)
  rw [show (((k + 1 : Nat) : Int) - 0).toNat = k + 1 by omega, List.take_succ_cons, List.replicate_succ]
  simp [RmFile.fillSlots]

theorem triple_insertRecordsLoop (s₀ : RecordLayer T) (t : T) (fuel : Nat) (bufs : List Bytes) :
    Triple (Balanced tabs s₀) (insertRecordsLoop tabs t fuel bufs) (fun _ => Balanced tabs s₀) (fun _ => Balanced tabs s₀) := by
  induction fuel generalizing bufs with
  | zero =>
    cases bufs with
    | nil => exact Triple.pure fun _ h => h
    | cons buf bufs => exact Triple.throw fun _ h => h
  | succ fuel ih =>
    cases bufs with
    | nil => exact Triple.pure fun _ h => h
    | cons buf bufs =>
      refine (triple_freePageHandle s₀ t).bind ?_
      rintro ⟨p, page⟩
      refine Triple.get fun s hs => ?_
      rcases hs with hold | ⟨hold, next, hpage⟩
      · refine ((triple_modifyFile t fun f => numPages_unlinkIfFull f _ _).at_state hold).bind fun _ => ?_
        exact (triple_unpin s₀ t p (.inl rfl)).bind fun _ => (ih _).bind fun _ => Triple.pure fun _ h => h
      · refine ((triple_modifyFile t fun f => numPages_unlinkIfFull f _ _).at_state hold).bind fun _ => ?_
        refine (triple_unpin s₀ t p (.inr ⟨rfl, ?_⟩)).bind fun _ => (ih _).bind fun _ => Triple.pure fun _ h => h
        obtain rfl : page = _ := hpage
        simpa using fillSlots_fresh (hold.valid.perPage t) buf bufs

theorem triple_insertRecordsBatch (s₀ : RecordLayer T) (t : T) (bufs : List Bytes) :
    Triple (Balanced tabs s₀) (insertRecordsBatch tabs t bufs) (fun _ => Balanced tabs s₀) (fun _ => Balanced tabs s₀) :=
  Triple.get fun _ hs => (triple_insertRecordsLoop s₀ t _ bufs).at_state hs

omit [DecidableEq T] in
theorem triple_scanLoop (s₀ : RecordLayer T) (t : T) (n : Nat) (p slotNo : Int) :
    Triple (Balanced tabs s₀) (scanLoop tabs t n p slotNo) (fun _ => Balanced tabs s₀) (fun _ => Balanced tabs s₀) := by
  induction n generalizing p slotNo with
  | zero => exact Triple.pure fun _ h => h
  | succ n ih =>
    refine (triple_fetch s₀ t p).bind fun page => Triple.get fun s hs => Triple.ite (fun _ => ?_) fun _ => ?_
    · exact ((triple_unpin s₀ t p (.inl rfl)).at_state hs).bind fun _ => Triple.pure fun _ h => h
    · exact ((triple_unpin s₀ t p (.inl rfl)).at_state hs).bind fun _ => ih _ _

omit [DecidableEq T] in
theorem triple_scanNext (s₀ : RecordLayer T) (t : T) (rid : Rid) :
    Triple (Balanced tabs s₀) (scanNext tabs t rid) (fun _ => Balanced tabs s₀) (fun _ => Balanced tabs s₀) :=
  Triple.get fun _ hs => (triple_scanLoop s₀ t _ _ _).at_state hs

/-! ### `commit` -/

theorem commitChain_spec (h : Valid tabs none s) (id commitTs : Int) (row : T × Rid) :
    (after (commitChain tabs id commitTs row) s).1 = .ok () ∧
      (Leaks tabs s id row → More tabs s (after (commitChain tabs id commitTs row) s).2) ∧
      (¬Leaks tabs s id row → ∃ r chains, (after (commitChain tabs id commitTs row) s).2 =
          ⟨{ s.pool with replacer := r }, s.fhs, chains⟩ ∧ Valid tabs none ⟨{ s.pool with replacer := r }, s.fhs, chains⟩ ∧
          ∀ row', Leaks tabs ⟨{ s.pool with replacer := r }, s.fhs, chains⟩ id row' ↔ Leaks tabs s id row') := by
  cases hchain : s.versionChains row with
  | none =>
    have hdef : after (commitChain tabs id commitTs row) s = (.ok (), s) := by
      unfold commitChain
      rw [after_get]
      simp only [hchain]
      rfl
    rw [hdef]
    refine ⟨rfl, fun hleak => ?_, fun _ => ⟨s.pool.replacer, s.versionChains, rfl, h, fun _ => Iff.rfl⟩⟩
    obtain ⟨⟨chain, hsome, -⟩, -⟩ := hleak
    rw [hchain] at hsome
    cases hsome
  | some chain =>
    have hset : after (commitChain tabs id commitTs row) s = after (if hasVersion chain id then persistMvccVersion tabs row.2 else pure ())
        ⟨s.pool, s.fhs, Function.update s.versionChains row (some (chain.commitChainVersions id commitTs))⟩ := by
      unfold commitChain
      rw [after_get]
      simp only [hchain]
      rfl
    rw [hset]
    have hvalid : ∀ chains, Valid tabs none ⟨s.pool, s.fhs, chains⟩ := fun _ => ⟨h.kept, h.next, h.present, h.perPage⟩
    -- the chain of another row is as before
    have hother : ∀ r row', row' ≠ row → (Leaks tabs ⟨{ s.pool with replacer := r }, s.fhs,
        Function.update s.versionChains row (some (chain.commitChainVersions id commitTs))⟩ id row' ↔ Leaks tabs s id row') := by
      intro r row' hne
      simp only [Leaks, Function.update_of_ne hne]
      rfl
    by_cases hv : hasVersion chain id = true
    · rw [if_pos hv]
      obtain ⟨hok, hmore, hquiet⟩ := persist_spec (hvalid (Function.update s.versionChains row (some (chain.commitChainVersions id commitTs)))) row.2
      refine ⟨hok, fun hleak => hmore hleak.2, fun hnot => ?_⟩
      have hsearch : ¬Searches tabs s row.2 := fun hs => hnot ⟨⟨chain, hchain, hv⟩, hs⟩
      obtain ⟨r, heq, hvalid'⟩ := hquiet hsearch
      refine ⟨r, _, heq, hvalid', fun row' => ?_⟩
      by_cases hrow : row' = row
      · subst hrow
        exact ⟨fun hl => absurd hl.2 hsearch, fun hl => absurd hl.2 hsearch⟩
      · exact hother r row' hrow
    · rw [if_neg hv]
      have hnone : ¬Leaks tabs s id row := by
        rintro ⟨⟨chain', hchain', hv'⟩, -⟩
        rw [hchain] at hchain'
        cases hchain'
        exact hv hv'
      refine ⟨rfl, fun hleak => absurd hleak hnone, fun _ => ⟨s.pool.replacer, _, rfl, hvalid _, fun row' => ?_⟩⟩
      by_cases hrow : row' = row
      · subst hrow
        refine ⟨?_, fun hl => absurd hl hnone⟩
        rintro ⟨⟨chain', hchain', hv'⟩, -⟩
        simp only [Function.update_self, Option.some.injEq] at hchain'
        subst hchain'
        rw [VersionChain.commitChainVersions, hasVersion_commitLoop commitTs (Bool.eq_false_iff.mpr hv)] at hv'
        cases hv'
      · exact hother s.pool.replacer row' hrow

/-- A commit takes pins if it searches for a row, and leaves the pins as they are if it does not. -/
theorem commit_spec (id commitTs : Int) (rows : List (T × Rid)) (h : Valid tabs none s) :
    ((∃ row ∈ rows, Leaks tabs s id row) → More tabs s (after (commit tabs id commitTs rows) s).2) ∧
      ((∀ row ∈ rows, ¬Leaks tabs s id row) → Balanced tabs s (after (commit tabs id commitTs rows) s).2) := by
  induction rows generalizing s with
  | nil => exact ⟨fun hl => by simp at hl, fun _ => ⟨h, fun _ => rfl⟩⟩
  | cons row rows ih =>
    obtain ⟨hok, hmore, hquiet⟩ := commitChain_spec h id commitTs row
    have hdef : commit tabs id commitTs (row :: rows) = commitChain tabs id commitTs row >>= fun _ => commit tabs id commitTs rows := rfl
    rw [hdef, after_bind_ok hok]
    by_cases hleak : Leaks tabs s id row
    · refine ⟨fun _ => ?_, fun hall => absurd hleak (hall row List.mem_cons_self)⟩
      have hfirst := hmore hleak
      obtain ⟨hgrow, hbal⟩ := ih hfirst.1.1
      refine hfirst.grown ?_
      by_cases hrest : ∃ row' ∈ rows, Leaks tabs (after (commitChain tabs id commitTs row) s).2 id row'
      · exact (hgrow hrest).1
      · obtain ⟨hvalid, hsame⟩ := hbal fun row' hrow' hl => hrest ⟨row', hrow', hl⟩
        exact ⟨hvalid, fun q => (hsame q).ge⟩
    · obtain ⟨r, chains, heq, hvalid, hiff⟩ := hquiet hleak
      rw [heq]
      obtain ⟨hgrow, hbal⟩ := ih hvalid
      refine ⟨fun hl => ?_, fun hall => ?_⟩
      · obtain ⟨row', hrow', hl⟩ := hl
        rcases List.mem_cons.mp hrow' with rfl | hrow'
        · exact absurd hl hleak
        · exact hgrow ⟨row', hrow', (hiff row').mpr hl⟩
      · exact hbal fun row' hrow' hl => hall row' (List.mem_cons_of_mem _ hrow') ((hiff row').mp hl)

/-! ### Runs -/

/-- The call gives back its pins: it is no `is_record` that returns, and no commit that searches for a row. -/
def Releases (tabs : Tables T) (s : RecordLayer T) : LayerCall T → Prop
  | .isRecord t rid => ¬Fetches tabs s t rid.pageNo
  | .commit id _ rows => ∀ row ∈ rows, ¬Leaks tabs s id row
  | .getRecord .. | .insertRecord .. | .insertRecordAt .. | .deleteRecord .. | .updateRecord .. | .insertRecordsBatch .. |
    .rmScan .. | .scanNext .. => True

theorem step_spec (h : Valid tabs none s) (c : LayerCall T) :
    ∃ u, s.step tabs c = .ok u ∧ Valid tabs none u ∧ (SamePins s u ↔ Releases tabs s c) := by
  have hself : Balanced tabs s s := ⟨h, fun _ => rfl⟩
  have hbal : ∀ {α : Type} (m : RmM T α), Triple (Balanced tabs s) m (fun _ => Balanced tabs s) (fun _ => Balanced tabs s) →
      ∃ u, finish m s = .ok u ∧ Valid tabs none u ∧ (SamePins s u ↔ True) := by
    intro α m hm
    obtain ⟨hvalid, hsame⟩ := after_of_triple hm hself
    exact ⟨_, rfl, hvalid, iff_of_true hsame trivial⟩
  cases c with
  | getRecord t rid => exact hbal _ (triple_getRecord s t rid)
  | insertRecord t buf => exact hbal _ (triple_insertRecord s t buf)
  | insertRecordAt t rid buf => exact hbal _ (triple_insertRecordAt s t rid buf)
  | deleteRecord t rid => exact hbal _ (triple_deleteRecord s t rid)
  | updateRecord t rid buf => exact hbal _ (triple_updateRecord s t rid buf)
  | insertRecordsBatch t bufs => exact hbal _ (triple_insertRecordsBatch s t bufs)
  | rmScan t => exact hbal _ (triple_scanNext s t _)
  | scanNext t rid => exact hbal _ (triple_scanNext s t rid)
  | isRecord t rid =>
    rcases isRecord_spec h t rid with ⟨hf, b, pool, heq, hmore⟩ | ⟨hf, e, r, heq, hvalid⟩
    · refine ⟨_, congrArg Except.ok (congrArg Prod.snd heq), hmore.1.1, ?_⟩
      exact iff_of_false hmore.not_samePins fun hnot => hnot hf
    · refine ⟨_, congrArg Except.ok (congrArg Prod.snd heq), hvalid, ?_⟩
      exact iff_of_true (fun _ => rfl) hf
  | commit id commitTs rows =>
    obtain ⟨hmore, hbal⟩ := commit_spec id commitTs rows h
    by_cases hl : ∃ row ∈ rows, Leaks tabs s id row
    · have hm := hmore hl
      refine ⟨_, rfl, hm.1.1, iff_of_false hm.not_samePins fun hall => ?_⟩
      obtain ⟨row, hrow, hleak⟩ := hl
      exact hall row hrow hleak
    · have hall : ∀ row ∈ rows, ¬Leaks tabs s id row := fun row hrow hleak => hl ⟨row, hrow, hleak⟩
      obtain ⟨hvalid, hsame⟩ := hbal hall
      exact ⟨_, rfl, hvalid, iff_of_true hsame hall⟩

/-- A server that has opened the files. -/
def opened (poolSize : Nat) (fds : Nat → Int) (disk : Disk) (fhs : T → RmFile)
    (chains : T × Rid → Option VersionChain) : RecordLayer T := ⟨.create poolSize fds disk, fhs, chains⟩

end RecordLayer
end Rmdb
