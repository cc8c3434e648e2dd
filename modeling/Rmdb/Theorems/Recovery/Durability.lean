import Rmdb.Theorems.Recovery.Crash
import Rmdb.Theorems.Recovery.Wal
import Rmdb.Theorems.Record.Refinement

/-! A crash at any moment of a run of the server: recovery gives the rows of the transactions whose commits have reached the
log file.

The records that a run adds to the log are those of a strict log (`ServerInv`), and so is every beginning of it, whatever part
of the log buffer the crash lets through. -/

namespace Rmdb
open Runs RedoUndo

theorem LogEntry.onTable_of_row {T : Type} {tableOf : Bytes → Option T} {r : LogEntry} {x : RowChange T}
    (h : r.rowChange? tableOf = some x) : r.OnTable tableOf := by
  unfold LogEntry.rowChange? at h
  unfold LogEntry.OnTable
  cases hb : r.body with
  | insert value rid tableName =>
    simp only [hb, Option.map_eq_some_iff] at h
    obtain ⟨t, ht, -⟩ := h
    simp only [ht, Option.isSome_some]
  | delete value rid tableName firstFreePageNo numPages =>
    simp only [hb, Option.map_eq_some_iff] at h
    obtain ⟨t, ht, -⟩ := h
    simp only [ht, Option.isSome_some]
  | update old new rid tableName firstFreePageNo numPages =>
    simp only [hb, Option.map_eq_some_iff] at h
    obtain ⟨t, ht, -⟩ := h
    simp only [ht, Option.isSome_some]
  | begin => trivial
  | commit => trivial
  | abort => trivial
  | checkpoint => trivial

/-! ### Logs that grow -/

section
variable {T I : Type} [DecidableEq T] {db : Schema T I} {tableOf : Bytes → Option T}
variable {rows : T × Rid → Option Bytes} {rs rs' : List LogEntry} {e : LogEntry}

omit [DecidableEq T] in
theorem split_snoc {A B : List LogEntry} {r : LogEntry} (h : rs ++ [e] = A ++ r :: B) :
    (A = rs ∧ r = e ∧ B = []) ∨ ∃ B', B = B' ++ [e] ∧ rs = A ++ r :: B' := by
  rcases List.eq_nil_or_concat B with rfl | ⟨B, b, rfl⟩
  · obtain ⟨rfl, heq⟩ := List.append_inj' h rfl
    obtain ⟨rfl, -⟩ := List.cons.inj heq
    exact .inl ⟨rfl, rfl, rfl⟩
  · have hlast : rs ++ [e] = (A ++ r :: B) ++ [b] := by simpa using h
    obtain ⟨hrs, heq⟩ := List.append_inj' hlast rfl
    obtain ⟨rfl, -⟩ := List.cons.inj heq
    exact .inr ⟨B, by simp, hrs⟩

theorem endOf_append (B B' : List LogEntry) (r : LogEntry) : endOf (B ++ B') r = (endOf B r).or (endOf B' r) :=
  List.find?_append

theorem ended_of_endOf {B : List LogEntry} {r : LogEntry} : Ended (·.logTid) IsEnd B r ↔ (endOf B r).isSome = true := by
  rw [endOf, List.find?_isSome]
  simp [Ended]

/-- A record is added to a strict log. -/
theorem StrictLog.snoc (h : StrictLog db tableOf rows rs) (htable : e.OnTable tableOf)
    (hslot : ∀ x, e.rowChange? tableOf = some x → 1 ≤ x.rid.pageNo ∧ RmFile.IsSlotOf (db.perPage x.tab) x.rid)
    (hlegal : ∀ x, e.rowChange? tableOf = some x → x.change.before =
      (Change.inPlace Bytes).ends (rows (x.tab, x.rid)) (rs.filterMap (·.slotChange? tableOf (x.tab, x.rid))))
    (hwait : ∀ x, e.rowChange? tableOf = some x → ∀ A r B, rs = A ++ r :: B →
      (r.slotChange? tableOf (x.tab, x.rid)).isSome = true → e.logTid = r.logTid ∨ Ended (·.logTid) IsEnd B r)
    (habort : e.body = .abort → ∀ A r B, rs = A ++ r :: B → (r.rowChange? tableOf).isSome = true → r.logTid = e.logTid →
      Ended (·.logTid) IsEnd B r) : StrictLog db tableOf rows (rs ++ [e]) where
  tables r hr := by
    rcases List.mem_append.mp hr with hr | hr
    · exact h.tables r hr
    · rw [List.mem_singleton.mp hr]
      exact htable
  slots r hr := by
    rcases List.mem_append.mp hr with hr | hr
    · exact h.slots r hr
    · rw [List.mem_singleton.mp hr]
      exact hslot
  legal c := by
    rw [List.filterMap_append]
    refine Changes.legal_append.mpr ⟨h.legal c, ?_⟩
    cases hc : e.slotChange? tableOf c with
    | none => simp [hc, Changes.Legal]
    | some change =>
      obtain ⟨x, hx, hat⟩ := Option.bind_eq_some_iff.mp hc
      unfold RowChange.at? at hat
      split at hat
      · next heq =>
        cases hat
        have hbefore := hlegal x hx
        rw [← heq] at hbefore
        simp only [List.filterMap_cons, hc, List.filterMap_nil]
        exact ⟨hbefore, trivial⟩
      · cases hat
  strict c := by
    refine (h.strict c).snoc fun htouch A r B hsplit hr => ?_
    obtain ⟨change, hc⟩ := Option.isSome_iff_exists.mp htouch
    obtain ⟨x, hx, hat⟩ := Option.bind_eq_some_iff.mp hc
    unfold RowChange.at? at hat
    split at hat
    · next heq =>
      rw [heq] at hr
      exact hwait x hx A r B hsplit hr
    · cases hat
  commits A r B hsplit hr e' he' := by
    rcases split_snoc hsplit with ⟨rfl, rfl, rfl⟩ | ⟨B', rfl, hrs⟩
    · cases he'
    · rw [endOf_append] at he'
      cases hfirst : endOf B' r with
      | some e'' =>
        rw [hfirst] at he'
        cases he'
        exact h.commits A r B' hrs hr _ hfirst
      | none =>
        rw [hfirst, Option.none_or] at he'
        obtain rfl := List.mem_singleton.mp (List.mem_of_find?_eq_some he')
        have hend := List.find?_some he'
        simp only [Bool.and_eq_true, decide_eq_true_eq] at hend
        obtain ⟨htid, hend⟩ := hend
        unfold IsEnd at hend
        cases hbody : e'.body with
        | commit => rfl
        | abort =>
          have hended := ended_of_endOf.mp (habort hbody A r B' hrs hr htid.symm)
          rw [hfirst] at hended
          cases hended
        | begin => simp [hbody] at hend
        | insert value rid tableName => simp [hbody] at hend
        | delete value rid tableName firstFreePageNo numPages => simp [hbody] at hend
        | update old new rid tableName firstFreePageNo numPages => simp [hbody] at hend
        | checkpoint => simp [hbody] at hend

omit [DecidableEq T] in
theorem Grown.snoc {pages : T → Int} (h : Grown tableOf pages rs)
    (hnew : ∀ x, e.rowChange? tableOf = some x → x.change.before = none → x.rid.pageNo ≤ pages x.tab ∨
      ∃ r ∈ rs, ∃ y, r.rowChange? tableOf = some y ∧ y.change.before = none ∧ y.tab = x.tab ∧ x.rid.pageNo ≤ y.rid.pageNo + 1) :
    Grown tableOf pages (rs ++ [e]) := by
  intro A r B x hsplit hx hbefore
  rcases split_snoc hsplit with ⟨rfl, rfl, rfl⟩ | ⟨B', rfl, hrs⟩
  · exact hnew x hx hbefore
  · exact h A r B' x hrs hx hbefore

end

/-! ### A step of the server -/

namespace RmFile
variable {f g : RmFile} {l : List Int} {buf : Bytes} {rid : Rid}

/-- A new page comes behind the last one. -/
theorem Heap.insertRecord_pages (H : Heap f l) (h : f.insertRecord buf = .ok (g, rid)) :
    g.numPages = f.numPages ∨ rid.pageNo = f.numPages ∧ g.numPages = f.numPages + 1 := by
  have hunlink : ∀ (f : RmFile) (p : Int) (page : RmPage), (f.unlinkIfFull p page).numPages = f.numPages := by
    intro f p page
    unfold RmFile.unlinkIfFull
    split <;> rfl
  obtain ⟨⟨f₁, p, page⟩, hhandle, hrest⟩ := ok_of_bind h
  dsimp only at hrest
  split at hrest
  · cases hrest
  · cases hrest
    rw [hunlink]
    unfold RmFile.freePageHandle at hhandle
    split at hhandle
    · rw [H.createNewPageHandle] at hhandle
      cases hhandle
      exact .inr ⟨rfl, rfl⟩
    · obtain ⟨page', -, hpage⟩ := ok_of_bind hhandle
      cases hpage
      exact .inl rfl

theorem deleteRecord_pages (h : f.deleteRecord rid = .ok g) : g.numPages = f.numPages := by
  obtain ⟨page, -, h⟩ := ok_of_bind h
  obtain ⟨slot, -, h⟩ := ok_of_bind h
  dsimp only at h
  split at h
  · cases h
  · split at h <;> cases h
    · unfold releasePageHandle
      split <;> rfl
    · rfl

theorem updateRecord_pages (h : f.updateRecord rid buf = .ok g) : g.numPages = f.numPages := by
  obtain ⟨page, -, h⟩ := ok_of_bind h
  obtain ⟨slot, -, h⟩ := ok_of_bind h
  split at h <;> cases h
  rfl

/-- A record is on a record page. -/
theorem Heap.lookup_bounds (H : Heap f l) (h : f.lookup rid = some buf) : 1 ≤ rid.pageNo ∧ rid.pageNo < f.numPages := by
  obtain ⟨page, hpage, -⟩ := Option.bind_eq_some_iff.mp h
  exact H.bounds hpage

end RmFile

section
variable {T I : Type} [DecidableEq T] (db : Schema T I) (name : T → Bytes) (tableOf : Bytes → Option T)

/-- What a transaction server keeps to: every change is logged with its transaction and names a slot of a record page. A change of
what another transaction has changed waits for the end of that one, and a transaction that has changed anything is not rolled
back. -/
structure Disciplined (p : Wal T × WalNote T) (a : WalAct T) : Prop where
  logged : ∀ t buf, a ≠ .insertRecord none t buf ∧ ∀ rid, a ≠ .insertRecordAt t rid buf ∧ a ≠ .updateRecord none t rid buf ∧
    a ≠ .deleteRecord none t rid
  slots : ∀ context t rid buf, a = .deleteRecord context t rid ∨ a = .updateRecord context t rid buf →
    RmFile.IsSlotOf (db.perPage t) rid
  waits : ∀ w e x, p.1.perform name a = .ok w → w.entry = some e → e.rowChange? tableOf = some x → ∀ A r B, p.2.entries = A ++ r :: B →
    (r.slotChange? tableOf (x.tab, x.rid)).isSome = true → e.logTid = r.logTid ∨ Ended (·.logTid) IsEnd B r
  ends : ∀ id, a = .abort id → ∀ A r B, p.2.entries = A ++ r :: B → (r.rowChange? tableOf).isSome = true → r.logTid = id →
    Ended (·.logTid) IsEnd B r

/-- A logged change of a row of the tables in memory. -/
structure Changed (s : Wal T) (w : WalStep T) (e : LogEntry) (x : RowChange T) : Prop where
  entry : w.entry = some e
  row : e.rowChange? tableOf = some x
  body : e.body ≠ .abort
  before : x.change.before = (s.fhs x.tab).lookup x.rid
  after : ∀ c : T × Rid, (w.state.fhs c.1).lookup c.2 = if c = (x.tab, x.rid) then x.change.after else (s.fhs c.1).lookup c.2
  slot : 1 ≤ x.rid.pageNo ∧ RmFile.IsSlotOf (db.perPage x.tab) x.rid
  near : x.rid.pageNo ≤ (s.fhs x.tab).numPages
  pages : ∀ t, (w.state.fhs t).numPages = (s.fhs t).numPages ∨
    t = x.tab ∧ x.change.before = none ∧ (w.state.fhs t).numPages = x.rid.pageNo + 1

/-- A step that changes no row. -/
structure Unchanged (s : Wal T) (w : WalStep T) (a : WalAct T) : Prop where
  fhs : w.state.fhs = s.fhs
  entry : ∀ e, w.entry = some e → e.rowChange? tableOf = none ∧ e.OnTable tableOf ∧
    ∀ id, e.body = .abort → e.logTid = id → a = .abort id

variable {db} {name} {tableOf} {s : Wal T} {w : WalStep T} {a : WalAct T}

/-- A call of the record layer that changed one row. -/
theorem changed_row {id p : Int} {t : T} {g : RmFile} {body : LogBody} {rid : Rid} {change : Change Bytes}
    (hbody : (s.log.nextEntry id (-1) body).rowChange? tableOf = some ⟨t, rid, change⟩) (habort : body ≠ .abort)
    (hbefore : change.before = (s.fhs t).lookup rid) (hg : ∀ r, g.lookup r = if r = rid then change.after else (s.fhs t).lookup r)
    (hslot : 1 ≤ rid.pageNo ∧ RmFile.IsSlotOf (db.perPage t) rid) (hnear : rid.pageNo ≤ (s.fhs t).numPages)
    (hpages : g.numPages = (s.fhs t).numPages ∨ change.before = none ∧ g.numPages = rid.pageNo + 1) :
    Changed db tableOf s (s.changed (some id) t p g body) (s.log.nextEntry id (-1) body) ⟨t, rid, change⟩ where
  entry := rfl
  row := hbody
  body := habort
  before := hbefore
  after := by
    rintro ⟨u, r⟩
    show (Function.update s.fhs t g u).lookup r = _
    by_cases hu : u = t
    · subst hu
      rw [Function.update_self, hg]
      by_cases hr : r = rid <;> simp [hr]
    · rw [Function.update_of_ne hu, if_neg fun h => hu (congrArg Prod.fst h)]
  slot := hslot
  near := hnear
  pages := by
    intro u
    show (Function.update s.fhs t g u).numPages = _ ∨ u = t ∧ _ ∧ (Function.update s.fhs t g u).numPages = _
    by_cases hu : u = t
    · subst hu
      rw [Function.update_self]
      exact hpages.imp_right fun h => ⟨rfl, h⟩
    · rw [Function.update_of_ne hu]
      exact .inl rfl

theorem sound_update {fhs : T → RmFile} {t : T} {g : RmFile} (h : ∀ t, RmFile.Sound (db.recordSize t) (fhs t))
    (hg : RmFile.Sound (db.recordSize t) g) (u : T) : RmFile.Sound (db.recordSize u) (Function.update fhs t g u) := by
  by_cases hu : u = t
  · subst hu
    rw [Function.update_self]
    exact hg
  · rw [Function.update_of_ne hu]
    exact h u

/-- Every step keeps the files sound and changes no row, or one that it logs. -/
theorem perform_row {g : WalNote T} (hname : ∀ t, tableOf (name t) = some t) (hsound : ∀ t, RmFile.Sound (db.recordSize t) (s.fhs t))
    (hd : Disciplined db name tableOf (s, g) a) (h : s.perform name a = .ok w) :
    (∀ t, RmFile.Sound (db.recordSize t) (w.state.fhs t)) ∧
      (Unchanged tableOf s w a ∨ ∃ e x, Changed db tableOf s w e x) := by
  cases a with
  | begin id =>
    cases h
    exact ⟨hsound, .inl ⟨rfl, fun e he => by cases he; exact ⟨rfl, trivial, fun _ hb => by cases hb⟩⟩⟩
  | commit id =>
    cases h
    exact ⟨hsound, .inl ⟨rfl, fun e he => by cases he; exact ⟨rfl, trivial, fun _ hb => by cases hb⟩⟩⟩
  | abort id =>
    cases h
    refine ⟨hsound, .inl ⟨rfl, fun e he => ?_⟩⟩
    cases he
    refine ⟨rfl, trivial, fun id' _ hid => ?_⟩
    rw [← hid]
    rfl
  | writePage t p =>
    cases h
    exact ⟨hsound, .inl ⟨rfl, fun e he => by cases he⟩⟩
  | flushLog =>
    cases h
    exact ⟨hsound, .inl ⟨rfl, fun e he => by cases he⟩⟩
  | insertRecordAt t rid buf => exact absurd rfl ((hd.logged t buf).2 rid).1
  | insertRecord context t buf =>
    cases context with
    | none => exact absurd rfl (hd.logged t buf).1
    | some id =>
      obtain ⟨hper, l, H⟩ := hsound t
      obtain ⟨f, rid, l', hinsert, H', hext, hin, hfree, hlookup⟩ := H.insertRecord buf
      simp only [Wal.perform, hinsert, bind, Except.bind, Wal.orRaised] at h
      cases h
      refine ⟨sound_update hsound ((hsound t).of_extends hext H'), .inr ⟨_, ⟨t, rid, .insert buf⟩, changed_row ?_ ?_ ?_ hlookup ?_ ?_ ?_⟩⟩
      · simp only [LogManager.nextEntry, LogEntry.rowChange?, hname, Option.map_some]
      · exact fun hb => by cases hb
      · exact hfree.symm
      · obtain ⟨hlo, hhi, hpage, -⟩ := hin
        rw [hext.perPage, hper] at hhi
        exact ⟨hpage, by omega, hlo, hhi⟩
      · have hlast := hin.2.2.2
        rcases H.insertRecord_pages hinsert with hsame | ⟨hnew, -⟩
        · omega
        · omega
      · rcases H.insertRecord_pages hinsert with hsame | ⟨hnew, hgrown⟩
        · exact .inl hsame
        · exact .inr ⟨rfl, by omega⟩
  | deleteRecord context t rid =>
    cases context with
    | none => exact absurd rfl ((hd.logged t []).2 rid).2.2
    | some id =>
      obtain ⟨hper, l, H⟩ := hsound t
      have hrid := hd.slots (some id) t rid [] (.inl rfl)
      have hslot : 0 ≤ rid.slotNo ∧ rid.slotNo < (s.fhs t).perPage := ⟨hrid.2.1, by rw [hper]; exact hrid.2.2⟩
      rcases H.getRecord hrid.1 hslot with ⟨-, n, hget⟩ | ⟨old, hold, hget⟩
      · simp only [Wal.perform, hget, bind, Except.bind, Wal.orRaised] at h
        cases h
        exact ⟨hsound, .inl ⟨rfl, fun e he => by cases he⟩⟩
      · rcases H.deleteRecord hrid.1 hslot with ⟨hnone, -⟩ | ⟨f, l', -, hdelete, H', hext, hlookup⟩
        · rw [hold] at hnone
          cases hnone
        · simp only [Wal.perform, hget, hdelete, bind, Except.bind, Wal.orRaised] at h
          cases h
          obtain ⟨hlo, hhi⟩ := H.lookup_bounds hold
          refine ⟨sound_update hsound ((hsound t).of_extends hext H'), .inr ⟨_, ⟨t, rid, .remove old⟩,
            changed_row ?_ ?_ hold.symm hlookup ⟨hlo, hrid⟩ (Int.le_of_lt hhi) (.inl ?_)⟩⟩
          · simp only [LogManager.nextEntry, LogEntry.rowChange?, hname, Option.map_some]
          · exact fun hb => by cases hb
          · exact RmFile.deleteRecord_pages hdelete
  | updateRecord context t rid buf =>
    cases context with
    | none => exact absurd rfl ((hd.logged t buf).2 rid).2.1
    | some id =>
      obtain ⟨hper, l, H⟩ := hsound t
      have hrid := hd.slots (some id) t rid buf (.inr rfl)
      have hslot : 0 ≤ rid.slotNo ∧ rid.slotNo < (s.fhs t).perPage := ⟨hrid.2.1, by rw [hper]; exact hrid.2.2⟩
      rcases H.getRecord hrid.1 hslot with ⟨-, n, hget⟩ | ⟨old, hold, hget⟩
      · simp only [Wal.perform, hget, bind, Except.bind, Wal.orRaised] at h
        cases h
        exact ⟨hsound, .inl ⟨rfl, fun e he => by cases he⟩⟩
      · rcases H.updateRecord hrid.1 hslot buf with ⟨hnone, -⟩ | ⟨f, -, hupdate, H', hext, hlookup⟩
        · rw [hold] at hnone
          cases hnone
        · simp only [Wal.perform, hget, hupdate, bind, Except.bind, Wal.orRaised] at h
          cases h
          obtain ⟨hlo, hhi⟩ := H.lookup_bounds hold
          refine ⟨sound_update hsound ((hsound t).of_extends hext H'), .inr ⟨_, ⟨t, rid, .replace old buf⟩,
            changed_row ?_ ?_ hold.symm hlookup ⟨hlo, hrid⟩ (Int.le_of_lt hhi) (.inl ?_)⟩⟩
          · simp only [LogManager.nextEntry, LogEntry.rowChange?, hname, Option.map_some]
          · exact fun hb => by cases hb
          · exact RmFile.updateRecord_pages hupdate

/-! ### Runs -/

variable (db) (tableOf) in
/-- The rows in memory are those that the log records lead to, and the log is one of a disciplined server. -/
structure ServerInv (p : Wal T × WalNote T) : Prop where
  sound : ∀ t, RmFile.Sound (db.recordSize t) (p.1.fhs t)
  rows : ∀ c : T × Rid, (p.1.fhs c.1).lookup c.2 =
    (Change.inPlace Bytes).ends none (p.2.entries.filterMap (·.slotChange? tableOf c))
  log : StrictLog db tableOf (fun _ => none) p.2.entries
  grown : Grown tableOf (fun _ => 1) p.2.entries
  reach : ∀ t, (p.1.fhs t).numPages ≤ 1 ∨ ∃ r ∈ p.2.entries, ∃ x, r.rowChange? tableOf = some x ∧ x.change.before = none ∧
    x.tab = t ∧ (p.1.fhs t).numPages ≤ x.rid.pageNo + 1
  filed : ∃ k, Wal.Filed p k

theorem entries_noteWal (hw : s.perform name a = .ok w) (g : WalNote T) :
    (Wal.noteWal name s a w.state g).entries = g.entries ++ w.entry.toList := by
  simp only [Wal.noteWal, hw]

theorem ServerInv.step (hname : ∀ t, tableOf (name t) = some t) {g : WalNote T} (h : ServerInv db tableOf (s, g))
    (hd : Disciplined db name tableOf (s, g) a) (hw : s.perform name a = .ok w) :
    ServerInv db tableOf (w.state, Wal.noteWal name s a w.state g) := by
  obtain ⟨k, hk⟩ := h.filed
  obtain ⟨k', -, -, hk'⟩ := hk.step hw
  obtain ⟨hsound, hrow⟩ := perform_row hname h.sound hd hw
  have hentries := entries_noteWal hw g
  rcases hrow with hsame | ⟨e, x, hx⟩
  · cases he : w.entry with
    | none =>
      rw [he, Option.toList_none, List.append_nil] at hentries
      exact
        { sound := hsound
          rows := by rw [hentries]; simpa only [hsame.fhs] using h.rows
          log := by rw [hentries]; exact h.log
          grown := by rw [hentries]; exact h.grown
          reach := by rw [hentries]; simpa only [hsame.fhs] using h.reach
          filed := ⟨k', hk'⟩ }
    | some e =>
      rw [he, Option.toList_some] at hentries
      obtain ⟨hnone, htable, habort⟩ := hsame.entry e he
      have hslot : ∀ c, e.slotChange? tableOf c = none := fun c => by rw [LogEntry.slotChange?, hnone, Option.bind_none]
      exact
        { sound := hsound
          rows := by
            intro c
            rw [hentries, List.filterMap_append]
            simpa [hsame.fhs, hslot] using h.rows c
          log := by
            rw [hentries]
            refine h.log.snoc htable (fun x hx => ?_) (fun x hx => ?_) (fun x hx => ?_) fun hbody A r B hsplit hr htid => ?_
            · rw [hnone] at hx
              cases hx
            · rw [hnone] at hx
              cases hx
            · rw [hnone] at hx
              cases hx
            · exact hd.ends e.logTid (habort _ hbody rfl) A r B hsplit hr htid
          grown := by
            rw [hentries]
            exact h.grown.snoc fun x hx => by rw [hnone] at hx; cases hx
          reach := by
            intro t
            rw [hentries]
            rcases h.reach t with hle | ⟨r, hr, hpage⟩
            · exact .inl (by simpa only [hsame.fhs] using hle)
            · exact .inr ⟨r, List.mem_append_left _ hr, by simpa only [hsame.fhs] using hpage⟩
          filed := ⟨k', hk'⟩ }
  · rw [hx.entry, Option.toList_some] at hentries
    have hat : ∀ c, e.slotChange? tableOf c = if c = (x.tab, x.rid) then some x.change else none := fun c => by
      rw [LogEntry.slotChange?, hx.row, Option.bind_some, RowChange.at?]
    have hof : ∀ y, e.rowChange? tableOf = some y → y = x := fun y hy => Option.some.inj (hy.symm.trans hx.row)
    exact
      { sound := hsound
        rows := by
          intro c
          rw [hentries, List.filterMap_append, Changes.ends_append, hx.after, ← h.rows c]
          by_cases hc : c = (x.tab, x.rid) <;> simp [hat, hc, Changes.ends, Change.inPlace]
        log := by
          rw [hentries]
          refine h.log.snoc ?_ (fun y hy => ?_) (fun y hy => ?_) (fun y hy => ?_) fun hbody => absurd hbody hx.body
          · exact LogEntry.onTable_of_row hx.row
          · rw [hof y hy]
            exact hx.slot
          · rw [hof y hy, hx.before]
            exact h.rows (x.tab, x.rid)
          · exact hd.waits w e y hw hx.entry hy
        grown := by
          rw [hentries]
          refine h.grown.snoc fun y hy hbefore => ?_
          rw [hof y hy]
          have hnear := hx.near
          rcases h.reach x.tab with hle | ⟨r, hr, z, hz, hnew, htab, hle⟩
          · exact .inl (Int.le_trans hnear hle)
          · exact .inr ⟨r, hr, z, hz, hnew, htab, Int.le_trans hnear hle⟩
        reach := by
          intro t
          rw [hentries]
          rcases hx.pages t with hpages | ⟨htab, hnew, hpages⟩
          · rcases h.reach t with hle | ⟨r, hr, z, hz, hbefore, hztab, hle⟩
            · exact .inl (hpages ▸ hle)
            · exact .inr ⟨r, List.mem_append_left _ hr, z, hz, hbefore, hztab, hpages ▸ hle⟩
          · exact .inr ⟨e, by simp, x, hx.row, hnew, htab.symm, Int.le_of_eq hpages⟩
        filed := ⟨k', hk'⟩ }

end

end Rmdb
