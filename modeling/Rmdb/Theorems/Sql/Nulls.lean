import Rmdb.Theorems.Sql.Protocol

/-! Scans and sorts that come to a null pointer.

Only a sequential scan without conditions hands one out, and only a tree without a join has such a scan below an operator that
does not skip it. That tree has one scan, whose records are known beforehand (`Executor.Hands`), so each operator above it can
be followed record by record. -/

namespace Rmdb.Sql
open Outcomes

/-- The protocol of an operator: `beginTuple` and `nextTuple` use no null pointer and come to an end, and after each of them
    `Next` returns a tuple of `tupleLen` bytes, unless `is_end` holds. -/
structure Executor.FollowsProtocol (e : Executor) : Prop where
  start : ∀ s, s = e.init ∨ e.toIter.Reached s → Meets (fun _ => True) Fault.Clean (e.start s)
  step : ∀ s, e.toIter.Reached s → Meets (fun _ => True) Fault.Clean (e.step s)
  read : ∀ s, e.toIter.Reached s → e.isEnd s = false → ∃ rec, e.read s = .ok (some rec) ∧ rec.length = e.tupleLen

theorem Executor.Steady.follows {e : Executor} (h : e.Steady) : e.FollowsProtocol := by
  obtain ⟨⟨spec⟩, -⟩ := h
  refine ⟨fun s _ => (spec.start s).mono (fun _ _ => trivial) fun _ h => h, fun s hs => ?_, fun s hs hend => ?_⟩
  · exact (spec.step s (spec.reached hs)).mono (fun _ _ => trivial) fun _ h => h
  · obtain ⟨r, hr, rec, rfl, hlen⟩ := spec.read s (spec.reached hs) hend
    exact ⟨rec, hr, hlen⟩

theorem Executor.follows_of_start {e : Executor} (h : ∀ s, Meets (fun _ => False) Fault.Clean (e.start s)) : e.FollowsProtocol := by
  have hnone : ∀ s, ¬e.toIter.Reached s := by
    intro s hs
    induction hs with
    | first ht => exact (h _).of_ok ht
    | again _ ht => exact (h _).of_ok ht
    | step _ _ ih => exact ih
  exact ⟨fun s _ => (h s).mono (fun _ h => h.elim) fun _ h => h, fun s hs => (hnone s hs).elim, fun s hs => (hnone s hs).elim⟩

/-- `Next` returns a null pointer, or uses one. -/
def Null (r : Except Fault (Option Bytes)) : Prop := r = .ok none ∨ r = .error .nullPointer

/-- `beginTuple` uses a null pointer, or there is a position where `Next` returns or uses one. -/
def Executor.UsesNull (e : Executor) : Prop :=
  (∀ s, e.start s = .error .nullPointer) ∨ ∃ s, e.toIter.Reached s ∧ e.isEnd s = false ∧ Null (e.read s)

theorem Executor.UsesNull.not_follows {e : Executor} (h : e.UsesNull) : ¬e.FollowsProtocol := by
  intro hf
  rcases h with h | ⟨s, hs, hend, hnull⟩
  · exact ((hf.start _ (Or.inl rfl)).of_error (h e.init)).1 rfl
  · obtain ⟨rec, hr, -⟩ := hf.read s hs hend
    rcases hnull with hnull | hnull <;> cases hr.symm.trans hnull

/-- From every start on the operator gives these results from `Next`. -/
structure Executor.Hands (e : Executor) (reads : List (Except Fault (Option Bytes))) : Prop where
  start : ∀ s, ∃ t, e.start s = .ok t ∧ e.toIter.Runs t reads
  bound : reads.length ≤ e.bound

theorem Executor.Hands.usesNull {e : Executor} {reads : List (Except Fault (Option Bytes))} (h : e.Hands reads)
    {r : Except Fault (Option Bytes)} (hr : r ∈ reads) (hnull : Null r) : e.UsesNull := by
  obtain ⟨t, ht, hruns⟩ := h.start e.init
  obtain ⟨s, hs, hend, rfl⟩ := hruns.reads (.first ht) hr
  exact Or.inr ⟨s, hs, hend, hnull⟩

/-! ### Loops over records that may be missing -/

/-- A record is read, and a missing one gives `null`. -/
def Shown (null : Except Fault (Option Bytes)) (r : Option Bytes) (read : Except Fault (Option Bytes)) : Prop :=
  match r with
  | some _ => ∃ rec, read = .ok (some rec)
  | none => read = null

/-- The column is one of `cols`. -/
def Resolves (cols : List Catalog.ColMeta) (c : TabCol) : Prop := (cols.find? (isNamed c)).isSome = true

/-- A loop over the records looks up the columns of each before it uses it; that it comes to use a missing one. -/
def Comes (sorted : Bool) (cols : List Catalog.ColMeta) (needed : List TabCol) (rows : List (Option Bytes)) : Prop :=
  none ∈ rows ∧ (sorted = true ∨ ∀ c ∈ needed.head?, Resolves cols c) ∧
    (rows.head? ≠ some none → ∀ c ∈ needed, Resolves cols c)

section Loops
variable {S : Type} {P : S → Prop} {null : Except Fault (Option Bytes)} {f : S → Option Bytes → Except Fault S}
  {rows : List (Option Bytes)} {reads : List (Except Fault (Option Bytes))}

/-- A loop comes to the first missing record and uses it, if each record before that lets it go on. -/
theorem foldReads_null (hreads : List.Forall₂ (Shown null) rows reads) (hmissing : none ∈ rows)
    (hnull : ∀ acc, P acc → null >>= f acc = .error .nullPointer)
    (hsome : rows.head? ≠ some none → ∀ acc rec, P acc → ∃ acc', f acc (some rec) = .ok acc' ∧ P acc') {acc : S} (hacc : P acc) :
    Iter.foldReads f acc reads = .error .nullPointer := by
  induction hreads generalizing acc with
  | nil => cases hmissing
  | @cons r read rows reads hr _ ih =>
    rw [Iter.foldReads]
    cases r with
    | none =>
      cases (hr : read = null)
      have := hnull acc hacc
      cases null with
      | error e => exact this
      | ok r =>
        rw [ok_bind] at this ⊢
        rw [this]
        rfl
    | some bytes =>
      obtain ⟨rec, rfl⟩ := hr
      obtain ⟨acc', h, hacc'⟩ := hsome (fun h => by cases h) acc rec hacc
      rw [ok_bind, h, ok_bind]
      exact ih (List.mem_of_ne_of_mem (fun h => by cases h) hmissing) (fun _ => hsome fun h => by cases h) hacc'

theorem foldReads_meets (h : ∀ r ∈ reads, ∀ acc, P acc → Meets P Fault.Clean (r >>= f acc)) {acc : S} (hacc : P acc) :
    Meets P Fault.Clean (Iter.foldReads f acc reads) := by
  induction reads generalizing acc with
  | nil => exact hacc
  | cons r rs ih =>
    have hr := h r (List.mem_cons_self ..) acc hacc
    rw [Iter.foldReads]
    cases r with
    | error e => exact hr
    | ok r =>
      rw [ok_bind] at hr ⊢
      exact hr.bind fun acc' hacc' => ih (fun r hr => h r (List.mem_cons_of_mem _ hr)) hacc'

/-- A loop fails at its first turn. -/
theorem foldReads_head {fine : Fault → Prop} {r : Option Bytes} {rs : List (Option Bytes)} {acc : S}
    (hreads : List.Forall₂ (Shown null) (r :: rs) reads)
    (hnull : r = none → Meets (fun _ => False) fine (null >>= f acc))
    (hsome : r ≠ none → ∀ rec, Meets (fun _ => False) fine (f acc (some rec))) :
    Meets (fun _ => False) fine (Iter.foldReads f acc reads) := by
  cases hreads with
  | @cons _ read _ reads hr _ =>
    have hturn : Meets (fun _ => False) fine (read >>= f acc) := by
      cases r with
      | none =>
        cases (hr : read = null)
        exact hnull rfl
      | some bytes =>
        obtain ⟨rec, rfl⟩ := hr
        exact hsome (fun h => by cases h) rec
    rw [Iter.foldReads]
    cases read with
    | error e => exact hturn
    | ok r =>
      rw [ok_bind] at hturn ⊢
      exact hturn.bind fun _ h => h.elim

/-- What `Next` gives for a missing record: a sort uses it itself. -/
def missing (sorted : Bool) : Except Fault (Option Bytes) := if sorted then .error .nullPointer else .ok none

/-- What a loop does with a record whose columns it looks up first. -/
structure LooksUp (f : S → Option Bytes → Except Fault S) (P : S → Prop) (sorted : Bool) (cols : List Catalog.ColMeta)
    (needed : List TabCol) : Prop where
  known : (∀ c ∈ needed, Resolves cols c) → ∀ acc rec, P acc → ∃ acc', f acc (some rec) = .ok acc' ∧ P acc'
  unknown : ¬(∀ c ∈ needed, Resolves cols c) → ∀ acc rec, P acc → Meets (fun _ => False) Fault.Clean (f acc (some rec))
  null : (sorted = true ∨ ∀ c ∈ needed.head?, Resolves cols c) → ∀ acc, P acc → missing sorted >>= f acc = .error .nullPointer
  nullUnknown : ¬(sorted = true ∨ ∀ c ∈ needed.head?, Resolves cols c) → ∀ acc, P acc →
    Meets (fun _ => False) Fault.Clean (missing sorted >>= f acc)

variable {sorted : Bool} {cols : List Catalog.ColMeta} {needed : List TabCol}

theorem LooksUp.comes (h : LooksUp f P sorted cols needed) (hreads : List.Forall₂ (Shown (missing sorted)) rows reads)
    (hcomes : Comes sorted cols needed rows) (acc : S) (hacc : P acc) : Iter.foldReads f acc reads = .error .nullPointer :=
  foldReads_null hreads hcomes.1 (h.null hcomes.2.1) (fun hhead => h.known (hcomes.2.2 hhead)) hacc

theorem LooksUp.not_comes (h : LooksUp f P sorted cols needed) (hreads : List.Forall₂ (Shown (missing sorted)) rows reads)
    (hmem : none ∈ rows) (hcomes : ¬Comes sorted cols needed rows) (acc : S) (hacc : P acc) :
    Meets (fun _ => False) Fault.Clean (Iter.foldReads f acc reads) := by
  cases rows with
  | nil => cases hmem
  | cons r rs =>
    refine foldReads_head hreads (fun hr => ?_) fun hr rec => ?_
    · refine h.nullUnknown (fun hfirst => hcomes ⟨hmem, hfirst, fun hhead => ?_⟩) acc hacc
      exact absurd (congrArg Option.some hr) hhead
    · refine h.unknown (fun hknown => hcomes ⟨hmem, Or.inr fun c hc => ?_, fun _ => hknown⟩) acc rec hacc
      exact hknown c (List.mem_of_mem_head? hc)

end Loops

/-! ### Scans and sorts -/

/-- The records that a sequential scan without conditions hands out; those that are not visible are missing. -/
def bareRows (db : Db) (t : Table) (proj : List TabCol) : List (Option Bytes) :=
  t.slots.map fun s => (db.getRecordMvcc s).map (scanOut t.tab.cols proj).project

/-- The operator hands out these records. -/
structure Executor.Feeds (e : Executor) (sorted : Bool) (rows : List (Option Bytes)) : Prop where
  hands : none ∈ rows → ∃ reads, e.Hands reads ∧ List.Forall₂ (Shown (missing sorted)) rows reads
  steady : none ∉ rows → e.Steady

/-- What comes from a sequential scan without conditions, or from a sort over one. -/
inductive Feed where
  /-- `beginTuple` uses a missing record. -/
  | fails
  | rows (sorted : Bool) (cols : List Catalog.ColMeta) (rows : List (Option Bytes))

def Feed.Of (e : Executor) : Feed → Prop
  | .fails => ∀ s, e.start s = .error .nullPointer
  | .rows sorted cols recs => e.cols = cols ∧ e.Feeds sorted recs

/-- A sort by columns looks into every record where there are two or more; a sort that only cuts looks into none. -/
def sortFeed (stl : Stl) (selCols : List TabCol) (limit : Int) (cols : List Catalog.ColMeta) (rows : List (Option Bytes)) : Feed :=
  if selCols = [] then .rows true cols (cutTuples limit (pick rows (stl.sort rows.length fun _ _ => false)))
  else if 2 ≤ rows.length ∧ rows.any (·.isNone) then .fails
  else .rows true cols rows

section Scans
variable {db : Db} {t : Table} {proj : List TabCol}

theorem seqScan_hands : (seqScan db t [] proj).Hands ((bareRows db t proj).map .ok) where
  start := by
    have hseek : ∀ slots : List Slot, seqSeek db t.tab.cols [] slots = .ok slots := by
      intro slots
      cases slots <;> simp [seqSeek]
    intro s
    refine ⟨some t.slots, congrArg (some <$> ·) (hseek t.slots), ?_⟩
    rw [bareRows, List.map_map]
    generalize hrest : t.slots = rest
    clear hrest
    induction rest with
    | nil => rfl
    | cons x xs ih => exact ⟨rfl, rfl, some xs, congrArg (some <$> ·) (hseek xs), ih⟩
  bound := by
    rw [bareRows, List.map_map]
    exact (List.length_map _).le

theorem seqScan_steady_of (h : none ∉ bareRows db t proj) : (seqScan db t [] proj).Steady := by
  refine seqScan_steady (Or.inr fun s hs => ?_)
  by_contra hvisible
  refine h (List.mem_map.mpr ⟨s, hs, ?_⟩)
  rw [Db.getRecordMvcc, if_neg hvisible]
  rfl

theorem bareRows_opt : ∀ r ∈ bareRows db t proj, OptTuple (scanOut t.tab.cols proj).len r := by
  intro r hr rec hrec
  obtain ⟨s, hs, rfl⟩ := List.mem_map.mp hr
  obtain ⟨bytes, hbytes, rfl⟩ := Option.map_eq_some_iff.mp hrec
  rw [getRecordMvcc_opt hbytes]
  exact scanOut_length t.laid proj (t.sized s hs)

theorem shown_ok (rows : List (Option Bytes)) : List.Forall₂ (Shown (missing false)) rows (rows.map .ok) := by
  induction rows with
  | nil => exact .nil
  | cons r rows ih =>
    refine .cons ?_ ih
    cases r with
    | none => rfl
    | some rec => exact ⟨rec, rfl⟩

theorem seqScan_feeds : (Feed.rows false (scanOut t.tab.cols proj).cols (bareRows db t proj)).Of (seqScan db t [] proj) :=
  ⟨rfl, fun _ => ⟨_, seqScan_hands, shown_ok _⟩, seqScan_steady_of⟩

end Scans

section Sorts
variable {stl : Stl} {prev e : Executor} {selCols : List TabCol} {isDesc : List Bool} {limit : Int}
  {rows items out : List (Option Bytes)} {n : Nat}

/-- The records of two lists are missing at the same places. -/
def SameGaps (items out : List (Option Bytes)) : Prop := items.map (·.isSome) = out.map (·.isSome)

theorem none_mem_iff : none ∈ items ↔ false ∈ items.map (·.isSome) := by
  rw [List.mem_map]
  refine ⟨fun h => ⟨none, h, rfl⟩, ?_⟩
  rintro ⟨r, hr, hnone⟩
  rw [Option.isSome_eq_false_iff, Option.isNone_iff_eq_none] at hnone
  exact hnone ▸ hr

theorem any_isNone : items.any (·.isNone) = true ↔ none ∈ items := by
  rw [List.any_eq_true]
  refine ⟨?_, fun h => ⟨none, h, rfl⟩⟩
  rintro ⟨r, hr, hnone⟩
  rwa [Option.isNone_iff_eq_none.mp hnone] at hr

theorem SameGaps.none_mem (h : SameGaps items out) : none ∈ items ↔ none ∈ out := by
  rw [none_mem_iff, none_mem_iff, h]

theorem collected_gaps (ownBuffer : Bool) (rows : List (Option Bytes)) : SameGaps (collected ownBuffer rows) rows := by
  unfold collected
  split
  · split
    · rw [SameGaps, List.map_map]
      exact List.map_congr_left fun r _ => Option.isSome_map
    · rfl
  · rfl

theorem SameGaps.pick (h : SameGaps items out) (positions : List Nat) : SameGaps (pick items positions) (pick out positions) := by
  have hmap : ∀ l : List (Option Bytes), (Sql.pick l positions).map (·.isSome) = Sql.pick (l.map (·.isSome)) positions := by
    intro l
    unfold Sql.pick
    rw [List.map_filterMap]
    simp only [List.getElem?_map]
  rw [SameGaps, hmap, hmap, h]

theorem SameGaps.cut (h : SameGaps items out) : SameGaps (cutTuples limit items) (cutTuples limit out) := by
  have hlen : items.length = out.length := by simpa using congrArg List.length h
  unfold cutTuples
  rw [hlen]
  split
  · rw [SameGaps, List.map_take, List.map_take, h]
  · exact h

theorem SameGaps.shown (h : SameGaps items out) : List.Forall₂ (Shown (missing true)) out
    (items.map fun tuple => if tuple.isSome then .ok tuple else .error .nullPointer) := by
  induction out generalizing items with
  | nil =>
    rw [List.map_eq_nil_iff.mp h]
    exact .nil
  | cons r out ih =>
    cases items with
    | nil => cases h
    | cons item items =>
      obtain ⟨hitem, hrest⟩ := List.cons.inj h
      refine .cons ?_ (ih hrest)
      cases r with
      | none =>
        cases item with
        | none => rfl
        | some rec => cases hitem
      | some _ =>
        cases item with
        | none => cases hitem
        | some rec => exact ⟨rec, rfl⟩

theorem collected_opt {ownBuffer : Bool} (h : ∀ r ∈ rows, OptTuple n r) : ∀ r ∈ collected ownBuffer rows, OptTuple n r := by
  unfold collected
  split
  · split
    · next last hlast =>
      intro r hr rec hrec
      obtain ⟨r', -, rfl⟩ := List.mem_map.mp hr
      obtain ⟨-, -, rfl⟩ := Option.map_eq_some_iff.mp hrec
      obtain ⟨r'', hr'', heq⟩ := List.mem_filterMap.mp (List.mem_of_getLast? hlast)
      exact h r'' hr'' _ heq
    · exact h
  · exact h

theorem foldReads_rest (acc rows : List (Option Bytes)) :
    Iter.foldReads (E := Fault) (fun acc r => .ok (acc ++ [r])) acc (rows.map .ok) = .ok (acc ++ rows) := by
  induction rows generalizing acc with
  | nil => rw [List.append_nil]; rfl
  | cons r rows ih =>
    rw [List.map_cons, Iter.foldReads, ok_bind, ok_bind, ih, List.append_assoc]
    rfl

theorem sortExecutor_eq (h : sortExecutor stl prev selCols isDesc limit = .ok e) :
    ∃ keys, selCols.mapM (getCol prev.cols) = .ok keys ∧
      e = { prev.toIter.buffered (S := Option Bytes) (fun s => do
          let (tuples, s) ← prev.rest .diverged prev.bound s
          let tuples ← sortTuples stl (keys.zip isDesc) (collected prev.ownBuffer tuples)
          .ok (cutTuples limit tuples, s))
          (fun tuple => if tuple.isSome then .ok tuple else .error .nullPointer) none with
        cols := prev.cols, tupleLen := prev.tupleLen, ownBuffer := false, bound := prev.bound
        currentGroupRecords := none, indexColNames := none } := by
  unfold sortExecutor at h
  split at h
  · cases h
  · next keys hkeys =>
    cases h
    exact ⟨keys, hkeys, rfl⟩

/-- A start of a sort sorts the records below it. -/
theorem sort_start (hp : prev.Hands (rows.map .ok)) (keys : List (Catalog.ColMeta × Bool)) (s : prev.State) :
    ∃ t : prev.State, (prev.start s >>= fun s => do
        let (tuples, s) ← prev.rest .diverged prev.bound s
        let tuples ← sortTuples stl keys (collected prev.ownBuffer tuples)
        .ok (cutTuples limit tuples, s)) =
      sortTuples stl keys (collected prev.ownBuffer rows) >>= fun tuples => .ok (cutTuples limit tuples, t) := by
  obtain ⟨t, ht, hruns⟩ := hp.start s
  obtain ⟨t', hfold⟩ := hruns.fold
  have hrest : prev.rest .diverged prev.bound t = .ok (rows, t') := by
    unfold Iter.rest
    rw [hfold _ _ _ _ hp.bound, foldReads_rest]
    rfl
  refine ⟨t', ?_⟩
  rw [ht, ok_bind, hrest]
  rfl

/-- A sort hands out the records that each of its starts keeps. -/
theorem sort_feeds (items : List (Option Bytes)) {it : Iter Fault (Option Bytes)} {fill : it.State → Except Fault (List (Option Bytes) × it.State)}
    {cols : List Catalog.ColMeta} (hstart : ∀ s, ∃ t, (it.start s >>= fill) = .ok (items, t))
    (hopt : ∀ r ∈ items, OptTuple n r) (hgaps : SameGaps items out) (hwithin : ∀ c ∈ cols, c.offset + c.len ≤ n)
    {bound : Nat} (hbound : items.length ≤ bound) :
    Executor.Feeds { it.buffered fill (fun tuple => if tuple.isSome then .ok tuple else .error .nullPointer) none with
      cols := cols, tupleLen := n, ownBuffer := false, bound := bound, currentGroupRecords := none, indexColNames := none }
      true out where
  hands _ := by
    refine ⟨_, ⟨fun p => ?_, ?_⟩, hgaps.shown⟩
    · obtain ⟨t, ht⟩ := hstart p.1
      refine ⟨(t, items), ?_, Iter.runs_buffered t items⟩
      exact (Iter.buffered_start p).trans (by rw [ht]; rfl)
    · rw [List.length_map]
      exact hbound
  steady hnone := by
    have htuple : ∀ r ∈ items, Tuple n r := by
      intro r hr
      cases r with
      | none => exact absurd (hgaps.none_mem.mp hr) hnone
      | some rec => exact ⟨rec, rfl, hopt _ hr rec rfl⟩
    refine ⟨⟨Iter.Spec.of_fill (I := Tuple n) (fun s => ?_) ?_⟩, hwithin⟩
    · obtain ⟨t, ht⟩ := hstart s
      rw [ht]
      exact ⟨htuple, hbound⟩
    · rintro r ⟨rec, rfl, hlen⟩
      exact ⟨some rec, rfl, rec, rfl, hlen⟩

theorem sortTuples_nil : sortTuples stl [] items = .ok (pick items (stl.sort items.length fun _ _ => false)) := by
  unfold sortTuples
  rw [if_neg fun h => h.1 rfl]
  refine congrArg (fun less => Except.ok (pick items (stl.sort items.length less))) (funext fun i => funext fun j => ?_)
  split <;> rfl

theorem sortTuples_one (keys : List (Catalog.ColMeta × Bool)) : sortTuples stl keys [none] = .ok [none] := by
  unfold sortTuples
  rw [if_neg fun h => absurd h.2.1 (by decide : ¬2 ≤ 1)]
  exact congrArg Except.ok (List.perm_singleton.mp (pick_perm (stl.sort_perm 1 _)))

theorem cutTuples_one (limit : Int) (r : Option Bytes) : cutTuples limit [r] = [r] := by
  unfold cutTuples
  refine if_neg fun h => ?_
  have hlt : limit.toNat < 1 := h.2
  omega

theorem cut_pick_perm (stl : Stl) (limit : Int) (items : List (Option Bytes)) (lt : Nat → Nat → Bool) :
    List.Subperm (cutTuples limit (pick items (stl.sort items.length lt))) items :=
  ((cutTuples_sublist ..).subperm).trans (pick_perm (stl.sort_perm _ _)).subperm

theorem sortExecutor_feeds (hp : prev.Hands (rows.map .ok)) (hsteady : none ∉ rows → prev.Steady)
    (hopt : ∀ r ∈ rows, OptTuple prev.tupleLen r) (hwithin : ∀ c ∈ prev.cols, c.offset + c.len ≤ prev.tupleLen)
    (hdesc : isDesc.length = selCols.length) (h : sortExecutor stl prev selCols isDesc limit = .ok e) :
    (sortFeed stl selCols limit prev.cols rows).Of e := by
  have hgaps := collected_gaps prev.ownBuffer rows
  have hlen : (collected prev.ownBuffer rows).length = rows.length := length_collected ..
  have hbound : rows.length ≤ prev.bound := by simpa using hp.bound
  obtain ⟨keys, hkeys, he⟩ := sortExecutor_eq h
  unfold sortFeed
  split
  · next hnil =>
    subst hnil he
    cases hkeys
    have hsub := cut_pick_perm stl limit (collected prev.ownBuffer rows) fun _ _ => false
    rw [hlen] at hsub
    refine ⟨rfl, sort_feeds _ (fun s => ?_) (fun r hr => collected_opt hopt r (hsub.subset hr)) (hgaps.pick _).cut hwithin
      ((hsub.length_le.trans_eq hlen).trans hbound)⟩
    obtain ⟨t, ht⟩ := sort_start hp ([].zip isDesc) s
    refine ⟨t, ht.trans ?_⟩
    rw [List.zip_nil_left, sortTuples_nil, hlen]
    rfl
  · next hsome =>
    have hzip : keys.zip isDesc ≠ [] := by
      intro hnil
      have hlen := congrArg List.length hnil
      have hkeys := (mapM_length fun c _ => getCol_clean prev.cols c).of_ok hkeys
      rw [List.length_zip, hdesc, hkeys, Nat.min_self] at hlen
      exact hsome (List.eq_nil_of_length_eq_zero hlen)
    split
    · next hnull =>
      rw [any_isNone] at hnull
      subst he
      intro p
      obtain ⟨t, ht⟩ := sort_start hp (keys.zip isDesc) p.1
      refine (Iter.buffered_start p).trans ?_
      rw [ht, sortTuples, if_pos ⟨hzip, hlen ▸ hnull.1, hgaps.none_mem.mpr hnull.2⟩]
      rfl
    · next hnull =>
      rw [any_isNone] at hnull
      by_cases hmem : none ∈ rows
      · have hone : rows = [none] := by
          match rows, hmem, hnull with
          | [r], hmem, _ => rw [List.mem_singleton.mp hmem]
          | _ :: _ :: _, hmem, hnull => exact absurd ⟨Nat.le_add_left 2 _, hmem⟩ hnull
        subst hone he
        refine ⟨rfl, sort_feeds [none] (fun s => ?_) hopt rfl hwithin hbound⟩
        obtain ⟨t, ht⟩ := sort_start hp (keys.zip isDesc) s
        have hcollected : collected prev.ownBuffer [none] = [none] := by cases hown : prev.ownBuffer <;> rfl
        refine ⟨t, ht.trans ?_⟩
        rw [hcollected, sortTuples_one, ok_bind, cutTuples_one]
      · subst he
        exact ⟨rfl, fun hnone => absurd hnone hmem, fun hnone => sortExecutor_steady (hsteady hnone) h⟩

end Sorts

/-! ### What stands above them -/

/-- Whether the operator uses a null pointer is told by `asks`; if it does not, it fails at its start or keeps the protocol. -/
def Executor.Settled (e : Executor) (asks : Prop) : Prop :=
  asks ∧ e.UsesNull ∨ ¬asks ∧ ((∀ s, Meets (fun _ => False) Fault.Clean (e.start s)) ∨ e.Steady)

theorem Executor.Settled.follows_iff {e : Executor} {asks : Prop} (h : e.Settled asks) : e.FollowsProtocol ↔ ¬asks := by
  rcases h with ⟨hasks, hnull⟩ | ⟨hasks, hstart | hsteady⟩
  · exact iff_of_false hnull.not_follows (not_not_intro hasks)
  · exact iff_of_true (Executor.follows_of_start hstart) hasks
  · exact iff_of_true hsteady.follows hasks

theorem projection_settled {prev e : Executor} {selCols : List TabCol} {asks : Prop} (hp : prev.Settled asks)
    (h : projection prev selCols = .ok e) : e.Settled asks := by
  rcases hp with ⟨hasks, hnull⟩ | ⟨hasks, hstart | hsteady⟩
  · refine Or.inl ⟨hasks, ?_⟩
    obtain ⟨sel, -, rfl⟩ := projection_eq h
    rcases hnull with hnull | ⟨s, hs, hend, hnull | hnull⟩
    · exact Or.inl hnull
    · exact Or.inr ⟨s, hs.map, hend, Or.inl (by simp [Iter.map, Iter.view, hnull])⟩
    · exact Or.inr ⟨s, hs.map, hend, Or.inr (by simp [Iter.map, Iter.view, hnull])⟩
  · refine Or.inr ⟨hasks, Or.inl ?_⟩
    obtain ⟨sel, -, rfl⟩ := projection_eq h
    exact hstart
  · exact Or.inr ⟨hasks, Or.inr (projection_steady hsteady h)⟩

/-- A record of the feed is missing. -/
def Feed.Missing : Feed → Prop
  | .fails => True
  | .rows _ _ recs => none ∈ recs

theorem Feed.Of.settled {e : Executor} {feed : Feed} (h : feed.Of e) : e.Settled feed.Missing := by
  cases feed with
  | fails => exact Or.inl ⟨trivial, Or.inl h⟩
  | rows sorted cols recs =>
    by_cases hmem : none ∈ recs
    · obtain ⟨reads, hhands, hreads⟩ := h.2.hands hmem
      obtain ⟨i, hi, hnone⟩ := List.getElem_of_mem hmem
      have hi' : i < reads.length := hreads.length_eq ▸ hi
      have hshown := hreads.get hi hi'
      refine Or.inl ⟨hmem, hhands.usesNull (List.getElem_mem hi') ?_⟩
      have hread : reads[i] = missing sorted := by
        have hshown : Shown (missing sorted) recs[i] reads[i] := hshown
        rwa [hnone] at hshown
      rw [hread]
      cases sorted with
      | true => exact Or.inr rfl
      | false => exact Or.inl rfl
    · exact Or.inr ⟨hmem, Or.inr (h.2.steady hmem)⟩

end Rmdb.Sql
