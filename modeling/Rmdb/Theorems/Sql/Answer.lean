import Rmdb.Theorems.Sql.Meaning
import Rmdb.Theorems.Sql.RightDeep

/-! The plan of a SELECT statement returns what the statement means: pushing conditions down to scans, carrying constants over
equalities and joining the tables in another order change the order of the rows at most. -/

namespace Rmdb.Sql
open Outcomes
open Iter (pairs passes)

/-! ### Conditions one after the other -/

theorem allHold_all {α : Type} {test : α → Except Fault Bool} {hit : α → Bool} {cs : List α} (h : ∀ c ∈ cs, test c = .ok (hit c)) :
    allHold test cs = .ok (cs.all hit) := by
  induction cs with
  | nil => rfl
  | cons c cs ih =>
    rw [allHold, h c (List.mem_cons_self ..), ok_bind, ih fun d hd => h d (List.mem_cons_of_mem c hd), List.all_cons]
    cases hit c <;> rfl

/-! ### Scans -/

section Scan
variable {db : Db} {t : Table} {d : TabCol} {col c : Catalog.ColMeta} {proj : List TabCol} {conds : List Condition}

theorem getCol_mem {cols : List Catalog.ColMeta} (h : getCol cols d = .ok c) : c ∈ cols ∧ c.tabName = d.tabName ∧ c.name = d.colName := by
  unfold getCol at h
  split at h
  · next hfind =>
    cases h
    have := List.find?_some hfind
    exact ⟨List.mem_of_find?_eq_some hfind, of_decide_eq_true this⟩
  · cases h

/-- A scan puts the cell of a column into its tuples. -/
theorem scanOut_cell (ht : db.table? d.tabName = some t) (hcol : db.col? d = some col)
    (hget : getCol (scanOut t.tab.cols proj).cols d = .ok c) : c.type = col.type ∧ c.len = col.len ∧
      ∀ rec, rec.length = recordSize t.tab.cols →
        (((scanOut t.tab.cols proj).project rec).drop c.offset).take c.len = (rec.drop col.offset).take col.len := by
  obtain ⟨hmem, -, hname⟩ := getCol_mem hget
  obtain ⟨hcolMem, hcolName, -⟩ := getCol_table ht hcol
  have hsame : ∀ c' ∈ t.tab.cols, c'.name = d.colName → c' = col := fun c' hc' hname' =>
    List.inj_on_of_nodup_map t.distinct hc' hcolMem (hname'.trans hcolName.symm)
  unfold scanOut at hmem ⊢
  dsimp only at hmem ⊢
  split at hmem
  · next hlen =>
    obtain ⟨p, hp, rfl⟩ := List.mem_map.mp hmem
    obtain ⟨c', hc', hoff, heq⟩ := projCols_mem hp
    obtain rfl := hsame c' hc' ((congrArg Catalog.ColMeta.name heq).symm.trans hname)
    have hlen' := congrArg Catalog.ColMeta.len heq
    have htype := congrArg Catalog.ColMeta.type heq
    refine ⟨htype, hlen', fun rec hrec => ?_⟩
    rw [if_pos hlen]
    have hcells : ∀ p ∈ projCols t.tab.cols [] 0 proj, ((rec.drop p.2).take p.1.len).length = p.1.len := by
      intro p hp
      obtain ⟨c, hc, hoff, heq⟩ := projCols_mem hp
      have hle := t.laid.le c hc
      have hlen := congrArg Catalog.ColMeta.len heq
      dsimp only at hlen
      rw [List.length_take, List.length_drop]
      omega
    obtain ⟨-, hcell⟩ := (projCols_laid t.tab.cols [] 0 proj).cell hcells hp
    rw [Nat.sub_zero] at hcell
    rw [hcell, hoff, hlen']
  · next hlen =>
    obtain rfl := hsame c hmem hname
    refine ⟨rfl, rfl, fun rec _ => ?_⟩
    rw [if_neg hlen]
    rfl

/-- A scan hands out a null pointer only without conditions, for a record that is not visible. -/
theorem seqTuple_null {s : Slot} (h : seqTuple db t conds proj s = some none) : conds = [] ∧ db.visible s = false := by
  unfold seqTuple at h
  split at h
  · next hnil =>
    refine ⟨hnil, ?_⟩
    have hnone := Option.map_eq_none_iff.mp (Option.some.inj h)
    unfold Db.getRecordMvcc at hnone
    split at hnone
    · cases hnone
    · next hhidden => exact Bool.not_eq_true _ ▸ hhidden
  · split at h
    · cases h
    · split at h <;> cases h

/-- The tuples that a scan hands out are those of the visible records that its conditions hold of. -/
theorem present_seqTuple {test : Bytes → Bool} {slots : List Slot}
    (htest : ∀ s ∈ slots, ∀ rec, db.getRecordMvcc s = some rec → evalConds t.tab.cols conds rec = .ok (test rec)) :
    present (slots.filterMap (seqTuple db t conds proj)) =
      ((slots.filterMap db.getRecordMvcc).filter test).map (scanOut t.tab.cols proj).project := by
  induction slots with
  | nil => rfl
  | cons s ss ih =>
    have ih := ih fun u hu => htest u (List.mem_cons_of_mem s hu)
    cases hrec : db.getRecordMvcc s with
    | none =>
      rw [List.filterMap_cons_none hrec, ← ih]
      by_cases hnil : conds = []
      · have htuple : seqTuple db t conds proj s = some none := by rw [seqTuple, if_pos hnil, hrec, Option.map_none]
        rw [List.filterMap_cons_some htuple]
        rfl
      · have htuple : seqTuple db t conds proj s = none := by simp only [seqTuple, if_neg hnil, hrec]
        rw [List.filterMap_cons_none htuple]
    | some rec =>
      have hhit := htest s (List.mem_cons_self ..) rec hrec
      rw [List.filterMap_cons_some hrec]
      cases htrue : test rec with
      | false =>
        have hnil : conds ≠ [] := by
          rintro rfl
          rw [htrue] at hhit
          cases hhit
        have htuple : seqTuple db t conds proj s = none := by simp [seqTuple, hnil, hrec, hhit, htrue]
        rw [List.filterMap_cons_none htuple, List.filter_cons_of_neg (by rw [htrue]; exact Bool.false_ne_true), ih]
      | true =>
        have htuple : seqTuple db t conds proj s = some (some ((scanOut t.tab.cols proj).project rec)) := by
          by_cases hnil : conds = []
          · rw [seqTuple, if_pos hnil, hrec, Option.map_some]
          · simp [seqTuple, hnil, hrec, hhit, htrue]
        rw [List.filterMap_cons_some htuple, List.filter_cons_of_pos htrue, List.map_cons, ← ih]
        rfl

end Scan

/-! ### Operators that show picks -/

section Shows
variable (db : Db) (q : Query) (tabs : List String)

/-- The query uses this column, and it is one of these tables. -/
def Query.Uses (d : TabCol) : Prop := d.tabName ∈ tabs ∧ d ∈ colUsage q d.tabName

/-- The columns of the operator are of these tables, and all that the query uses are among them. -/
structure Executor.Offers (e : Executor) : Prop where
  named : ∀ c ∈ e.cols, c.tabName ∈ tabs
  within : ∀ c ∈ e.cols, c.offset + c.len ≤ e.tupleLen
  found : ∀ d col, q.Uses tabs d → db.col? d = some col → ∃ c, getCol e.cols d = .ok c ∧ c.type = col.type ∧ c.len = col.len

/-- The tuple of the operator holds the cells of the pick. -/
structure Executor.Shows (e : Executor) (g : String → Bytes) (rec : Bytes) : Prop where
  picked : ∀ tab ∈ tabs, g tab ∈ db.rows tab
  sized : rec.length = e.tupleLen
  cells : ∀ d c, q.Uses tabs d → getCol e.cols d = .ok c → (rec.drop c.offset).take c.len = db.cell g d

/-- After its start the operator hands out these tuples, and those that are there show the picks. -/
structure Yields (e : Executor) (gs : List (String → Bytes)) (tuples : List (Option Bytes)) : Prop where
  offers : e.Offers db q tabs
  start : ∃ t, e.start e.init = .ok t ∧ e.toIter.Runs t (tuples.map .ok)
  bound : tuples.length ≤ e.bound
  rows : List.Forall₂ (e.Shows db q tabs) gs (present tuples)

end Shows

section Yields
variable {db : Db} {q : Query} {tabs ltabs : List String} {tab : String} {e left right : Executor} {g h : String → Bytes}
  {rec l r : Bytes} {conds : List Condition}

theorem Executor.Shows.congr (hshows : e.Shows db q tabs g rec) (hgh : ∀ tab ∈ tabs, g tab = h tab) : e.Shows db q tabs h rec where
  picked tab htab := hgh tab htab ▸ hshows.picked tab htab
  sized := hshows.sized
  cells d c hd hc := (hshows.cells d c hd hc).trans (db.cell_congr (hgh _ hd.1))

/-- A column of the operator holds the operand that the cell of the pick is. -/
theorem Executor.Shows.holds (hoffers : e.Offers db q tabs) (hshows : e.Shows db q tabs g rec) {d : TabCol} {col : Catalog.ColMeta}
    (hd : q.Uses tabs d) (hcol : db.col? d = some col) : ∃ behind, ColHolds e.cols rec d (db.operand g d col) behind := by
  obtain ⟨c, hget, htype, hlen⟩ := hoffers.found d col hd hcol
  exact ⟨_, colHolds_cell hcol (hshows.picked _ hd.1) hget htype hlen (hshows.cells d c hd hget)⟩

/-- A column with its offset in a join. -/
theorem find?_shifted (cols : List Catalog.ColMeta) (d : TabCol) (len : Nat) :
    (cols.map fun c => { c with offset := c.offset + len }).find? (fun c => c.tabName = d.tabName ∧ c.name = d.colName) =
      (cols.find? fun c => c.tabName = d.tabName ∧ c.name = d.colName).map fun c => { c with offset := c.offset + len } :=
  List.find?_map

theorem nestedLoopJoin_cols : (nestedLoopJoin left right conds).cols =
    left.cols ++ right.cols.map fun c => { c with offset := c.offset + left.tupleLen } := rfl

/-- The columns of a join are found on the side that their table is on. -/
theorem getCol_join (hl : ∀ c ∈ left.cols, c.tabName ∈ ltabs) (hr : ∀ c ∈ right.cols, c.tabName ∈ tabs) {d : TabCol}
    {c : Catalog.ColMeta} (hget : getCol (nestedLoopJoin left right conds).cols d = .ok c) :
    (d.tabName ∈ ltabs ∧ getCol left.cols d = .ok c) ∨ (d.tabName ∈ tabs ∧ ∃ c', getCol right.cols d = .ok c' ∧
      c = { c' with offset := c'.offset + left.tupleLen }) := by
  obtain ⟨-, htab, -⟩ := getCol_mem hget
  unfold getCol at hget ⊢
  rw [nestedLoopJoin_cols, List.find?_append, find?_shifted] at hget
  cases hfind : left.cols.find? fun c => c.tabName = d.tabName ∧ c.name = d.colName with
  | some c' =>
    rw [hfind] at hget
    cases hget
    refine Or.inl ⟨?_, rfl⟩
    rw [← htab]
    exact hl _ (List.mem_of_find?_eq_some hfind)
  | none =>
    rw [hfind, Option.none_or] at hget
    cases hright : right.cols.find? fun c => c.tabName = d.tabName ∧ c.name = d.colName with
    | none => rw [hright] at hget; cases hget
    | some c' =>
      rw [hright] at hget
      cases hget
      refine Or.inr ⟨?_, c', rfl, rfl⟩
      rw [← htab]
      exact hr c' (List.mem_of_find?_eq_some hright)

theorem getCol_join_left {d : TabCol} {c : Catalog.ColMeta} (hget : getCol left.cols d = .ok c) :
    getCol (nestedLoopJoin left right conds).cols d = .ok c := by
  unfold getCol at hget ⊢
  rw [nestedLoopJoin_cols, List.find?_append]
  split at hget
  · next hfind =>
    rw [hfind]
    exact hget
  · cases hget

theorem getCol_join_right (hl : ∀ c ∈ left.cols, c.tabName ∈ ltabs) {d : TabCol} (hne : d.tabName ∉ ltabs) {c : Catalog.ColMeta}
    (hget : getCol right.cols d = .ok c) :
    getCol (nestedLoopJoin left right conds).cols d = .ok { c with offset := c.offset + left.tupleLen } := by
  have hnone : (left.cols.find? fun c => c.tabName = d.tabName ∧ c.name = d.colName) = none :=
    List.find?_eq_none.mpr fun c hc hdec => hne ((of_decide_eq_true hdec).1 ▸ hl c hc)
  unfold getCol at hget ⊢
  rw [nestedLoopJoin_cols, List.find?_append, hnone, Option.none_or, find?_shifted]
  split at hget
  · next hfind =>
    cases hget
    rw [hfind]
    rfl
  · cases hget

theorem Executor.Offers.join (hl : left.Offers db q ltabs) (hr : right.Offers db q tabs) (hnew : ∀ tab ∈ tabs, tab ∉ ltabs) :
    (nestedLoopJoin left right conds).Offers db q (ltabs ++ tabs) where
  named c hc := by
    rcases List.mem_append.mp hc with hc | hc
    · exact List.mem_append_left _ (hl.named c hc)
    · obtain ⟨c', hc', rfl⟩ := List.mem_map.mp hc
      exact List.mem_append_right _ (hr.named c' hc')
  within c hc := by
    have hlen : (nestedLoopJoin left right conds).tupleLen = left.tupleLen + right.tupleLen := rfl
    rcases List.mem_append.mp hc with hc | hc
    · have := hl.within c hc
      omega
    · obtain ⟨c', hc', rfl⟩ := List.mem_map.mp hc
      have := hr.within c' hc'
      dsimp only
      omega
  found d col hd hcol := by
    rcases List.mem_append.mp hd.1 with htab | htab
    · obtain ⟨c, hget, htype, hlen⟩ := hl.found d col ⟨htab, hd.2⟩ hcol
      exact ⟨c, getCol_join_left hget, htype, hlen⟩
    · obtain ⟨c, hget, htype, hlen⟩ := hr.found d col ⟨htab, hd.2⟩ hcol
      exact ⟨_, getCol_join_right hl.named (hnew _ htab) hget, htype, hlen⟩

/-- Tuples of both sides that show one pick show it together. -/
theorem Executor.Shows.join (hleft : left.Offers db q ltabs) (hright : right.Offers db q tabs)
    (hl : left.Shows db q ltabs g l) (hr : right.Shows db q tabs g r) :
    (nestedLoopJoin left right conds).Shows db q (ltabs ++ tabs) g (l ++ r) where
  picked t ht := (List.mem_append.mp ht).elim (hl.picked t) (hr.picked t)
  sized := by
    rw [List.length_append, hl.sized, hr.sized]
    rfl
  cells d c hd hget := by
    rcases getCol_join hleft.named hright.named hget with ⟨htab, hside⟩ | ⟨htab, c', hside, rfl⟩
    · have hwithin := hleft.within c (getCol_mem hside).1
      rw [← hl.sized] at hwithin
      rw [List.drop_append_of_le_length (by omega), List.take_append_of_le_length (by rw [List.length_drop]; omega)]
      exact hl.cells d c ⟨htab, hd.2⟩ hside
    · have hskip : (l ++ r).drop (c'.offset + left.tupleLen) = r.drop c'.offset := by
        rw [Nat.add_comm, ← hl.sized, List.drop_length_add_append]
      dsimp only
      rw [hskip]
      exact hr.cells d c' ⟨htab, hd.2⟩ hside

/-- A condition between columns that the query uses, of tables on the left and on the right. -/
structure Condition.Between (db : Db) (q : Query) (ltabs tabs : List String) (c : Condition) : Prop where
  lhs : q.Uses ltabs c.lhsCol ∧ ∃ col, db.col? c.lhsCol = some col
  rhs : ∃ d, c.rhs = .col d ∧ q.Uses tabs d ∧ ∃ col, db.col? d = some col

theorem Condition.Between.placed {c : Condition} (hc : c.Between db q ltabs tabs) (hl : left.Offers db q ltabs)
    (hr : right.Offers db q tabs) : Placed left.cols right.cols c := by
  obtain ⟨⟨hlhs, col, hcol⟩, d, hd, huse, col', hcol'⟩ := hc
  have hmini : ∀ {cols : List Catalog.ColMeta} {d : TabCol} {c : Catalog.ColMeta}, getCol cols d = .ok c → (miniCol cols d).isSome = true := by
    intro cols d c hget
    unfold getCol at hget
    unfold miniCol
    split at hget
    · next hfind => rw [hfind]; rfl
    · cases hget
  obtain ⟨_, hget, -⟩ := hl.found _ col hlhs hcol
  obtain ⟨_, hget', -⟩ := hr.found _ col' huse hcol'
  exact ⟨hmini hget, d, hd, hmini hget'⟩

/-- The test of a join finds out whether the conditions hold of the pick. -/
theorem doPredict_test (hsound : db.Sound) (hconds : ∀ c ∈ conds, c.Between db q ltabs tabs ∧ c.LikeTypes db)
    (hleft : left.Offers db q ltabs) (hright : right.Offers db q tabs) (hl : left.Shows db q ltabs g l) (hr : right.Shows db q tabs g r) :
    doPredict left right conds l r = .ok (conds.all (·.test (db.value g))) := by
  refine allHold_all fun c hc => ?_
  obtain ⟨⟨⟨hlhs, -⟩, d, hd, huse, -⟩, col, hcol, hfloat, hrhs⟩ := hconds c hc
  obtain ⟨lhs, op, rhs⟩ := c
  cases hd
  obtain ⟨col', hcol', htype, hlen, -⟩ := hrhs
  obtain ⟨p, hp⟩ := hl.holds hleft hlhs hcol
  obtain ⟨p', hp'⟩ := hr.holds hright huse hcol'
  have hpick := hl.picked _ hlhs.1
  have hpick' := hr.picked _ huse.1
  have := @doPredict_value op _ _ _ _ _ _ _ _ _ _ (hsound.fine hcol hfloat hpick) (hsound.fine hcol' (htype ▸ hfloat) hpick') htype.symm
    ((db.length_cell hcol hpick).trans (hlen.symm.trans (db.length_cell hcol' hpick').symm)) hp hp'
  rw [this, db.operand_value hcol hpick, db.operand_value hcol' hpick']
  rfl

theorem forall₂_right {α β : Type} {R : α → β → Prop} {as : List α} {bs : List β} (h : List.Forall₂ R as bs) {b : β} (hb : b ∈ bs) :
    ∃ a ∈ as, R a b := by
  induction h with
  | nil => cases hb
  | @cons a b' as bs hab _ ih =>
    rcases List.mem_cons.mp hb with rfl | hb
    · exact ⟨a, List.mem_cons_self .., hab⟩
    · obtain ⟨a', ha', hab'⟩ := ih hb
      exact ⟨a', List.mem_cons_of_mem a ha', hab'⟩

/-- A join of tuples that show records of a table with tuples that show picks yields the picks of all its tables that meet its
    conditions. -/
theorem Yields.join (hsound : db.Sound) (hnew : tab ∉ tabs) {recs : List Bytes} {ls rs : List (Option Bytes)} {gs : List (String → Bytes)}
    (hl : left.Repeats ls) (hleft : left.Offers db q [tab])
    (hrecs : List.Forall₂ (fun p l => ∀ g : String → Bytes, g tab = p → left.Shows db q [tab] g l) recs (present ls))
    (hr : Yields db q tabs right gs rs) (hconds : ∀ c ∈ conds, c.Between db q [tab] tabs ∧ c.LikeTypes db) :
    Yields db q (tab :: tabs) (nestedLoopJoin left right conds)
      ((gs.flatMap fun g => recs.map (Function.update g tab)).filter fun g => conds.all (·.test (db.value g)))
      ((joinRows left right conds (present ls) (present rs)).map some) := by
  have hright := hr.offers
  have hplaced : ∀ c ∈ conds, Placed left.cols right.cols c := fun c hc => (hconds c hc).1.placed hleft hright
  have hsized : ∀ rec, some rec ∈ rs → rec.length = right.tupleLen := fun rec hrec => by
    obtain ⟨g, -, hshows⟩ := forall₂_right hr.rows (mem_present.mpr hrec)
    exact hshows.sized
  refine ⟨hleft.join hright fun t ht h => hnew (List.mem_singleton.mp h ▸ ht), ?_, ?_, ?_⟩
  · obtain ⟨t, ht, hruns⟩ := hr.start
    obtain ⟨u, hu, hruns'⟩ := nestedLoopJoin_start_once hl ht (.first ht) hruns hr.bound hsized hplaced (Or.inl rfl)
    refine ⟨u, hu, ?_⟩
    rw [List.map_map]
    exact hruns'
  · rw [List.length_map]
    exact joinRows_bound hl.bound hr.bound
  · have hpresent : ∀ rows : List Bytes, present (rows.map some) = rows := fun rows => by
      rw [present, List.filterMap_map]
      exact List.filterMap_some
    rw [hpresent, joinRows, List.forall₂_map_right_iff]
    -- the picks of both sides, as they stand beside their tuples
    have hpairs : List.Forall₂ (fun g p => left.Shows db q [tab] g p.1 ∧ right.Shows db q tabs g p.2)
        (gs.flatMap fun g => recs.map (Function.update g tab)) (pairs (present ls) (present rs)) := by
      refine List.rel_flatMap hr.rows fun g r hshows => ?_
      rw [List.forall₂_map_right_iff, List.forall₂_map_left_iff]
      refine hrecs.imp fun p l hl => ⟨hl _ (Function.update_self ..), hshows.congr fun t ht => ?_⟩
      have hne : t ≠ tab := fun h => hnew (h ▸ ht)
      exact (Function.update_of_ne hne p g).symm
    refine (List.rel_filter ?_ hpairs).imp fun g p hshows => hshows.1.join hleft hright hshows.2
    rintro g ⟨l, r⟩ ⟨hl, hr⟩
    have hpass : passes (doPredict left right conds) (l, r) = conds.all (·.test (db.value g)) := by
      rw [passes, doPredict_test hsound hconds hleft hright hl hr]
    exact iff_of_eq (congrArg (· = true) hpass.symm)

end Yields

/-! ### The operators of a plan -/

section Plans
variable {stl : Stl} {db : Db} {q : Query} {tab : String} {t : Table} {conds : List Condition}

/-- A condition that a scan of this table tests. -/
structure Condition.Local (db : Db) (tab : String) (c : Condition) : Prop where
  like : c.LikeTypes db
  one : c.OneTable
  own : c.lhsCol.tabName = tab

theorem evalConds_test (hsound : db.Sound) (ht : db.table? tab = some t) (hconds : ∀ c ∈ conds, c.Local db tab) {rec : Bytes}
    (hrec : rec ∈ db.rows tab) : evalConds t.tab.cols conds rec = .ok (conds.all (·.test (db.value fun _ => rec))) := by
  refine allHold_all fun c hc => ?_
  obtain ⟨hlike, hone, rfl⟩ := hconds c hc
  exact evalCond_test (g := fun _ => rec) hsound hlike hone ht hrec

theorem rows_eq (ht : db.table? tab = some t) : db.rows tab = t.slots.filterMap db.getRecordMvcc := by
  rw [Db.rows, ht]

/-- A scan, of either kind, offers the columns that the query uses. -/
theorem scan_offers (hnamed : db.Named) (ht : db.table? tab = some t) {e : Executor}
    (hcols : e.cols = (scanOut t.tab.cols (colUsage q tab)).cols) (hlen : e.tupleLen = (scanOut t.tab.cols (colUsage q tab)).len) :
    e.Offers db q [tab] where
  named c hc := by
    rw [scanOut_named c (hcols ▸ hc), (Db.table?_mem ht).2]
    exact List.mem_singleton_self tab
  within c hc := hlen ▸ scanOut_within t.laid _ c (hcols ▸ hc)
  found d col hd hcol := by
    have htab := List.mem_singleton.mp hd.1
    subst htab
    obtain ⟨hmem, hname, -⟩ := getCol_table ht hcol
    have hhas : t.HasCol d := ⟨hname ▸ (hnamed t (Db.table?_mem ht).1 col hmem).1, col, hmem, by rw [(Db.table?_mem ht).2, hname]⟩
    obtain ⟨c, hc⟩ := scanOut_find hhas hd.2
    have hget : getCol e.cols d = .ok c := by rw [getCol, ← colOf, hcols, hc]
    obtain ⟨htype, hlen, -⟩ := scanOut_cell ht hcol (hcols ▸ hget)
    exact ⟨c, hget, htype, hlen⟩

/-- A scan shows the visible records that its conditions hold of. -/
theorem seqScan_shows (hsound : db.Sound) (ht : db.table? tab = some t) (hconds : ∀ c ∈ conds, c.Local db tab)
    (hcols : ∀ d, q.Uses [tab] d → ∃ col, db.col? d = some col) :
    List.Forall₂ (fun p l => ∀ g : String → Bytes, g tab = p → (seqScan db t conds (colUsage q tab)).Shows db q [tab] g l)
      ((db.rows tab).filter fun rec => conds.all (·.test (db.value fun _ => rec)))
      (present (t.slots.filterMap (seqTuple db t conds (colUsage q tab)))) := by
  have hrows := rows_eq ht
  have htest : ∀ s ∈ t.slots, ∀ rec, db.getRecordMvcc s = some rec →
      evalConds t.tab.cols conds rec = .ok (conds.all (·.test (db.value fun _ => rec))) := fun s hs rec hrec =>
    evalConds_test hsound ht hconds (hrows ▸ List.mem_filterMap.mpr ⟨s, hs, hrec⟩)
  rw [present_seqTuple htest, ← hrows, List.forall₂_map_right_iff, List.forall₂_same]
  intro rec hrec g hg
  subst hg
  have hmem := List.mem_of_mem_filter hrec
  obtain ⟨s, hs, -, hlen⟩ := mem_rows (d := ⟨tab, ""⟩) ht hmem
  refine ⟨fun tab' htab' => List.mem_singleton.mp htab' ▸ hmem, scanOut_length t.laid _ hlen, fun d c hd hget => ?_⟩
  have htab := List.mem_singleton.mp hd.1
  subst htab
  obtain ⟨col, hcol⟩ := hcols d hd
  obtain ⟨-, -, hcell⟩ := scanOut_cell ht hcol hget
  rw [Db.cell_eq hcol]
  exact hcell _ hlen

theorem seqScan_clean (hsound : db.Sound) (ht : db.table? tab = some t) (hconds : ∀ c ∈ conds, c.Local db tab) :
    SeqClean db t conds := fun s hs _ hrec =>
  ⟨_, evalConds_test hsound ht hconds (rows_eq ht ▸ List.mem_filterMap.mpr ⟨s, hs, hrec⟩)⟩

/-- The tables of the conditions at joins are joined there. -/
theorem Plan.Oriented.joinConds_tables {p : Plan} (h : p.Oriented) : ∀ c ∈ p.joinConds, c.isRhsVal = false ∧
    c.lhsCol.tabName ∈ p.tables ∧ c.rhsTab ∈ p.tables := by
  induction p with
  | scan index tab conds proj =>
    intro c hc
    cases hc
  | join left right conds ihl ihr =>
    obtain ⟨hl, hr, hconds⟩ := h
    intro c hc
    rw [Plan.tables_join, List.mem_append, List.mem_append]
    rcases List.mem_append.mp hc with hc | hc
    · obtain ⟨hcol, hleft, hright⟩ := hconds c hc
      exact ⟨hcol, Or.inl hleft, Or.inr hright⟩
    · rcases List.mem_append.mp hc with hc | hc
      · obtain ⟨hcol, hleft, hright⟩ := ihl hl c hc
        exact ⟨hcol, Or.inl hleft, Or.inl hright⟩
      · obtain ⟨hcol, hleft, hright⟩ := ihr hr c hc
        exact ⟨hcol, Or.inr hleft, Or.inr hright⟩
  | null => exact h.elim
  | sort subplan selCols isDesc limit => exact h.elim
  | group input groupBy having => exact h.elim
  | agg input selectExprs => exact h.elim
  | projection subplan selCols => exact h.elim

variable {condsOf : String → List Condition}

/-- The visible records of a table that meet the conditions of its scan. -/
def scanned (db : Db) (condsOf : String → List Condition) (tab : String) : List Bytes :=
  (db.rows tab).filter fun rec => (condsOf tab).all (·.test (db.value fun _ => rec))

/-- The columns of the condition are among those that the query uses. -/
structure Condition.Used (q : Query) (c : Condition) : Prop where
  lhs : c.lhsCol ∈ colUsage q c.lhsCol.tabName
  rhs : ∀ d, c.rhs = .col d → d ∈ colUsage q d.tabName

theorem Condition.Used.between {c : Condition} (hc : c.Used q) (hcols : ∀ d, d ∈ colUsage q d.tabName → ∃ col, db.col? d = some col)
    (hcol : c.isRhsVal = false) {ltabs tabs : List String} (hleft : c.lhsCol.tabName ∈ ltabs) (hright : c.rhsTab ∈ tabs) :
    c.Between db q ltabs tabs := by
  obtain ⟨hlhs, hrhs⟩ := hc
  refine ⟨⟨⟨hleft, hlhs⟩, hcols _ hlhs⟩, ?_⟩
  obtain ⟨lhs, op, rhs⟩ := c
  cases rhs with
  | val v raw => cases hcol
  | col d => exact ⟨d, rfl, ⟨hright, hrhs d rfl⟩, hcols d (hrhs d rfl)⟩

variable (stl) in
/-- The operators of such a plan yield the picks of its tables that meet the conditions of its scans and joins. Only a lone scan
    without conditions hands out null pointers, for records that are not visible. -/
theorem plan_yields (hsound : db.Sound) (hcols : ∀ d, d ∈ colUsage q d.tabName → ∃ col, db.col? d = some col) {plan : Plan}
    (hdeep : plan.RightDeep) (horiented : plan.Oriented) (hnodup : plan.tables.Nodup)
    (hscans : ∀ e ∈ plan.scans, e.2 = .scan none e.1 (condsOf e.1) (colUsage q e.1))
    (htables : ∀ tab ∈ plan.tables, (∃ t, db.table? tab = some t) ∧ ∀ c ∈ condsOf tab, c.Local db tab)
    (hjoins : ∀ c ∈ plan.joinConds, c.Used q ∧ c.LikeTypes db) :
    ∃ e tuples, convertPlanExecutor stl db plan = .ok e ∧
      Yields db q plan.tables e ((Product.all (scanned db condsOf) (fun _ => []) plan.tables).filter fun g =>
        plan.joinConds.all (·.test (db.value g))) tuples ∧
      (none ∈ tuples → ∃ tab t, plan.tables = [tab] ∧ condsOf tab = [] ∧ db.table? tab = some t ∧ ∃ s ∈ t.slots, db.visible s = false) := by
  have hscan : ∀ {tab : String}, ((∃ t, db.table? tab = some t) ∧ ∀ c ∈ condsOf tab, c.Local db tab) → ∃ t, db.table? tab = some t ∧
      convertPlanExecutor stl db (.scan none tab (condsOf tab) (colUsage q tab)) = .ok (seqScan db t (condsOf tab) (colUsage q tab)) := by
    rintro tab ⟨⟨t, ht⟩, -⟩
    exact ⟨t, ht, by simp only [convertPlanExecutor, ht]⟩
  induction plan with
  | scan index tab conds proj =>
    have heq := hscans _ (List.mem_singleton_self _)
    dsimp only at heq
    obtain ⟨rfl, -, rfl, rfl⟩ := Plan.scan.inj heq
    have htab := htables tab (List.mem_singleton_self _)
    obtain ⟨t, ht, hconvert⟩ := hscan htab
    have hclean := seqScan_clean hsound ht htab.2
    obtain ⟨rest, hstart, hruns⟩ := @seqScan_start db t (condsOf tab) (colUsage q tab) hclean none
    refine ⟨_, _, hconvert, ⟨scan_offers hsound.names ht rfl rfl, ⟨_, hstart, hruns⟩, (seqScan_repeats hclean).bound, ?_⟩, fun hnone => ?_⟩
    · have hpicks : ((Product.all (scanned db condsOf) (fun _ => []) [tab]).filter fun g => ([] : List Condition).all (·.test (db.value g))) =
          (scanned db condsOf tab).map (Function.update (fun _ => []) tab) := by
        refine (List.filter_eq_self.mpr fun _ _ => rfl).trans ?_
        rw [Product.all, Product.all, List.flatMap_singleton]
      have hshows := seqScan_shows hsound ht htab.2 fun d hd => hcols d hd.2
      change List.Forall₂ _ ((Product.all (scanned db condsOf) (fun _ => []) [tab]).filter fun g => ([] : List Condition).all (·.test (db.value g))) _
      rw [hpicks, List.forall₂_map_left_iff]
      exact hshows.imp fun p l hl => hl _ (Function.update_self ..)
    · obtain ⟨s, hs, htuple⟩ := List.mem_filterMap.mp hnone
      obtain ⟨hnil, hhidden⟩ := seqTuple_null htuple
      exact ⟨tab, t, rfl, hnil, ht, s, hs, hhidden⟩
  | join left right conds _ ih =>
    obtain ⟨⟨tab, index, conds', proj, rfl⟩, hdeep⟩ := hdeep
    obtain ⟨-, horiented, hconds⟩ := horiented
    have heq := hscans _ (List.mem_cons_self ..)
    dsimp only at heq
    obtain ⟨rfl, -, rfl, rfl⟩ := Plan.scan.inj heq
    have htab := htables tab (List.mem_cons_self ..)
    obtain ⟨t, ht, hconvert⟩ := hscan htab
    obtain ⟨hnew, hnodup⟩ := List.nodup_cons.mp hnodup
    obtain ⟨e, tuples, he, hyields, -⟩ := ih hdeep horiented hnodup (fun e he => hscans e (List.mem_cons_of_mem _ he))
      (fun s hs => htables s (List.mem_cons_of_mem tab hs)) fun c hc => hjoins c (List.mem_append_right conds hc)
    have hbetween : ∀ c ∈ conds, c.Between db q [tab] right.tables ∧ c.LikeTypes db := by
      intro c hc
      obtain ⟨hused, hlike⟩ := hjoins c (List.mem_append_left _ hc)
      obtain ⟨hcol, hleft, hright⟩ := hconds c hc
      exact ⟨hused.between hcols hcol hleft hright, hlike⟩
    have hclean := seqScan_clean hsound ht htab.2
    have hjoin := Yields.join hsound hnew (seqScan_repeats hclean) (scan_offers hsound.names ht rfl rfl)
      (seqScan_shows hsound ht htab.2 fun d hd => hcols d hd.2) hyields hbetween
    have hold : ∀ (g : String → Bytes) (r : Bytes), (right.joinConds.all (·.test (db.value (Function.update g tab r)))) =
        right.joinConds.all (·.test (db.value g)) := by
      intro g r
      rw [Bool.eq_iff_iff, List.all_eq_true, List.all_eq_true]
      refine forall₂_congr fun c hc => ?_
      obtain ⟨hcol, hleft, hright⟩ := horiented.joinConds_tables c hc
      have hne : ∀ {s}, s ∈ right.tables → s ≠ tab := fun hs h => hnew (h ▸ hs)
      rw [Condition.test_congr (h := g) (Function.update_of_ne (hne hleft) ..) fun d hd => Function.update_of_ne (hne ?_) ..]
      rwa [Condition.rhsTab, hd] at hright
    have hall : (fun g : String → Bytes => conds.all (·.test (db.value g)) && right.joinConds.all (·.test (db.value g))) =
        fun g => (conds ++ right.joinConds).all (·.test (db.value g)) := funext fun g => List.all_append.symm
    rw [← Product.filter_outside hold, List.filter_filter, hall] at hjoin
    refine ⟨_, _, ?_, hjoin, fun hnone => ?_⟩
    · rw [convertPlanExecutor, hconvert, he]
    · obtain ⟨rec, -, hrec⟩ := List.mem_map.mp hnone
      cases hrec
  | null => exact hdeep.elim
  | sort subplan selCols isDesc limit => exact hdeep.elim
  | group input groupBy having => exact hdeep.elim
  | agg input selectExprs => exact hdeep.elim
  | projection subplan selCols => exact hdeep.elim

end Plans

/-! ### The query -/

/-- A query that neither groups nor orders nor limits its rows, over tables without indexes, of columns that are there. Conditions
    that compare two columns of one table are on the first table, and each comparison of two tables has a table that is joined
    before. Where one table is scanned without conditions, all its records are visible. -/
structure Query.Plain (db : Db) (q : Query) : Prop where
  ne : q.tables ≠ []
  nodup : q.tables.Nodup
  tables : ∀ tab ∈ q.tables, ∃ t, db.table? tab = some t ∧ t.tab.indexes = []
  cols : ∀ d ∈ q.cols, d.tabName ∈ q.tables ∧ ∃ col, db.col? d = some col
  conds : ∀ c ∈ q.conds, c.Checked q.tables ∧ c.LikeTypes db
  first : ∀ c ∈ q.conds, c.SameTable → q.tables.head? = some c.lhsCol.tabName
  linked : LinkedJoins q.conds
  visible : q.conds = [] → ∀ tab t, q.tables = [tab] → db.table? tab = some t → ∀ s ∈ t.slots, db.visible s = true
  plain : q.hasSort = false ∧ needAggPlan q = false

/-- The conditions of a query on one of its tables. -/
def Query.ownConds (q : Query) (tab : String) : List Condition := q.conds.filter fun c => c.OneTable ∧ c.lhsCol.tabName = tab

section Query
variable {stl : Stl} {db : Db} {q : Query}

theorem popAll_scans {tables : List String} {conds : List Condition} (hnodup : tables.Nodup)
    (hnamed : ∀ c ∈ conds, c.lhsCol.tabName ≠ "") (hfirst : ∀ c ∈ conds, c.SameTable → tables.head? = some c.lhsCol.tabName) :
    (popAll tables conds).1 = tables.map fun tab => (tab, conds.filter fun c => c.OneTable ∧ c.lhsCol.tabName = tab) := by
  induction tables generalizing conds with
  | nil => rfl
  | cons tab tabs ih =>
    obtain ⟨hnew, hnodup⟩ := List.nodup_cons.mp hnodup
    have hrest := ih hnodup (fun c (hc : c ∈ conds.filter fun c => !isPopped tab c) => hnamed c (List.mem_of_mem_filter hc))
      fun c hc hsame => absurd hsame (not_sameTable_of_left hc)
    rw [popAll_cons, List.map_cons, hrest]
    have hown : ∀ c ∈ conds, isPopped tab c = true → c.OneTable ∧ c.lhsCol.tabName = tab := fun c hc =>
      isPopped_own (hnamed c hc) fun hsame => (Option.some.inj (hfirst c hc hsame)).symm
    have hhead : conds.filter (isPopped tab) = conds.filter fun c => c.OneTable ∧ c.lhsCol.tabName = tab := by
      refine List.filter_congr fun c hc => ?_
      rw [Bool.eq_iff_iff, decide_eq_true_eq]
      exact ⟨hown c hc, fun h => isPopped_iff.mpr (h.1.imp_left fun hval => ⟨hval, h.2⟩)⟩
    rw [hhead]
    refine congrArg (_ :: ·) (List.map_congr_left fun tab' htab' => ?_)
    rw [List.filter_filter]
    refine congrArg (tab', ·) (List.filter_congr fun c hc => ?_)
    rw [Bool.and_eq_left_iff_imp, decide_eq_true_eq, Bool.not_eq_true', ← Bool.not_eq_true]
    rintro ⟨-, htab⟩ hpop
    exact hnew ((hown c hc hpop).2.symm.trans htab ▸ htab')

theorem groupBy_nil (h : needAggPlan q = false) : q.groupBy = [] := by
  unfold needAggPlan at h
  by_contra hne
  simp [hne] at h

/-- The columns that a query without groups uses are there. -/
theorem used_columns (hgroup : needAggPlan q = false) (hcols : ∀ d ∈ q.cols, ∃ col, db.col? d = some col)
    (hconds : ∀ c ∈ q.conds, (∃ col, db.col? c.lhsCol = some col) ∧ ∀ d, c.rhs = .col d → ∃ col, db.col? d = some col) (d : TabCol)
    (hd : d ∈ colUsage q d.tabName) : ∃ col, db.col? d = some col := by
  unfold colUsage at hd
  rw [groupBy_nil hgroup, List.filterMap_nil, List.append_nil] at hd
  rcases List.mem_append.mp (List.mem_of_mem_filter hd) with hd | hd
  · exact hcols d (List.mem_of_mem_filter hd)
  · obtain ⟨c, hc, hd⟩ := List.mem_flatMap.mp hd
    obtain ⟨hlhs, hrhs⟩ := hconds c hc
    obtain ⟨lhs, op, rhs⟩ := c
    cases rhs with
    | val v raw => cases hd
    | col d' =>
      rcases List.mem_cons.mp hd with rfl | hd
      · exact hlhs
      · rw [List.mem_singleton.mp hd]
        exact hrhs d' rfl

theorem Condition.LikeTypes.columns {c : Condition} (h : c.LikeTypes db) : (∃ col, db.col? c.lhsCol = some col) ∧
    ∀ d, c.rhs = .col d → ∃ col, db.col? d = some col := by
  obtain ⟨col, hcol, -, hrhs⟩ := h
  refine ⟨⟨col, hcol⟩, fun d hd => ?_⟩
  rw [hd] at hrhs
  exact hrhs.imp fun _ h => h.1

/-- The conditions on a lone table are its own. -/
theorem ownConds_nil (hconds : ∀ c ∈ q.conds, c.Checked q.tables) {tab : String} (hone : q.tables = [tab]) (hnil : q.ownConds tab = []) :
    q.conds = [] := by
  refine List.eq_nil_iff_forall_not_mem.mpr fun c hc => ?_
  obtain ⟨hlhs, -, hrhs⟩ := hconds c hc
  rw [hone, List.mem_singleton] at hlhs
  have hmem : c ∈ q.ownConds tab := by
    refine List.mem_filter.mpr ⟨hc, decide_eq_true ⟨?_, hlhs⟩⟩
    cases hval : c.isRhsVal with
    | true => exact Or.inl hval
    | false =>
      have := hrhs hval
      rw [hone, List.mem_singleton] at this
      exact Or.inr (hlhs.trans this.symm)
  rw [hnil] at hmem
  cases hmem

/-! ### Conditions with their sides exchanged -/

theorem Db.type_value {d : TabCol} {col : Catalog.ColMeta} {g : String → Bytes} (hcol : db.col? d = some col) : (db.value g d).type = col.type := by
  rw [Db.value, hcol]
  exact Value.type_fromRaw ..

theorem Turned.test {c c' : Condition} (h : Turned c c') (hlike : c.LikeTypes db) (g : String → Bytes) :
    c'.test (db.value g) = c.test (db.value g) := by
  rcases h with rfl | rfl
  · rfl
  · obtain ⟨col, hcol, hfloat, hrhs⟩ := hlike
    obtain ⟨lhs, op, rhs⟩ := c
    cases rhs with
    | val v raw => rfl
    | col d =>
      obtain ⟨col', hcol', htype, -⟩ := hrhs
      have htypes : (db.value g lhs).type = (db.value g d).type := by rw [db.type_value hcol, db.type_value hcol', htype]
      refine (Value.meets_swap htypes ?_ op).symm
      rwa [db.type_value hcol]

theorem Turned.used {c c' : Condition} (h : Turned c c') (hc : c ∈ q.conds) (hcol : c.isRhsVal = false) : c'.Used q := by
  obtain ⟨lhs, op, rhs⟩ := c
  cases rhs with
  | val v raw => cases hcol
  | col d =>
    obtain ⟨hlhs, hd⟩ := colUsage_cond hc rfl
    rcases h with rfl | rfl
    · exact ⟨hlhs, fun e he => by cases he; exact hd⟩
    · exact ⟨hd, fun e he => by cases he; exact hlhs⟩

theorem Turned.like {c c' : Condition} (h : Turned c c') (hlike : c.LikeTypes db) (htwo : c.TwoTable) : c'.LikeTypes db := by
  obtain ⟨col, hcol, hfloat, hrhs⟩ := hlike
  obtain ⟨hval, hne⟩ := htwo
  obtain ⟨lhs, op, rhs⟩ := c
  cases rhs with
  | val v raw => cases hval
  | col d =>
    obtain ⟨col', hcol', htype, hlen, hexact⟩ := hrhs
    rcases h with rfl | rfl
    · exact ⟨col, hcol, hfloat, col', hcol', htype, hlen, hexact⟩
    · exact ⟨col', hcol', htype ▸ hfloat, col, hcol, htype.symm, hlen.symm, fun htab => absurd htab.symm hne⟩

/-! ### The rows -/

/-- The conditions of the query hold of a pick if those at its scans and joins do. -/
theorem Query.Plain.test_iff (hq : q.Plain db) {plan : Plan} (hscans : plan.tables.Perm q.tables) {turned : List Condition}
    (hturned : List.Forall₂ Turned (q.conds.filter (·.TwoTable)) turned) (hjoins : plan.joinConds.Perm turned) (g : String → Bytes) :
    (plan.joinConds.all (·.test (db.value g)) && plan.tables.all fun tab => (q.ownConds tab).all (·.test (db.value fun _ => g tab))) =
      q.conds.all (·.test (db.value g)) := by
  have hown : ∀ c : Condition, c.OneTable → c.test (db.value fun _ => g c.lhsCol.tabName) = c.test (db.value g) := by
    intro c hone
    refine Condition.test_congr rfl fun d hd => ?_
    have hsame := hone.resolve_left fun hval => by rw [Condition.isRhsVal, hd] at hval; cases hval
    rw [hsame, Condition.rhsTab, hd]
  have htests : ∀ {c c'}, c ∈ q.conds.filter (·.TwoTable) → Turned c c' → c'.test (db.value g) = c.test (db.value g) := fun hc h =>
    h.test (hq.conds _ (List.mem_of_mem_filter hc)).2 g
  rw [Bool.eq_iff_iff, Bool.and_eq_true, List.all_eq_true, List.all_eq_true, List.all_eq_true]
  constructor
  · rintro ⟨hjoin, hscan⟩ c hc
    by_cases hone : c.OneTable
    · have htab := hscans.mem_iff.mpr (hq.conds c hc).1.lhs
      rw [← hown c hone]
      exact List.all_eq_true.mp (hscan _ htab) c (List.mem_filter.mpr ⟨hc, decide_eq_true ⟨hone, rfl⟩⟩)
    · have hmem : c ∈ q.conds.filter (·.TwoTable) := List.mem_filter.mpr ⟨hc, decide_eq_true (Condition.twoTable_iff.mpr hone)⟩
      obtain ⟨c', hc', h⟩ := forall₂_right hturned.flip hmem
      rw [← htests hmem h]
      exact hjoin c' (hjoins.mem_iff.mpr hc')
  · intro h
    refine ⟨fun c' hc' => ?_, fun tab _ => List.all_eq_true.mpr fun c hc => ?_⟩
    · obtain ⟨c, hc, hturn⟩ := forall₂_right hturned (hjoins.mem_iff.mp hc')
      rw [htests hc hturn]
      exact h c (List.mem_of_mem_filter hc)
    · obtain ⟨hmem, hdec⟩ := List.mem_filter.mp hc
      obtain ⟨hone, rfl⟩ := of_decide_eq_true hdec
      rw [hown c hone]
      exact h c hmem

variable (stl) in
/-- The operators below the projection yield the picks that the query asks for. -/
theorem Query.Plain.yields (hsound : db.Sound) (hq : q.Plain db) : ∃ plan e gs tuples, makeOneRel db.catalog true q = .ok plan ∧
    convertPlanExecutor stl db plan = .ok e ∧ none ∉ tuples ∧ Yields db q plan.tables e gs tuples ∧ plan.tables.Perm q.tables ∧
    gs.Perm ((Product.all db.rows (fun _ => []) q.tables).filter fun g => q.conds.all (·.test (db.value g))) := by
  obtain ⟨plan, hplan, hdeep, htree⟩ := makeOneRel_plan hq.ne hq.nodup (fun tab htab => (hq.tables tab htab).imp fun _ h => h.1)
    fun c hc => (hq.conds c hc).1
  rw [popAll_scans hq.nodup (fun c hc => (hq.conds c hc).1.named) hq.first, popAll_rest_eq fun c hc => (hq.conds c hc).1.lhs] at htree
  obtain ⟨horiented, hscans, turned, hturned, hjoins⟩ := htree
  rw [List.map_map] at hscans
  have htabs : plan.tables.Perm q.tables := by
    refine (hscans.map (·.1)).trans (.of_eq ?_)
    rw [List.map_map]
    exact List.map_id _
  have hnodup : plan.tables.Nodup := htabs.nodup_iff.mpr hq.nodup
  have hscan : ∀ e ∈ plan.scans, e.2 = .scan none e.1 (q.ownConds e.1) (colUsage q e.1) := by
    intro e he
    obtain ⟨tab, htab, rfl⟩ := List.mem_map.mp (hscans.mem_iff.mp he)
    obtain ⟨t, ht, hindexes⟩ := hq.tables tab htab
    have hindex : indexFor db (tab, q.ownConds tab) = none := indexFor_unindexed ht hindexes
    exact congrArg (fun index => Plan.scan index tab (q.ownConds tab) (colUsage q tab)) hindex
  have hlocal : ∀ tab ∈ plan.tables, (∃ t, db.table? tab = some t) ∧ ∀ c ∈ q.ownConds tab, c.Local db tab := by
    intro tab htab
    obtain ⟨t, ht, -⟩ := hq.tables tab (htabs.mem_iff.mp htab)
    refine ⟨⟨t, ht⟩, fun c hc => ?_⟩
    obtain ⟨hc, hdec⟩ := List.mem_filter.mp hc
    obtain ⟨hone, htab⟩ := of_decide_eq_true hdec
    exact ⟨(hq.conds c hc).2, hone, htab⟩
  have hused : ∀ c ∈ plan.joinConds, c.Used q ∧ c.LikeTypes db := by
    intro c' hc'
    obtain ⟨c, hc, hturn⟩ := forall₂_right hturned (hjoins.mem_iff.mp hc')
    obtain ⟨hc, hdec⟩ := List.mem_filter.mp hc
    have htwo := of_decide_eq_true hdec
    exact ⟨hturn.used hc htwo.1, hturn.like (hq.conds c hc).2 htwo⟩
  obtain ⟨e, tuples, he, hyields, hnull⟩ := plan_yields stl hsound
    (used_columns hq.plain.2 (fun d hd => (hq.cols d hd).2) fun c hc => (hq.conds c hc).2.columns) (hdeep hq.linked) horiented hnodup hscan hlocal hused
  refine ⟨plan, e, _, tuples, hplan, he, fun hnone => ?_, hyields, htabs, ?_⟩
  · obtain ⟨tab, t, htab, hnil, ht, s, hs, hhidden⟩ := hnull hnone
    have hone : q.tables = [tab] := List.perm_singleton.mp (htab ▸ htabs.symm)
    have hconds := ownConds_nil (fun c hc => (hq.conds c hc).1) hone hnil
    rw [hq.visible hconds tab t hone ht s hs] at hhidden
    cases hhidden
  · have hpicks : Product.all (scanned db q.ownConds) (fun _ => []) plan.tables = (Product.all db.rows (fun _ => []) plan.tables).filter
        fun g => plan.tables.all fun tab => (q.ownConds tab).all (·.test (db.value fun _ => g tab)) :=
      Product.all_filter hnodup (q := fun tab rec => (q.ownConds tab).all (·.test (db.value fun _ => rec)))
    rw [hpicks, List.filter_filter]
    have htests := funext (hq.test_iff htabs hturned hjoins)
    rw [htests]
    exact (Product.all_perm htabs hnodup).filter _

/-- The selected columns are found below the projection. -/
theorem Executor.Offers.selected {e : Executor} {tabs : List String} (hoffers : e.Offers db q tabs) (hnamed : db.Named)
    (htabs : ∀ tab ∈ tabs, ∃ t, db.table? tab = some t) (hcols : ∀ d ∈ q.cols, d.tabName ∈ tabs ∧ ∃ col, db.col? d = some col) :
    selectedCols e.cols q.cols = .ok ((q.cols.filterMap (colOf e.cols)).map id) ∧ ∀ d ∈ q.cols, ∃ c col, colOf e.cols d = some c ∧
      getCol e.cols d = .ok c ∧ q.Uses tabs d ∧ db.col? d = some col ∧ c.len = col.len := by
  have hfound : ∀ d ∈ q.cols, ∃ c col, colOf e.cols d = some c ∧ getCol e.cols d = .ok c ∧ q.Uses tabs d ∧ db.col? d = some col ∧
      c.len = col.len := by
    intro d hd
    obtain ⟨htab, col, hcol⟩ := hcols d hd
    obtain ⟨t, ht, -⟩ := Db.col?_eq_some.mp hcol
    obtain ⟨hmem, hname, -⟩ := getCol_table ht hcol
    have huse : q.Uses tabs d := ⟨htab, colUsage_col hd (hname ▸ (hnamed t (Db.table?_mem ht).1 col hmem).1)⟩
    obtain ⟨c, hget, -, hlen⟩ := hoffers.found d col huse hcol
    refine ⟨c, col, ?_, hget, huse, hcol, hlen⟩
    unfold getCol at hget
    unfold colOf
    split at hget
    · next hfind =>
      cases hget
      exact hfind
    · cases hget
  refine ⟨selectedCols_find id (fun c hc hempty => ?_) fun d hd => ?_, hfound⟩
  · obtain ⟨t, ht⟩ := htabs _ (hoffers.named c hc)
    exact t.name_ne ((Db.table?_mem ht).2.trans hempty)
  · obtain ⟨c, -, hc, -⟩ := hfound d hd
    exact ⟨c, hc, hc⟩

/-- The selected cells of a record. -/
theorem selected_cells {cols : List Catalog.ColMeta} {ds : List TabCol} {cellOf : Catalog.ColMeta → Bytes} {f : TabCol → Bytes}
    (h : ∀ d ∈ ds, ∃ c, colOf cols d = some c ∧ cellOf c = f d) : ((ds.filterMap (colOf cols)).map id).flatMap cellOf = ds.flatMap f := by
  induction ds with
  | nil => rfl
  | cons d ds ih =>
    obtain ⟨c, hc, hcell⟩ := h d (List.mem_cons_self ..)
    rw [List.filterMap_cons_some hc, List.map_cons, List.flatMap_cons, List.flatMap_cons, ih fun e he => h e (List.mem_cons_of_mem d he)]
    exact congrArg (· ++ _) hcell

theorem present_all {tuples : List (Option Bytes)} (h : none ∉ tuples) : tuples = (present tuples).map some := by
  induction tuples with
  | nil => rfl
  | cons r rs ih =>
    rw [List.mem_cons, not_or] at h
    cases r with
    | none => exact absurd rfl h.1
    | some rec => exact congrArg (some rec :: ·) (ih h.2)

variable (stl) in
/-- The plan without constants that equalities carry over returns what the query asks for. -/
theorem Query.Plain.runPlan (hsound : db.Sound) (hq : q.Plain db) : ∃ plan rows, makeOneRel db.catalog true q = .ok plan ∧
    Sql.runPlan stl db (.projection plan q.cols) = .ok rows ∧ rows.Perm (answer db q) := by
  obtain ⟨plan, e, gs, tuples, hplan, he, hnone, ⟨hoffers, ⟨t, ht, hruns⟩, hbound, hrows⟩, htabs, hperm⟩ := hq.yields stl hsound
  have htables : ∀ tab ∈ plan.tables, ∃ t, db.table? tab = some t := fun tab htab =>
    (hq.tables tab (htabs.mem_iff.mp htab)).imp fun _ h => h.1
  obtain ⟨hsel, hfound⟩ := hoffers.selected hsound.names htables fun d hd => ⟨htabs.mem_iff.mpr (hq.cols d hd).1, (hq.cols d hd).2⟩
  have hthere := present_all hnone
  rw [hthere, List.map_map] at hruns
  rw [hthere, List.length_map] at hbound
  obtain ⟨root, hroot, hout⟩ := projection_rows ht hruns hbound hsel
  -- each tuple has the cells of its pick
  have hcells : List.Forall₂ Eq ((present tuples).map fun rec => ((q.cols.filterMap (colOf e.cols)).map id).flatMap fun c =>
      (rec.drop c.offset).take c.len) (gs.map fun g => q.cols.flatMap (db.cell g)) := by
    rw [List.forall₂_map_left_iff, List.forall₂_map_right_iff]
    refine hrows.flip.imp fun rec g hshows => selected_cells fun d hd => ?_
    obtain ⟨c, _, hc, hget, huse, -⟩ := hfound d hd
    exact ⟨c, hc, hshows.cells d c huse hget⟩
  rw [List.forall₂_eq_eq_eq] at hcells
  have hrun : Sql.runPlan stl db (.projection plan q.cols) = .ok (gs.map fun g => q.cols.flatMap (db.cell g)) := by
    rw [Sql.runPlan, convertPlanExecutor, he]
    simp only [hroot]
    rw [hout, hcells]
  exact ⟨plan, _, hplan, hrun, hperm.map _⟩

/-! ### Constants that equalities carry over -/

/-- Conditions on columns that are there have the names that keys are made of. -/
theorem plainNames (hnamed : db.Named) {conds : List Condition} (hconds : ∀ c ∈ conds, (∃ col, db.col? c.lhsCol = some col) ∧
    ∀ d, c.rhs = .col d → ∃ col, db.col? d = some col) : ∀ c ∈ conds, c.PlainNames := by
  have hnames : ∀ {d}, (∃ col, db.col? d = some col) → '.' ∉ d.colName.toList := by
    rintro d ⟨col, hcol⟩
    obtain ⟨t, ht, -⟩ := Db.col?_eq_some.mp hcol
    obtain ⟨hmem, hname, -⟩ := getCol_table ht hcol
    exact hname ▸ (hnamed t (Db.table?_mem ht).1 col hmem).2
  exact fun c hc => ⟨hnames (hconds c hc).1, fun d hd => hnames ((hconds c hc).2 d hd)⟩

theorem test_iff_holds {c : Condition} (hlike : c.LikeTypes db) (g : String → Bytes) :
    c.test (db.value g) = true ↔ c.Holds (fun op a b => a.meets op b = true) (db.value g) := by
  obtain ⟨col, hcol, hfloat, hrhs⟩ := hlike
  obtain ⟨lhs, op, rhs⟩ := c
  have htype := db.type_value (g := g) hcol
  have heq : ∀ v : Value, v.type = col.type → ((db.value g lhs).meets .eq v = true ↔ db.value g lhs = v) := fun v hv =>
    Value.meets_eq_iff (htype.trans hv.symm) (htype ▸ hfloat)
  cases rhs with
  | val v raw => cases op <;> first | exact heq v hrhs.1 | exact Iff.rfl
  | col d =>
    obtain ⟨col', hcol', htype', -⟩ := hrhs
    cases op <;> first | exact heq _ ((db.type_value hcol').trans htype') | exact Iff.rfl

variable (stl) in
/-- The conditions that are added are checked too, and give a column a constant of one that must be equal to it. -/
theorem propagate_checked (hnamed : db.Named) {conds : List Condition} (hconds : ∀ c ∈ conds, (∃ col, db.col? c.lhsCol = some col) ∧
    ∀ d, c.rhs = .col d → ∃ col, db.col? d = some col) {tables : List String} (htables : ∀ tab ∈ tables, ∃ t, db.table? tab = some t)
    (hchecked : ∀ c ∈ conds, c.Checked tables) :
    ∃ added, propagateEqualityConstants stl conds = conds ++ added ∧ ∀ c ∈ added, c.isRhsVal = true ∧ c.Checked tables ∧
      ∃ d a v raw, c = ⟨d, .eq, .val v raw⟩ ∧ ⟨a, .eq, .val v raw⟩ ∈ conds ∧
        ∀ {β : Type} (f : TabCol → β), (∀ x y, ⟨x, .eq, .col y⟩ ∈ conds → f x = f y) → f d = f a := by
  obtain ⟨added, heq, hadded⟩ := propagate_added stl (plainNames hnamed hconds)
  refine ⟨added, heq, fun c hc => ?_⟩
  obtain ⟨d, a, v, raw, rfl, ha, hd, hsame⟩ := hadded c hc
  have htab : d.tabName ∈ tables := by
    obtain ⟨c', hc', -, rfl | hrhs⟩ := hd
    · exact (hchecked c' hc').lhs
    · have := (hchecked c' hc').rhs (by rw [Condition.isRhsVal, hrhs])
      rwa [Condition.rhsTab, hrhs] at this
  obtain ⟨t, ht⟩ := htables _ htab
  exact ⟨rfl, ⟨htab, fun h => t.name_ne ((Db.table?_mem ht).2.trans h), fun h => by cases h⟩, d, a, v, raw, rfl, ha, hsame⟩

variable (stl) in
/-- The query with the constants that equalities carry over asks for the same rows. -/
theorem Query.Plain.propagate (hsound : db.Sound) (hq : q.Plain db) :
    ({ q with conds := propagateEqualityConstants stl q.conds } : Query).Plain db ∧
      answer db { q with conds := propagateEqualityConstants stl q.conds } = answer db q := by
  have hcolumns : ∀ c ∈ q.conds, (∃ col, db.col? c.lhsCol = some col) ∧ ∀ d, c.rhs = .col d → ∃ col, db.col? d = some col :=
    fun c hc => (hq.conds c hc).2.columns
  have hnames := plainNames hsound.names hcolumns
  obtain ⟨added, heq, hadded⟩ := propagate_checked stl hsound.names hcolumns (fun tab htab => (hq.tables tab htab).imp fun _ h => h.1)
    fun c hc => (hq.conds c hc).1
  have hval : ∀ c ∈ added, c.isRhsVal = true := fun c hc => (hadded c hc).1
  have hnew : ∀ c ∈ added, c.Checked q.tables ∧ c.LikeTypes db := by
    intro c hc
    obtain ⟨-, hchecked, d, a, v, raw, rfl, ha, hsame⟩ := hadded c hc
    refine ⟨hchecked, ?_⟩
    -- columns that must be equal have the same type and length
    have hshape : (db.col? d).map (fun c => (c.type, c.len)) = (db.col? a).map fun c => (c.type, c.len) := by
      refine hsame (fun d => (db.col? d).map fun c => (c.type, c.len)) fun x y hxy => ?_
      obtain ⟨col, hcol, -, col', hcol', htype, hlen, -⟩ := (hq.conds _ hxy).2
      dsimp only at hcol ⊢
      rw [hcol, hcol', Option.map_some, Option.map_some, htype, hlen]
    obtain ⟨col, hcol, hfloat, htype, hraw, hexact⟩ := (hq.conds _ ha).2
    rw [hcol, Option.map_some] at hshape
    obtain ⟨col', hcol', hshape⟩ := Option.map_eq_some_iff.mp hshape
    obtain ⟨htype', hlen⟩ := Prod.mk.inj hshape
    exact ⟨col', hcol', htype' ▸ hfloat, htype.trans htype'.symm, hlen ▸ hraw, hexact⟩
  have hall : ∀ c ∈ propagateEqualityConstants stl q.conds, c.Checked q.tables ∧ c.LikeTypes db := by
    rw [heq]
    exact fun c hc => (List.mem_append.mp hc).elim (hq.conds c) (hnew c)
  refine ⟨⟨hq.ne, hq.nodup, hq.tables, hq.cols, hall, fun c hc hsame => ?_, ?_, fun hnil => ?_, hq.plain⟩, ?_⟩
  · rcases List.mem_append.mp (heq ▸ hc) with hc | hc
    · exact hq.first c hc hsame
    · cases (hval c hc).symm.trans hsame.1
  · have hnone : added.filter (·.TwoTable) = [] := List.filter_eq_nil_iff.mpr fun c hc htwo => by
      have := (of_decide_eq_true htwo).1
      rw [hval c hc] at this
      cases this
    have hlinked := hq.linked
    unfold LinkedJoins at hlinked ⊢
    rwa [heq, List.filter_append, hnone, List.append_nil]
  · rw [heq] at hnil
    exact hq.visible (List.append_eq_nil_iff.mp hnil).1
  · refine congrArg (List.map _) (List.filter_congr fun g _ => ?_)
    rw [Bool.eq_iff_iff, List.all_eq_true, List.all_eq_true]
    have hsame := propagate_same stl hnames (fun op a b => a.meets op b = true) (db.value g)
    calc (∀ c ∈ propagateEqualityConstants stl q.conds, c.test (db.value g) = true)
        ↔ ∀ c ∈ propagateEqualityConstants stl q.conds, c.Holds _ (db.value g) :=
          forall₂_congr fun c hc => test_iff_holds (hall c hc).2 g
      _ ↔ ∀ c ∈ q.conds, c.Holds _ (db.value g) := hsame
      _ ↔ ∀ c ∈ q.conds, c.test (db.value g) = true := (forall₂_congr fun c hc => test_iff_holds (hq.conds c hc).2 g).symm

/-- A query without sorting and aggregation is run by a projection of its joins. -/
theorem runQuery_plain (hplain : q.hasSort = false ∧ needAggPlan q = false) {plan : Plan}
    (hplan : makeOneRel db.catalog true { q with conds := propagateEqualityConstants stl q.conds } = .ok plan) :
    Sql.runQuery stl db true q = Sql.runPlan stl db (.projection plan q.cols) := by
  have hsort : generateSortPlan db.catalog { q with conds := propagateEqualityConstants stl q.conds } plan = .ok plan := by
    rw [generateSortPlan]
    exact if_neg (by rw [hplain.1]; exact Bool.false_ne_true)
  have hagg : needAggPlan { q with conds := propagateEqualityConstants stl q.conds } = false := hplain.2
  have hgenerate : generateSelectPlan stl db.catalog true q = .ok (.projection plan q.cols) := by
    unfold generateSelectPlan
    simp only [hplan, hsort, ok_bind, hagg]
    rfl
  rw [Sql.runQuery, hgenerate, ok_bind]

/-- A plain query returns what it asks for. -/
theorem Query.Plain.runQuery (hsound : db.Sound) (hq : q.Plain db) :
    ∃ rows, Sql.runQuery stl db true q = .ok rows ∧ rows.Perm (answer db q) := by
  obtain ⟨hq', hanswer⟩ := hq.propagate stl hsound
  obtain ⟨plan, rows, hplan, hrun, hperm⟩ := hq'.runPlan stl hsound
  exact ⟨rows, (runQuery_plain hq.plain hplan).trans hrun, hanswer ▸ hperm⟩

end Query

end Rmdb.Sql
