import Rmdb.Theorems.Sql.JoinTree

/-! When the plan of a query joins one scan after the other: each join is started once, and only scans are started again. -/

namespace Rmdb.Sql
open Outcomes

/-! ### Plans that join one scan after the other -/

/-- A scan, or the join of a scan with such a plan on its right. -/
def Plan.RightDeep : Plan → Prop
  | .scan _ _ _ _ => True
  | .join left right _ => (∃ tab, left.ScanOf tab) ∧ right.RightDeep
  | _ => False

theorem Plan.ScanOf.rightDeep {p : Plan} {tab : String} (h : p.ScanOf tab) : p.RightDeep := by
  obtain ⟨index, conds, proj, rfl⟩ := h
  trivial

/-- A scan keeps no condition that is pushed down to it. -/
theorem Plan.ScanOf.pushConds {p : Plan} {tab : String} (h : p.ScanOf tab) (c : Condition) : (Sql.pushConds c p).2 = p := by
  obtain ⟨index, conds, proj, rfl⟩ := h
  rfl

theorem pushConds_rightDeep (c : Condition) {p : Plan} (h : p.RightDeep) : (pushConds c p).2.RightDeep := by
  induction p with
  | scan index tab conds proj => trivial
  | join left right conds _ ih =>
    obtain ⟨⟨tab, hscan⟩, hright⟩ := h
    rw [pushConds]
    simp only [hscan.pushConds c]
    split
    · exact ⟨⟨tab, hscan⟩, hright⟩
    · split
      · exact ⟨⟨tab, hscan⟩, ih hright⟩
      · split
        · exact ⟨⟨tab, hscan⟩, hright⟩
        · exact ⟨⟨tab, hscan⟩, hright⟩
  | null => exact h.elim
  | sort subplan selCols isDesc limit => exact h.elim
  | group input groupBy having => exact h.elim
  | agg input selectExprs => exact h.elim
  | projection subplan selCols => exact h.elim

/-! ### The order of the conditions -/

/-- From some joined tables on, every condition has a table that is joined before. -/
def Linked : List String → List Condition → Prop
  | _, [] => True
  | joined, c :: cs => (c.lhsCol.tabName ∈ joined ∨ c.rhsTab ∈ joined) ∧ Linked (c.lhsCol.tabName :: c.rhsTab :: joined) cs

instance Linked.decidable : (joined : List String) → (conds : List Condition) → Decidable (Linked joined conds)
  | _, [] => isTrue trivial
  | joined, c :: cs =>
    have := Linked.decidable (c.lhsCol.tabName :: c.rhsTab :: joined) cs
    inferInstanceAs (Decidable (_ ∧ _))

/-- The comparisons of two tables are linked behind the first of them. -/
def LinkedJoins (conds : List Condition) : Prop :=
  ∀ c cs, conds.filter (·.TwoTable) = c :: cs → Linked [c.lhsCol.tabName, c.rhsTab] cs

section Joining
variable {scans : List (String × Plan)} {done : List Condition} {c : Condition} {s : JoinState}

theorem popScan_joinedTables {tab : String} (htab : tab ∈ scans.map (·.1)) :
    (popScan scans tab s).2.joinedTables = s.joinedTables ++ [tab] := by
  obtain ⟨found, hfound, hname⟩ := List.mem_map.mp htab
  unfold popScan
  cases hi : scans.findIdx? (·.1 = tab) with
  | none => exact absurd hname (of_decide_eq_false (List.findIdx?_eq_none_iff.mp hi found hfound))
  | some i => rfl

/-- After its turn the tables of a condition are joined. -/
theorem nextJoin_joinedTables (hc : Joins scans c) {tab : String} (h : tab ∈ c.lhsCol.tabName :: c.rhsTab :: s.joinedTables) :
    tab ∈ (nextJoin scans s c).joinedTables := by
  have hleft : ∀ t, t = c.lhsCol.tabName ∨ t ∈ s.joinedTables →
      t ∈ (if c.lhsCol.tabName ∈ s.joinedTables then (none, s) else popScan scans c.lhsCol.tabName s).2.joinedTables := by
    intro t ht
    split
    · next hmem =>
      rcases ht with rfl | ht
      · exact hmem
      · exact ht
    · rw [popScan_joinedTables hc.lhs, List.mem_append, List.mem_singleton]
      exact ht.symm
  generalize hs : (if c.lhsCol.tabName ∈ s.joinedTables then (none, s) else popScan scans c.lhsCol.tabName s) = p at hleft
  have hright : ∀ t, t = c.rhsTab ∨ t ∈ p.2.joinedTables →
      t ∈ (if c.rhsTab ∉ p.2.joinedTables then popScan scans c.rhsTab p.2 else (none, p.2)).2.joinedTables := by
    intro t ht
    split
    · rw [popScan_joinedTables hc.rhs, List.mem_append, List.mem_singleton]
      exact ht.symm
    · next hmem =>
      rcases ht with rfl | ht
      · exact not_not.mp hmem
      · exact ht
  have hall : tab = c.rhsTab ∨ tab ∈ p.2.joinedTables := by
    rcases List.mem_cons.mp h with rfl | h
    · exact Or.inr (hleft _ (Or.inl rfl))
    · rcases List.mem_cons.mp h with rfl | h
      · exact Or.inl rfl
      · exact Or.inr (hleft _ (Or.inr h))
  have hmem := hright tab hall
  unfold nextJoin
  simp only [hs]
  generalize (if c.rhsTab ∉ p.2.joinedTables then popScan scans c.rhsTab p.2 else (none, p.2)) = r at hmem ⊢
  split
  · exact hmem
  · exact hmem
  · split <;> exact hmem

/-- A condition with a table that is joined already adds at most one scan. -/
theorem nextJoin_rightDeep (hscans : ∀ scan ∈ scans, scan.2.ScanOf scan.1) (h : Joining scans done s) (hc : Joins scans c)
    (hdeep : s.plan.RightDeep) (hlinked : c.lhsCol.tabName ∈ s.joinedTables ∨ c.rhsTab ∈ s.joinedTables) :
    (nextJoin scans s c).plan.RightDeep := by
  unfold nextJoin
  by_cases hl : c.lhsCol.tabName ∈ s.joinedTables
  · simp only [if_pos hl]
    by_cases hr : c.rhsTab ∈ s.joinedTables
    · simp only [hr, not_true_eq_false, if_false]
      exact pushConds_rightDeep c hdeep
    · obtain ⟨p, hp, hpop, hplan, -, -⟩ := h.tracks.popScan hc.rhs hr
      simp only [hr, not_false_eq_true, if_true, hpop, hplan, Option.getD_some]
      exact ⟨⟨_, hscans _ hp⟩, hdeep⟩
  · have hr := hlinked.resolve_left hl
    obtain ⟨p, hp, hpop, hplan, hjoined, -⟩ := h.tracks.popScan hc.lhs hl
    have hr' : c.rhsTab ∈ s.joinedTables ++ [c.lhsCol.tabName] := List.mem_append_left _ hr
    simp only [if_neg hl, hpop, hjoined, hr', not_true_eq_false, if_false, hplan, Option.getD_some]
    exact ⟨⟨_, hscans _ hp⟩, hdeep⟩

theorem firstJoin_rightDeep (hscans : ∀ scan ∈ scans, scan.2.ScanOf scan.1) {start : JoinState} (hstart : Tracks scans [] start)
    (hc : Joins scans c) : (firstJoin scans start c).plan.RightDeep ∧
      ∀ tab ∈ [c.lhsCol.tabName, c.rhsTab], tab ∈ (firstJoin scans start c).joinedTables := by
  have hnew : c.lhsCol.tabName ∉ start.joinedTables := fun h => (by cases (hstart.joined _ hc.lhs).mp h)
  obtain ⟨l, hl, hpop, -, hjoined, htracks⟩ := hstart.popScan hc.lhs hnew
  have hnew' : c.rhsTab ∉ (popScan scans c.lhsCol.tabName start).2.joinedTables := by
    intro h
    exact hc.two.2 (List.mem_singleton.mp ((htracks.joined _ hc.rhs).mp h)).symm
  obtain ⟨r, hr, hpop', -, hjoined', -⟩ := htracks.popScan hc.rhs hnew'
  unfold firstJoin
  simp only [hpop, hpop', hjoined', hjoined, Option.getD_some]
  refine ⟨⟨⟨_, hscans _ hl⟩, (hscans _ hr).rightDeep⟩, fun tab htab => ?_⟩
  rw [List.append_assoc]
  exact List.mem_append_right _ htab

theorem foldl_nextJoin_rightDeep (hscans : ∀ scan ∈ scans, scan.2.ScanOf scan.1) (hnodup : (scans.map (·.1)).Nodup)
    (h : Joining scans done s) {conds : List Condition} (hconds : ∀ c ∈ conds, Joins scans c) (hdeep : s.plan.RightDeep)
    {joined : List String} (hjoined : joined ⊆ s.joinedTables) (hlinked : Linked joined conds) :
    (conds.foldl (nextJoin scans) s).plan.RightDeep := by
  induction conds generalizing done s joined with
  | nil => exact hdeep
  | cons c conds ih =>
    have hc := hconds c (List.mem_cons_self ..)
    obtain ⟨hone, hrest⟩ := hlinked
    refine ih (nextJoin_joining hscans hnodup h hc) (fun d hd => hconds d (List.mem_cons_of_mem c hd))
      (nextJoin_rightDeep hscans h hc hdeep (hone.imp (@hjoined _) (@hjoined _))) (fun tab htab => nextJoin_joinedTables hc ?_) hrest
    rcases List.mem_cons.mp htab with rfl | htab
    · exact List.mem_cons_self ..
    · rcases List.mem_cons.mp htab with rfl | htab
      · exact List.mem_cons_of_mem _ (List.mem_cons_self ..)
      · exact List.mem_cons_of_mem _ (List.mem_cons_of_mem _ (hjoined htab))

theorem joinRest_rightDeep {plan : Plan} {scantbl : List Bool} (hscans : ∀ scan ∈ scans, scan.2.ScanOf scan.1) (h : plan.RightDeep) :
    (joinRest plan scans scantbl).RightDeep := by
  induction scans generalizing plan scantbl with
  | nil => exact h
  | cons scan scans ih =>
    cases scantbl with
    | nil => exact h
    | cons joined scantbl =>
      rw [joinRest]
      refine ih (fun s hs => hscans s (List.mem_cons_of_mem scan hs)) ?_
      split
      · exact h
      · exact ⟨⟨_, hscans scan (List.mem_cons_self ..)⟩, h⟩

end Joining

/-! ### `make_one_rel` -/

section MakeOneRel
variable {db : Db}

/-- The index that a table is scanned with. -/
def indexFor (db : Db) (e : String × List Condition) : Option (List String) := (db.table? e.1).bind fun t => getIndexCols t.tab e.2

/-- The scan of a table with the conditions that it takes. -/
def scanWith (db : Db) (usage : String → List TabCol) (e : String × List Condition) : String × Plan :=
  (e.1, .scan (indexFor db e) e.1 e.2 (usage e.1))

theorem getTable_of_table? {tab : String} {t : Table} (ht : db.table? tab = some t) : getTable db.catalog tab = .ok t.tab := by
  have hfind : db.catalog.tab? tab = some t.tab := by
    show (db.tables.map (·.tab)).find? (·.name = tab) = some t.tab
    rw [List.find?_map]
    exact congrArg (Option.map Table.tab) ht
  rw [getTable, hfind]

/-- Each table is scanned with the conditions that `popAll` gives it. -/
theorem makeScans_eq (usage : String → List TabCol) {tables : List String} {conds : List Condition}
    (htables : ∀ tab ∈ tables, ∃ t, db.table? tab = some t) :
    makeScans db.catalog usage tables conds = .ok ((popAll tables conds).1.map (scanWith db usage), (popAll tables conds).2) := by
  induction tables generalizing conds with
  | nil => rfl
  | cons tab tabs ih =>
    obtain ⟨t, ht⟩ := htables tab (List.mem_cons_self ..)
    have hindex : indexFor db (tab, conds.filter (isPopped tab)) = getIndexCols t.tab (conds.filter (isPopped tab)) := by
      rw [indexFor, ht]
      rfl
    rw [makeScans, getTable_of_table? ht, ok_bind, ih fun s hs => htables s (List.mem_cons_of_mem tab hs), ok_bind, ← hindex]
    rfl

/-- Tables without indexes are scanned from one end to the other. -/
theorem indexFor_unindexed {e : String × List Condition} {t : Table} (ht : db.table? e.1 = some t) (h : t.tab.indexes = []) :
    indexFor db e = none := by
  have hnone : ∀ o : Option (List String), o.filter (fun names => ([] : List (List Catalog.ColMeta)).any fun index => index.map (·.name) = names) = none := by
    intro o
    cases o <;> rfl
  rw [indexFor, ht, Option.bind_some]
  unfold getIndexCols
  simp only [h, List.map_nil, hnone]
  split <;> rfl

/-- A condition on one table stands at no join. -/
theorem popAll_rest_eq {tables : List String} {conds : List Condition} (hconds : ∀ c ∈ conds, c.lhsCol.tabName ∈ tables) :
    (popAll tables conds).2 = conds.filter (·.TwoTable) := by
  have hfilter : ∀ (tables : List String) (conds : List Condition),
      (popAll tables conds).2 = conds.filter fun c => tables.all fun tab => !isPopped tab c := by
    intro tables
    induction tables with
    | nil => exact fun conds => (List.filter_eq_self.mpr fun _ _ => rfl).symm
    | cons tab tabs ih =>
      intro conds
      rw [popAll_cons, ih, List.filter_filter]
      exact List.filter_congr fun c _ => Bool.and_comm ..
  rw [hfilter]
  refine List.filter_congr fun c hc => ?_
  rw [Bool.eq_iff_iff, decide_eq_true_eq, List.all_eq_true, Condition.twoTable_iff]
  constructor
  · intro h hone
    have hpop : isPopped c.lhsCol.tabName c = true := isPopped_iff.mpr (hone.imp_left fun hval => ⟨hval, rfl⟩)
    have := h _ (hconds c hc)
    rw [hpop] at this
    cases this
  · intro h tab htab
    rw [Bool.not_eq_true', ← Bool.not_eq_true, isPopped_iff]
    exact fun hpop => h (hpop.imp_left And.left)

/-- The conditions are at the scans and joins that `popAll` gives them to. If each comparison of two tables has a table that is
    joined before, one scan is joined after the other. -/
theorem makeOneRel_plan {q : Query} (hne : q.tables ≠ []) (hnodup : q.tables.Nodup)
    (htables : ∀ tab ∈ q.tables, ∃ t, db.table? tab = some t) (hconds : ∀ c ∈ q.conds, c.Checked q.tables) :
    ∃ plan, makeOneRel db.catalog true q = .ok plan ∧ (LinkedJoins q.conds → plan.RightDeep) ∧
      JoinTree ((popAll q.tables q.conds).1.map (scanWith db (colUsage q))) (popAll q.tables q.conds).2 plan := by
  have hmake := @makeScans_eq db (colUsage q) q.tables q.conds htables
  have hlhs : ∀ c ∈ q.conds, c.lhsCol.tabName ∈ q.tables := fun c hc => (hconds c hc).lhs
  have hrest := popAll_rest_eq hlhs
  have htwo := popAll_rest hlhs
  have hnames : ((popAll q.tables q.conds).1.map (scanWith db (colUsage q))).map (·.1) = q.tables := by
    rw [List.map_map]
    exact popAll_names
  have hscans : ∀ scan ∈ (popAll q.tables q.conds).1.map (scanWith db (colUsage q)), scan.2.ScanOf scan.1 := by
    intro scan hscan
    obtain ⟨e, -, rfl⟩ := List.mem_map.mp hscan
    exact ⟨indexFor db e, e.2, colUsage q e.1, rfl⟩
  have hmem : ∀ c ∈ (popAll q.tables q.conds).2, c ∈ q.conds := fun c hc => List.mem_of_mem_filter (hrest ▸ hc)
  generalize (popAll q.tables q.conds).1.map (scanWith db (colUsage q)) = scans at *
  generalize (popAll q.tables q.conds).2 = rest at *
  have hempty : "" ∉ scans.map (·.1) := by
    intro h
    obtain ⟨t, ht⟩ := htables "" (hnames ▸ h)
    exact (getTable_ok (Option.isSome_iff_exists.mpr ⟨t, ht⟩)).1 rfl
  have hjoins : ∀ c ∈ rest, Joins scans c := fun c hc =>
    ⟨htwo c hc, hnames ▸ hlhs c (hmem c hc), hnames ▸ (hconds c (hmem c hc)).rhs (htwo c hc).1⟩
  unfold makeOneRel
  rw [hmake]
  cases hr : rest with
  | nil =>
    cases hs : scans with
    | nil => exact absurd (hnames.symm.trans (congrArg _ hs)) hne
    | cons scan others =>
      subst hs
      have hscan := hscans scan (List.mem_cons_self ..)
      have hlength : (true :: others.map fun _ => false).length = (scan :: others).length :=
        congrArg Nat.succ (List.length_map _)
      have htaken : taken (scan :: others) (true :: others.map fun _ => false) = [scan] := congrArg (scan :: ·) (taken_false others)
      obtain ⟨horiented, hjoinConds⟩ :=
        @joinRest_oriented _ _ (true :: others.map fun _ => false) hscans hscan.oriented
      refine ⟨_, rfl, fun _ => joinRest_rightDeep hscans hscan.rightDeep, horiented, joinRest_perm hscans hlength ?_, [], .nil, ?_⟩
      · exact .of_eq (hscan.scans.trans htaken.symm)
      · exact .of_eq (hjoinConds.trans hscan.joinConds)
  | cons c cs =>
    subst hr
    have hc := hjoins c (List.mem_cons_self ..)
    have hcs : ∀ d ∈ cs, Joins scans d := fun d hd => hjoins d (List.mem_cons_of_mem c hd)
    have hstart := tracks_start hempty (.join .null .null [])
    have hfirst := firstJoin_joining hscans hstart hc
    obtain ⟨hdeep, hjoined⟩ := firstJoin_rightDeep hscans hstart hc
    have hall := foldl_nextJoin_joining hscans (hnames ▸ hnodup) hfirst hcs
    have halldeep := fun hlinked : LinkedJoins q.conds => foldl_nextJoin_rightDeep hscans (hnames ▸ hnodup) hfirst hcs hdeep
      (fun tab htab => hjoined tab htab) (hlinked c cs hrest.symm)
    obtain ⟨horiented, hjoinConds⟩ := joinRest_oriented hscans hall.oriented
    refine ⟨_, rfl, fun hlinked => joinRest_rightDeep hscans (halldeep hlinked), horiented, joinRest_perm hscans hall.tracks.length hall.tracks.perm, ?_⟩
    rw [hjoinConds]
    exact hall.conds

end MakeOneRel

end Rmdb.Sql
