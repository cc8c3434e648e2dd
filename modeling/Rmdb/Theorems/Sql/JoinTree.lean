import Rmdb.Theorems.Sql.PushDown
import Mathlib.Data.List.Forall2

/-! The tree of joins: each table is scanned once, and each condition stands at one join that has its left column on the left
and its right column on the right. -/

namespace Rmdb.Sql
open Outcomes

/-! ### Trees of joins -/

namespace Plan

/-- The scans from left to right, with their tables. -/
def scans : Plan → List (String × Plan)
  | .scan index tab conds proj => [(tab, .scan index tab conds proj)]
  | .join left right _ => left.scans ++ right.scans
  | _ => []

/-- The tables from left to right. -/
def tables (p : Plan) : List String := p.scans.map (·.1)

/-- The conditions of the joins. -/
def joinConds : Plan → List Condition
  | .join left right conds => conds ++ (left.joinConds ++ right.joinConds)
  | _ => []

/-- Joins of scans, where the left columns of the conditions are on the left and the right columns on the right. -/
def Oriented : Plan → Prop
  | .scan _ _ _ _ => True
  | .join left right conds => left.Oriented ∧ right.Oriented ∧
      ∀ c ∈ conds, c.isRhsVal = false ∧ c.lhsCol.tabName ∈ left.tables ∧ c.rhsTab ∈ right.tables
  | _ => False

@[simp]
theorem tables_join (left right : Plan) (conds : List Condition) :
    (Plan.join left right conds).tables = left.tables ++ right.tables := List.map_append

@[simp]
theorem scans_join (left right : Plan) (conds : List Condition) :
    (Plan.join left right conds).scans = left.scans ++ right.scans := rfl

/-- A plan is the scan of a table. -/
def ScanOf (p : Plan) (tab : String) : Prop := ∃ index conds proj, p = .scan index tab conds proj

theorem ScanOf.scans {p : Plan} {tab : String} (h : p.ScanOf tab) : p.scans = [(tab, p)] := by
  obtain ⟨index, conds, proj, rfl⟩ := h
  rfl

theorem ScanOf.tables {p : Plan} {tab : String} (h : p.ScanOf tab) : p.tables = [tab] := by
  rw [Plan.tables, h.scans]
  rfl

theorem ScanOf.joinConds {p : Plan} {tab : String} (h : p.ScanOf tab) : p.joinConds = [] := by
  obtain ⟨index, conds, proj, rfl⟩ := h
  rfl

theorem ScanOf.oriented {p : Plan} {tab : String} (h : p.ScanOf tab) : p.Oriented := by
  obtain ⟨index, conds, proj, rfl⟩ := h
  trivial

end Plan

/-- The condition, or the condition with its sides exchanged. -/
def Turned (c d : Condition) : Prop := d = c ∨ d = swapCond c

/-- Every scan occurs once, and every condition is at one join. -/
structure JoinTree (scans : List (String × Plan)) (conds : List Condition) (plan : Plan) : Prop where
  oriented : plan.Oriented
  scans : plan.scans.Perm scans
  conds : ∃ turned, List.Forall₂ Turned conds turned ∧ plan.joinConds.Perm turned

theorem swapCond_col {c : Condition} (h : c.isRhsVal = false) :
    (swapCond c).isRhsVal = false ∧ (swapCond c).lhsCol.tabName = c.rhsTab ∧ (swapCond c).rhsTab = c.lhsCol.tabName := by
  obtain ⟨lhs, op, rhs⟩ := c
  cases rhs with
  | val v raw => cases h
  | col d => exact ⟨rfl, rfl, rfl⟩

/-! ### `push_conds` -/

section PushConds
variable {c : Condition}

/-- Which of the two tables of a condition are there: 1 for the left one, 2 for the right one, 3 for both. -/
def sides (c : Condition) (tables : List String) : Nat :=
  (if c.lhsCol.tabName ∈ tables then 1 else 0) + if c.rhsTab ∈ tables then 2 else 0

theorem sides_le {tables : List String} : sides c tables ≤ 3 := by
  unfold sides
  split <;> split <;> decide

theorem sides_append {l r : List String} (hdisj : ∀ tab ∈ l, tab ∉ r) : sides c (l ++ r) = sides c l + sides c r := by
  have hl := hdisj c.lhsCol.tabName
  have hr := hdisj c.rhsTab
  unfold sides
  by_cases h1 : c.lhsCol.tabName ∈ l <;> by_cases h2 : c.lhsCol.tabName ∈ r <;> by_cases h3 : c.rhsTab ∈ l <;>
    by_cases h4 : c.rhsTab ∈ r <;> simp_all

theorem sides_cases {tables : List String} (h0 : sides c tables ≠ 0) (h3 : sides c tables ≠ 3) :
    sides c tables = 1 ∧ c.lhsCol.tabName ∈ tables ∨ sides c tables = 2 ∧ c.rhsTab ∈ tables := by
  unfold sides at *
  by_cases hl : c.lhsCol.tabName ∈ tables <;> by_cases hr : c.rhsTab ∈ tables <;> simp_all

/-- The condition has been put at one join of the plan. -/
structure Pushed (c : Condition) (p p' : Plan) : Prop where
  oriented : p'.Oriented
  scans : p'.scans = p.scans
  conds : ∃ d, Turned c d ∧ p'.joinConds.Perm (d :: p.joinConds)

theorem Pushed.tables {p p' : Plan} (h : Pushed c p p') : p'.tables = p.tables := by
  rw [Plan.tables, h.scans, Plan.tables]

theorem Pushed.left {l l' r : Plan} {conds : List Condition} (h : Pushed c l l') (hp : (Plan.join l r conds).Oriented) :
    Pushed c (.join l r conds) (.join l' r conds) := by
  refine ⟨⟨h.oriented, hp.2.1, h.tables ▸ hp.2.2⟩, by rw [Plan.scans_join, h.scans, Plan.scans_join], ?_⟩
  obtain ⟨d, hd, hperm⟩ := h.conds
  exact ⟨d, hd, ((hperm.append_right _).append_left conds).trans List.perm_middle⟩

theorem Pushed.right {l r r' : Plan} {conds : List Condition} (h : Pushed c r r') (hp : (Plan.join l r conds).Oriented) :
    Pushed c (.join l r conds) (.join l r' conds) := by
  refine ⟨⟨hp.1, h.oriented, h.tables ▸ hp.2.2⟩, by rw [Plan.scans_join, h.scans, Plan.scans_join], ?_⟩
  obtain ⟨d, hd, hperm⟩ := h.conds
  refine ⟨d, hd, ?_⟩
  have hright : (l.joinConds ++ r'.joinConds).Perm (d :: (l.joinConds ++ r.joinConds)) :=
    (hperm.append_left _).trans List.perm_middle
  exact (hright.append_left conds).trans List.perm_middle

theorem Pushed.here {l r : Plan} {conds : List Condition} {d : Condition} (hp : (Plan.join l r conds).Oriented) (hd : Turned c d)
    (hcol : d.isRhsVal = false) (hl : d.lhsCol.tabName ∈ l.tables) (hr : d.rhsTab ∈ r.tables) :
    Pushed c (.join l r conds) (.join l r (conds ++ [d])) := by
  refine ⟨⟨hp.1, hp.2.1, fun e he => ?_⟩, rfl, d, hd, ?_⟩
  · rcases List.mem_append.mp he with he | he
    · exact hp.2.2 e he
    · rw [List.mem_singleton.mp he]
      exact ⟨hcol, hl, hr⟩
  · show ((conds ++ [d]) ++ (l.joinConds ++ r.joinConds)).Perm _
    rw [List.append_assoc]
    exact List.perm_middle

/-- The result tells which of the tables are below; with both the condition is put at a join, else nothing changes. -/
theorem pushConds_spec {p : Plan} (hc : c.TwoTable) (hp : p.Oriented) (hnodup : p.tables.Nodup) :
    (pushConds c p).1 = sides c p.tables ∧
      (sides c p.tables = 3 → Pushed c p (pushConds c p).2) ∧ (sides c p.tables ≠ 3 → (pushConds c p).2 = p) := by
  induction p with
  | scan index tab conds proj =>
    have hne := hc.2
    have hsides : sides c [tab] = if tab = c.lhsCol.tabName then 1 else if tab = c.rhsTab then 2 else 0 := by
      unfold sides
      simp only [List.mem_singleton]
      by_cases h1 : tab = c.lhsCol.tabName
      · subst h1
        simp [Ne.symm hne]
      · by_cases h2 : tab = c.rhsTab
        · subst h2
          simp [hne, Ne.symm hne]
        · simp [h1, h2, Ne.symm h1, Ne.symm h2]
    refine ⟨hsides.symm, fun h => ?_, fun _ => rfl⟩
    have h3 : (if tab = c.lhsCol.tabName then 1 else if tab = c.rhsTab then 2 else 0) = 3 := hsides.symm.trans h
    split at h3
    · cases h3
    · split at h3 <;> cases h3
  | join l r conds ihl ihr =>
    rw [Plan.tables_join] at hnodup
    obtain ⟨hnl, hnr, hdisj⟩ := List.nodup_append.mp hnodup
    obtain ⟨hl, hl3, hlkeep⟩ := ihl hp.1 hnl
    obtain ⟨hr, hr3, hrkeep⟩ := ihr hp.2.1 hnr
    have hdisj' : ∀ tab ∈ l.tables, tab ∉ r.tables := fun tab htl htr => hdisj tab htl tab htr rfl
    have hsum : sides c (Plan.join l r conds).tables = sides c l.tables + sides c r.tables := by
      rw [Plan.tables_join]
      exact sides_append hdisj'
    have hle : sides c (Plan.join l r conds).tables ≤ 3 := sides_le
    rw [pushConds]
    simp only [hl, hr]
    by_cases h1 : sides c l.tables = 3
    · rw [if_pos h1]
      have h : sides c (Plan.join l r conds).tables = 3 := by omega
      exact ⟨h.symm, fun _ => (hl3 h1).left hp, fun hne => absurd h hne⟩
    rw [if_neg h1]
    by_cases h2 : sides c r.tables = 3
    · rw [if_pos h2]
      have h : sides c (Plan.join l r conds).tables = 3 := by omega
      exact ⟨h.symm, fun _ => (hr3 h2).right hp, fun hne => absurd h hne⟩
    rw [if_neg h2]
    by_cases h3 : sides c l.tables = 0 ∨ sides c r.tables = 0
    · rw [if_pos h3]
      exact ⟨hsum.symm, fun h => (by omega), fun _ => rfl⟩
    rw [if_neg h3]
    have hboth : sides c (Plan.join l r conds).tables = 3 ∧
        Pushed c (.join l r conds) (.join l r (conds ++ [if sides c l.tables = 2 then swapCond c else c])) := by
      rcases sides_cases (fun h => h3 (Or.inl h)) h1 with ⟨hl1, hlmem⟩ | ⟨hl2, hlmem⟩
      · rcases sides_cases (fun h => h3 (Or.inr h)) h2 with ⟨-, hrmem⟩ | ⟨hr2, hrmem⟩
        · exact absurd hrmem (hdisj' _ hlmem)
        · rw [if_neg (by omega)]
          exact ⟨by omega, .here hp (Or.inl rfl) hc.1 hlmem hrmem⟩
      · rcases sides_cases (fun h => h3 (Or.inr h)) h2 with ⟨hr1, hrmem⟩ | ⟨-, hrmem⟩
        · obtain ⟨hcol, hlhs, hrhs⟩ := swapCond_col hc.1
          rw [if_pos hl2]
          exact ⟨by omega, .here hp (Or.inr rfl) hcol (hlhs ▸ hlmem) (hrhs ▸ hrmem)⟩
        · exact absurd hrmem (hdisj' _ hlmem)
    exact ⟨hboth.1.symm, fun _ => hboth.2, fun hne => absurd hboth.1 hne⟩
  | null => exact hp.elim
  | sort subplan selCols isDesc limit => exact hp.elim
  | group input groupBy having => exact hp.elim
  | agg input selectExprs => exact hp.elim
  | projection subplan selCols => exact hp.elim

end PushConds

/-! ### `pop_scan` -/

/-- The scans that are in the join. -/
def taken : List (String × Plan) → List Bool → List (String × Plan)
  | scan :: scans, joined :: scantbl => if joined then scan :: taken scans scantbl else taken scans scantbl
  | _, _ => []

section PopScan
variable {scans : List (String × Plan)} {scantbl : List Bool} {scan : String × Plan} {i : Nat}

theorem mem_taken (hscan : scans[i]? = some scan) (hjoined : scantbl[i]? = some true) : scan ∈ taken scans scantbl := by
  induction scans generalizing scantbl i with
  | nil => cases hscan
  | cons e scans ih =>
    cases scantbl with
    | nil => cases hjoined
    | cons joined scantbl =>
      rw [taken]
      cases i with
      | zero =>
        cases hscan
        cases hjoined
        exact List.mem_cons_self ..
      | succ i =>
        have := ih hscan hjoined
        split
        · exact List.mem_cons_of_mem e this
        · exact this

theorem taken_set (hscan : scans[i]? = some scan) (hleft : scantbl[i]? = some false) :
    (taken scans (scantbl.set i true)).Perm (scan :: taken scans scantbl) := by
  induction scans generalizing scantbl i with
  | nil => cases hscan
  | cons e scans ih =>
    cases scantbl with
    | nil => cases hleft
    | cons joined scantbl =>
      cases i with
      | zero =>
        cases hscan
        cases hleft
        exact List.Perm.refl _
      | succ i =>
        have := ih hscan hleft
        rw [List.set_cons_succ, taken, taken]
        split
        · exact (this.cons e).trans (List.Perm.swap ..)
        · exact this

/-- The bookkeeping of a join that has these scans in it. -/
structure Tracks (scans used : List (String × Plan)) (s : JoinState) : Prop where
  length : s.scantbl.length = scans.length
  perm : used.Perm (taken scans s.scantbl)
  joined : ∀ tab ∈ scans.map (·.1), tab ∈ s.joinedTables ↔ tab ∈ used.map (·.1)

theorem Tracks.popScan {used : List (String × Plan)} {s : JoinState} {tab : String} (h : Tracks scans used s)
    (htab : tab ∈ scans.map (·.1)) (hnew : tab ∉ s.joinedTables) :
    ∃ p, (tab, p) ∈ scans ∧ (popScan scans tab s).1 = some p ∧ (popScan scans tab s).2.plan = s.plan ∧
      (popScan scans tab s).2.joinedTables = s.joinedTables ++ [tab] ∧
      Tracks scans ((tab, p) :: used) (popScan scans tab s).2 := by
  obtain ⟨found, hfound, hname⟩ := List.mem_map.mp htab
  cases hi : scans.findIdx? (·.1 = tab) with
  | none =>
    have := List.findIdx?_eq_none_iff.mp hi found hfound
    exact absurd hname (of_decide_eq_false this)
  | some i =>
    obtain ⟨hlt, hname', -⟩ := List.findIdx?_eq_some_iff_getElem.mp hi
    have hname' : scans[i].1 = tab := of_decide_eq_true hname'
    have hscan : scans[i]? = some scans[i] := List.getElem?_eq_getElem hlt
    have hlt' : i < s.scantbl.length := h.length ▸ hlt
    -- a scan that is in the join already would have its table among the joined ones
    have hleft : s.scantbl[i]? = some false := by
      rw [List.getElem?_eq_getElem hlt']
      cases hb : s.scantbl[i] with
      | false => rfl
      | true =>
        have hmem := mem_taken hscan ((List.getElem?_eq_getElem hlt').trans (congrArg some hb))
        have hmem := List.mem_map_of_mem (f := fun scan : String × Plan => scan.1) (h.perm.mem_iff.mpr hmem)
        exact absurd ((h.joined tab htab).mpr (hname' ▸ hmem)) hnew
    unfold Sql.popScan
    rw [hi]
    refine ⟨scans[i].2, ?_, congrArg (Option.map fun scan : String × Plan => scan.2) hscan, rfl, rfl, ?_⟩
    · rw [← hname']
      exact List.getElem_mem hlt
    · refine ⟨by rw [List.length_set]; exact h.length, ?_, fun t ht => ?_⟩
      · refine ((h.perm.cons _).trans ?_).trans (taken_set hscan hleft).symm
        rw [← hname']
      · rw [List.mem_append, List.mem_singleton, List.map_cons, List.mem_cons, h.joined t ht, or_comm]

end PopScan

/-! ### The joins of the conditions -/

section Joining
variable {scans : List (String × Plan)} {done : List Condition} {c : Condition} {s : JoinState}

/-- The join so far: a tree with the scans that are taken, and with the conditions that are done. -/
structure Joining (scans : List (String × Plan)) (done : List Condition) (s : JoinState) : Prop where
  oriented : s.plan.Oriented
  tracks : Tracks scans s.plan.scans s
  conds : ∃ turned, List.Forall₂ Turned done turned ∧ s.plan.joinConds.Perm turned

/-- One more condition is at a join. -/
theorem turned_snoc {plan plan' : Plan} {d : Condition} (hd : Turned c d)
    (hplan : ∃ turned, List.Forall₂ Turned done turned ∧ plan.joinConds.Perm turned)
    (hperm : plan'.joinConds.Perm (d :: plan.joinConds)) :
    ∃ turned, List.Forall₂ Turned (done ++ [c]) turned ∧ plan'.joinConds.Perm turned := by
  obtain ⟨turned, hall, hturned⟩ := hplan
  refine ⟨turned ++ [d], List.rel_append hall (.cons hd .nil), ?_⟩
  exact (hperm.trans (hturned.cons d)).trans (List.perm_append_singleton d turned).symm

/-- The tables of a condition that compares columns of two. -/
structure Joins (scans : List (String × Plan)) (c : Condition) : Prop where
  two : c.TwoTable
  lhs : c.lhsCol.tabName ∈ scans.map (·.1)
  rhs : c.rhsTab ∈ scans.map (·.1)

theorem Tracks.of_perm {used used' : List (String × Plan)} (h : Tracks scans used s) (hperm : used'.Perm used) :
    Tracks scans used' s :=
  ⟨h.length, hperm.trans h.perm, fun tab htab => (h.joined tab htab).trans (hperm.map _).mem_iff.symm⟩

theorem Tracks.with_plan {used : List (String × Plan)} (h : Tracks scans used s) (plan : Plan) :
    Tracks scans used { s with plan := plan } :=
  ⟨h.length, h.perm, h.joined⟩

/-- The first condition joins its two scans. -/
theorem firstJoin_joining (hscans : ∀ scan ∈ scans, scan.2.ScanOf scan.1) {start : JoinState} (hstart : Tracks scans [] start) (hc : Joins scans c) :
    Joining scans [c] (firstJoin scans start c) := by
  have hnew : c.lhsCol.tabName ∉ start.joinedTables := fun h => (by cases (hstart.joined _ hc.lhs).mp h)
  obtain ⟨l, hl, hpop, -, hjoined, htracks⟩ := hstart.popScan hc.lhs hnew
  have hnew' : c.rhsTab ∉ (popScan scans c.lhsCol.tabName start).2.joinedTables := by
    intro h
    have := (htracks.joined _ hc.rhs).mp h
    exact hc.two.2 (List.mem_singleton.mp this).symm
  obtain ⟨r, hr, hpop', -, -, htracks'⟩ := htracks.popScan hc.rhs hnew'
  have hl := hscans _ hl
  have hr := hscans _ hr
  unfold firstJoin
  simp only [hpop, hpop', Option.getD_some]
  refine ⟨⟨hl.oriented, hr.oriented, fun d hd => ?_⟩, ?_, ⟨[c], .cons (Or.inl rfl) .nil, ?_⟩⟩
  · rw [List.mem_singleton.mp hd, hl.tables, hr.tables]
    exact ⟨hc.two.1, List.mem_singleton_self _, List.mem_singleton_self _⟩
  · refine (htracks'.of_perm ?_).with_plan _
    rw [Plan.scans_join, hl.scans, hr.scans]
    exact List.Perm.swap ..
  · show ([c] ++ (l.joinConds ++ r.joinConds)).Perm [c]
    rw [hl.joinConds, hr.joinConds]
    exact List.Perm.refl _

theorem Joining.nodup (h : Joining scans done s) (hnodup : (scans.map (·.1)).Nodup) : s.plan.tables.Nodup := by
  have hsub : ∀ (l : List (String × Plan)) (scantbl : List Bool), (taken l scantbl).Sublist l := by
    intro l
    induction l with
    | nil => exact fun _ => List.nil_sublist _
    | cons e l ih =>
      intro scantbl
      cases scantbl with
      | nil => exact List.nil_sublist _
      | cons joined scantbl =>
        rw [taken]
        split
        · exact (ih scantbl).cons_cons e
        · exact (ih scantbl).cons e
  exact (h.tracks.perm.map _).nodup_iff.mpr (hnodup.sublist ((hsub scans s.scantbl).map _))

theorem Joining.mem_tables (h : Joining scans done s) {tab : String} (htab : tab ∈ scans.map (·.1)) :
    tab ∈ s.joinedTables ↔ tab ∈ s.plan.tables := h.tracks.joined tab htab

/-- The scan of a table is joined to what is there by a condition that has its right column there. -/
theorem Joining.extend (h : Joining scans done s) {s' : JoinState} {tab : String} {p : Plan} {d : Condition}
    (hp : p.ScanOf tab) (htracks : Tracks scans ((tab, p) :: s.plan.scans) s') (hd : Turned c d) (hcol : d.isRhsVal = false)
    (hlhs : d.lhsCol.tabName = tab) (hrhs : d.rhsTab ∈ s.plan.tables) :
    Joining scans (done ++ [c]) { s' with plan := .join p s.plan [d] } := by
  refine ⟨⟨hp.oriented, h.oriented, fun e he => ?_⟩, ?_, turned_snoc hd h.conds ?_⟩
  · rw [List.mem_singleton.mp he, hp.tables]
    exact ⟨hcol, List.mem_singleton.mpr hlhs, hrhs⟩
  · refine (htracks.of_perm ?_).with_plan _
    rw [Plan.scans_join, hp.scans]
    exact List.Perm.refl _
  · show ([d] ++ (p.joinConds ++ s.plan.joinConds)).Perm _
    rw [hp.joinConds]
    exact List.Perm.refl _

/-- Every other condition is put at a join with its sides where they belong. -/
theorem nextJoin_joining (hscans : ∀ scan ∈ scans, scan.2.ScanOf scan.1) (hnodup : (scans.map (·.1)).Nodup)
    (h : Joining scans done s) (hc : Joins scans c) : Joining scans (done ++ [c]) (nextJoin scans s c) := by
  have hne := hc.two.2
  unfold nextJoin
  by_cases hl : c.lhsCol.tabName ∈ s.joinedTables
  · have hlmem := (h.mem_tables hc.lhs).mp hl
    simp only [if_pos hl]
    by_cases hr : c.rhsTab ∈ s.joinedTables
    · -- both tables are there
      have hrmem := (h.mem_tables hc.rhs).mp hr
      have hboth : sides c s.plan.tables = 3 := by
        unfold sides
        rw [if_pos hlmem, if_pos hrmem]
      have hpushed := (pushConds_spec hc.two h.oriented (h.nodup hnodup)).2.1 hboth
      obtain ⟨d, hd, hperm⟩ := hpushed.conds
      simp only [hr, not_true_eq_false, if_false]
      exact ⟨hpushed.oriented, (h.tracks.of_perm (.of_eq hpushed.scans)).with_plan _, turned_snoc hd h.conds hperm⟩
    · -- the right table is new: the condition is turned
      obtain ⟨p, hp, hpop, hplan, -, htracks⟩ := h.tracks.popScan hc.rhs hr
      obtain ⟨hcol, hlhs, hrhs⟩ := swapCond_col hc.two.1
      simp only [hr, not_false_eq_true, if_true, hpop, hplan, Option.getD_some]
      exact h.extend (hscans _ hp) htracks (Or.inr rfl) hcol hlhs (hrhs ▸ hlmem)
  · obtain ⟨l, hlmem, hpop, hplan, hjoined, htracks⟩ := h.tracks.popScan hc.lhs hl
    simp only [if_neg hl, hpop, hjoined]
    by_cases hr : c.rhsTab ∈ s.joinedTables
    · -- the left table is new
      have hrmem := (h.mem_tables hc.rhs).mp hr
      have hr' : c.rhsTab ∈ s.joinedTables ++ [c.lhsCol.tabName] := List.mem_append_left _ hr
      simp only [hr', not_true_eq_false, if_false, hplan, Option.getD_some]
      exact h.extend (hscans _ hlmem) htracks (Or.inl rfl) hc.two.1 rfl hrmem
    · -- both are new: they are joined first
      have hr' : c.rhsTab ∉ s.joinedTables ++ [c.lhsCol.tabName] := by
        rw [List.mem_append, List.mem_singleton, not_or]
        exact ⟨hr, Ne.symm hne⟩
      obtain ⟨r, hrmem, hpop', hplan', -, htracks'⟩ := htracks.popScan hc.rhs (hjoined ▸ hr')
      have hl := hscans _ hlmem
      have hr := hscans _ hrmem
      simp only [hr', not_false_eq_true, if_true, hpop', hplan', hplan]
      refine ⟨⟨⟨hl.oriented, hr.oriented, fun d hd => ?_⟩, h.oriented, fun d hd => (by cases hd)⟩, ?_, turned_snoc (Or.inl rfl) h.conds ?_⟩
      · rw [List.mem_singleton.mp hd, hl.tables, hr.tables]
        exact ⟨hc.two.1, List.mem_singleton_self _, List.mem_singleton_self _⟩
      · refine (htracks'.of_perm ?_).with_plan _
        rw [Plan.scans_join, Plan.scans_join, hl.scans, hr.scans]
        exact List.Perm.swap ..
      · show ([] ++ (([c] ++ (l.joinConds ++ r.joinConds)) ++ s.plan.joinConds)).Perm _
        rw [hl.joinConds, hr.joinConds]
        exact List.Perm.refl _

/-- The joins of all conditions. -/
theorem foldl_nextJoin_joining (hscans : ∀ scan ∈ scans, scan.2.ScanOf scan.1) (hnodup : (scans.map (·.1)).Nodup)
    (h : Joining scans done s) {conds : List Condition} (hconds : ∀ c ∈ conds, Joins scans c) :
    Joining scans (done ++ conds) (conds.foldl (nextJoin scans) s) := by
  induction conds generalizing done s with
  | nil =>
    rw [List.append_nil]
    exact h
  | cons c conds ih =>
    rw [List.append_cons]
    exact ih (nextJoin_joining hscans hnodup h (hconds c (List.mem_cons_self ..)))
      fun d hd => hconds d (List.mem_cons_of_mem c hd)

end Joining

/-! ### The tables that no condition joins -/

section JoinRest
variable {scans : List (String × Plan)} {plan : Plan} {scantbl : List Bool}

theorem joinRest_oriented (hscans : ∀ scan ∈ scans, scan.2.ScanOf scan.1) (h : plan.Oriented) :
    (joinRest plan scans scantbl).Oriented ∧ (joinRest plan scans scantbl).joinConds = plan.joinConds := by
  induction scans generalizing plan scantbl with
  | nil => exact ⟨h, rfl⟩
  | cons scan scans ih =>
    cases scantbl with
    | nil => exact ⟨h, rfl⟩
    | cons joined scantbl =>
      have hscan := hscans scan (List.mem_cons_self ..)
      have hrest := fun s hs => hscans s (List.mem_cons_of_mem scan hs)
      rw [joinRest]
      split
      · exact ih hrest h
      · have := @ih (.join scan.2 plan []) scantbl hrest ⟨hscan.oriented, h, fun c hc => (by cases hc)⟩
        refine ⟨this.1, this.2.trans ?_⟩
        show [] ++ (scan.2.joinConds ++ plan.joinConds) = plan.joinConds
        rw [hscan.joinConds]
        rfl

theorem joinRest_scans (hscans : ∀ scan ∈ scans, scan.2.ScanOf scan.1) (hlength : scantbl.length = scans.length) :
    ((joinRest plan scans scantbl).scans ++ taken scans scantbl).Perm (scans ++ plan.scans) := by
  induction scans generalizing plan scantbl with
  | nil =>
    rw [List.length_eq_zero_iff.mp hlength]
    exact .of_eq (List.append_nil _)
  | cons scan scans ih =>
    cases scantbl with
    | nil => cases hlength
    | cons joined scantbl =>
      have hscan := hscans scan (List.mem_cons_self ..)
      have hrest := fun s hs => hscans s (List.mem_cons_of_mem scan hs)
      have hlength' : scantbl.length = scans.length := Nat.succ.inj hlength
      rw [joinRest, taken]
      cases joined with
      | true => exact List.perm_middle.trans ((ih hrest hlength').cons scan)
      | false =>
        refine (ih hrest hlength').trans ?_
        rw [if_neg Bool.false_ne_true, Plan.scans_join, hscan.scans]
        exact List.perm_middle

/-- With the scans that are left the tree has every scan once. -/
theorem joinRest_perm (hscans : ∀ scan ∈ scans, scan.2.ScanOf scan.1) (hlength : scantbl.length = scans.length)
    (hplan : plan.scans.Perm (taken scans scantbl)) : (joinRest plan scans scantbl).scans.Perm scans :=
  (List.perm_append_right_iff _).mp ((joinRest_scans hscans hlength).trans (hplan.append_left scans))

end JoinRest

/-! ### `make_one_rel` -/

section MakeOneRel
variable {db : Db}

theorem getTable_ok {tab : String} (h : (db.table? tab).isSome) : tab ≠ "" ∧ ∃ tabMeta, getTable db.catalog tab = .ok tabMeta := by
  obtain ⟨t, ht⟩ := Option.isSome_iff_exists.mp h
  have hname : t.tab.name = tab := by simpa using List.find?_some ht
  refine ⟨hname ▸ t.name_ne, ?_⟩
  cases hfind : db.catalog.tab? tab with
  | some tabMeta => exact ⟨tabMeta, by rw [getTable, hfind]⟩
  | none =>
    have := List.find?_eq_none.mp hfind t.tab (List.mem_map_of_mem (List.mem_of_find?_eq_some ht))
    exact absurd (decide_eq_true hname) this

theorem getIndexCols_nil (tab : Catalog.TabMeta) : getIndexCols tab [] = none := by
  have hnone : optimizeTpccIndexSelection tab.name [] = none := by
    unfold optimizeTpccIndexSelection
    rw [Option.map_eq_none_iff, List.find?_eq_none]
    intro e he h
    have hcols : ∀ e ∈ tpccIndexes, e.2.1 ≠ [] := by decide
    exact hcols e he (List.eq_nil_iff_forall_not_mem.mpr fun c hc => List.not_mem_nil ((of_decide_eq_true h).2 c hc))
  unfold getIndexCols
  simp only [List.filter_nil, List.map_nil, hnone]
  rfl

/-- The scan of a whole table. -/
def scanPlan (usage : String → List TabCol) (tab : String) : String × Plan := (tab, .scan none tab [] (usage tab))

/-- Conditions on two tables stay out of the scans. -/
theorem makeScans_twoTable (usage : String → List TabCol) {tables : List String} {conds : List Condition}
    (htables : ∀ tab ∈ tables, (db.table? tab).isSome) (hconds : ∀ c ∈ conds, c.TwoTable) :
    makeScans db.catalog usage tables conds = .ok (tables.map (scanPlan usage), conds) := by
  induction tables with
  | nil => rfl
  | cons tab tabs ih =>
    obtain ⟨-, tabMeta, htab⟩ := getTable_ok (htables tab (List.mem_cons_self ..))
    have hpop : ∀ c ∈ conds, isPopped tab c = false := fun c hc => by
      rw [← Bool.not_eq_true, isPopped_iff]
      exact fun h => Condition.twoTable_iff.mp (hconds c hc) (h.imp_left And.left)
    have hpopped : conds.filter (isPopped tab) = [] :=
      List.filter_eq_nil_iff.mpr fun c hc h => (by rw [hpop c hc] at h; cases h)
    have hleft : (conds.filter fun c => !isPopped tab c) = conds :=
      List.filter_eq_self.mpr fun c hc => (by rw [hpop c hc]; rfl)
    rw [makeScans, htab, ok_bind, hleft, hpopped, getIndexCols_nil, ih fun t ht => htables t (List.mem_cons_of_mem tab ht), ok_bind]
    rfl

theorem taken_false (scans : List (String × Plan)) : taken scans (scans.map fun _ => false) = [] := by
  induction scans with
  | nil => rfl
  | cons scan scans ih => exact ih

/-- Before the first join nothing is taken. -/
theorem tracks_start {scans : List (String × Plan)} (hne : "" ∉ scans.map (·.1)) (plan : Plan) :
    Tracks scans [] ⟨plan, scans.map fun _ => false, scans.map fun _ => ""⟩ := by
  refine ⟨List.length_map _, .of_eq (taken_false scans).symm, fun tab htab => ⟨fun h => ?_, fun h => (by cases h)⟩⟩
  obtain ⟨_, -, rfl⟩ := List.mem_map.mp h
  exact absurd htab hne

/-- `make_one_rel` on different tables and conditions that compare columns of two of them, in any order and number. -/
theorem makeOneRel_joinTree {q : Query} (hne : q.tables ≠ []) (hnodup : q.tables.Nodup)
    (htables : ∀ tab ∈ q.tables, (db.table? tab).isSome)
    (hconds : ∀ c ∈ q.conds, c.TwoTable ∧ c.lhsCol.tabName ∈ q.tables ∧ c.rhsTab ∈ q.tables) :
    ∃ plan, makeOneRel db.catalog true q = .ok plan ∧ JoinTree (q.tables.map (scanPlan (colUsage q))) q.conds plan := by
  have hmake := makeScans_twoTable (colUsage q) htables fun c hc => (hconds c hc).1
  have hnames : (q.tables.map (scanPlan (colUsage q))).map (·.1) = q.tables := by
    rw [List.map_map]
    exact List.map_id _
  have hscans : ∀ scan ∈ q.tables.map (scanPlan (colUsage q)), scan.2.ScanOf scan.1 := by
    intro scan hscan
    obtain ⟨tab, -, rfl⟩ := List.mem_map.mp hscan
    exact ⟨none, [], colUsage q tab, rfl⟩
  generalize q.tables.map (scanPlan (colUsage q)) = scans at *
  have hempty : "" ∉ scans.map (·.1) := fun h => (getTable_ok (htables "" (hnames ▸ h))).1 rfl
  have hjoins : ∀ c ∈ q.conds, Joins scans c := fun c hc => ⟨(hconds c hc).1, hnames ▸ (hconds c hc).2.1, hnames ▸ (hconds c hc).2.2⟩
  unfold makeOneRel
  rw [hmake]
  cases hq : q.conds with
  | nil =>
    cases hs : scans with
    | nil => exact absurd (hnames.symm.trans (congrArg _ hs)) hne
    | cons scan rest =>
      subst hs
      have hscan := hscans scan (List.mem_cons_self ..)
      have hlength : (true :: rest.map fun _ => false).length = (scan :: rest).length :=
        congrArg Nat.succ (List.length_map _)
      have htaken : taken (scan :: rest) (true :: rest.map fun _ => false) = [scan] := congrArg (scan :: ·) (taken_false rest)
      obtain ⟨horiented, hconds⟩ :=
        @joinRest_oriented _ _ (true :: rest.map fun _ => false) hscans hscan.oriented
      refine ⟨_, rfl, horiented, joinRest_perm hscans hlength ?_, [], .nil, ?_⟩
      · exact .of_eq (hscan.scans.trans htaken.symm)
      · exact .of_eq (hconds.trans hscan.joinConds)
  | cons c conds =>
    rw [hq] at hjoins
    have hfirst := firstJoin_joining hscans (tracks_start hempty (.join .null .null [])) (hjoins c (List.mem_cons_self ..))
    have hall := foldl_nextJoin_joining hscans (hnames ▸ hnodup) hfirst fun d hd => hjoins d (List.mem_cons_of_mem c hd)
    obtain ⟨horiented, hconds⟩ := joinRest_oriented hscans hall.oriented
    refine ⟨_, rfl, horiented, joinRest_perm hscans hall.tracks.length hall.tracks.perm, ?_⟩
    rw [hconds]
    exact hall.conds

end MakeOneRel

/-! ### Small tables -/

theorem numbers_length (rows : List Int) : ∀ s ∈ rows.zipIdx.map fun row => (⟨⟨1, row.2⟩, putInt row.1, none⟩ : Slot),
    s.bytes.length = recordSize [⟨"", "x", .int, 4, 0, false⟩] := by
  intro s hs
  obtain ⟨row, -, rfl⟩ := List.mem_map.mp hs
  rfl

theorem numbers_named (name : String) : ∀ c ∈ [(⟨name, "x", .int, 4, 0, false⟩ : Catalog.ColMeta)], c.tabName = name :=
  fun _ hc => congrArg Catalog.ColMeta.tabName (List.mem_singleton.mp hc)

/-- A table with one INT column `x`. -/
def numbers (name : String) (hname : name ≠ "") (rows : List Int) : Table where
  tab := ⟨name, [⟨name, "x", .int, 4, 0, false⟩], []⟩
  slots := rows.zipIdx.map fun row => ⟨⟨1, row.2⟩, putInt row.1, none⟩
  range _ := none
  name_ne := hname
  cols_ne := List.cons_ne_nil _ _
  laid := ⟨rfl, trivial⟩
  named := numbers_named name
  distinct := List.nodup_singleton _
  sized := numbers_length rows

theorem a_ne : "a" ≠ "" := by decide
theorem b_ne : "b" ≠ "" := by decide
theorem c_ne : "c" ≠ "" := by decide

/-- The tables `a`, `b` and `c` of numbers. -/
def threeTables (a b c : List Int) : Db := ⟨[numbers "a" a_ne a, numbers "b" b_ne b, numbers "c" c_ne c], none⟩

/-- A comparison of the columns `x` of two tables. -/
def onX (left : String) (op : CompOp) (right : String) : Condition := ⟨⟨left, "x"⟩, op, .col ⟨right, "x"⟩⟩

/-- A query for all columns of the tables. -/
def selectStar (tables : List String) (conds : List Condition) : Query :=
  ⟨tables, tables.map (⟨·, "x"⟩), conds, [], [], none, [], -1, false⟩

theorem makeOneRel_joinTree_three : ∃ plan, makeOneRel (threeTables [] [] []).catalog true
      (selectStar ["a", "b", "c"] [onX "b" .lt "c", onX "b" .ge "a", onX "c" .ne "a"]) = .ok plan ∧
    JoinTree (["a", "b", "c"].map (scanPlan (colUsage
      (selectStar ["a", "b", "c"] [onX "b" .lt "c", onX "b" .ge "a", onX "c" .ne "a"]))))
      [onX "b" .lt "c", onX "b" .ge "a", onX "c" .ne "a"] plan :=
  @makeOneRel_joinTree (threeTables [] [] [])
    (selectStar ["a", "b", "c"] [onX "b" .lt "c", onX "b" .ge "a", onX "c" .ne "a"])
    (by decide) (by decide) (by decide) (by decide)

end Rmdb.Sql
