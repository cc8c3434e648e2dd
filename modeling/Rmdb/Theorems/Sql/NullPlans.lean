import Rmdb.Theorems.Sql.NullReads
import Mathlib.Data.List.Sort

/-! When the tree of a plan comes to a null pointer. The plan of a SELECT statement is a projection, over an aggregation and a
grouping where there are any, over a sort where there is one, over scans and joins. -/

namespace Rmdb.Sql
open Outcomes

/-! ### What a plan asks for -/

section Asks
variable (stl : Stl) (db : Db)

/-- The columns and records of a sequential scan without conditions. -/
def Plan.bareRows? : Plan → Option (List Catalog.ColMeta × List (Option Bytes))
  | .scan none tab [] proj => (db.table? tab).map fun t => ((scanOut t.tab.cols proj).cols, bareRows db t proj)
  | _ => none

/-- What such a scan, or a sort over one, hands out. -/
def Plan.feed? : Plan → Option Feed
  | .sort subplan selCols _ limit => (subplan.bareRows? db).map fun b => sortFeed stl selCols limit b.1 b.2
  | p => (p.bareRows? db).map fun b => .rows false b.1 b.2

/-- The plan comes to use a missing record of a scan. -/
def Plan.AsksNull : Plan → Prop
  | .projection subplan _ => subplan.AsksNull
  | .agg (.group input groupBy _) _ => ∃ feed, input.feed? stl db = some feed ∧ feed.GroupAsks groupBy
  | .agg input selectExprs => ∃ feed, input.feed? stl db = some feed ∧ feed.AggAsks selectExprs
  | p => ∃ feed, p.feed? stl db = some feed ∧ feed.Missing

end Asks

/-! ### Scans and joins -/

/-- The plan consists of scans and joins. -/
def Plan.Joined : Plan → Prop
  | .null => True
  | .scan _ _ _ _ => True
  | .join left right _ => left.Joined ∧ right.Joined
  | _ => False

section MakeOneRel
variable {db : Catalog.DbMeta} {scans : List (String × Plan)} {c : Condition}

theorem pushConds_joined {p : Plan} (hp : p.Joined) : (pushConds c p).2.Joined := by
  induction p with
  | null => exact hp
  | scan index tab conds proj => exact hp
  | join left right conds ihl ihr =>
    have hl := ihl hp.1
    have hr := ihr hp.2
    rw [pushConds]
    simp only
    split
    · exact ⟨hl, hp.2⟩
    · split
      · exact ⟨hp.1, hr⟩
      · split
        · exact hp
        · exact hp
  | sort subplan selCols isDesc limit => exact hp.elim
  | group input groupBy having => exact hp.elim
  | agg input selectExprs => exact hp.elim
  | projection subplan selCols => exact hp.elim

theorem makeScans_joined {usage : String → List TabCol} {tabs : List String} {conds : List Condition}
    {p : List (String × Plan) × List Condition} (h : makeScans db usage tabs conds = .ok p) : ∀ scan ∈ p.1, scan.2.Joined := by
  induction tabs generalizing conds p with
  | nil =>
    cases h
    intro scan hscan
    cases hscan
  | cons tab tabs ih =>
    rw [makeScans] at h
    obtain ⟨tabMeta, -, h⟩ := ok_of_bind h
    obtain ⟨q, hq, h⟩ := ok_of_bind h
    cases h
    exact List.forall_mem_cons.mpr ⟨trivial, ih hq⟩

theorem popScan_joined (hscans : ∀ scan ∈ scans, scan.2.Joined) (table : String) (s : JoinState) :
    ((popScan scans table s).1.getD .null).Joined ∧ (popScan scans table s).2.plan = s.plan := by
  unfold popScan
  split
  · exact ⟨trivial, rfl⟩
  · next i _ =>
    refine ⟨?_, rfl⟩
    cases hi : scans[i]? with
    | none => trivial
    | some scan => exact hscans scan (List.mem_of_getElem? hi)

theorem firstJoin_joined (hscans : ∀ scan ∈ scans, scan.2.Joined) (s : JoinState) : (firstJoin scans s c).plan.Joined :=
  ⟨(popScan_joined hscans _ _).1, (popScan_joined hscans _ _).1⟩

theorem nextJoin_joined (hscans : ∀ scan ∈ scans, scan.2.Joined) {s : JoinState} (hs : s.plan.Joined) :
    (nextJoin scans s c).plan.Joined := by
  have hnone : ∀ s : JoinState, (Option.getD none Plan.null).Joined ∧ s.plan = s.plan := fun _ => ⟨trivial, rfl⟩
  unfold nextJoin
  have hl : ∃ p : Option Plan × JoinState, p = (if c.lhsCol.tabName ∈ s.joinedTables then (none, s)
      else popScan scans c.lhsCol.tabName s) ∧ (p.1.getD .null).Joined ∧ p.2.plan = s.plan := by
    split
    · exact ⟨_, rfl, hnone s⟩
    · exact ⟨_, rfl, popScan_joined hscans _ s⟩
  obtain ⟨⟨left, s'⟩, hp, hleft, hs'⟩ := hl
  rw [← hp]
  have hr : ∃ p : Option Plan × JoinState, p = (if c.rhsTab ∉ s'.joinedTables then popScan scans c.rhsTab s' else (none, s')) ∧
      (p.1.getD .null).Joined ∧ p.2.plan = s'.plan := by
    split
    · exact ⟨_, rfl, popScan_joined hscans _ s'⟩
    · exact ⟨_, rfl, hnone s'⟩
  obtain ⟨⟨right, s''⟩, hq, hright, hs''⟩ := hr
  have hs : s''.plan.Joined := hs''.trans hs' ▸ hs
  simp only
  rw [← hq]
  cases left with
  | none =>
    cases right with
    | none => exact pushConds_joined hs
    | some right =>
      simp only
      split
      · exact ⟨hright, hs⟩
      · exact ⟨trivial, hs⟩
  | some left =>
    cases right with
    | none =>
      simp only
      split
      · exact ⟨trivial, hs⟩
      · exact ⟨hleft, hs⟩
    | some right => exact ⟨⟨hleft, hright⟩, hs⟩

theorem joinRest_joined {plan : Plan} {scantbl : List Bool} (hscans : ∀ scan ∈ scans, scan.2.Joined) (h : plan.Joined) :
    (joinRest plan scans scantbl).Joined := by
  induction scans generalizing plan scantbl with
  | nil => exact h
  | cons scan scans ih =>
    cases scantbl with
    | nil => exact h
    | cons joined scantbl =>
      rw [joinRest]
      refine ih (fun s hs => hscans s (List.mem_cons_of_mem scan hs)) ?_
      split
      · exact h
      · exact ⟨hscans scan (List.mem_cons_self ..), h⟩

theorem makeOneRel_joined {joinEnabled : Bool} {q : Query} {plan : Plan} (h : makeOneRel db joinEnabled q = .ok plan) :
    plan.Joined := by
  unfold makeOneRel at h
  obtain ⟨⟨scans, conds⟩, hscans, h⟩ := ok_of_bind h
  have hscans := makeScans_joined hscans
  cases conds with
  | nil =>
    cases h
    refine joinRest_joined hscans ?_
    cases scans with
    | nil => trivial
    | cons scan scans => exact hscans scan (List.mem_cons_self ..)
  | cons c conds =>
    simp only at h
    split at h
    · cases h
      refine joinRest_joined hscans ?_
      have hjoin : ∀ (cs : List Condition) (s : JoinState), s.plan.Joined → (cs.foldl (nextJoin scans) s).plan.Joined := by
        intro cs
        induction cs with
        | nil => exact fun s hs => hs
        | cons c cs ih => exact fun s hs => ih _ (nextJoin_joined hscans hs)
      exact hjoin conds _ (firstJoin_joined hscans _)
    · cases h

end MakeOneRel

/-! ### What stands below a grouping -/

section Feeds
variable {stl : Stl} {db : Db} {p : Plan} {e : Executor}

theorem Plan.Joined.nullFree (hp : p.Joined) : NullFree db true p := by
  induction p with
  | null => trivial
  | scan index tab conds proj =>
    cases index with
    | none => exact Or.inl rfl
    | some cols => trivial
  | join left right conds ihl ihr => exact ⟨ihl hp.1, ihr hp.2⟩
  | sort subplan selCols isDesc limit => exact hp.elim
  | group input groupBy having => exact hp.elim
  | agg input selectExprs => exact hp.elim
  | projection subplan selCols => exact hp.elim

/-- Scans and joins keep the protocol, except for a sequential scan without conditions that stands alone. -/
theorem joined_cases (hp : p.Joined) (he : convertPlanExecutor stl db p = .ok e) :
    (∃ t tab proj, p = .scan none tab [] proj ∧ db.table? tab = some t ∧ e = seqScan db t [] proj) ∨
      p.bareRows? db = none ∧ e.Steady := by
  cases p with
  | null => cases he
  | scan index tab conds proj =>
    rcases convertPlanExecutor_scan he with ⟨t, ht, ⟨rfl, rfl⟩ | ⟨cols, rfl, rfl⟩⟩
    · cases conds with
      | nil => exact Or.inl ⟨t, tab, proj, rfl, ht, rfl⟩
      | cons c cs => exact Or.inr ⟨rfl, seqScan_steady (Or.inl (List.cons_ne_nil c cs))⟩
    · exact Or.inr ⟨rfl, indexScan_steady⟩
  | join left right conds =>
    have hfree : NullFree db false (.join left right conds) := ⟨hp.1.nullFree, hp.2.nullFree⟩
    exact Or.inr ⟨rfl, (convertPlanExecutor_sound _ hfree he).2 rfl⟩
  | sort subplan selCols isDesc limit => exact hp.elim
  | group input groupBy having => exact hp.elim
  | agg input selectExprs => exact hp.elim
  | projection subplan selCols => exact hp.elim

/-- Scans and joins, or a sort over them. -/
def Plan.Base (p : Plan) : Prop :=
  p.Joined ∨ ∃ subplan selCols isDesc limit, p = .sort subplan selCols isDesc limit ∧ subplan.Joined ∧
    isDesc.length = selCols.length

theorem Plan.Base.ne_group (hp : p.Base) (input : Plan) (groupBy : List ColItem) (having : Option Having) :
    p ≠ .group input groupBy having := by
  rintro rfl
  rcases hp with hp | ⟨subplan, selCols, isDesc, limit, heq, -⟩
  · exact hp.elim
  · cases heq

theorem base_cases (hp : p.Base) (he : convertPlanExecutor stl db p = .ok e) :
    (∃ feed, p.feed? stl db = some feed ∧ feed.Of e ∧ e.indexColNames = none) ∨ p.feed? stl db = none ∧ e.Steady := by
  rcases hp with hp | ⟨subplan, selCols, isDesc, limit, rfl, hp, hdesc⟩
  · rcases joined_cases hp he with ⟨t, tab, proj, rfl, ht, rfl⟩ | ⟨hbare, hsteady⟩
    · refine Or.inl ⟨_, ?_, seqScan_feeds, rfl⟩
      simp only [Plan.feed?, Plan.bareRows?, ht, Option.map_some]
    · refine Or.inr ⟨?_, hsteady⟩
      cases p with
      | sort subplan selCols isDesc limit => exact hp.elim
      | null => rfl
      | scan index tab conds proj => simp only [Plan.feed?, hbare, Option.map_none]
      | join left right conds => rfl
      | group input groupBy having => rfl
      | agg input selectExprs => rfl
      | projection subplan selCols => rfl
  · rw [convertPlanExecutor] at he
    split at he
    · cases he
    · next prev hprev =>
      rcases joined_cases hp hprev with ⟨t, tab, proj, rfl, ht, rfl⟩ | ⟨hbare, hsteady⟩
      · have hfeeds := sortExecutor_feeds seqScan_hands seqScan_steady_of bareRows_opt (scanOut_within t.laid proj) hdesc he
        refine Or.inl ⟨_, ?_, hfeeds, ?_⟩
        · simp only [Plan.feed?, Plan.bareRows?, ht, Option.map_some]
          rfl
        · obtain ⟨keys, -, rfl⟩ := sortExecutor_eq he
          rfl
      · refine Or.inr ⟨?_, sortExecutor_steady hsteady he⟩
        simp only [Plan.feed?, hbare, Option.map_none]

/-! ### Whole plans -/

theorem settled_exists {feed? : Option Feed} {asks : Feed → Prop}
    (h : (∃ feed, feed? = some feed ∧ e.Settled (asks feed)) ∨ feed? = none ∧ e.Steady) :
    e.Settled (∃ feed, feed? = some feed ∧ asks feed) := by
  rcases h with ⟨feed, rfl, h⟩ | ⟨rfl, h⟩
  · have heq : (∃ feed', some feed = some feed' ∧ asks feed') ↔ asks feed := by
      refine ⟨?_, fun h => ⟨feed, rfl, h⟩⟩
      rintro ⟨feed', hfeed, h⟩
      cases hfeed
      exact h
    rwa [heq]
  · refine Or.inr ⟨?_, Or.inr h⟩
    rintro ⟨feed, hfeed, -⟩
    cases hfeed

theorem base_settled (hp : p.Base) (he : convertPlanExecutor stl db p = .ok e) : e.Settled (p.AsksNull stl db) := by
  have hasks : p.AsksNull stl db = ∃ feed, p.feed? stl db = some feed ∧ feed.Missing := by
    rcases hp with hp | ⟨subplan, selCols, isDesc, limit, rfl, -⟩
    · cases p with
      | null => rfl
      | scan index tab conds proj => rfl
      | join left right conds => rfl
      | sort subplan selCols isDesc limit => rfl
      | group input groupBy having => exact hp.elim
      | agg input selectExprs => exact hp.elim
      | projection subplan selCols => exact hp.elim
    · rfl
  rw [hasks]
  refine settled_exists ((base_cases hp he).imp ?_ id)
  rintro ⟨feed, hfeed, hof, -⟩
  exact ⟨feed, hfeed, hof.settled⟩

theorem agg_settled (hp : p.Base) {selectExprs : List ColItem} (he : convertPlanExecutor stl db (.agg p selectExprs) = .ok e) :
    e.Settled (Plan.AsksNull stl db (.agg p selectExprs)) := by
  have hasks : Plan.AsksNull stl db (.agg p selectExprs) = ∃ feed, p.feed? stl db = some feed ∧ feed.AggAsks selectExprs := by
    rw [Plan.AsksNull]
    exact hp.ne_group
  rw [hasks]
  rw [convertPlanExecutor] at he
  split at he
  · cases he
  · next child hchild =>
    have hstream := currentGroupRecords_none hchild hp.ne_group
    refine settled_exists ((base_cases hp hchild).imp ?_ ?_)
    · rintro ⟨feed, hfeed, hof, hindex⟩
      exact ⟨feed, hfeed, aggregation_settled hof hstream hindex he⟩
    · rintro ⟨hnone, hsteady⟩
      exact ⟨hnone, aggregation_steady hsteady hstream he⟩

theorem agg_group_settled (hp : p.Base) {groupBy : List ColItem} {having : Option Having} {selectExprs : List ColItem}
    (he : convertPlanExecutor stl db (.agg (.group p groupBy having) selectExprs) = .ok e) :
    e.Settled (Plan.AsksNull stl db (.agg (.group p groupBy having) selectExprs)) := by
  rw [Plan.AsksNull]
  rw [convertPlanExecutor] at he
  split at he
  · cases he
  · next grouping hgrouping =>
    rw [convertPlanExecutor] at hgrouping
    split at hgrouping
    · cases hgrouping
    · next child hchild =>
      cases hgrouping
      refine settled_exists ((base_cases hp hchild).imp ?_ ?_)
      · rintro ⟨feed, hfeed, hof, -⟩
        exact ⟨feed, hfeed, group_settled hof he⟩
      · rintro ⟨hnone, hsteady⟩
        exact ⟨hnone, aggregation_group_steady hsteady he⟩

theorem projection_plan_settled {selCols : List TabCol} (he : convertPlanExecutor stl db (.projection p selCols) = .ok e)
    (h : ∀ prev, convertPlanExecutor stl db p = .ok prev → prev.Settled (p.AsksNull stl db)) :
    e.Settled (Plan.AsksNull stl db (.projection p selCols)) := by
  rw [Plan.AsksNull]
  rw [convertPlanExecutor] at he
  split at he
  · cases he
  · next prev hprev => exact projection_settled (h prev hprev) he

end Feeds

/-- The plans that executors are made of: that of a SELECT statement, and the scan of an UPDATE or DELETE statement. -/
inductive Planned (stl : Stl) (db : Db) : Plan → Prop where
  | select {joinEnabled : Bool} {q : Query} {p : Plan} (h : generateSelectPlan stl db.catalog joinEnabled q = .ok p) :
      Planned stl db p
  | scan (index : Option (List String)) (tab : String) (conds : List Condition) : Planned stl db (.scan index tab conds [])

section Planned
variable {stl : Stl} {db : Db} {p : Plan}

theorem generateSortPlan_base {catalog : Catalog.DbMeta} {q : Query} {plan : Plan} (hp : p.Joined)
    (h : generateSortPlan catalog q p = .ok plan) : plan.Base := by
  unfold generateSortPlan at h
  split at h
  · obtain ⟨allCols, -, h⟩ := ok_of_bind h
    cases h
    exact Or.inr ⟨p, _, _, _, rfl, hp, by rw [List.length_map, List.length_map]⟩
  · cases h
    exact Or.inl hp

/-! ### A row of another transaction -/

theorem StrictWeak.not_gt_trans {α : Type} {lt : α → α → Bool} (h : StrictWeak lt) {a b c : α} (hab : lt b a = false)
    (hbc : lt c b = false) : lt c a = false := by
  by_contra hca
  rw [Bool.not_eq_false] at hca
  cases hba : lt a b with
  | true => exact Bool.false_ne_true (hbc.symm.trans (h.trans c a b hca hba))
  | false =>
    cases hcb : lt b c with
    | true => exact Bool.false_ne_true (hab.symm.trans (h.trans b c a hcb hca))
    | false => exact Bool.false_ne_true ((h.incomp c b a hbc hcb hab hba).symm.trans hca)

/-- A library that goes through a map in the order of its entries and sorts by insertion. -/
def insertionStl : Stl where
  hash _ := 0
  hashValue _ := 0
  order hashes := List.range hashes.length
  sort n lt := (List.range n).insertionSort fun i j => lt j i = false
  order_perm _ := List.Perm.refl _
  sort_perm n lt := List.perm_insertionSort _ _
  sort_sorted n lt h := by
    have htotal : Std.Total fun i j : Fin n => lt j i = false := ⟨fun i j => by
      cases hji : lt j i with
      | false => exact Or.inl rfl
      | true =>
        cases hij : lt i j with
        | false => exact Or.inr rfl
        | true => exact absurd (h.trans i j i hij hji) (by rw [h.irrefl]; exact Bool.false_ne_true)⟩
    have htrans : IsTrans (Fin n) fun i j => lt j i = false := ⟨fun i j k hij hjk => h.not_gt_trans hij hjk⟩
    have hsorted := List.pairwise_insertionSort (fun i j : Fin n => lt j i = false) (List.finRange n)
    have hmap := List.map_insertionSort (fun i j : Fin n => lt j i = false) (fun i j : Nat => lt j i = false) Fin.val
      (List.finRange n) fun i _ j _ => Iff.rfl
    rw [List.map_coe_finRange_eq_range] at hmap
    rw [← hmap, List.pairwise_map]
    exact hsorted

/-- A table with one row, which transaction 7 has inserted and not committed. -/
def rowOfSeven : Table where
  tab := ⟨"t", [⟨"t", "a", .int, 4, 0, false⟩], []⟩
  slots := [⟨⟨1, 0⟩, [1, 0, 0, 0], some (insertMark 7)⟩]
  range _ := none
  name_ne := by decide
  cols_ne := by decide
  laid := by decide
  named := by decide
  distinct := by decide
  sized := by decide

/-- What transaction 3 finds. -/
def dbOfThree : Db := ⟨[rowOfSeven], some 3⟩

/-- The plan of SELECT * FROM t. -/
def selectAll : Plan := .projection (.scan none "t" [] [⟨"t", "a"⟩]) [⟨"t", "a"⟩]

theorem selectAll_planned : ∃ q, doAnalyze dbOfThree.catalog false ⟨[], .ref "t" "", [], [], none, [], -1⟩ = .ok q ∧
    generateSelectPlan insertionStl dbOfThree.catalog true q = .ok selectAll :=
  ⟨⟨["t"], [⟨"t", "a"⟩], [], [], [], none, [], -1, false⟩, by decide, by decide⟩

/-- The tree of a plan keeps the protocol exactly if the plan asks for no null pointer. -/
theorem Planned.protocol_iff (hp : Planned stl db p) {e : Executor} (he : convertPlanExecutor stl db p = .ok e) :
    e.FollowsProtocol ↔ ¬p.AsksNull stl db := by
  refine Executor.Settled.follows_iff ?_
  cases hp with
  | scan index tab conds => exact base_settled (Or.inl trivial) he
  | select h =>
    unfold generateSelectPlan at h
    simp only at h
    obtain ⟨basePlan, hbase, h⟩ := ok_of_bind h
    obtain ⟨sorted, hsorted, h⟩ := ok_of_bind h
    have hsorted := generateSortPlan_base (makeOneRel_joined hbase) hsorted
    split at h
    · split at h
      · cases h
        exact projection_plan_settled he fun prev hprev => agg_group_settled hsorted hprev
      · cases h
        exact projection_plan_settled he fun prev hprev => agg_settled hsorted hprev
    · cases h
      exact projection_plan_settled he fun prev hprev => base_settled hsorted hprev

/-- That plan over the row of the other transaction. -/
theorem protocol_iff_selectAll : ∃ e, convertPlanExecutor insertionStl dbOfThree selectAll = .ok e ∧
    (e.FollowsProtocol ↔ ¬selectAll.AsksNull insertionStl dbOfThree) := by
  obtain ⟨q, -, hplan⟩ := selectAll_planned
  exact ⟨_, rfl, Planned.protocol_iff (.select hplan) rfl⟩

/-- Transaction 3 selects all rows of the table: `Next` returns a null pointer before the end. -/
theorem not_protocol_selectAll : ∃ q e, doAnalyze dbOfThree.catalog false ⟨[], .ref "t" "", [], [], none, [], -1⟩ = .ok q ∧
    generateSelectPlan insertionStl dbOfThree.catalog true q = .ok selectAll ∧
    convertPlanExecutor insertionStl dbOfThree selectAll = .ok e ∧ ∃ s, e.toIter.Reached s ∧ e.isEnd s = false ∧ e.read s = .ok none := by
  obtain ⟨q, hq, hplan⟩ := selectAll_planned
  exact ⟨q, _, hq, hplan, rfl, some rowOfSeven.slots, .first rfl, rfl, rfl⟩

end Planned

end Rmdb.Sql
