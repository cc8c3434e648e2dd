import Rmdb.Lib.TopN
import Rmdb.Theorems.Sql.Joins
import Rmdb.Theorems.Sql.NullPlans

/-! What a sort with a limit returns of the tuples of the operator below it. -/

namespace Rmdb.Sql
open Outcomes
open Std (TransCmp OrientedCmp)

/-! ### The order of the keys -/

/-- The sign that tells the result of a comparison. -/
def orderSign : Ordering → Int
  | .lt => -1
  | .eq => 0
  | .gt => 1

/-- Numbers in their order, strings up to their first NUL byte in the order of their bytes. -/
def cellOrder (c : Catalog.ColMeta) (a b : Bytes) : Ordering :=
  match c.type with
  | .string => compare (cString (a.drop c.offset) c.len) (cString (b.drop c.offset) c.len)
  | _ => compare (readInt (a.drop c.offset)) (readInt (b.drop c.offset))

/-- The first key that differs decides, a descending one the other way round. -/
def keysOrder : List (Catalog.ColMeta × Bool) → Bytes → Bytes → Ordering
  | [], _, _ => .eq
  | (c, isDesc) :: keys, a, b => (if isDesc then cellOrder c b a else cellOrder c a b).then (keysOrder keys a b)

instance cellOrder_trans (c : Catalog.ColMeta) : TransCmp (cellOrder c) := by
  unfold cellOrder
  cases c.type with
  | string => exact inferInstanceAs (TransCmp (compareOn fun a : Bytes => cString (a.drop c.offset) c.len))
  | int => exact inferInstanceAs (TransCmp (compareOn fun a : Bytes => readInt (a.drop c.offset)))
  | float => exact inferInstanceAs (TransCmp (compareOn fun a : Bytes => readInt (a.drop c.offset)))

instance keysOrder_trans (keys : List (Catalog.ColMeta × Bool)) : TransCmp (keysOrder keys) := by
  induction keys with
  | nil => exact { eq_swap := rfl, isLE_trans := fun _ _ => rfl }
  | cons key keys ih =>
    obtain ⟨c, isDesc⟩ := key
    cases isDesc with
    | true => exact inferInstanceAs (TransCmp (compareLex (fun a b => cellOrder c b a) (keysOrder keys)))
    | false => exact inferInstanceAs (TransCmp (compareLex (cellOrder c) (keysOrder keys)))

theorem compareInt_eq (x y : Int) : compareInt x y = orderSign (compare x y) := by
  unfold compareInt
  rcases Int.lt_trichotomy x y with h | rfl | h
  · rw [if_pos h, Int.compare_eq_lt.mpr h]
    rfl
  · rw [if_neg (Int.lt_irrefl x), if_neg (Int.lt_irrefl x), Int.compare_eq_eq.mpr rfl]
    rfl
  · rw [if_neg (Int.not_lt.mpr (Int.le_of_lt h)), if_pos h, Int.compare_eq_gt.mpr h]
    rfl

theorem bytesLt_eq (xs ys : Bytes) : bytesLt xs ys = (compare xs ys == .lt) := by
  induction xs generalizing ys with
  | nil => cases ys <;> rfl
  | cons x xs ih =>
    cases ys with
    | nil => rfl
    | cons y ys =>
      rw [bytesLt, List.compare_cons_cons]
      by_cases hxy : x = y
      · rw [if_pos hxy, ih, Std.compare_eq_iff_eq.mpr hxy]
        rfl
      · rw [if_neg hxy]
        by_cases hlt : x < y
        · rw [Std.compare_eq_lt.mpr hlt]
          exact decide_eq_true hlt
        · have hgt : y < x := UInt8.lt_of_le_of_ne (UInt8.not_lt.mp hlt) (Ne.symm hxy)
          rw [Std.compare_eq_gt.mpr hgt]
          exact decide_eq_false hlt

theorem compareCell_eq {c : Catalog.ColMeta} (hc : c.type ≠ .float) (a b : Bytes) : compareCell c a b = orderSign (cellOrder c a b) := by
  unfold compareCell cellOrder
  cases htype : c.type with
  | float => exact absurd htype hc
  | int => exact compareInt_eq _ _
  | string =>
    dsimp only
    rw [bytesLt_eq]
    split
    · next heq =>
      rw [Std.compare_eq_iff_eq.mpr heq]
      rfl
    · next hne =>
      cases hcmp : compare (cString (a.drop c.offset) c.len) (cString (b.drop c.offset) c.len) with
      | eq => exact absurd (Std.compare_eq_iff_eq.mp hcmp) hne
      | lt => rfl
      | gt => rfl

/-- `compare_tuples` tells what comes first by the keys. -/
theorem compareTuples_eq {keys : List (Catalog.ColMeta × Bool)} (hkeys : ∀ key ∈ keys, key.1.type ≠ .float) (a b : Bytes) :
    compareTuples keys a b = (keysOrder keys a b == .lt) := by
  induction keys with
  | nil => rfl
  | cons key keys ih =>
    obtain ⟨c, isDesc⟩ := key
    have hc : c.type ≠ .float := hkeys _ (List.mem_cons_self ..)
    rw [compareTuples, keysOrder]
    rw [compareCell_eq hc, ih fun key hkey => hkeys key (List.mem_cons_of_mem _ hkey), @OrientedCmp.eq_swap _ (cellOrder c) _ b a]
    cases cellOrder c a b <;> cases isDesc <;> rfl

/-! ### What a sort hands out -/

/-- The limit in the plan. -/
def limitCode : Option Nat → Int
  | none => -1
  | some n => n

/-- The items up to the limit. -/
def firstRows {α : Type} : Option Nat → List α → List α
  | none, l => l
  | some n, l => l.take n

/-- `Next` of a sort. -/
def sortRead (tuple : Option Bytes) : Except Fault (Option Bytes) := if tuple.isSome then .ok tuple else .error .nullPointer

/-- The operator hands out the first of the tuples in an order by the keys. -/
def Executor.SortsRows (e : Executor) (keys : List (Catalog.ColMeta × Bool)) (limit : Option Nat) (tuples : List Bytes) : Prop :=
  ∃ perm t, List.Perm perm tuples ∧ perm.Pairwise (fun a b => (keysOrder keys a b).isLE = true) ∧ e.start e.init = .ok t ∧
    e.toIter.Runs t ((firstRows limit perm).map fun rec => .ok (some rec))

section Outcome
variable {stl : Stl} {prev e : Executor} {cols : List Catalog.ColMeta} {selCols : List TabCol} {isDesc : List Bool} {limit : Option Nat}
  {keys : List (Catalog.ColMeta × Bool)} {u : prev.State} {rows items tuples : List (Option Bytes)}

theorem firstRows_map {α β : Type} (f : α → β) (l : List α) : firstRows limit (l.map f) = (firstRows limit l).map f := by
  cases limit with
  | none => rfl
  | some n => exact List.map_take.symm

theorem cutTuples_eq (hlimit : limit ≠ some 0) (items : List (Option Bytes)) : cutTuples (limitCode limit) items = firstRows limit items := by
  cases limit with
  | none => exact if_neg fun h => absurd h.1 (by decide)
  | some n =>
    have hn : 0 < n := Nat.pos_of_ne_zero fun h => hlimit (congrArg some h)
    rw [cutTuples, firstRows, limitCode, Int.toNat_natCast]
    split
    · rfl
    · next h =>
      have hle : items.length ≤ n := by omega
      exact (List.take_of_length_le hle).symm

/-- The start of a sort sorts and cuts what the operator below it hands out. -/
theorem sortExecutor_start (hcols : selCols.mapM (getCol prev.cols) = .ok cols)
    (he : sortExecutor stl prev selCols isDesc (limitCode limit) = .ok e) (hu : prev.start prev.init = .ok u)
    (hruns : prev.toIter.Runs u (rows.map .ok)) (hbound : rows.length ≤ prev.bound) : ∃ wrap : List (Option Bytes) → e.State,
      e.start e.init = ((fun items => wrap (cutTuples (limitCode limit) items)) <$>
        sortTuples stl (cols.zip isDesc) (collected prev.ownBuffer rows)) ∧
      ∀ items, e.toIter.Runs (wrap items) (items.map sortRead) := by
  obtain ⟨cols', hcols', rfl⟩ := sortExecutor_eq he
  rw [hcols] at hcols'
  cases hcols'
  obtain ⟨v, hfold⟩ := hruns.fold
  have hrest : prev.rest .diverged prev.bound u = .ok (rows, v) := by
    unfold Iter.rest
    rw [hfold _ _ _ _ (by rw [List.length_map]; exact hbound), foldReads_rest]
    rfl
  refine ⟨fun items => (v, items), ?_, fun items => Iter.runs_buffered v items⟩
  refine (Iter.buffered_start (prev.init, [])).trans ?_
  rw [hu, ok_bind, hrest, ok_bind]
  dsimp only
  cases sortTuples stl (cols.zip isDesc) (collected prev.ownBuffer rows) <;> rfl

theorem sortRead_map {recs : List Bytes} (h : items.map sortRead = recs.map fun rec => .ok (some rec)) : items = recs.map some := by
  induction items generalizing recs with
  | nil =>
    rw [List.map_nil, eq_comm, List.map_eq_nil_iff] at h
    rw [h]
    rfl
  | cons item items ih =>
    cases recs with
    | nil => cases h
    | cons rec recs =>
      obtain ⟨hitem, hitems⟩ := List.cons.inj h
      cases item with
      | none => cases hitem
      | some rec' =>
        cases hitem
        exact congrArg _ (ih hitems)

/-- The sort hands out what it should exactly if the tuples that it keeps are the first ones of an order by the keys. -/
theorem sortsRows_iff (hcols : selCols.mapM (getCol prev.cols) = .ok cols)
    (he : sortExecutor stl prev selCols isDesc (limitCode limit) = .ok e) (hu : prev.start prev.init = .ok u)
    (hruns : prev.toIter.Runs u (rows.map .ok)) (hbound : rows.length ≤ prev.bound) (recs : List Bytes) :
    e.SortsRows (cols.zip isDesc) limit recs ↔
      ∃ items, sortTuples stl (cols.zip isDesc) (collected prev.ownBuffer rows) = .ok items ∧ ∃ perm, List.Perm perm recs ∧
        perm.Pairwise (fun a b => (keysOrder (cols.zip isDesc) a b).isLE = true) ∧
        cutTuples (limitCode limit) items = (firstRows limit perm).map some := by
  obtain ⟨wrap, hstart, hwrap⟩ := sortExecutor_start hcols he hu hruns hbound
  constructor
  · rintro ⟨perm, t, hperm, hsorted, ht, hout⟩
    cases hitems : sortTuples stl (cols.zip isDesc) (collected prev.ownBuffer rows) with
    | error fault =>
      rw [hstart, hitems] at ht
      cases ht
    | ok items =>
      rw [hstart, hitems] at ht
      cases ht
      exact ⟨items, rfl, perm, hperm, hsorted, sortRead_map ((hwrap _).unique hout)⟩
  · rintro ⟨items, hitems, perm, hperm, hsorted, hcut⟩
    refine ⟨perm, wrap (cutTuples (limitCode limit) items), hperm, hsorted, by rw [hstart, hitems]; rfl, ?_⟩
    have hout := hwrap (cutTuples (limitCode limit) items)
    rw [hcut, List.map_map] at hout
    rw [hcut]
    exact hout

/-- A comparison gives a strict weak order. -/
theorem strictWeak_of_cmp {α β : Type} (cmp : β → β → Ordering) [TransCmp cmp] (f : α → β) : StrictWeak fun a b => cmp (f a) (f b) == .lt where
  irrefl a := by
    rw [@Std.ReflCmp.compare_self _ cmp]
    rfl
  trans a b c hab hbc := by
    rw [beq_iff_eq] at hab hbc ⊢
    exact TransCmp.lt_trans hab hbc
  incomp a b c hab hba hbc hcb := by
    have hle : ∀ {x y : β}, (cmp y x == .lt) = false → (cmp x y).isLE = true := fun {x y} hyx => by
      rw [@OrientedCmp.eq_swap _ cmp _ x y]
      cases h : cmp y x with
      | lt => rw [h] at hyx; cases hyx
      | eq => rfl
      | gt => rfl
    have hca := TransCmp.isLE_trans (hle hbc) (hle hab)
    exact beq_false_of_ne (OrientedCmp.not_lt_of_isLE hca)

/-- `compare_tuples` is an order that `std::sort` may be given. -/
theorem compareTuples_strictWeak (hkeys : ∀ key ∈ keys, key.1.type ≠ .float) : StrictWeak (compareTuples keys) := by
  have heq : compareTuples keys = fun a b => keysOrder keys a b == .lt := funext fun a => funext fun b => compareTuples_eq hkeys a b
  rw [heq]
  exact strictWeak_of_cmp (keysOrder keys) id

theorem compareTuples_strictWeak_two :
    StrictWeak (compareTuples [(⟨"a", "x", .int, 4, 0, false⟩, true), (⟨"a", "y", .string, 8, 4, false⟩, false)]) :=
  compareTuples_strictWeak (by decide)

theorem isLE_of_not_lt {a b : Bytes} (h : (keysOrder keys b a == .lt) = false) : (keysOrder keys a b).isLE = true := by
  rw [@OrientedCmp.eq_swap _ (keysOrder keys) _ a b]
  cases hba : keysOrder keys b a with
  | lt => rw [hba] at h; cases h
  | eq => rfl
  | gt => rfl

theorem keysOrder_total (a b : Bytes) : (keysOrder keys a b).isLE = true ∨ (keysOrder keys b a).isLE = true := by
  rw [@OrientedCmp.eq_swap _ (keysOrder keys) _ b a]
  cases keysOrder keys a b with
  | lt => exact Or.inl rfl
  | eq => exact Or.inl rfl
  | gt => exact Or.inr rfl

theorem getElem?_present (hnull : none ∉ tuples) (i : Fin tuples.length) : ∃ rec, tuples[(i : Nat)]? = some (some rec) := by
  rw [List.getElem?_eq_getElem i.isLt]
  cases htuple : tuples[(i : Nat)] with
  | none => exact absurd (htuple ▸ List.getElem_mem i.isLt) hnull
  | some rec => exact ⟨rec, rfl⟩

/-- `std::sort` with `compare_tuples` puts the tuples in the order of the keys. -/
theorem sortTuples_sorted (hkeys : ∀ key ∈ keys, key.1.type ≠ .float) (h : sortTuples stl keys tuples = .ok items) :
    items.Perm tuples ∧ (present items).Pairwise fun a b => (keysOrder keys a b).isLE = true := by
  unfold sortTuples at h
  split at h
  · cases h
  next hlooked =>
  injection h with h
  have hperm : items.Perm tuples := h ▸ pick_perm (stl.sort_perm _ _)
  refine ⟨hperm, ?_⟩
  by_cases hnil : keys = []
  · subst hnil
    exact List.pairwise_of_forall fun _ _ => rfl
  by_cases hlength : 2 ≤ tuples.length
  · have hnull : none ∉ tuples := fun hmem => hlooked ⟨hnil, hlength, hmem⟩
    choose rec hrec using fun i : Fin tuples.length => getElem?_present hnull i
    rw [← h, present, pick, List.filterMap_filterMap, List.pairwise_filterMap]
    refine (stl.sort_sorted tuples.length _ ?_).imp fun {i j} hij a ha b hb => isLE_of_not_lt ?_
    rotate_left
    · obtain ⟨x, hx, rfl⟩ := Option.bind_eq_some_iff.mp ha
      obtain ⟨y, hy, rfl⟩ := Option.bind_eq_some_iff.mp hb
      rw [hx, hy] at hij
      exact (compareTuples_eq hkeys b a).symm.trans hij
    · refine (congrArg StrictWeak (funext fun i => funext fun j => ?_)).mpr (strictWeak_of_cmp (keysOrder keys) rec)
      rw [hrec i, hrec j]
      exact compareTuples_eq hkeys _ _
  · have hone : (present items).length ≤ 1 := by
      have := List.length_filterMap_le id items
      have := hperm.length_eq
      unfold present
      omega
    cases hitems : present items with
    | nil => exact .nil
    | cons a rest =>
      rw [hitems, List.length_cons] at hone
      rw [List.eq_nil_of_length_eq_zero (by omega : rest.length = 0)]
      exact List.pairwise_singleton _ _

theorem firstRows_sublist {α : Type} (limit : Option Nat) (l : List α) : (firstRows limit l).Sublist l := by
  cases limit with
  | none => exact List.Sublist.refl l
  | some n => exact List.take_sublist n l

theorem length_firstRows {α : Type} (limit : Option Nat) (l : List α) :
    (firstRows limit l).length = limit.elim l.length fun n => min n l.length := by
  cases limit with
  | none => rfl
  | some n => exact List.length_take

theorem firstRows_eq_take {α : Type} (limit : Option Nat) (l : List α) : firstRows limit l = l.take (firstRows limit l).length := by
  cases limit with
  | none => exact List.take_length.symm
  | some n => rw [firstRows, List.length_take, ← List.take_eq_take_min]

theorem firstRows_ne_nil {α : Type} (hlimit : limit ≠ some 0) {l : List α} (hl : l ≠ []) : firstRows limit l ≠ [] := by
  have hlength := length_firstRows limit l
  have := List.length_pos_iff.mpr hl
  rw [← List.length_pos_iff, hlength]
  cases limit with
  | none => exact this
  | some n =>
    have hn : 0 < n := Nat.pos_of_ne_zero fun h => hlimit (congrArg some h)
    exact Nat.lt_min.mpr ⟨hn, this⟩

theorem present_map (recs : List Bytes) : present (recs.map some) = recs := by
  rw [present, List.filterMap_map]
  exact List.filterMap_some

theorem map_present {items : List (Option Bytes)} (hnull : none ∉ items) : (present items).map some = items := by
  induction items with
  | nil => rfl
  | cons item items ih =>
    rw [List.mem_cons, not_or] at hnull
    cases item with
    | none => exact absurd rfl hnull.1
    | some rec => exact congrArg _ (ih hnull.2)

/-- Where no null pointer is kept, the tuples that are kept are the first that are there. -/
theorem firstRows_present {items : List (Option Bytes)} (hnull : none ∉ firstRows limit items) :
    firstRows limit items = (firstRows limit (present items)).map some := by
  cases limit with
  | none => exact (map_present hnull).symm
  | some n =>
    change items.take n = ((present items).take n).map some
    change none ∉ items.take n at hnull
    induction items generalizing n with
    | nil => rw [present, List.filterMap_nil, List.take_nil, List.take_nil, List.map_nil]
    | cons item items ih =>
      cases n with
      | zero => rfl
      | succ n =>
        rw [List.take_succ_cons, List.mem_cons, not_or] at hnull
        cases item with
        | none => exact absurd rfl hnull.1
        | some rec => exact congrArg _ (ih n hnull.2)

/-- No null pointer is among the tuples that the sort looks into: with keys these are all, without keys those that it keeps. -/
def NoneNull (stl : Stl) (keys : List (Catalog.ColMeta × Bool)) (limit : Option Nat) (rows : List (Option Bytes)) : Prop :=
  if keys = [] then none ∉ firstRows limit (pick rows (stl.sort rows.length fun _ _ => false)) else none ∉ rows

/-- The last tuple comes first by the keys, and there are as many copies of it as the sort hands out. -/
def LastFirst (keys : List (Catalog.ColMeta × Bool)) (limit : Option Nat) (recs : List Bytes) : Prop :=
  ∃ last, recs.getLast? = some last ∧ (firstRows limit recs).length ≤ recs.count last ∧
    ∀ rec ∈ recs, (keysOrder keys last rec).isLE = true

/-- A sort hands out tuples only if it has looked into no null pointer. -/
theorem noneNull_iff (hlimit : limit ≠ some 0) (ownBuffer : Bool) : NoneNull stl keys limit rows ↔
    ∃ items, sortTuples stl keys (collected ownBuffer rows) = .ok items ∧ none ∉ firstRows limit items := by
  have hgaps := collected_gaps ownBuffer rows
  by_cases hnil : keys = []
  · subst hnil
    have hitems : sortTuples stl [] (collected ownBuffer rows) =
        .ok (pick (collected ownBuffer rows) (stl.sort rows.length fun _ _ => false)) := by
      rw [sortTuples_nil, length_collected]
    have hcut := (@SameGaps.cut (limitCode limit) _ _ (hgaps.pick (stl.sort rows.length fun _ _ => false))).none_mem
    rw [cutTuples_eq hlimit, cutTuples_eq hlimit] at hcut
    rw [NoneNull, if_pos rfl, hitems]
    constructor
    · exact fun h => ⟨_, rfl, fun hmem => h (hcut.mp hmem)⟩
    · rintro ⟨items, heq, h⟩
      cases heq
      exact fun hmem => h (hcut.mpr hmem)
  · rw [NoneNull, if_neg hnil, ← hgaps.none_mem]
    constructor
    · intro h
      refine ⟨_, if_neg fun hnull => h hnull.2.2, fun hmem => h ?_⟩
      exact (pick_perm (stl.sort_perm _ _)).subset ((firstRows_sublist _ _).subset hmem)
    · rintro ⟨items, hitems, hnull⟩ hmem
      -- With two tuples or more the comparison would meet the null pointer.
      have hone : (collected ownBuffer rows).length = 1 := by
        have hpos := List.length_pos_of_mem hmem
        by_contra hne
        have htwo : 2 ≤ (collected ownBuffer rows).length := by omega
        rw [sortTuples, if_pos ⟨hnil, htwo, hmem⟩] at hitems
        cases hitems
      obtain ⟨r, hr⟩ := List.length_eq_one_iff.mp hone
      rw [hr] at hmem hitems
      rw [← List.mem_singleton.mp hmem, sortTuples_one] at hitems
      cases hitems
      have hkept : firstRows limit [(none : Option Bytes)] = [none] :=
        (firstRows_sublist limit _).eq_of_length_le (List.length_pos_iff.mpr (firstRows_ne_nil hlimit (List.cons_ne_nil _ _)))
      rw [hkept] at hnull
      exact hnull (List.mem_singleton_self _)

/-- The child hands out its own buffer, whose last content takes the place of every tuple. -/
theorem collected_own {last : Bytes} (hlast : (present rows).getLast? = some last) :
    collected true rows = rows.map (Option.map fun _ => last) := by
  have hlast : (rows.filterMap id).getLast? = some last := hlast
  rw [collected, if_pos rfl, hlast]

theorem present_ne_nil {items : List (Option Bytes)} (hperm : items.Perm (collected true rows)) (hkept : firstRows limit items ≠ [])
    (hnull : none ∉ firstRows limit items) : ∃ last, (present rows).getLast? = some last := by
  by_contra hlast
  have hnil : present rows = [] := List.getLast?_eq_none_iff.mp (Option.eq_none_iff_forall_ne_some.mpr (not_exists.mp hlast))
  obtain ⟨item, hitem⟩ := List.exists_mem_of_ne_nil _ hkept
  have hmem := hperm.subset ((firstRows_sublist limit items).subset hitem)
  have hcollected : collected true rows = rows := by
    have hnil : rows.filterMap id = [] := hnil
    rw [collected, if_pos rfl, hnil]
    rfl
  rw [hcollected] at hmem
  cases item with
  | none => exact hnull hitem
  | some rec =>
    have := mem_present.mpr hmem
    rw [hnil] at this
    cases this

/-- Then the sort hands out nothing but the last tuple. -/
theorem firstRows_own {items : List (Option Bytes)} {last : Bytes} (hlast : (present rows).getLast? = some last)
    (hperm : items.Perm (collected true rows)) (hnull : none ∉ firstRows limit items) :
    firstRows limit items = (List.replicate (firstRows limit (present rows)).length last).map some := by
  have hsame : ∀ item ∈ items, item = none ∨ item = some last := by
    intro item hitem
    have hmem := hperm.subset hitem
    rw [collected_own hlast] at hmem
    obtain ⟨row, -, rfl⟩ := List.mem_map.mp hmem
    cases row with
    | none => exact Or.inl rfl
    | some rec => exact Or.inr rfl
  have hlength : (firstRows limit items).length = (firstRows limit (present rows)).length := by
    have hpresent := (hperm.filterMap id).length_eq
    rw [collected_own hlast, List.filterMap_map] at hpresent
    have hrows : rows.filterMap (id ∘ Option.map fun _ => last) = (present rows).map fun _ => last := List.map_filterMap.symm
    rw [hrows, List.length_map] at hpresent
    rw [firstRows_present hnull, List.length_map, length_firstRows, length_firstRows, ← hpresent]
    rfl
  rw [List.map_replicate, ← hlength]
  refine List.eq_replicate_iff.mpr ⟨rfl, fun item hitem => ?_⟩
  rcases hsame item ((firstRows_sublist limit items).subset hitem) with rfl | rfl
  · exact absurd hitem hnull
  · rfl

/-- Whether the tuples that a sort keeps are the first ones of an order by the keys. -/
theorem kept_iff (hkeys : ∀ key ∈ keys, key.1.type ≠ .float) (hlimit : limit ≠ some 0) (hrows : rows ≠ []) (ownBuffer : Bool) :
    (∃ items, sortTuples stl keys (collected ownBuffer rows) = .ok items ∧ ∃ perm, List.Perm perm (present rows) ∧
      perm.Pairwise (fun a b => (keysOrder keys a b).isLE = true) ∧ firstRows limit items = (firstRows limit perm).map some) ↔
    NoneNull stl keys limit rows ∧ (ownBuffer = true → LastFirst keys limit (present rows)) := by
  have hlength : ∀ {items : List (Option Bytes)}, items.Perm (collected ownBuffer rows) → items ≠ [] := fun hperm hnil => by
    have hlength := hperm.length_eq
    rw [hnil, length_collected] at hlength
    exact hrows (List.eq_nil_of_length_eq_zero hlength.symm)
  rw [noneNull_iff hlimit ownBuffer]
  constructor
  · rintro ⟨items, hitems, perm, hperm, hsorted, hkept⟩
    have hnull : none ∉ firstRows limit items := by
      rw [hkept]
      simp
    refine ⟨⟨items, hitems, hnull⟩, ?_⟩
    rintro rfl
    obtain ⟨hitems, -⟩ := sortTuples_sorted hkeys hitems
    have hne := firstRows_ne_nil hlimit (hlength hitems)
    obtain ⟨last, hlast⟩ := present_ne_nil hitems hne hnull
    rw [firstRows_own hlast hitems hnull] at hkept hne
    have hfirst := List.map_injective_iff.mpr (Option.some_injective _) hkept
    have hpos : 0 < (firstRows limit (present rows)).length := by
      rw [ne_eq, List.map_eq_nil_iff, List.replicate_eq_nil_iff] at hne
      exact Nat.pos_of_ne_zero hne
    refine ⟨last, hlast, ?_⟩
    rw [← TopN.exists_first_iff keysOrder_total (fun a b c => TransCmp.isLE_trans) hpos]
    have htake := firstRows_eq_take limit perm
    rw [← hfirst, List.length_replicate] at htake
    exact ⟨perm, hperm, hsorted, htake.symm⟩
  · rintro ⟨⟨items, hitems, hnull⟩, hown⟩
    obtain ⟨hperm, hsorted⟩ := sortTuples_sorted hkeys hitems
    refine ⟨items, hitems, ?_⟩
    cases ownBuffer with
    | false => exact ⟨present items, hperm.filterMap id, hsorted, firstRows_present hnull⟩
    | true =>
      obtain ⟨last, hlast, hfirst⟩ := hown rfl
      have hpos : 0 < (firstRows limit (present rows)).length := by
        refine List.length_pos_iff.mpr (firstRows_ne_nil hlimit fun hnil => ?_)
        rw [hnil] at hlast
        cases hlast
      rw [← TopN.exists_first_iff keysOrder_total (fun a b c => TransCmp.isLE_trans) hpos] at hfirst
      obtain ⟨perm, hperm', hsorted', htake⟩ := hfirst
      have hlength : (firstRows limit perm).length = (firstRows limit (present rows)).length := by
        rw [length_firstRows, length_firstRows, hperm'.length_eq]
      refine ⟨perm, hperm', hsorted', ?_⟩
      rw [firstRows_own hlast hperm hnull, firstRows_eq_take limit perm, hlength, htake]

/-- A sort over an operator that hands out `rows`. -/
theorem sortsRows_iff_fits (hcols : selCols.mapM (getCol prev.cols) = .ok cols) (htypes : ∀ c ∈ cols, c.type ≠ .float)
    (he : sortExecutor stl prev selCols isDesc (limitCode limit) = .ok e) (hu : prev.start prev.init = .ok u)
    (hruns : prev.toIter.Runs u (rows.map .ok)) (hbound : rows.length ≤ prev.bound) :
    e.SortsRows (cols.zip isDesc) limit (present rows) ↔ rows = [] ∨ limit ≠ some 0 ∧
      NoneNull stl (cols.zip isDesc) limit rows ∧ (prev.ownBuffer = true → LastFirst (cols.zip isDesc) limit (present rows)) := by
  have hkeys : ∀ key ∈ cols.zip isDesc, key.1.type ≠ .float := fun key hkey => htypes _ (List.of_mem_zip hkey).1
  rw [sortsRows_iff hcols he hu hruns hbound]
  by_cases hrows : rows = []
  · subst hrows
    refine iff_of_true ⟨[], ?_, [], List.Perm.refl _, .nil, ?_⟩ (Or.inl rfl)
    · have hcollected : collected prev.ownBuffer [] = [] := List.eq_nil_of_length_eq_zero (length_collected ..)
      rw [hcollected, sortTuples, if_neg fun h => List.not_mem_nil h.2.2]
      exact congrArg Except.ok (List.Perm.eq_nil (pick_perm (stl.sort_perm 0 _)))
    · cases limit <;> simp [cutTuples, firstRows]
  by_cases hlimit : limit = some 0
  · subst hlimit
    refine iff_of_false ?_ fun h => h.elim hrows fun h => h.1 rfl
    rintro ⟨items, hitems, perm, -, -, hcut⟩
    have hnil : items = [] := hcut
    have hlength := (sortTuples_sorted hkeys hitems).1.length_eq
    rw [hnil, length_collected] at hlength
    exact hrows (List.eq_nil_of_length_eq_zero hlength.symm)
  · simp only [cutTuples_eq hlimit]
    rw [kept_iff hkeys hlimit hrows, or_iff_right hrows, and_iff_right hlimit]

end Outcome

section Children
variable {stl : Stl} {db : Db} {joined : Bool} {prev : Executor} {expected : List Bytes} {cols : List Catalog.ColMeta} {selCols : List TabCol}
  {isDesc : List Bool} {limit : Option Nat}

/-- A scan or a tree of joins hands out some tuples and comes to an end. -/
theorem Tree.hands (h : Tree db joined prev expected) : ∃ (rows : List (Option Bytes)) (u : prev.State), prev.start prev.init = .ok u ∧
    prev.toIter.Runs u (rows.map .ok) ∧ rows.length ≤ prev.bound := by
  obtain ⟨-, ⟨spec⟩⟩ := h.spec
  obtain ⟨u, rows, hu, hruns, -, hbound⟩ := spec.start_runs prev.init
  exact ⟨rows, u, hu, hruns, hbound⟩

/-- A sort of INT and CHAR columns hands out the first tuples of an order by its keys exactly if there are none, or the limit
    is not 0, no null pointer is met, and a child with a buffer of its own ends with a tuple that may stand for all. -/
theorem sortExecutor_sorts_iff (h : Tree db joined prev expected) (hcols : selCols.mapM (getCol prev.cols) = .ok cols)
    (htypes : ∀ c ∈ cols, c.type ≠ .float) (stl : Stl) (isDesc : List Bool) (limit : Option Nat) :
    ∃ (rows : List (Option Bytes)) (u : prev.State) (e : Executor), prev.start prev.init = .ok u ∧
      prev.toIter.Runs u (rows.map .ok) ∧ sortExecutor stl prev selCols isDesc (limitCode limit) = .ok e ∧
      (e.SortsRows (cols.zip isDesc) limit (present rows) ↔ rows = [] ∨ limit ≠ some 0 ∧
        NoneNull stl (cols.zip isDesc) limit rows ∧ (prev.ownBuffer = true → LastFirst (cols.zip isDesc) limit (present rows))) := by
  obtain ⟨rows, u, hu, hruns, hbound⟩ := h.hands
  have he : ∃ e, sortExecutor stl prev selCols isDesc (limitCode limit) = .ok e := by
    unfold sortExecutor
    rw [hcols]
    exact ⟨_, rfl⟩
  obtain ⟨e, he⟩ := he
  exact ⟨rows, u, e, hu, hruns, he, sortsRows_iff_fits hcols htypes he hu hruns hbound⟩

end Children

/-! ### Numbers in order -/

/-- The scan of `a` that puts its column `x` out through a buffer. -/
def projectedScan (as : List Int) : Executor := seqScan (threeTables as [] []) (numbers "a" a_ne as) [] [⟨"a", "x"⟩]

theorem projectedScan_tree (as : List Int) : Tree (threeTables as [] []) false (projectedScan as)
    (present ((numbers "a" a_ne as).slots.filterMap (seqTuple (threeTables as [] []) (numbers "a" a_ne as) [] [⟨"a", "x"⟩]))) :=
  .ofSeqScan fun _ _ _ _ => ⟨true, rfl⟩

theorem x_not_float : ∀ c ∈ [(⟨"a", "x", .int, 4, 0, false⟩ : Catalog.ColMeta)], c.type ≠ .float := by decide

theorem sortExecutor_sorts_iff_two : ∃ (rows : List (Option Bytes)) (u : (projectedScan [2, 1]).State) (e : Executor),
    (projectedScan [2, 1]).start (projectedScan [2, 1]).init = .ok u ∧ (projectedScan [2, 1]).toIter.Runs u (rows.map .ok) ∧
      sortExecutor insertionStl (projectedScan [2, 1]) [⟨"a", "x"⟩] [false] (limitCode (some 1)) = .ok e ∧
      (e.SortsRows ([⟨"a", "x", .int, 4, 0, false⟩].zip [false]) (some 1) (present rows) ↔ rows = [] ∨ some 1 ≠ some 0 ∧
        NoneNull insertionStl ([⟨"a", "x", .int, 4, 0, false⟩].zip [false]) (some 1) rows ∧
        ((projectedScan [2, 1]).ownBuffer = true → LastFirst ([⟨"a", "x", .int, 4, 0, false⟩].zip [false]) (some 1) (present rows))) :=
  sortExecutor_sorts_iff (projectedScan_tree [2, 1]) rfl x_not_float insertionStl [false] (some 1)

/-- What the analysis makes of SELECT * FROM a ORDER BY x. -/
def orderX : Query := ⟨["a"], [⟨"a", "x"⟩], [], [], [], none, [⟨⟨"", "x"⟩, false⟩], -1, true⟩

/-- The numbers 1 and 2 in the order of x: the sort hands out 2 twice. -/
theorem not_sorts_two :
    doAnalyze (threeTables [1, 2] [] []).catalog false ⟨[], .ref "a" "", [], [], none, [⟨⟨"", "x"⟩, false⟩], -1⟩ = .ok orderX ∧
    generateSelectPlan insertionStl (threeTables [1, 2] [] []).catalog true orderX =
      .ok (.projection (.sort (.scan none "a" [] [⟨"a", "x"⟩]) [⟨"a", "x"⟩] [false] (limitCode none)) [⟨"a", "x"⟩]) ∧
    runQuery insertionStl (threeTables [1, 2] [] []) true orderX = .ok [[2, 0, 0, 0], [2, 0, 0, 0]] ∧
    ∃ (u : (projectedScan [1, 2]).State) (e : Executor), (projectedScan [1, 2]).start (projectedScan [1, 2]).init = .ok u ∧
      (projectedScan [1, 2]).toIter.Runs u [.ok (some [1, 0, 0, 0]), .ok (some [2, 0, 0, 0])] ∧
      sortExecutor insertionStl (projectedScan [1, 2]) [⟨"a", "x"⟩] [false] (limitCode none) = .ok e ∧
      ¬e.SortsRows [(⟨"a", "x", .int, 4, 0, false⟩, false)] none [[1, 0, 0, 0], [2, 0, 0, 0]] := by
  refine ⟨by decide, by decide, by decide, _, _, rfl, ⟨rfl, rfl, _, rfl, rfl, rfl, _, rfl, rfl⟩, rfl, fun h => ?_⟩
  have hfits := (@sortsRows_iff_fits insertionStl (projectedScan [1, 2]) _ [⟨"a", "x", .int, 4, 0, false⟩] [⟨"a", "x"⟩] [false] none _
    [some [1, 0, 0, 0], some [2, 0, 0, 0]] rfl x_not_float rfl rfl ⟨rfl, rfl, _, rfl, rfl, rfl, _, rfl, rfl⟩ (by decide)).mp h
  rcases hfits with hnil | ⟨-, -, hlast⟩
  · cases hnil
  · obtain ⟨last, hlast, hcount, -⟩ := hlast rfl
    cases hlast
    exact absurd hcount (by decide)

end Rmdb.Sql
