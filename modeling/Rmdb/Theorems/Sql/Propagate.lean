import Rmdb.Lib.Search
import Rmdb.Lib.TextStream
import Rmdb.Theorems.Sql.NullPlans

/-! The constants that equalities carry from column to column. -/

namespace Rmdb.Sql
open Relation (EqvGen ReflTransGen)
open TextStream (append_separator_inj)

/-! ### What conditions say -/

/-- The columns have names without dots, as all identifiers. -/
def Condition.PlainNames (c : Condition) : Prop :=
  '.' ∉ c.lhsCol.colName.toList ∧ ∀ d, c.rhs = .col d → '.' ∉ d.colName.toList

/-- The condition holds of the values of the columns. Equality is that of values; the other operators may be any relations. -/
def Condition.Holds (rel : CompOp → Value → Value → Prop) (value : TabCol → Value) (c : Condition) : Prop :=
  let rhs := match c.rhs with
    | .val v _ => v
    | .col d => value d
  match c.op with
  | .eq => value c.lhsCol = rhs
  | op => rel op (value c.lhsCol) rhs

/-- Equalities connect two columns, through any others. -/
def Connected (conds : List Condition) : TabCol → TabCol → Prop := EqvGen fun a b => ⟨a, .eq, .col b⟩ ∈ conds

/-- Two constants are one for the code: a zero and a negative zero are. -/
def SameConst (w v : Value) : Prop := w = v ∨ w.eq v = true

/-- The conditions keep those that were there and mean the same, and every column has the constants of the columns that it is
    connected with. -/
structure Propagated (conds new : List Condition) : Prop where
  kept : ∃ added, new = conds ++ added
  same : ∀ rel value, (∀ c ∈ new, c.Holds rel value) ↔ ∀ c ∈ conds, c.Holds rel value
  complete : ∀ a b v raw, Connected conds a b → ⟨a, .eq, .val v raw⟩ ∈ conds →
    ∃ w raw', ⟨b, .eq, .val w raw'⟩ ∈ new ∧ SameConst w v

/-! ### Columns and their keys -/

section Keys
variable {conds : List Condition}

/-- An equality names the column. -/
def Mentions (conds : List Condition) (d : TabCol) : Prop := ∃ c ∈ conds, c.op = .eq ∧ (c.lhsCol = d ∨ c.rhs = .col d)

theorem makeColKey_inj (hnames : ∀ c ∈ conds, c.PlainNames) {d e : TabCol} (hd : Mentions conds d) (he : Mentions conds e)
    (h : makeColKey d = makeColKey e) : d = e := by
  have hplain : ∀ d, Mentions conds d → '.' ∉ d.colName.toList := by
    rintro d ⟨c, hc, -, rfl | hrhs⟩
    · exact (hnames c hc).1
    · exact (hnames c hc).2 d hrhs
  have hlist : d.tabName.toList ++ '.' :: d.colName.toList = e.tabName.toList ++ '.' :: e.colName.toList := by
    simpa [makeColKey] using congrArg String.toList h
  obtain ⟨htab, hcol⟩ := append_separator_inj (hplain d hd) (hplain e he) hlist
  cases d
  cases e
  rw [TabCol.mk.injEq]
  exact ⟨String.toList_inj.mp htab, String.toList_inj.mp hcol⟩

/-- The columns that an equality puts into `key_to_col`. -/
def eqCols (c : Condition) : List TabCol :=
  match c.op, c.rhs with
  | .eq, .val _ _ => [c.lhsCol]
  | .eq, .col d => [c.lhsCol, d]
  | _, _ => []

theorem mem_eqCols {c : Condition} {d : TabCol} : d ∈ eqCols c ↔ c.op = .eq ∧ (c.lhsCol = d ∨ c.rhs = .col d) := by
  obtain ⟨lhs, op, rhs⟩ := c
  cases op <;> cases rhs <;> simp [eqCols, eq_comm]

/-- `key_to_col[key] = col`. -/
def putCol (m : List (String × TabCol)) (d : TabCol) : List (String × TabCol) :=
  if (m.lookup (makeColKey d)).isSome then m.map fun e => if e.1 = makeColKey d then (e.1, d) else e
  else m ++ [(makeColKey d, d)]

theorem keyToCol_eq (conds : List Condition) : keyToCol conds = (conds.flatMap eqCols).foldl putCol [] := by
  rw [List.foldl_flatMap, keyToCol]
  congr 1
  funext m c
  obtain ⟨lhs, op, rhs⟩ := c
  cases op <;> cases rhs <;> rfl

/-- What is in `key_to_col` after some columns. -/
structure Keyed (seen : List TabCol) (m : List (String × TabCol)) : Prop where
  nodup : (m.map (·.1)).Nodup
  entry : ∀ e ∈ m, e.1 = makeColKey e.2 ∧ e.2 ∈ seen
  covers : ∀ d ∈ seen, makeColKey d ∈ m.map (·.1)

theorem mem_keys_iff {m : List (String × TabCol)} {key : String} : (m.lookup key).isSome = true ↔ key ∈ m.map (·.1) := by
  rw [List.lookup_isSome_iff, List.mem_map]
  exact ⟨fun ⟨e, he, heq⟩ => ⟨e, he, (beq_iff_eq.mp heq).symm⟩, fun ⟨e, he, heq⟩ => ⟨e, he, beq_iff_eq.mpr heq.symm⟩⟩

theorem Keyed.put {seen : List TabCol} {m : List (String × TabCol)} (h : Keyed seen m) (d : TabCol) :
    Keyed (seen ++ [d]) (putCol m d) := by
  unfold putCol
  by_cases hkey : makeColKey d ∈ m.map (·.1)
  · rw [if_pos (mem_keys_iff.mpr hkey)]
    have hfst : (m.map fun e => if e.1 = makeColKey d then (e.1, d) else e).map (·.1) = m.map (·.1) := by
      rw [List.map_map]
      refine List.map_congr_left fun e _ => ?_
      show (if e.1 = makeColKey d then (e.1, d) else e).1 = e.1
      split <;> rfl
    refine ⟨hfst ▸ h.nodup, fun e he => ?_, fun c hc => ?_⟩
    · obtain ⟨e', he', rfl⟩ := List.mem_map.mp he
      split
      · next heq => exact ⟨heq, by simp⟩
      · exact ⟨(h.entry e' he').1, List.mem_append_left _ (h.entry e' he').2⟩
    · rw [hfst]
      rcases List.mem_append.mp hc with hc | hc
      · exact h.covers c hc
      · rwa [List.mem_singleton.mp hc]
  · rw [if_neg fun hsome => hkey (mem_keys_iff.mp hsome)]
    refine ⟨?_, fun e he => ?_, fun c hc => ?_⟩
    · rw [List.map_append]
      exact Search.nodup_snoc hkey h.nodup
    · rcases List.mem_append.mp he with he | he
      · exact ⟨(h.entry e he).1, List.mem_append_left _ (h.entry e he).2⟩
      · rw [List.mem_singleton.mp he]
        exact ⟨rfl, by simp⟩
    · rw [List.map_append]
      rcases List.mem_append.mp hc with hc | hc
      · exact List.mem_append_left _ (h.covers c hc)
      · rw [List.mem_singleton.mp hc]
        exact List.mem_append_right _ (List.mem_singleton_self _)

theorem keyToCol_keyed (conds : List Condition) : Keyed (conds.flatMap eqCols) (keyToCol conds) := by
  have h : ∀ (cols seen : List TabCol) (m : List (String × TabCol)), Keyed seen m → Keyed (seen ++ cols) (cols.foldl putCol m) := by
    intro cols
    induction cols with
    | nil =>
      intro seen m hm
      rw [List.append_nil]
      exact hm
    | cons d cols ih =>
      intro seen m hm
      rw [List.append_cons]
      exact ih _ _ (hm.put d)
  rw [keyToCol_eq]
  exact h _ [] [] ⟨List.nodup_nil, fun e he => (by cases he), fun d hd => (by cases hd)⟩

theorem mem_flatMap_eqCols {d : TabCol} : d ∈ conds.flatMap eqCols ↔ Mentions conds d := by
  simp only [List.mem_flatMap, mem_eqCols, Mentions]

/-- The columns behind the keys are found again. -/
theorem lookup_key (hnames : ∀ c ∈ conds, c.PlainNames) {d : TabCol} (hd : Mentions conds d) :
    (keyToCol conds).lookup (makeColKey d) = some d := by
  have hkeyed := keyToCol_keyed conds
  obtain ⟨e, he⟩ := Option.isSome_iff_exists.mp (mem_keys_iff.mpr (hkeyed.covers d (mem_flatMap_eqCols.mpr hd)))
  obtain ⟨l₁, l₂, hsplit, -⟩ := List.lookup_eq_some_iff.mp he
  obtain ⟨hkey, hseen⟩ := hkeyed.entry (makeColKey d, e) (by rw [hsplit]; simp)
  rw [he, makeColKey_inj hnames hd (mem_flatMap_eqCols.mp hseen) hkey]

end Keys

/-! ### The graph of equalities -/

section Graph
variable {conds : List Condition}

theorem mem_adjacency {key n : String} : n ∈ adjacency conds key ↔
    ∃ a b, ⟨a, .eq, .col b⟩ ∈ conds ∧ (makeColKey a = key ∧ n = makeColKey b ∨ makeColKey b = key ∧ n = makeColKey a) := by
  unfold adjacency
  rw [List.mem_flatMap]
  constructor
  · rintro ⟨⟨a, op, rhs⟩, hc, hn⟩
    cases op <;> cases rhs <;> simp only [List.not_mem_nil, List.mem_append] at hn
    next b =>
      refine ⟨a, b, hc, ?_⟩
      rcases hn with hn | hn <;> split at hn
      · next heq => exact Or.inl ⟨heq, List.mem_singleton.mp hn⟩
      · cases hn
      · next heq => exact Or.inr ⟨heq, List.mem_singleton.mp hn⟩
      · cases hn
  · rintro ⟨a, b, hc, ⟨rfl, rfl⟩ | ⟨rfl, rfl⟩⟩
    · exact ⟨_, hc, by simp⟩
    · exact ⟨_, hc, by simp⟩

theorem adjacency_symm (a b : String) (h : b ∈ adjacency conds a) : a ∈ adjacency conds b := by
  obtain ⟨c, d, hc, ⟨rfl, rfl⟩ | ⟨rfl, rfl⟩⟩ := mem_adjacency.mp h
  · exact mem_adjacency.mpr ⟨c, d, hc, Or.inr ⟨rfl, rfl⟩⟩
  · exact mem_adjacency.mpr ⟨c, d, hc, Or.inl ⟨rfl, rfl⟩⟩

theorem mentions_of_edge {a b : TabCol} (h : ⟨a, .eq, .col b⟩ ∈ conds) : Mentions conds a ∧ Mentions conds b :=
  ⟨⟨_, h, rfl, Or.inl rfl⟩, ⟨_, h, rfl, Or.inr rfl⟩⟩

theorem key_mem {d : TabCol} (h : Mentions conds d) : makeColKey d ∈ (keyToCol conds).map (·.1) :=
  (keyToCol_keyed conds).covers d (mem_flatMap_eqCols.mpr h)

theorem adjacency_subset (key : String) : adjacency conds key ⊆ (keyToCol conds).map (·.1) := by
  intro n hn
  obtain ⟨a, b, hc, ⟨-, rfl⟩ | ⟨-, rfl⟩⟩ := mem_adjacency.mp hn
  · exact key_mem (mentions_of_edge hc).2
  · exact key_mem (mentions_of_edge hc).1

theorem component_eq (conds : List Condition) (turns : Nat) (pending visited : List String) :
    component conds turns pending visited = Search.run (adjacency conds) turns pending visited := by
  induction turns generalizing pending visited with
  | zero => rfl
  | succ turns ih =>
    cases pending with
    | nil => rfl
    | cons current pending =>
      rw [component, Search.run, ← ih]
      rfl

/-- What equal columns have in common, all columns whose keys are in one component have. -/
theorem component_same (hnames : ∀ c ∈ conds, c.PlainNames) {β : Type} {f : TabCol → β}
    (hf : ∀ a b, ⟨a, .eq, .col b⟩ ∈ conds → f a = f b) {members : List String} (hcomp : Search.Component (adjacency conds) members)
    (hkeys : members ⊆ (keyToCol conds).map (·.1)) {d e : TabCol} (hd : Mentions conds d) (he : Mentions conds e)
    (hdm : makeColKey d ∈ members) (hem : makeColKey e ∈ members) : f d = f e := by
  obtain ⟨start, hstart, hreached⟩ := hcomp.reached
  obtain ⟨entry, hentry, rfl⟩ := List.mem_map.mp (hkeys hstart)
  obtain ⟨hkey, hseen⟩ := (keyToCol_keyed conds).entry entry hentry
  have hfirst := mem_flatMap_eqCols.mp hseen
  have hchain : ∀ m, ReflTransGen (fun a b => b ∈ adjacency conds a) entry.1 m → ∀ d, Mentions conds d → makeColKey d = m →
      f entry.2 = f d := by
    intro m hm
    induction hm with
    | refl => exact fun d hd heq => congrArg f (makeColKey_inj hnames hfirst hd (hkey.symm.trans heq.symm))
    | tail _ hstep ih =>
      intro d hd heq
      obtain ⟨a, b, hc, ⟨ha, rfl⟩ | ⟨hb, rfl⟩⟩ := mem_adjacency.mp hstep
      · obtain ⟨hma, hmb⟩ := mentions_of_edge hc
        rw [ih a hma ha, hf a b hc, makeColKey_inj hnames hmb hd heq.symm]
      · obtain ⟨hma, hmb⟩ := mentions_of_edge hc
        rw [ih b hmb hb, ← hf a b hc, makeColKey_inj hnames hma hd heq.symm]
  exact (hchain _ (hreached _ hdm) d hd rfl).symm.trans (hchain _ (hreached _ hem) e he rfl)

/-- Columns whose keys are in one component have one value. -/
theorem value_eq (hnames : ∀ c ∈ conds, c.PlainNames) {rel : CompOp → Value → Value → Prop} {value : TabCol → Value}
    (hholds : ∀ c ∈ conds, c.Holds rel value) {members : List String} (hcomp : Search.Component (adjacency conds) members)
    (hkeys : members ⊆ (keyToCol conds).map (·.1)) {d e : TabCol} (hd : Mentions conds d) (he : Mentions conds e)
    (hdm : makeColKey d ∈ members) (hem : makeColKey e ∈ members) : value d = value e :=
  component_same hnames (fun _ _ hc => hholds _ hc) hcomp hkeys hd he hdm hem

/-- Columns that equalities connect are named by them or not together, and have their keys in the same components. -/
theorem Connected.together {a b : TabCol} (h : Connected conds a b) : (Mentions conds a ↔ Mentions conds b) ∧
    ∀ members, Search.Component (adjacency conds) members → (makeColKey a ∈ members ↔ makeColKey b ∈ members) := by
  induction h with
  | rel a b hc =>
    obtain ⟨ha, hb⟩ := mentions_of_edge hc
    have hab : makeColKey b ∈ adjacency conds (makeColKey a) := mem_adjacency.mpr ⟨a, b, hc, Or.inl ⟨rfl, rfl⟩⟩
    refine ⟨iff_of_true ha hb, fun members hcomp => ⟨fun h => hcomp.closed _ h hab, fun h => ?_⟩⟩
    exact hcomp.closed _ h (adjacency_symm _ _ hab)
  | refl a => exact ⟨Iff.rfl, fun members _ => Iff.rfl⟩
  | symm a b _ ih => exact ⟨ih.1.symm, fun members hcomp => (ih.2 members hcomp).symm⟩
  | trans a b c _ _ ih ih' => exact ⟨ih.1.trans ih'.1, fun members hcomp => (ih.2 members hcomp).trans (ih'.2 members hcomp)⟩

end Graph

/-! ### Constants -/

section Constants
variable {conds : List Condition}

theorem Value.eq_trans {u v w : Value} (huv : u.eq v = true) (hvw : v.eq w = true) : u.eq w = true := by
  cases u <;> cases v <;> simp only [Value.eq, Bool.false_eq_true] at huv <;> cases w <;>
    simp only [Value.eq, Bool.false_eq_true] at hvw ⊢
  · simp_all
  · simp only [floatEq, Bool.and_eq_true, decide_eq_true_eq] at *
    exact ⟨⟨huv.1.1, hvw.1.2⟩, huv.2.trans hvw.2⟩
  · simp_all

theorem SameConst.trans {u v w : Value} (huv : SameConst u v) (hvw : SameConst v w) : SameConst u w := by
  rcases huv with rfl | huv
  · exact hvw
  · rcases hvw with rfl | hvw
    · exact Or.inr huv
    · exact Or.inr (Value.eq_trans huv hvw)

theorem mem_constantsByCol {key : String} {v : Value} {raw : Bytes} :
    (v, raw) ∈ constantsByCol conds key ↔ ∃ a, makeColKey a = key ∧ ⟨a, .eq, .val v raw⟩ ∈ conds := by
  unfold constantsByCol
  rw [List.mem_filterMap]
  constructor
  · rintro ⟨⟨a, op, rhs⟩, hc, hval⟩
    cases op <;> cases rhs <;> simp only [reduceCtorEq] at hval
    split at hval
    · next heq =>
      cases hval
      exact ⟨a, heq, hc⟩
    · cases hval
  · rintro ⟨a, rfl, hc⟩
    exact ⟨_, hc, if_pos rfl⟩

theorem componentConstants_spec (keys : List String) :
    (∀ p ∈ componentConstants conds keys, p ∈ keys.flatMap (constantsByCol conds)) ∧
      ∀ p ∈ keys.flatMap (constantsByCol conds), ∃ q ∈ componentConstants conds keys, SameConst q.1 p.1 := by
  have h : ∀ (l vs : List (Value × Bytes)),
      (∀ p ∈ l.foldl (fun vs v => if vs.any fun w => w.1.eq v.1 then vs else vs ++ [v]) vs, p ∈ vs ++ l) ∧
      (∀ p ∈ vs ++ l, ∃ q ∈ l.foldl (fun vs v => if vs.any fun w => w.1.eq v.1 then vs else vs ++ [v]) vs, SameConst q.1 p.1) := by
    intro l
    induction l with
    | nil =>
      intro vs
      rw [List.append_nil]
      exact ⟨fun p hp => hp, fun p hp => ⟨p, hp, Or.inl rfl⟩⟩
    | cons v l ih =>
      intro vs
      rw [List.foldl_cons]
      by_cases hany : (vs.any fun w => w.1.eq v.1) = true
      · rw [if_pos hany]
        obtain ⟨hsub, hcov⟩ := ih vs
        refine ⟨fun p hp => ?_, fun p hp => ?_⟩
        · rcases List.mem_append.mp (hsub p hp) with hp | hp
          · exact List.mem_append_left _ hp
          · exact List.mem_append_right _ (List.mem_cons_of_mem v hp)
        · rcases List.mem_append.mp hp with hp | hp
          · exact hcov p (List.mem_append_left _ hp)
          · rcases List.mem_cons.mp hp with rfl | hp
            · obtain ⟨w, hw, heq⟩ := List.any_eq_true.mp hany
              obtain ⟨q, hq, hsame⟩ := hcov w (List.mem_append_left _ hw)
              exact ⟨q, hq, hsame.trans (Or.inr heq)⟩
            · exact hcov p (List.mem_append_right _ hp)
      · rw [if_neg hany]
        simpa only [List.append_assoc, List.singleton_append] using ih (vs ++ [v])
  exact h _ []

end Constants

/-! ### The conditions that are added -/

section Added
variable {conds : List Condition}

/-- One turn of the loop that adds conditions. -/
def addCond (conds out : List Condition) (p : TabCol × (Value × Bytes)) : List Condition :=
  if conds.any (isEqConst p.1 p.2.1) || out.any (isEqConst p.1 p.2.1) then out else out ++ [⟨p.1, .eq, .val p.2.1 p.2.2⟩]

/-- The columns of a component with its constants. -/
def candidates (conds : List Condition) (members : List String) : List (TabCol × (Value × Bytes)) :=
  (members.filterMap ((keyToCol conds).lookup ·)).flatMap fun col => (componentConstants conds members).map fun v => (col, v)

/-- The components in the order in which they are found. -/
def components (stl : Stl) (conds : List Condition) : List (List String) :=
  Search.sweep (adjacency conds) ((keyToCol conds).length + 1)
    ((pick (keyToCol conds) (stl.order ((keyToCol conds).map fun e => stl.hash e.1))).map (·.1)) []

theorem foldl_candidates (members : List String) (out : List Condition) :
    (members.filterMap ((keyToCol conds).lookup ·)).foldl (fun out col => (componentConstants conds members).foldl
      (fun out v => if conds.any (isEqConst col v.1) || out.any (isEqConst col v.1) then out
        else out ++ [⟨col, .eq, .val v.1 v.2⟩]) out) out = (candidates conds members).foldl (addCond conds) out := by
  rw [candidates, List.foldl_flatMap]
  congr 1
  funext out col
  rw [List.foldl_map]
  rfl

/-- One turn of the loop over `key_to_col`. -/
def propagateFrom (conds : List Condition) (p : List String × List Condition) (start : String × TabCol) :
    List String × List Condition :=
  if start.1 ∈ p.1 then p
  else
    let q := Search.run (adjacency conds) ((keyToCol conds).length + 1) [start.1] (p.1 ++ [start.1])
    (q.2, (candidates conds q.1).foldl (addCond conds) p.2)

theorem foldl_propagateFrom (starts : List (String × TabCol)) (visited : List String) (out : List Condition) :
    (starts.foldl (propagateFrom conds) (visited, out)).2 =
      ((Search.sweep (adjacency conds) ((keyToCol conds).length + 1) (starts.map (·.1)) visited).flatMap
        (candidates conds)).foldl (addCond conds) out := by
  induction starts generalizing visited out with
  | nil => rfl
  | cons start starts ih =>
    rw [List.foldl_cons, List.map_cons, Search.sweep, propagateFrom]
    by_cases hmem : start.1 ∈ visited
    · rw [if_pos hmem, if_pos hmem]
      exact ih visited out
    · rw [if_neg hmem, if_neg hmem, ih, List.flatMap_cons, List.foldl_append]

/-- The loop over the starts adds the candidates of one component after the other. -/
theorem propagate_eq (stl : Stl) (conds : List Condition) : propagateEqualityConstants stl conds =
    conds ++ ((components stl conds).flatMap (candidates conds)).foldl (addCond conds) [] := by
  unfold components
  rw [← foldl_propagateFrom, propagateEqualityConstants]
  simp only [component_eq, foldl_candidates]
  rfl

theorem isEqConst_iff {col : TabCol} {v : Value} {c : Condition} :
    isEqConst col v c = true ↔ ∃ w raw, c = ⟨col, .eq, .val w raw⟩ ∧ w.eq v = true := by
  obtain ⟨lhs, op, rhs⟩ := c
  cases rhs <;> simp [isEqConst, and_assoc]

/-- Candidates are added only, and each is there in the end with its constant. -/
theorem foldl_addCond (conds : List Condition) (l : List (TabCol × (Value × Bytes))) (out : List Condition) :
    out ⊆ l.foldl (addCond conds) out ∧
    (∀ c ∈ l.foldl (addCond conds) out, c ∈ out ∨ ∃ p ∈ l, c = ⟨p.1, .eq, .val p.2.1 p.2.2⟩) ∧
    ∀ p ∈ l, ∃ w raw, ⟨p.1, .eq, .val w raw⟩ ∈ conds ++ l.foldl (addCond conds) out ∧ SameConst w p.2.1 := by
  induction l generalizing out with
  | nil => exact ⟨List.Subset.refl _, fun c hc => Or.inl hc, fun p hp => (by cases hp)⟩
  | cons p l ih =>
    rw [List.foldl_cons]
    obtain ⟨hsub, hmem, hcov⟩ := ih (addCond conds out p)
    have hstep : out ⊆ addCond conds out p ∧ (∀ c ∈ addCond conds out p, c ∈ out ∨ c = ⟨p.1, .eq, .val p.2.1 p.2.2⟩) ∧
        ∃ w raw, ⟨p.1, .eq, .val w raw⟩ ∈ conds ++ addCond conds out p ∧ SameConst w p.2.1 := by
      unfold addCond
      by_cases hany : (conds.any (isEqConst p.1 p.2.1) || out.any (isEqConst p.1 p.2.1)) = true
      · rw [if_pos hany, ← List.any_append] at *
        obtain ⟨c, hc, hconst⟩ := List.any_eq_true.mp hany
        obtain ⟨w, raw, rfl, heq⟩ := isEqConst_iff.mp hconst
        exact ⟨List.Subset.refl _, fun c hc => Or.inl hc, w, raw, hc, Or.inr heq⟩
      · rw [if_neg hany]
        refine ⟨List.subset_append_left _ _, fun c hc => ?_, p.2.1, p.2.2, by simp, Or.inl rfl⟩
        exact (List.mem_append.mp hc).imp_right List.mem_singleton.mp
    refine ⟨fun c hc => hsub (hstep.1 hc), fun c hc => ?_, List.forall_mem_cons.mpr ⟨?_, hcov⟩⟩
    · rcases hmem c hc with hc | ⟨q, hq, rfl⟩
      · exact (hstep.2.1 c hc).imp_right fun heq => ⟨p, List.mem_cons_self .., heq⟩
      · exact Or.inr ⟨q, List.mem_cons_of_mem p hq, rfl⟩
    · obtain ⟨w, raw, hw, hsame⟩ := hstep.2.2
      refine ⟨w, raw, ?_, hsame⟩
      rcases List.mem_append.mp hw with hw | hw
      · exact List.mem_append_left _ hw
      · exact List.mem_append_right _ (hsub hw)

theorem components_spec (stl : Stl) (conds : List Condition) :
    (∀ members ∈ components stl conds, Search.Component (adjacency conds) members ∧ members ⊆ (keyToCol conds).map (·.1)) ∧
      ∀ key ∈ (keyToCol conds).map (·.1), ∃ members ∈ components stl conds, key ∈ members := by
  have hperm : (pick (keyToCol conds) (stl.order ((keyToCol conds).map fun e => stl.hash e.1))).Perm (keyToCol conds) := by
    have := stl.order_perm ((keyToCol conds).map fun e => stl.hash e.1)
    rw [List.length_map] at this
    exact pick_perm this
  obtain ⟨hcomp, hcov⟩ := Search.sweep_spec adjacency_symm (fun v _ => adjacency_subset v)
    (Nat.le_succ_of_le (Nat.le_of_eq (List.length_map _)))
    (fun v hv => (hperm.map _).mem_iff.mp hv) (List.nil_subset _) List.nodup_nil fun v hv => (by cases hv)
  refine ⟨hcomp, fun key hkey => ?_⟩
  exact (hcov key ((hperm.map _).mem_iff.mpr hkey)).resolve_left fun h => (by cases h)

/-- The columns of a component come with its constants. -/
theorem mem_candidates {members : List String} {d : TabCol} {v : Value} {raw : Bytes}
    (h : (d, (v, raw)) ∈ candidates conds members) :
    Mentions conds d ∧ makeColKey d ∈ members ∧ ∃ a, ⟨a, .eq, .val v raw⟩ ∈ conds ∧ makeColKey a ∈ members := by
  obtain ⟨col, hcol, hp⟩ := List.mem_flatMap.mp h
  obtain ⟨q, hq, heq⟩ := List.mem_map.mp hp
  cases heq
  obtain ⟨key, hkey, hlookup⟩ := List.mem_filterMap.mp hcol
  obtain ⟨l₁, l₂, hsplit, -⟩ := List.lookup_eq_some_iff.mp hlookup
  obtain ⟨hkd, hseen⟩ := (keyToCol_keyed conds).entry (key, d) (by rw [hsplit]; simp)
  obtain ⟨key', hkey', hconst⟩ := List.mem_flatMap.mp ((componentConstants_spec members).1 _ hq)
  obtain ⟨a, rfl, hc⟩ := mem_constantsByCol.mp hconst
  exact ⟨mem_flatMap_eqCols.mp hseen, hkd ▸ hkey, a, hc, hkey'⟩

theorem candidates_mem (hnames : ∀ c ∈ conds, c.PlainNames) {members : List String} {a b : TabCol} {v : Value} {raw : Bytes}
    (hb : Mentions conds b) (hbm : makeColKey b ∈ members) (hc : ⟨a, .eq, .val v raw⟩ ∈ conds) (ham : makeColKey a ∈ members) :
    ∃ w raw', (b, (w, raw')) ∈ candidates conds members ∧ SameConst w v := by
  have hconst : (v, raw) ∈ members.flatMap (constantsByCol conds) :=
    List.mem_flatMap.mpr ⟨_, ham, mem_constantsByCol.mpr ⟨a, rfl, hc⟩⟩
  obtain ⟨⟨w, raw'⟩, hw, hsame⟩ := (componentConstants_spec members).2 _ hconst
  exact ⟨w, raw', List.mem_flatMap.mpr ⟨b, List.mem_filterMap.mpr ⟨_, hbm, lookup_key hnames hb⟩,
    List.mem_map.mpr ⟨_, hw, rfl⟩⟩, hsame⟩

end Added

/-! ### `propagate_equality_constants_in_place` -/

section Propagate
variable {conds : List Condition}

theorem propagate_same (stl : Stl) (hnames : ∀ c ∈ conds, c.PlainNames) (rel : CompOp → Value → Value → Prop)
    (value : TabCol → Value) :
    (∀ c ∈ propagateEqualityConstants stl conds, c.Holds rel value) ↔ ∀ c ∈ conds, c.Holds rel value := by
  rw [propagate_eq]
  refine ⟨fun h c hc => h c (List.mem_append_left _ hc), fun h c hc => ?_⟩
  rcases List.mem_append.mp hc with hc | hc
  · exact h c hc
  · obtain ⟨-, hmem, -⟩ := foldl_addCond conds ((components stl conds).flatMap (candidates conds)) []
    rcases hmem c hc with hc | ⟨⟨d, v, raw⟩, hp, rfl⟩
    · cases hc
    obtain ⟨members, hmembers, hp⟩ := List.mem_flatMap.mp hp
    obtain ⟨hcomp, hkeys⟩ := (components_spec stl conds).1 members hmembers
    obtain ⟨hd, hdm, a, ha, ham⟩ := mem_candidates hp
    have hval : value a = v := h _ ha
    have heq := value_eq hnames h hcomp hkeys hd ⟨_, ha, rfl, Or.inl rfl⟩ hdm ham
    exact heq.trans hval

/-- A condition that is added gives a column a constant of one that equalities connect with it. -/
theorem propagate_added (stl : Stl) (hnames : ∀ c ∈ conds, c.PlainNames) :
    ∃ added, propagateEqualityConstants stl conds = conds ++ added ∧ ∀ c ∈ added, ∃ d a v raw, c = ⟨d, .eq, .val v raw⟩ ∧
      ⟨a, .eq, .val v raw⟩ ∈ conds ∧ Mentions conds d ∧
      ∀ {β : Type} (f : TabCol → β), (∀ x y, ⟨x, .eq, .col y⟩ ∈ conds → f x = f y) → f d = f a := by
  refine ⟨_, propagate_eq stl conds, fun c hc => ?_⟩
  obtain ⟨-, hmem, -⟩ := foldl_addCond conds ((components stl conds).flatMap (candidates conds)) []
  rcases hmem c hc with hc | ⟨⟨d, v, raw⟩, hp, rfl⟩
  · cases hc
  obtain ⟨members, hmembers, hp⟩ := List.mem_flatMap.mp hp
  obtain ⟨hcomp, hkeys⟩ := (components_spec stl conds).1 members hmembers
  obtain ⟨hd, hdm, a, ha, ham⟩ := mem_candidates hp
  exact ⟨d, a, v, raw, rfl, ha, hd, fun f hf => component_same hnames hf hcomp hkeys hd ⟨_, ha, rfl, Or.inl rfl⟩ hdm ham⟩

theorem propagate_complete (stl : Stl) (hnames : ∀ c ∈ conds, c.PlainNames) {a b : TabCol} {v : Value} {raw : Bytes}
    (hab : Connected conds a b) (ha : ⟨a, .eq, .val v raw⟩ ∈ conds) :
    ∃ w raw', ⟨b, .eq, .val w raw'⟩ ∈ propagateEqualityConstants stl conds ∧ SameConst w v := by
  have hma : Mentions conds a := ⟨_, ha, rfl, Or.inl rfl⟩
  obtain ⟨hmentions, htogether⟩ := hab.together
  obtain ⟨members, hmembers, ham⟩ := (components_spec stl conds).2 _ (key_mem hma)
  have hcomp := ((components_spec stl conds).1 members hmembers).1
  have hbm := (htogether members hcomp).mp ham
  obtain ⟨w, raw', hcand, hsame⟩ := candidates_mem hnames (hmentions.mp hma) hbm ha ham
  obtain ⟨-, -, hcov⟩ := foldl_addCond conds ((components stl conds).flatMap (candidates conds)) []
  obtain ⟨u, raw'', hu, hsame'⟩ := hcov _ (List.mem_flatMap.mpr ⟨members, hmembers, hcand⟩)
  rw [propagate_eq]
  exact ⟨u, raw'', hu, hsame'.trans hsame⟩

/-- The search for the columns that are connected with one ends, whatever was visited before. -/
def SearchesEnd (conds : List Condition) : Prop :=
  ∀ start ∈ (keyToCol conds).map (·.1), ∀ visited, visited.Nodup → visited ⊆ (keyToCol conds).map (·.1) → start ∉ visited →
    Search.Ends (adjacency conds) [start] (visited ++ [start])
      (component conds ((keyToCol conds).length + 1) [start] (visited ++ [start])).1
      (component conds ((keyToCol conds).length + 1) [start] (visited ++ [start])).2

theorem searchesEnd (conds : List Condition) : SearchesEnd conds := by
  intro start hstart visited hnodup hvisited hnew
  rw [component_eq]
  exact Search.start_ends (fun v _ => adjacency_subset v) (Nat.le_succ_of_le (Nat.le_of_eq (List.length_map _))) hstart hnew
    hvisited hnodup

/-- Constants are propagated along equalities. -/
theorem propagateEqualityConstants_propagated (stl : Stl) (hnames : ∀ c ∈ conds, c.PlainNames) :
    SearchesEnd conds ∧ Propagated conds (propagateEqualityConstants stl conds) :=
  ⟨searchesEnd conds, ⟨_, propagate_eq stl conds⟩, propagate_same stl hnames,
    fun _ _ _ _ hab ha => propagate_complete stl hnames hab ha⟩

/-- `t.a = 5`, `t.a = u.b`, `u.b = t.c`, `t.c = t.a` and `u.b < 7`. -/
def cycle : List Condition := [⟨⟨"t", "a"⟩, .eq, .val (.int 5) []⟩, ⟨⟨"t", "a"⟩, .eq, .col ⟨"u", "b"⟩⟩,
  ⟨⟨"u", "b"⟩, .eq, .col ⟨"t", "c"⟩⟩, ⟨⟨"t", "c"⟩, .eq, .col ⟨"t", "a"⟩⟩, ⟨⟨"u", "b"⟩, .lt, .val (.int 7) []⟩]

theorem cycle_plainNames : ∀ c ∈ cycle, c.PlainNames := by
  simp [cycle, Condition.PlainNames]

theorem propagateEqualityConstants_propagated_cycle :
    SearchesEnd cycle ∧ Propagated cycle (propagateEqualityConstants insertionStl cycle) :=
  propagateEqualityConstants_propagated insertionStl cycle_plainNames

end Propagate

end Rmdb.Sql
