import Rmdb.Theorems.Index.Session

/-! The sizes of the nodes: when a run of calls keeps two children under an internal root. -/

namespace Rmdb
open Ladder

namespace IxIndexHandle
variable {K : Type}

/-! ### Merges on the pages -/

theorem shape_append {A B : IxLevel K} : shape (A ++ B) = shape A ++ shape B := by simp [shape]

theorem cut_of_shape {C D U : IxLevel K} {u : Block Int K Rid} {E F : List (K × Rid)} {e : K × Rid}
    (hs : shape U = shape (C ++ u :: D)) (hu : u.entries = E ++ e :: F) :
    ∃ C' u' D' E' e' F', U = C' ++ u' :: D' ∧ shape C' = shape C ∧ shape D' = shape D ∧ u'.id = u.id ∧
      u'.entries = E' ++ e' :: F' ∧ E'.length = E.length ∧ F'.length = F.length ∧ e'.2 = e.2 := by
  rw [shape_append] at hs
  obtain ⟨C', U', rfl, hC, hU⟩ := List.map_eq_append_iff.mp hs
  obtain ⟨u', D', rfl, hu', hD⟩ := List.map_eq_cons_iff.mp hU
  obtain ⟨hid, hvals⟩ := Prod.mk.inj hu'
  rw [hu, List.map_append, List.map_cons] at hvals
  obtain ⟨E', G, hE, hE', hG⟩ := List.map_eq_append_iff.mp hvals
  obtain ⟨e', F', rfl, he, hF⟩ := List.map_eq_cons_iff.mp hG
  exact ⟨C', u', D', E', e', F', rfl, hC, hD, hid, hE, by simpa using congrArg List.length hE',
    by simpa using congrArg List.length hF, he⟩

theorem ends_of_shape {B B' : IxLevel K} (hs : shape B' = shape B) (pick : ∀ {α : Type}, List α → Option α)
    (hpick : ∀ {α β : Type} (g : α → β) (l : List α), pick (l.map g) = (pick l).map g) {m : Block Int K Rid}
    (hm : pick B' = some m) : ∃ m', pick B = some m' ∧ m'.entries.length = m.entries.length := by
  have h := congrArg pick hs
  rw [shape, shape, hpick, hpick, hm, Option.map_some, eq_comm, Option.map_eq_some_iff] at h
  obtain ⟨m', hm', heq⟩ := h
  exact ⟨m', hm', by simpa using congrArg (fun x => x.2.length) heq⟩

theorem cut_unique {A B A' B' : IxLevel K} {n b : Block Int K Rid} (hd : (ids (A ++ n :: B)).Nodup)
    (h : A ++ n :: B = A' ++ b :: B') (hid : b.id = n.id) : A' = A ∧ b = n ∧ B' = B := by
  have hbn : b = n := List.inj_on_of_nodup_map hd (by simp [h]) (by simp) hid
  subst hbn
  rw [ids_append, ids_cons, List.nodup_append, List.nodup_cons] at hd
  have hA : b ∉ A := fun hb => hd.2.2 b.id (mem_ids_of_mem hb) b.id (by simp) rfl
  have hB : b ∉ B := fun hb => hd.2.1.1 (mem_ids_of_mem hb)
  obtain ⟨rfl, -, rfl⟩ := (List.append_cons_inj_of_notMem hA hB).mp h
  exact ⟨rfl, rfl, rfl⟩

section Pages
variable [Preorder K] {f : IxFormat K} (hf : f.Lawful) {s : IxIndexHandle K}
include hf

/-- The page of the sibling that is merged with a node: left of it, or right of it for a first child. -/
theorem siblingOf_eq {A B C D : IxLevel K} {u : Block Int K Rid} {E F : List (K × Rid)} {e : K × Rid} {w : IxNode K}
    {m : Block Int K Rid} (hw : w.pairs = E ++ e :: F) (hE : ∀ x ∈ E, x.2.pageNo ≠ e.2.pageNo)
    (hA : List.Forall₂ (Names Rid.pageNo) A (flat C ++ E)) (hB : List.Forall₂ (Names Rid.pageNo) B (F ++ flat D))
    (hu : u.entries = E ++ e :: F) (hfill : Filled f (C ++ u :: D))
    (hside : E = [] ∧ B.head? = some m ∨ E ≠ [] ∧ A.getLast? = some m) : siblingOf w e.2.pageNo = some m.id := by
  rw [siblingOf, hw, findIdx_child hE]
  rcases hside with ⟨rfl, hm⟩ | ⟨hne, hm⟩
  · obtain ⟨B, rfl⟩ : ∃ B', B = m :: B' := by
      cases B with
      | nil => cases hm
      | cons b B =>
        cases hm
        exact ⟨B, rfl⟩
    -- the sibling is a child of the same node, which has more children than one
    have hF : F ≠ [] := by
      rintro rfl
      rcases hfill.least with ⟨c, hc⟩ | hmin
      · obtain ⟨-, rfl, -⟩ := alone hc
        cases hB
      · have h1 := hmin u (by simp)
        have h2 := hf.two_le_minSize
        rw [hu] at h1
        simp at h1
        omega
    obtain ⟨e₂, F, rfl⟩ := List.exists_cons_of_ne_nil hF
    cases hB with
    | cons hname _ => simp [hname.1]
  · obtain ⟨A, rfl⟩ : ∃ A', A = A' ++ [m] := List.getLast?_eq_some_iff.mp hm
    obtain ⟨E, e₀, rfl⟩ := (List.eq_nil_or_concat E).resolve_left hne
    rw [List.concat_eq_append, ← List.append_assoc] at hA
    obtain ⟨Y, Z, hYZ, -, hZ⟩ := forall₂_append_left hA
    obtain ⟨y, rfl, hname⟩ := forall₂_length_one hZ rfl
    obtain rfl : e₀ = y := List.singleton_inj.mp (List.append_inj' hYZ rfl).2
    simp [hname.1]

/-- The merges up to the root, as the pages show them before the deletion. -/
theorem MergesUp.on_pages {Us : List (IxLevel K)} : ∀ {leaf : Bool} {A B A' B' : IxLevel K} {n v : Block Int K Rid}
    {Ws : List (IxLevel K)} {fuel : Nat}, Tower s leaf (A ++ n :: B) Us → (∀ U ∈ Us, Filled f U) → shape A' = shape A →
      shape B' = shape B → v.id = n.id → v.entries.length + 1 = n.entries.length → Ws.map shape = Us.map shape →
      Us.length ≤ fuel → MergesUp f A' v B' Ws → mergesUp f s fuel n.id = true := by
  induction Us with
  | nil =>
    intro leaf A B A' B' n v Ws fuel T _ _ _ _ _ hW _ h
    rw [List.map_nil, List.map_eq_nil_iff] at hW
    subst hW
    exact h.elim
  | cons U Us ih =>
    intro leaf A B A' B' n v Ws fuel T hfill hA' hB' hid hlen hW hfuel h
    cases Ws with
    | nil => cases hW
    | cons W Ws =>
      obtain ⟨hWU, hWs⟩ := List.cons.inj hW
      obtain ⟨fuel, rfl⟩ : ∃ m, fuel = m + 1 := ⟨fuel - 1, by simp at hfuel; omega⟩
      obtain ⟨hmin, C, u, D, E, e, F, rfl, hu, hen, ⟨m, hm, hside⟩, hup⟩ := h
      obtain ⟨C', u', D', E', e', F', rfl, hC, hD, huid, hu', hE, hF, he⟩ := cut_of_shape hWU.symm hu
      obtain ⟨hU, hUs⟩ := List.forall_mem_cons.mp hfill
      obtain ⟨hl, hst, hpar, -⟩ := T.above
      have hd := (List.nodup_append.mp T.nodup).1
      -- the slot names the node itself
      have hen' : e'.2.pageNo = n.id := by rw [he, hen, hid]
      obtain ⟨A₁, b, B₁, hsplit, hname, hA, hB⟩ := hl.named hu'
      obtain ⟨rfl, rfl, rfl⟩ := cut_unique hd hsplit (hname.1.symm.trans hen')
      obtain ⟨c, hc, -, hcp, hcpar⟩ := exists_node (T.stored b (by simp)) (hen' ▸ hpar u' (by simp) e' (by simp [hu']))
      obtain ⟨q, hq⟩ := T.upper.above.exists_parentOf (b := u') (by simp)
      obtain ⟨w, hw, -, hwp, hwpar⟩ := exists_node (hst u' (by simp)) hq
      obtain ⟨m', hm', hmem, hside'⟩ : ∃ m', m'.entries.length = f.minSize ∧ m' ∈ A₁ ++ b :: B₁ ∧
          (E' = [] ∧ B₁.head? = some m' ∨ E' ≠ [] ∧ A₁.getLast? = some m') := by
        rcases hside with ⟨rfl, hm'⟩ | ⟨hne, hm'⟩
        · obtain ⟨m', hm₁, hlen'⟩ := ends_of_shape hB' (·.head?) (fun g l => List.head?_map) hm'
          exact ⟨m', hlen'.trans hm, by simp [List.mem_of_mem_head? hm₁], Or.inl ⟨List.length_eq_zero_iff.mp hE, hm₁⟩⟩
        · obtain ⟨m', hm₁, hlen'⟩ := ends_of_shape hA' (·.getLast?) (fun g l => List.getLast?_map) hm'
          refine ⟨m', hlen'.trans hm, by simp [List.mem_of_getLast? hm₁], Or.inr ⟨?_, hm₁⟩⟩
          rintro rfl
          exact hne (List.length_eq_zero_iff.mp hE.symm)
      have hsib : siblingOf w b.id = some m'.id := by
        rw [← hen']
        refine siblingOf_eq hf (hwp.trans hu') (slots_ne (names_but 0 hA) ?_) hA hB hu' hU hside'
        rw [hen']
        intro hmemA
        rw [ids_append, ids_cons, List.nodup_append] at hd
        exact hd.2.2 b.id hmemA b.id (by simp) rfl
      obtain ⟨x, hx, -, hxp⟩ := content_eq_some.mp (T.stored m' hmem)
      have hcsize : c.size = f.minSize := by rw [IxNode.size, hcp]; omega
      have hxsize : x.size = f.minSize := by rw [IxNode.size, hxp, hm']
      have hwsize : w.size = u.entries.length := by rw [IxNode.size, hwp, hu', hu]; simp [hE, hF]
      have hrest : (if w.isRootPage then w.size == 2 else mergesUp f s fuel u'.id) = true := by
        rcases hup with ⟨rfl, htwo⟩ | ⟨u'', hid'', hlen'', hup⟩
        · obtain rfl : Us = [] := by simpa using hWs.symm
          obtain ⟨r, hr, hrpar, -⟩ := T.upper.above
          obtain ⟨-, -, rfl⟩ := alone hr
          rw [hrpar, Option.some.injEq] at hq
          simp [IxNode.isRootPage, hwpar, ← hq, hwsize, htwo]
        · have hroot : w.isRootPage = false := by
            rcases T.upper.above.parentOf_eq (b := u') (by simp) with ⟨rfl, -⟩ | ⟨r, hr, hrpar⟩
            · rw [List.map_nil, List.map_eq_nil_iff] at hWs
              subst hWs
              exact hup.elim
            · rw [hrpar, Option.some.injEq] at hq
              have := (T.bound r (by simp [hr])).1
              simp only [IxNode.isRootPage, hwpar, ← hq, beq_eq_false_iff_ne, ixNoPage]
              omega
          rw [hroot]
          have hulen : u''.entries.length + 1 = u'.entries.length := by rw [hlen'', hu, hu']; simp [hE, hF]
          exact ih T.upper hUs hC.symm hD.symm (hid''.trans huid.symm) hulen hWs (by simpa using hfuel) hup
      simp only [mergesUp, hc, hcpar, hw, hsib, Option.bind_some, hx, Option.any_some, hcsize, hxsize, beq_self_eq_true,
        Bool.true_and, hrest]

end Pages

/-! ### Sizes -/

theorem Wide.two_le {L V : IxLevel K} {Us pre post : List (IxLevel K)} (h : Wide L Us) (hsplit : L :: Us = pre ++ V :: post)
    (hpost : post ≠ []) : 2 ≤ V.length := by
  induction pre generalizing L Us with
  | nil =>
    obtain ⟨rfl, rfl⟩ := List.cons.inj hsplit
    cases Us with
    | nil => exact absurd rfl hpost
    | cons U Us => exact h.1
  | cons P pre ih =>
    obtain ⟨-, rfl⟩ := List.cons.inj hsplit
    cases pre with
    | nil => exact ih h.2 rfl
    | cons Q pre => exact ih h.2 rfl

section Sizes
variable [Preorder K] {f : IxFormat K} (hf : f.Lawful) {s : IxIndexHandle K} {L : IxLevel K} {Us : List (IxLevel K)}
  (T : Tree f s L Us)
include hf T

/-- A tree with several nodes on every level but the top one has the right sizes. -/
theorem Tree.wellSized (hw : Wide L Us) : WellSized f s where
  least p d n hat hne := by
    obtain ⟨pre, post, A, b, B, hsplit, -, rfl⟩ := T.block_at hf hat.1
    obtain ⟨m, hm, -, hpairs⟩ := content_eq_some.mp (T.stored_at hsplit b (by simp))
    rw [hat.2] at hm
    cases hm
    rw [IxNode.size, hpairs]
    rcases (T.filled_at hsplit).least with ⟨c, hc⟩ | hmin
    · -- a node alone on its level is the root
      have hpost : post = [] := by
        by_contra hpost
        have := hw.two_le hsplit hpost
        rw [hc] at this
        simp at this
      subst hpost
      obtain ⟨pre', r, htop, hr⟩ := T.tower.above.top
      rw [htop] at hsplit
      obtain ⟨-, h⟩ := List.append_inj' hsplit rfl
      obtain ⟨-, -, rfl⟩ := alone (List.singleton_inj.mp h).symm
      exact absurd hr hne
    · exact hmin b (by simp)
  most p d n hat := by
    obtain ⟨pre, post, A, b, B, hsplit, -, rfl⟩ := T.block_at hf hat.1
    obtain ⟨m, hm, -, hpairs⟩ := content_eq_some.mp (T.stored_at hsplit b (by simp))
    rw [hat.2] at hm
    cases hm
    have := (T.filled_at hsplit).most b (by simp)
    rw [IxNode.size, hpairs, IxFormat.maxSize]
    omega
  root d n hat hleaf := by
    obtain ⟨pre, r, htop, hr⟩ := T.tower.above.top
    obtain ⟨m, hm, hmleaf, hpairs⟩ := content_eq_some.mp (T.stored_at htop r (by simp))
    rw [hr, hat.2] at hm
    cases hm
    rcases List.eq_nil_or_concat pre with rfl | ⟨pre, W, rfl⟩
    · simp [hleaf] at hmleaf
    · have htop' : L :: Us = pre ++ W :: [[r]] := by simpa using htop
      have hlen := List.Forall₂.length_eq (T.tower.above.next htop').1
      have htwo := hw.two_le htop' (by simp)
      rw [IxNode.size, hpairs]
      simpa [hlen] using htwo

end Sizes

section Runs
variable [Preorder K] [DecidableEq K] {f : IxFormat K} (hf : f.Lawful) {s : IxIndexHandle K} {L : IxLevel K}
  {Us : List (IxLevel K)}
include hf

/-- A deletion that does not leave the root with one child keeps several nodes on every level below the root. -/
theorem deleteEntry_wide (T : Tree f s L Us) (hw : Wide L Us) {key : K} {e : K × Rid} (he : e ∈ flat L) (hk : Same e.1 key)
    (hroot : rootLosesChild f s key = false) :
    ∃ t M Vs, s.deleteEntry f key = .ok (t, true) ∧ Tree f t M Vs ∧ Wide M Vs := by
  obtain ⟨t, M, Vs, hrun, hdel, A, n, v, B, Ws, hL, hfind, hid, hlen, hshape, hwide⟩ := deleteEntry_present hf T he hk
  refine ⟨t, M, Vs, hrun, hdel.tree, hwide hw fun hup => ?_⟩
  subst hL
  obtain ⟨m, hm, -, -⟩ := content_eq_some.mp (T.tower.stored n (by simp))
  have hfuel : Us.length ≤ s.filePages := by
    have h1 := T.tower.height
    have h2 := T.counters.file
    omega
  have hmerges := MergesUp.on_pages hf T.tower T.filledUp rfl rfl hid hlen hshape hfuel hup
  have hfound : m.leafLookup f key = some e.2 := by
    have hval := getValue_eq hf T key
    rw [getValue, hfind, ok_bind, fetchNode_ok hm, ok_bind, Except.ok.injEq,
      (valueOf_eq_some hf T.ascending).mpr ⟨e, he, hk, rfl⟩] at hval
    exact hval
  simp [rootLosesChild, hfind, hm, hfound, hmerges] at hroot

/-- The sizes are right in every state of a run whose deletions leave the root two children. -/
theorem wellSized_run (T : Tree f s L Us) (hw : Wide L Us) {cs : List (IxCall K)}
    (h : Runs.Throughout (step f) (fun s c => ∀ key, c = .deleteEntry key → rootLosesChild f s key = false) s cs) :
    Runs.Always (step f) (WellSized f) s cs := by
  refine Runs.always_of_invariant (I := fun s => ∃ L Us, Tree f s L Us ∧ Wide L Us) ?_ ?_ ⟨L, Us, T, hw⟩ h
  · rintro s c ⟨L, Us, T, hw⟩ hP
    cases c with
    | insertEntry key value =>
      rcases insertEntry_spec hf T key value with ⟨-, hrun⟩ | ⟨-, t, q, M, Vs, hrun, -, hins⟩
      · exact ⟨s, by simp only [step, call, hrun, ok_bind], L, Us, T, hw⟩
      · exact ⟨t, by simp only [step, call, hrun, ok_bind], M, Vs, hins.tree, hins.wide hw⟩
    | deleteEntry key =>
      rcases deleteEntry_spec hf T key with ⟨-, hrun⟩ | ⟨⟨e, he, hk⟩, -⟩
      · exact ⟨s, by simp only [step, call, hrun, ok_bind], L, Us, T, hw⟩
      · obtain ⟨t, M, Vs, hrun, T', hw'⟩ := deleteEntry_wide hf T hw he hk (hP key rfl)
        exact ⟨t, by simp only [step, call, hrun, ok_bind], M, Vs, T', hw'⟩
    | getValue key => exact ⟨s, by simp only [step, call, getValue_eq hf T, ok_bind], L, Us, T, hw⟩
    | isUnique key => exact ⟨s, by simp only [step, call, isUnique_eq hf T, ok_bind], L, Us, T, hw⟩
  · rintro s ⟨L, Us, T, hw⟩
    exact T.wellSized hf hw

end Runs
end IxIndexHandle

open IxIndexHandle

/-- In every run of calls on a new index in which no `delete_entry` merges the nodes up to the root's last two children, the
    sizes of the nodes are right in every state. -/
theorem ixIndex_wellSized (cols : List IxCol) (hacc : IxAccepts cols) (cs : List (IxCall (IxKey cols)))
    (h : Runs.Throughout (step (ixFormat cols))
      (fun s c => ∀ key, c = .deleteEntry key → rootLosesChild (ixFormat cols) s key = false) create cs) :
    Runs.Always (step (ixFormat cols)) (WellSized (ixFormat cols)) create cs :=
  wellSized_run (ixFormat_lawful hacc) (Tree.create _) trivial h

theorem ixIndex_wellSized_int :
    Runs.Always (step (ixFormat [IxCol.int])) (WellSized (ixFormat [IxCol.int])) create
      [.deleteEntry (intKey 1 0 0 0), .insertEntry (intKey 1 0 0 0) ⟨1, 0⟩] := by
  refine ixIndex_wellSized [IxCol.int] (by decide) _ ⟨fun key h => ?_, fun _ _ => ⟨by simp, fun _ _ => trivial⟩⟩
  cases h
  decide

/-- Seven entries in two leaves, and a deletion from each of them. -/
def mergeTwoLeaves : List (IxCall (IxKey [IxCol.char 512])) :=
  [2, 3, 4, 5, 6, 7, 8].map (fun n => .insertEntry (charKey n) ⟨1, n.toNat⟩) ++
    [.deleteEntry (charKey 8), .deleteEntry (charKey 2)]

set_option maxRecDepth 10000 in
/-- The leaves are merged, and the root is left with one child. -/
theorem ixIndex_wellSized_merged :
    ¬Runs.Always (step (ixFormat [IxCol.char 512])) (WellSized (ixFormat [IxCol.char 512])) create mergeTwoLeaves := by
  intro h
  obtain ⟨s, hs, hview⟩ := Runs.exec_eval (step (ixFormat [IxCol.char 512])) create mergeTwoLeaves rootView
    (b := (5, false, [2])) (by decide)
  obtain ⟨-, n, hn, hleaf, hpages⟩ := root_of_rootView hview
  have htwo := (h.at_end hs).root 0 n ⟨.refl, hn⟩ hleaf
  have hone : n.size = 1 := by simpa [IxNode.size] using congrArg List.length hpages
  omega

end Rmdb
