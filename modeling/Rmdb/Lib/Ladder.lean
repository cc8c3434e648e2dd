import Mathlib.Data.List.Forall2
import Mathlib.Data.Set.Basic
import Mathlib.Order.Basic

/-! Ordered trees of uniform height, level by level.

A level is the list of its blocks from left to right; a block has an identity and a list of entries.
The entries of all blocks of a level, read from left to right, name the blocks of the level below it, in
order: entry and block pair up one by one, the entry's value names the block's identity and its key is
the block's first key (`Linked`). All blocks of a level being listed at once, a search tree is a list of
sorted lists, and splitting or merging blocks leaves the entries of the level as they are. -/

namespace Ladder

/-- A block of a level. -/
structure Block (P K V : Type) where
  id : P
  entries : List (K × V)

abbrev Level (P K V : Type) := List (Block P K V)

variable {P K V : Type}

/-- The entries of a level, from left to right. -/
def flat (L : Level P K V) : List (K × V) := L.flatMap (·.entries)

/-- The identities of a level. -/
def ids (L : Level P K V) : List P := L.map (·.id)

@[simp] theorem flat_nil : flat ([] : Level P K V) = [] := rfl

@[simp] theorem flat_cons (b : Block P K V) (L : Level P K V) : flat (b :: L) = b.entries ++ flat L := rfl

@[simp] theorem flat_append (L M : Level P K V) : flat (L ++ M) = flat L ++ flat M := by simp [flat]

@[simp] theorem ids_nil : ids ([] : Level P K V) = [] := rfl

@[simp] theorem ids_cons (b : Block P K V) (L : Level P K V) : ids (b :: L) = b.id :: ids L := rfl

@[simp] theorem ids_append (L M : Level P K V) : ids (L ++ M) = ids L ++ ids M := by simp [ids]

theorem mem_ids_of_mem {b : Block P K V} {L : Level P K V} (h : b ∈ L) : b.id ∈ ids L := List.mem_map_of_mem h

theorem mem_flat {e : K × V} {L : Level P K V} : e ∈ flat L ↔ ∃ b ∈ L, e ∈ b.entries := List.mem_flatMap

/-- Where an entry of a level stands: in which block, and what is left and right of it. -/
theorem flat_split {U : Level P K V} {Y Z : List (K × V)} {e : K × V} (h : flat U = Y ++ e :: Z) :
    ∃ C u D E F, U = C ++ u :: D ∧ u.entries = E ++ e :: F ∧ Y = flat C ++ E ∧ Z = F ++ flat D := by
  induction U generalizing Y with
  | nil => simp at h
  | cons v U ih =>
    rw [flat_cons, List.append_eq_append_iff] at h
    rcases h with ⟨Y', rfl, h⟩ | ⟨Z', hv, h⟩
    · obtain ⟨C, u, D, E, F, rfl, hu, rfl, rfl⟩ := ih h
      exact ⟨v :: C, u, D, E, F, rfl, hu, by simp, rfl⟩
    · cases Z' with
      | nil =>
        obtain ⟨C, u, D, E, F, rfl, hu, hY, rfl⟩ := ih (Y := []) h.symm
        refine ⟨v :: C, u, D, E, F, rfl, hu, ?_, rfl⟩
        rw [flat_cons, List.append_assoc, ← hY, List.append_nil]
        simpa using hv.symm
      | cons x Z' =>
        cases h
        exact ⟨[], v, U, Y, Z', rfl, hv, by simp, rfl⟩

/-! ### Pairing two lists -/

section Pairing
variable {α β : Type} {R : α → β → Prop}

theorem forall₂_append_left {A B : List α} {ys : List β} (h : List.Forall₂ R (A ++ B) ys) :
    ∃ Y Z, ys = Y ++ Z ∧ List.Forall₂ R A Y ∧ List.Forall₂ R B Z := by
  induction A generalizing ys with
  | nil => exact ⟨[], ys, rfl, .nil, h⟩
  | cons a A ih =>
    cases h with
    | cons hr h =>
      obtain ⟨Y, Z, rfl, hA, hB⟩ := ih h
      exact ⟨_ :: Y, Z, rfl, .cons hr hA, hB⟩

theorem forall₂_append_right {Y Z : List β} {xs : List α} (h : List.Forall₂ R xs (Y ++ Z)) :
    ∃ A B, xs = A ++ B ∧ List.Forall₂ R A Y ∧ List.Forall₂ R B Z := by
  obtain ⟨A, B, rfl, hA, hB⟩ := forall₂_append_left h.flip
  exact ⟨A, B, rfl, hA.flip, hB.flip⟩

theorem forall₂_split_left {A B : List α} {n : α} {ys : List β} (h : List.Forall₂ R (A ++ n :: B) ys) :
    ∃ Y e Z, ys = Y ++ e :: Z ∧ List.Forall₂ R A Y ∧ R n e ∧ List.Forall₂ R B Z := by
  obtain ⟨Y, Z, rfl, hA, hB⟩ := forall₂_append_left h
  cases hB with
  | cons hr hB => exact ⟨Y, _, _, rfl, hA, hr, hB⟩

theorem forall₂_split_right {Y Z : List β} {e : β} {xs : List α} (h : List.Forall₂ R xs (Y ++ e :: Z)) :
    ∃ A n B, xs = A ++ n :: B ∧ List.Forall₂ R A Y ∧ R n e ∧ List.Forall₂ R B Z := by
  obtain ⟨A, n, B, rfl, hA, hr, hB⟩ := forall₂_split_left h.flip
  exact ⟨A, n, B, rfl, hA.flip, hr, hB.flip⟩

theorem forall₂_join {A B : List α} {n : α} {Y Z : List β} {e : β} (hA : List.Forall₂ R A Y) (hr : R n e)
    (hB : List.Forall₂ R B Z) : List.Forall₂ R (A ++ n :: B) (Y ++ e :: Z) :=
  List.rel_append hA (.cons hr hB)

theorem forall₂_length_one {xs : List α} {ys : List β} (h : List.Forall₂ R xs ys) {x : α} (hx : xs = [x]) :
    ∃ y, ys = [y] ∧ R x y := by
  subst hx
  cases h with
  | cons hr h =>
    cases h
    exact ⟨_, rfl, hr⟩

theorem exists_of_mem_right {xs : List α} {ys : List β} (h : List.Forall₂ R xs ys) {y : β} (hy : y ∈ ys) :
    ∃ x ∈ xs, R x y := by
  obtain ⟨Y, Z, rfl⟩ := List.append_of_mem hy
  obtain ⟨A, x, B, rfl, -, hr, -⟩ := forall₂_split_right h
  exact ⟨x, by simp, hr⟩

end Pairing

/-- A list cut at one of its places. -/
theorem eq_take_cons_drop {α : Type} {xs : List α} {i : Nat} {x : α} (h : xs[i]? = some x) :
    xs = xs.take i ++ x :: xs.drop (i + 1) := by
  rw [← (List.getElem?_eq_some_iff.mp h).2, List.getElem_cons_drop, List.take_append_drop]

/-! ### Links between levels -/

variable (child : V → P)

/-- Entry `e` names block `b`: by its identity and its first key. -/
def Names (b : Block P K V) (e : K × V) : Prop := child e.2 = b.id ∧ ∀ x ∈ b.entries.head?, x.1 = e.1

/-- Entry `e` names block `b`, with any key when `b` is block `i`. -/
def NamesBut (i : P) (b : Block P K V) (e : K × V) : Prop :=
  child e.2 = b.id ∧ (b.id ≠ i → ∀ x ∈ b.entries.head?, x.1 = e.1)

/-- The entries of `upper` name the blocks of `lower`, in order. -/
def Linked (lower upper : Level P K V) : Prop := List.Forall₂ (Names child) lower (flat upper)

/-- The levels are linked except for the key that names block `i`. -/
def LinkedBut (i : P) (lower upper : Level P K V) : Prop := List.Forall₂ (NamesBut child i) lower (flat upper)

variable {child}

theorem Names.but {i : P} {b : Block P K V} {e : K × V} (h : Names child b e) : NamesBut child i b e :=
  ⟨h.1, fun _ => h.2⟩

theorem NamesBut.names {i : P} {b : Block P K V} {e : K × V} (h : NamesBut child i b e) (hi : b.id ≠ i) :
    Names child b e :=
  ⟨h.1, h.2 hi⟩

/-- The values of entries are the identities of the blocks they name. -/
theorem values_eq_ids {i : P} {A : Level P K V} {ys : List (K × V)} (h : List.Forall₂ (NamesBut child i) A ys) :
    ys.map (fun e => child e.2) = ids A := by
  induction h with
  | nil => rfl
  | cons hr _ ih => simp [hr.1, ih]

theorem names_but (i : P) {A : Level P K V} {ys : List (K × V)} (h : List.Forall₂ (Names child) A ys) :
    List.Forall₂ (NamesBut child i) A ys :=
  h.imp fun _ _ => Names.but

/-- Blocks other than `i` are named with their first keys. -/
theorem names_of_namesBut {i : P} {A : Level P K V} {ys : List (K × V)} (h : List.Forall₂ (NamesBut child i) A ys)
    (hi : i ∉ ids A) : List.Forall₂ (Names child) A ys := by
  induction h with
  | nil => exact .nil
  | cons hr _ ih =>
    simp only [ids_cons, List.mem_cons, not_or] at hi
    exact .cons (hr.names (Ne.symm hi.1)) (ih hi.2)

/-- A block with new entries, the first key apart, is still linked to the level above. -/
theorem LinkedBut.replace {A B U : Level P K V} {n m : Block P K V} (hid : m.id = n.id)
    (h : Linked child (A ++ n :: B) U) : LinkedBut child n.id (A ++ m :: B) U := by
  obtain ⟨Y, e, Z, hU, hA, hn, hB⟩ := forall₂_split_left h
  unfold LinkedBut
  rw [hU]
  exact forall₂_join (names_but _ hA) ⟨hn.1.trans hid.symm, fun hne => absurd hid hne⟩ (names_but _ hB)

/-- A block with the same first key can take the place of another one. -/
theorem Linked.replace {A B U : Level P K V} {n m : Block P K V} (hid : m.id = n.id)
    (hhead : ∀ x ∈ m.entries.head?, ∃ y ∈ n.entries.head?, x.1 = y.1)
    (h : Linked child (A ++ n :: B) U) : Linked child (A ++ m :: B) U := by
  obtain ⟨Y, e, Z, hU, hA, hn, hB⟩ := forall₂_split_left h
  unfold Linked
  rw [hU]
  refine forall₂_join hA ⟨hn.1.trans hid.symm, fun x hx => ?_⟩ hB
  obtain ⟨y, hy, hxy⟩ := hhead x hx
  exact hxy.trans (hn.2 y hy)

/-- The entry that names a block, and the block of the upper level it stands in. -/
theorem LinkedBut.locate {i : P} {A B U : Level P K V} {n : Block P K V} (h : LinkedBut child i (A ++ n :: B) U) :
    ∃ C u D E e F, U = C ++ u :: D ∧ u.entries = E ++ e :: F ∧ NamesBut child i n e ∧
      List.Forall₂ (NamesBut child i) A (flat C ++ E) ∧ List.Forall₂ (NamesBut child i) B (F ++ flat D) := by
  obtain ⟨Y, e, Z, hU, hA, hn, hB⟩ := forall₂_split_left h
  obtain ⟨C, u, D, E, F, rfl, hu, rfl, rfl⟩ := flat_split hU
  exact ⟨C, u, D, E, e, F, rfl, hu, hn, hA, hB⟩

theorem Linked.locate {A B U : Level P K V} {n : Block P K V} (h : Linked child (A ++ n :: B) U) :
    ∃ C u D E e F, U = C ++ u :: D ∧ u.entries = E ++ e :: F ∧ Names child n e ∧
      List.Forall₂ (Names child) A (flat C ++ E) ∧ List.Forall₂ (Names child) B (F ++ flat D) := by
  obtain ⟨Y, e, Z, hU, hA, hn, hB⟩ := forall₂_split_left h
  obtain ⟨C, u, D, E, F, rfl, hu, rfl, rfl⟩ := flat_split hU
  exact ⟨C, u, D, E, e, F, rfl, hu, hn, hA, hB⟩

/-- Every block has entries, or there is only one block. -/
def Dense (L : Level P K V) : Prop := (∃ b, L = [b]) ∨ ∀ b ∈ L, b.entries ≠ []

/-- A dense level that has entries at all has them in every block. -/
theorem Dense.entries_ne_nil {L : Level P K V} (h : Dense L) (hne : flat L ≠ []) {b : Block P K V} (hb : b ∈ L) :
    b.entries ≠ [] := by
  rcases h with ⟨c, rfl⟩ | h
  · rw [List.mem_singleton.mp hb]
    simpa using hne
  · exact h b hb

/-- The first entries of the blocks that some entries name have the keys of these entries. -/
theorem exists_key_of_names {B : Level P K V} {ys : List (K × V)} (h : List.Forall₂ (Names child) B ys)
    (hne : ∀ b ∈ B, b.entries ≠ []) {y : K × V} (hy : y ∈ ys) : ∃ z ∈ flat B, z.1 = y.1 := by
  obtain ⟨b, hb, hn⟩ := exists_of_mem_right h hy
  obtain ⟨z, zs, hz⟩ := List.exists_cons_of_ne_nil (hne b hb)
  exact ⟨z, mem_flat.mpr ⟨b, hb, by simp [hz]⟩, hn.2 z (by simp [hz])⟩

/-- The block that an entry names, with the blocks right of it and the entries that name them. -/
theorem Linked.named {L C D : Level P K V} {u : Block P K V} {E F : List (K × V)} {e : K × V}
    (h : Linked child L (C ++ u :: D)) (hu : u.entries = E ++ e :: F) :
    ∃ A b B, L = A ++ b :: B ∧ Names child b e ∧ List.Forall₂ (Names child) A (flat C ++ E) ∧
      List.Forall₂ (Names child) B (F ++ flat D) := by
  have hsplit : flat (C ++ u :: D) = (flat C ++ E) ++ e :: (F ++ flat D) := by simp [hu]
  unfold Linked at h
  rw [hsplit] at h
  obtain ⟨A, b, B, rfl, hA, hb, hB⟩ := forall₂_split_right h
  exact ⟨A, b, B, rfl, hb, hA, hB⟩

/-- A level that is more than the block `b` and is dense has entries in every block. -/
theorem Dense.all_of_ne {A B : Level P K V} {b : Block P K V} (h : Dense (A ++ b :: B)) (hne : A ≠ [] ∨ B ≠ []) :
    ∀ c ∈ A ++ b :: B, c.entries ≠ [] := by
  refine h.resolve_left ?_
  rintro ⟨c, hc⟩
  rcases List.append_eq_singleton_iff.mp hc with ⟨rfl, hb⟩ | ⟨-, hb⟩
  · cases hb
    exact hne.elim (· rfl) (· rfl)
  · cases hb

/-! ### Ascending keys -/

section Order
variable [Preorder K]

/-- Two keys that the order does not tell apart. -/
def Same (a b : K) : Prop := a ≤ b ∧ b ≤ a

theorem Same.refl (a : K) : Same a a := ⟨le_rfl, le_rfl⟩

theorem Same.symm {a b : K} (h : Same a b) : Same b a := ⟨h.2, h.1⟩

theorem Same.trans {a b c : K} (h : Same a b) (k : Same b c) : Same a c := ⟨h.1.trans k.1, k.2.trans h.2⟩

theorem Same.not_lt {a b : K} (h : Same a b) : ¬a < b := h.2.not_gt

/-- The keys strictly ascend. -/
def Ascending (es : List (K × V)) : Prop := es.Pairwise fun a b => a.1 < b.1

theorem Ascending.append {xs ys : List (K × V)} :
    Ascending (xs ++ ys) ↔ Ascending xs ∧ Ascending ys ∧ ∀ x ∈ xs, ∀ y ∈ ys, x.1 < y.1 := List.pairwise_append

theorem Ascending.cons {x : K × V} {ys : List (K × V)} :
    Ascending (x :: ys) ↔ (∀ y ∈ ys, x.1 < y.1) ∧ Ascending ys := List.pairwise_cons

/-- The first key of ascending entries is the least one. -/
theorem Ascending.head_le {es : List (K × V)} (h : Ascending es) {x : K × V} (hx : x ∈ es.head?) {y : K × V}
    (hy : y ∈ es) : x.1 ≤ y.1 := by
  cases es with
  | nil => cases hy
  | cons z es =>
    cases hx
    rcases List.mem_cons.mp hy with rfl | hy
    · exact le_rfl
    · exact ((Ascending.cons.mp h).1 y hy).le

theorem Ascending.block {L : Level P K V} (h : Ascending (flat L)) {b : Block P K V} (hb : b ∈ L) :
    Ascending b.entries := by
  obtain ⟨A, B, rfl⟩ := List.append_of_mem hb
  simp only [flat_append, flat_cons, Ascending.append] at h
  exact h.2.1.1

/-- An entry with its key is found in only one way. -/
theorem Ascending.eq_of_key {es : List (K × V)} (h : Ascending es) {x y : K × V} (hx : x ∈ es) (hy : y ∈ es)
    (hk : Same x.1 y.1) : x = y := by
  induction es with
  | nil => cases hx
  | cons z es ih =>
    obtain ⟨hz, hes⟩ := Ascending.cons.mp h
    rcases List.mem_cons.mp hx with rfl | hx' <;> rcases List.mem_cons.mp hy with rfl | hy'
    · rfl
    · exact absurd (hz y hy') hk.not_lt
    · exact absurd (hz x hx') hk.symm.not_lt
    · exact ih hes hx' hy'

/-- A key cuts ascending entries into those below it and those above it, with its own entry between. -/
theorem Ascending.cut [Std.Total fun a b : K => a ≤ b] {es : List (K × V)} (h : Ascending es) (k : K) :
    ∃ E F, (∀ x ∈ E, x.1 < k) ∧ (∀ x ∈ F, k < x.1) ∧ (es = E ++ F ∨ ∃ e, Same e.1 k ∧ es = E ++ e :: F) := by
  induction es with
  | nil => exact ⟨[], [], by simp, by simp, Or.inl rfl⟩
  | cons x es ih =>
    obtain ⟨hx, hes⟩ := Ascending.cons.mp h
    by_cases hxk : x.1 ≤ k <;> by_cases hkx : k ≤ x.1
    · exact ⟨[], es, by simp, fun y hy => hkx.trans_lt (hx y hy), Or.inr ⟨x, ⟨hxk, hkx⟩, rfl⟩⟩
    · obtain ⟨E, F, hE, hF, hsplit⟩ := ih hes
      refine ⟨x :: E, F, ?_, hF, ?_⟩
      · intro y hy
        rcases List.mem_cons.mp hy with rfl | hy
        · exact lt_of_le_not_ge hxk hkx
        · exact hE y hy
      · rcases hsplit with rfl | ⟨e, he, rfl⟩
        · exact Or.inl rfl
        · exact Or.inr ⟨e, he, rfl⟩
    · refine ⟨[], x :: es, by simp, fun y hy => ?_, Or.inl rfl⟩
      have hlt : k < x.1 := lt_of_le_not_ge hkx hxk
      rcases List.mem_cons.mp hy with rfl | hy
      · exact hlt
      · exact hlt.trans (hx y hy)
    · exact absurd (Std.Total.total x.1 k) (not_or.mpr ⟨hxk, hkx⟩)

omit [Preorder K] in
/-- The keys of a level are a selection of the keys of the level below it, all of whose blocks have
    entries. -/
theorem Linked.keys_sublist {L U : Level P K V} (h : Linked child L U) (hne : ∀ b ∈ L, b.entries ≠ []) :
    ((flat U).map (·.1)).Sublist ((flat L).map (·.1)) := by
  unfold Linked at h
  generalize flat U = ys at h
  induction h with
  | nil => exact List.Sublist.refl _
  | @cons b e L ys hr _ ih =>
    have ih := ih fun c hc => hne c (List.mem_cons_of_mem _ hc)
    obtain ⟨x, xs, hx⟩ := List.exists_cons_of_ne_nil (hne b List.mem_cons_self)
    have hkey : x.1 = e.1 := hr.2 x (by simp [hx])
    simp only [flat_cons, hx, List.map_cons, List.cons_append, ← hkey]
    exact List.Sublist.cons_cons _ (ih.trans (by simp))

theorem ascending_iff_keys {es : List (K × V)} : Ascending es ↔ (es.map (·.1)).Pairwise (· < ·) := by
  rw [List.pairwise_map]
  rfl

/-- The level above ascending entries is ascending: it has their blocks' first keys, or just one. -/
theorem Linked.ascending {L U : Level P K V} (h : Linked child L U) (hne : Dense L) (hL : Ascending (flat L)) :
    Ascending (flat U) := by
  rcases hne with ⟨b, rfl⟩ | hne
  · obtain ⟨e, he, -⟩ := forall₂_length_one h rfl
    rw [he]
    exact List.pairwise_singleton _ _
  · rw [ascending_iff_keys] at hL ⊢
    exact hL.sublist (h.keys_sublist hne)

/-! ### Descending by a key -/

/-- Block `n` of the level `A ++ n :: B` is the one for `k`: the blocks right of it start above `k`, and it
    starts at or below `k` unless it is the leftmost block. -/
structure Routed (k : K) (A : Level P K V) (n : Block P K V) (B : Level P K V) : Prop where
  right : ∀ b ∈ B, ∀ x ∈ b.entries.head?, k < x.1
  left : A = [] ∨ ∀ x ∈ n.entries.head?, x.1 ≤ k

theorem Routed.single (k : K) (n : Block P K V) : Routed k [] n [] := ⟨by simp, Or.inl rfl⟩

/-- One step down: the entry `e` of the block for `k` that starts at or below `k`, with the next entry
    above it, names the block for `k` of the level below. -/
theorem Routed.descend {k : K} {L C D : Level P K V} {u : Block P K V} {E F : List (K × V)} {e : K × V}
    (hr : Routed k C u D) (h : Linked child L (C ++ u :: D)) (hU : Ascending (flat (C ++ u :: D)))
    (hu : u.entries = E ++ e :: F) (hF : ∀ y ∈ F, k < y.1) (hE : E = [] ∨ e.1 ≤ k) :
    ∃ A n B, L = A ++ n :: B ∧ child e.2 = n.id ∧ Routed k A n B := by
  obtain ⟨A, n, B, rfl, hn, hA, hB⟩ := h.named hu
  refine ⟨A, n, B, rfl, hn.1, ⟨fun b hb x hx => ?_, ?_⟩⟩
  · obtain ⟨y, hy, hby⟩ := exists_of_mem_right hB.flip hb
    rw [hby.2 x hx]
    rcases List.mem_append.mp hy with hy | hy
    · exact hF y hy
    · obtain ⟨d, hd, hyd⟩ := mem_flat.mp hy
      obtain ⟨z, hz⟩ : ∃ z, z ∈ d.entries.head? := by
        cases hdd : d.entries with
        | nil => rw [hdd] at hyd; cases hyd
        | cons z _ => exact ⟨z, rfl⟩
      have hdasc : Ascending d.entries := hU.block (by simp [hd])
      exact lt_of_lt_of_le (hr.right d hd z hz) (hdasc.head_le hz hyd)
  · -- `e` is the leftmost entry of its level, or it is at or below `k`
    have hek : (flat C ++ E = []) ∨ e.1 ≤ k := by
      rcases hE with rfl | hek
      · rcases hr.left with rfl | hleft
        · exact Or.inl rfl
        · exact Or.inr (hleft e (by simp [hu]))
      · exact Or.inr hek
    rcases hek with hnil | hek
    · rw [hnil] at hA
      cases hA
      exact Or.inl rfl
    · exact Or.inr fun x hx => (hn.2 x hx).trans_le hek

/-- The blocks left of the block for `k` are below `k`, those right of it above. -/
theorem Routed.bounds {k : K} {A B : Level P K V} {n : Block P K V} (hr : Routed k A n B) (hd : Dense (A ++ n :: B))
    (hL : Ascending (flat (A ++ n :: B))) : (∀ x ∈ flat A, x.1 < k) ∧ ∀ x ∈ flat B, k < x.1 := by
  simp only [flat_append, flat_cons, Ascending.append] at hL
  obtain ⟨-, ⟨-, hB, -⟩, hAn⟩ := hL
  refine ⟨fun x hx => ?_, fun x hx => ?_⟩
  · -- with a block left of `n` the level is not a single block, so `n` has entries
    rcases hr.left with rfl | hleft
    · cases hx
    · rcases hd with ⟨b, hb⟩ | hd
      · rcases List.append_eq_singleton_iff.mp hb with ⟨rfl, -⟩ | ⟨-, hnil⟩
        · cases hx
        · cases hnil
      · obtain ⟨y, ys, hy⟩ := List.exists_cons_of_ne_nil (hd n (by simp))
        exact (hAn x hx y (by simp [hy])).trans_le (hleft y (by simp [hy]))
  · obtain ⟨b, hb, hxb⟩ := mem_flat.mp hx
    cases hbe : b.entries with
    | nil => rw [hbe] at hxb; cases hxb
    | cons y ys =>
      exact (hr.right b hb y (by simp [hbe])).trans_le ((hB.block hb).head_le (by simp [hbe]) hxb)

/-! ### Subtrees -/

/-- The keys of block `c` are at or above those in `lo`, and those in `hi` are keys of the blocks `B` right of it. -/
structure Spans (lo hi : Set K) (c : Block P K V) (B : Level P K V) : Prop where
  lower : ∀ k ∈ lo, ∀ x ∈ c.entries, k ≤ x.1
  upper : ∀ k ∈ hi, ∃ z ∈ flat B, z.1 = k

theorem Spans.lt {lo hi : Set K} {A B : Level P K V} {c : Block P K V} (h : Spans lo hi c B)
    (hL : Ascending (flat (A ++ c :: B))) {k : K} (hk : k ∈ hi) {x : K × V} (hx : x ∈ c.entries) : x.1 < k := by
  obtain ⟨z, hz, rfl⟩ := h.upper k hk
  simp only [flat_append, flat_cons, Ascending.append] at hL
  exact hL.2.1.2.2 x hx z hz

/-- What holds of the keys of a block holds of its children. -/
theorem Spans.descend {lo hi : Set K} {L C D : Level P K V} {u : Block P K V} {E F : List (K × V)} {e : K × V}
    (h : Spans lo hi u D) (hl : Linked child L (C ++ u :: D)) (hd : Dense L) (hL : Ascending (flat L))
    (hu : u.entries = E ++ e :: F) :
    ∃ A b B, L = A ++ b :: B ∧ Names child b e ∧ Spans lo hi b B := by
  obtain ⟨A, b, B, rfl, hb, -, hB⟩ := hl.named hu
  refine ⟨A, b, B, rfl, hb, ⟨fun k hk x hx => ?_, fun k hk => ?_⟩⟩
  · obtain ⟨y, ys, hy⟩ := List.exists_cons_of_ne_nil (List.ne_nil_of_mem hx)
    have hye : y.1 = e.1 := hb.2 y (by simp [hy])
    have hyx : y.1 ≤ x.1 := (hL.block (b := b) (by simp)).head_le (by simp [hy]) hx
    exact (h.lower k hk e (by simp [hu])).trans (hye ▸ hyx)
  · obtain ⟨y, hy, rfl⟩ := h.upper k hk
    have hBne : B ≠ [] := by
      rintro rfl
      have := List.forall₂_nil_left_iff.mp hB
      exact List.ne_nil_of_mem (List.mem_append_right F hy) this
    have hne := hd.all_of_ne (Or.inr hBne)
    exact exists_key_of_names hB (fun c hc => hne c (by simp [hc])) (List.mem_append_right F hy)

/-! ### Changing entries -/

/-- Entries stay ascending when a key between them is put in. -/
theorem Ascending.insert {E F : List (K × V)} {k : K} {v : V} (h : Ascending (E ++ F)) (hE : ∀ x ∈ E, x.1 < k)
    (hF : ∀ x ∈ F, k < x.1) : Ascending (E ++ (k, v) :: F) := by
  obtain ⟨h1, h2, h3⟩ := Ascending.append.mp h
  refine Ascending.append.mpr ⟨h1, Ascending.cons.mpr ⟨hF, h2⟩, fun x hx y hy => ?_⟩
  rcases List.mem_cons.mp hy with rfl | hy
  · exact hE x hx
  · exact h3 x hx y hy

/-- Entries stay ascending when one is taken out. -/
theorem Ascending.erase {E F : List (K × V)} {x : K × V} (h : Ascending (E ++ x :: F)) : Ascending (E ++ F) :=
  h.sublist (List.Sublist.append (List.Sublist.refl E) (List.sublist_cons_self x F))

end Order
end Ladder
