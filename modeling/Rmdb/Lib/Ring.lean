import Mathlib.Data.List.Nodup

/-! Doubly linked chains of cells.

`next` and `prev` are the two pointers of a cell, as far as the cell exists. A chain runs from a cell `a`
through the cells of a list to a cell `z`; a ring is a chain from a header cell back to it. -/

namespace Ring
variable {P : Type}

/-- The pointers run from `a` through `l` to `z` and back. -/
def Chain (next prev : P → Option P) : P → List P → P → Prop
  | a, [], z => next a = some z ∧ prev z = some a
  | a, b :: l, z => next a = some b ∧ prev b = some a ∧ Chain next prev b l z

variable {next prev next' prev' : P → Option P}

theorem chain_append {a b z : P} {X Y : List P} :
    Chain next prev a (X ++ b :: Y) z ↔ Chain next prev a X b ∧ Chain next prev b Y z := by
  induction X generalizing a with
  | nil => simp [Chain, and_assoc]
  | cons x X ih => simp [Chain, ih, and_assoc]

/-- A chain reads `next` of all cells but the last and `prev` of all cells but the first. -/
theorem Chain.congr {a z : P} {l : List P} (h : Chain next prev a l z) (hn : ∀ x ∈ a :: l, next' x = next x)
    (hp : ∀ y ∈ l ++ [z], prev' y = prev y) : Chain next' prev' a l z := by
  induction l generalizing a with
  | nil =>
    refine ⟨?_, ?_⟩
    · rw [hn a (by simp)]; exact h.1
    · rw [hp z (by simp)]; exact h.2
  | cons b l ih =>
    refine ⟨?_, ?_, ih h.2.2 (fun x hx => hn x (List.mem_cons_of_mem _ hx)) fun y hy =>
      hp y (List.mem_cons_of_mem _ hy)⟩
    · rw [hn a (by simp)]; exact h.1
    · rw [hp b (by simp)]; exact h.2.1

/-- A chain that comes to `z` for the first time at its end is the beginning of every chain to `z`. -/
theorem Chain.initial {a z : P} {l m : List P} (hl : Chain next prev a l z) (hz : z ∉ l) (hm : Chain next prev a m z) : l <+: m := by
  induction l generalizing a m with
  | nil => exact List.nil_prefix
  | cons b l ih =>
    rw [List.mem_cons, not_or] at hz
    cases m with
    | nil => exact absurd (Option.some.inj (hm.1.symm.trans hl.1)) hz.1
    | cons c m =>
      obtain rfl : b = c := Option.some.inj (hl.1.symm.trans hm.1)
      exact List.cons_prefix_cons.mpr ⟨rfl, ih hl.2.2 hz.2 hm.2.2⟩

/-- What `next` of the first cell of a chain is. -/
theorem Chain.next_first {a z : P} {l : List P} (h : Chain next prev a l z) : next a = some ((l ++ [z]).head (by simp)) := by
  cases l with
  | nil => exact h.1
  | cons b l => exact h.1

theorem Chain.prev_first {a z : P} {l : List P} (h : Chain next prev a l z) :
    prev ((l ++ [z]).head (by simp)) = some a := by
  cases l with
  | nil => exact h.2
  | cons b l => exact h.2.1

theorem head_ne_of_nodup {p z : P} {Y : List P} (hd : (p :: Y).Nodup) (hz : z ≠ p) : (Y ++ [z]).head (by simp) ≠ p := by
  cases Y with
  | nil => simpa using hz
  | cons y Y =>
    have : y ≠ p := by
      rintro rfl
      simp at hd
    simpa using this

section Header
variable {hdr p q : P} {X Y : List P}

/-- A new cell `q` behind `p`: only `next` of `p` and `q`, and `prev` of `q` and of the cell that was behind
    `p`, are written. -/
theorem Chain.insert (h : Chain next prev hdr (X ++ p :: Y) hdr) (hd : (hdr :: (X ++ p :: Y)).Nodup)
    (hq : q ∉ hdr :: (X ++ p :: Y)) (hnp : next' p = some q) (hnq : next' q = next p) (hpq : prev' q = some p)
    (hpn : ∀ x, next p = some x → prev' x = some q)
    (hn : ∀ x, x ≠ p → x ≠ q → next' x = next x)
    (hp : ∀ x, x ≠ q → next p ≠ some x → prev' x = prev x) : Chain next' prev' hdr (X ++ p :: q :: Y) hdr := by
  rw [chain_append] at h ⊢
  have hnext := h.2.next_first
  simp only [List.nodup_cons, List.mem_append, List.mem_cons, not_or, List.nodup_append] at hd
  obtain ⟨⟨hX, hhp, hY⟩, hdX, ⟨hpY, hdY⟩, hdisj⟩ := hd
  simp only [List.mem_cons, List.mem_append, not_or] at hq
  obtain ⟨hqh, hqX, hqp, hqY⟩ := hq
  -- the cell behind `p` is the first of `Y`, or the header
  have hbehind : ∀ y ∈ X ++ [p], next p ≠ some y := by
    intro y hy hpy
    rw [hnext, Option.some.injEq] at hpy
    have hmem : y ∈ Y ++ [hdr] := hpy ▸ List.head_mem _
    simp only [List.mem_append, List.mem_singleton] at hy hmem
    rcases hy with hy | rfl <;> rcases hmem with hm | rfl
    · exact hdisj y hy y (Or.inr hm) rfl
    · exact hX hy
    · exact hpY hm
    · exact hhp rfl
  have hnep : ∀ x ∈ hdr :: X, x ≠ p ∧ x ≠ q := by
    intro x hx
    rcases List.mem_cons.mp hx with rfl | hx
    · exact ⟨hhp, Ne.symm hqh⟩
    · exact ⟨fun hxp => hdisj x hx p (Or.inl rfl) hxp, fun hxq => hqX (hxq ▸ hx)⟩
  have hneq : ∀ y ∈ X ++ [p], y ≠ q := by
    intro y hy hyq
    rcases List.mem_append.mp hy with hy | hy
    · exact hqX (hyq ▸ hy)
    · exact hqp ((hyq.symm.trans (List.mem_singleton.mp hy)))
  refine ⟨h.1.congr (fun x hx => hn x (hnep x hx).1 (hnep x hx).2) (fun y hy => hp y (hneq y hy) (hbehind y hy)),
    hnp, hpq, ?_⟩
  cases Y with
  | nil => exact ⟨hnq.trans h.2.1, hpn hdr h.2.1⟩
  | cons y Y =>
    obtain ⟨h1, -, h3⟩ := h.2
    simp only [List.mem_cons, not_or] at hqY hpY hY
    simp only [List.nodup_cons] at hdY
    refine ⟨hnq.trans h1, hpn y h1, h3.congr (fun x hx => ?_) (fun x hx => ?_)⟩
    · refine hn x (fun hxp => ?_) (fun hxq => ?_)
      · rcases List.mem_cons.mp hx with rfl | hx
        · exact hpY.1 hxp.symm
        · exact hpY.2 (hxp ▸ hx)
      · rcases List.mem_cons.mp hx with rfl | hx
        · exact hqY.1 hxq.symm
        · exact hqY.2 (hxq ▸ hx)
    · refine hp x (fun hxq => ?_) (fun hpx => ?_)
      · rcases List.mem_append.mp hx with hx | hx
        · exact hqY.2 (hxq ▸ hx)
        · exact hqh (hxq.symm.trans (List.mem_singleton.mp hx))
      · rw [h1, Option.some.injEq] at hpx
        rcases List.mem_append.mp hx with hx | hx
        · exact hdY.1 (hpx ▸ hx)
        · exact hY.1 ((List.mem_singleton.mp hx).symm.trans hpx.symm)

/-- The cell `q` behind `p` is taken out: only `next` of `p` and `prev` of the cell behind `q` are written. -/
theorem Chain.erase (h : Chain next prev hdr (X ++ p :: q :: Y) hdr) (hd : (hdr :: (X ++ p :: q :: Y)).Nodup)
    (hnp : next' p = next q) (hpn : ∀ x, next q = some x → prev' x = some p)
    (hn : ∀ x, x ≠ p → next' x = next x)
    (hp : ∀ x, next q ≠ some x → prev' x = prev x) : Chain next' prev' hdr (X ++ p :: Y) hdr := by
  rw [chain_append] at h ⊢
  obtain ⟨hXp, hpq, hqp, hqY⟩ := h
  have hnext := hqY.next_first
  simp only [List.nodup_cons, List.mem_append, List.mem_cons, not_or, List.nodup_append] at hd
  obtain ⟨⟨hX, hhp, hhq, hY⟩, hdX, ⟨⟨hpq', hpY⟩, hqY', hdY⟩, hdisj⟩ := hd
  have hbehind : ∀ y ∈ X ++ [p], next q ≠ some y := by
    intro y hy hqy
    rw [hnext, Option.some.injEq] at hqy
    have hmem : y ∈ Y ++ [hdr] := hqy ▸ List.head_mem _
    simp only [List.mem_append, List.mem_singleton] at hy hmem
    rcases hy with hy | rfl <;> rcases hmem with hm | rfl
    · exact hdisj y hy y (Or.inr (Or.inr hm)) rfl
    · exact hX hy
    · exact hpY hm
    · exact hhp rfl
  refine ⟨hXp.congr (fun x hx => hn x ?_) (fun y hy => hp y (hbehind y hy)), ?_⟩
  · rcases List.mem_cons.mp hx with rfl | hx
    · exact hhp
    · exact fun hxp => hdisj x hx p (Or.inl rfl) hxp
  · cases Y with
    | nil => exact ⟨hnp.trans hqY.1, hpn hdr hqY.1⟩
    | cons y Y =>
      obtain ⟨h1, -, h3⟩ := hqY
      simp only [List.mem_cons, not_or] at hpY hY
      simp only [List.nodup_cons] at hdY
      refine ⟨hnp.trans h1, hpn y h1, h3.congr (fun x hx => hn x fun hxp => ?_) (fun x hx => hp x fun hqx => ?_)⟩
      · rcases List.mem_cons.mp hx with rfl | hx
        · exact hpY.1 hxp.symm
        · exact hpY.2 (hxp ▸ hx)
      · rw [h1, Option.some.injEq] at hqx
        rcases List.mem_append.mp hx with hx | hx
        · exact hdY.1 (hqx ▸ hx)
        · exact hY.1 ((List.mem_singleton.mp hx).symm.trans hqx.symm)

end Header
end Ring
