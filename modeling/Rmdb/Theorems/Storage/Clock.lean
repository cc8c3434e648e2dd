import Rmdb.Theorems.Storage.BufferPool

/-! The clock hand finds a frame whenever there is one: it comes to every frame twice, and clears the reference bit at the
first time. -/

namespace Rmdb
namespace ClockReplacer
variable {r : ClockReplacer} {fr : Nat}

/-- `size_` counts the frames in the replacer, and the hand is at a frame. -/
structure Counted (r : ClockReplacer) : Prop where
  evictable : r.evictable = (List.range r.size).countP fun i => (r.frames i).inReplacer
  hand : 0 < r.size → r.clockHand < r.size

theorem Counted.create (num : Nat) : Counted (create num) := by
  refine ⟨?_, id⟩
  simp [ClockReplacer.create]

/-- The frame of a flag that changes counts once. -/
theorem countP_update (n : Nat) (p : Nat → Bool) (b : Bool) (h : fr < n) :
    (List.range n).countP (fun i => if i = fr then b else p i) + (p fr).toNat = (List.range n).countP p + b.toNat := by
  induction n with
  | zero => omega
  | succ n ih =>
    rw [List.range_succ, List.countP_append, List.countP_append, List.countP_singleton, List.countP_singleton]
    by_cases hn : fr = n
    · subst hn
      have hsame : (List.range fr).countP (fun i => if i = fr then b else p i) = (List.range fr).countP p := by
        refine List.countP_congr fun i hi => ?_
        rw [if_neg (Nat.ne_of_lt (List.mem_range.mp hi))]
      rw [hsame]
      cases b <;> cases p fr <;> simp
    · have := ih (by omega)
      rw [if_neg (Ne.symm hn)]
      omega

theorem Counted.pin (h : Counted r) (fr : Nat) : Counted (r.pin fr) := by
  by_cases hlt : fr < r.size
  · have hcount := countP_update r.size (fun i => (r.frames i).inReplacer) false hlt
    refine ⟨?_, ?_⟩
    · rw [pin_size]
      simp only [pin_frames hlt]
      rw [ClockReplacer.pin, if_neg (Nat.not_le.mpr hlt)]
      cases hin : (r.frames fr).inReplacer with
      | true =>
        simp only [hin, if_true, h.evictable, Bool.toNat_true, Bool.toNat_false] at hcount ⊢
        omega
      | false =>
        simp only [hin, Bool.toNat_false, Nat.add_zero] at hcount
        rw [if_neg Bool.false_ne_true, h.evictable]
        exact hcount.symm
    · rw [pin_size]
      intro hpos
      rw [ClockReplacer.pin, if_neg (Nat.not_le.mpr hlt)]
      split <;> exact h.hand hpos
  · rw [ClockReplacer.pin, if_pos (Nat.not_lt.mp hlt)]
    exact h

theorem Counted.unpin (h : Counted r) (fr : Nat) : Counted (r.unpin fr) := by
  by_cases hlt : fr < r.size
  · have hcount := countP_update r.size (fun i => (r.frames i).inReplacer) true hlt
    refine ⟨?_, ?_⟩
    · rw [unpin_size]
      simp only [unpin_frames hlt]
      rw [ClockReplacer.unpin, if_neg (Nat.not_le.mpr hlt)]
      cases hin : (r.frames fr).inReplacer with
      | true =>
        simp only [hin, if_true, setFrame, h.evictable, Bool.toNat_true] at hcount ⊢
        omega
      | false =>
        simp only [hin, h.evictable, Bool.toNat_true, Bool.toNat_false] at hcount ⊢
        exact hcount.symm
    · rw [unpin_size]
      intro hpos
      rw [ClockReplacer.unpin, if_neg (Nat.not_le.mpr hlt)]
      split <;> exact h.hand hpos
  · rw [ClockReplacer.unpin, if_pos (Nat.not_lt.mp hlt)]
    exact h

/-! ### The victim -/

theorem victimLoop_evictable (scans : Nat) (r : ClockReplacer) :
    (victimLoop scans r).1.evictable = r.evictable - (victimLoop scans r).2.isSome.toNat := by
  induction scans generalizing r with
  | zero => rfl
  | succ scans ih =>
    rw [victimLoop]
    split
    · split
      · exact ih _
      · rfl
    · exact ih _

theorem victimLoop_hand (scans : Nat) (hpos : 0 < r.size) (h : r.clockHand < r.size) :
    (victimLoop scans r).1.clockHand < r.size := by
  induction scans generalizing r with
  | zero => exact h
  | succ scans ih =>
    have hnext : (r.clockHand + 1) % r.size < r.size := Nat.mod_lt _ hpos
    rw [victimLoop]
    split
    · split
      · exact ih (r := { r.setFrame r.clockHand ⟨true, false⟩ with clockHand := (r.clockHand + 1) % r.size }) hpos hnext
      · exact hnext
    · exact ih (r := { r with clockHand := (r.clockHand + 1) % r.size }) hpos hnext

theorem victimLoop_lt (scans : Nat) (hpos : 0 < r.size) (h : r.clockHand < r.size) (hfr : (victimLoop scans r).2 = some fr) :
    fr < r.size := by
  induction scans generalizing r with
  | zero => cases hfr
  | succ scans ih =>
    have hnext : (r.clockHand + 1) % r.size < r.size := Nat.mod_lt _ hpos
    rw [victimLoop] at hfr
    split at hfr
    · split at hfr
      · exact ih (r := { r.setFrame r.clockHand ⟨true, false⟩ with clockHand := (r.clockHand + 1) % r.size }) hpos hnext hfr
      · cases hfr
        exact h
    · exact ih (r := { r with clockHand := (r.clockHand + 1) % r.size }) hpos hnext hfr

/-- The frame at distance `d` of the hand is found if it is unreferenced. -/
theorem victimLoop_unreferenced {scans d : Nat} (h : r.clockHand < r.size) (hd : fr = (r.clockHand + d) % r.size)
    (hin : (r.frames fr).inReplacer = true) (href : (r.frames fr).ref = false) (hscans : d < scans) :
    (victimLoop scans r).2.isSome = true := by
  induction scans generalizing r d with
  | zero => omega
  | succ scans ih =>
    have hnext : (r.clockHand + 1) % r.size < r.size := Nat.mod_lt _ (Nat.zero_lt_of_lt h)
    rw [victimLoop]
    cases d with
    | zero =>
      rw [Nat.add_zero, Nat.mod_eq_of_lt h] at hd
      subst hd
      simp [hin, href]
    | succ d =>
      have hd' : fr = ((r.clockHand + 1) % r.size + d) % r.size := by
        rw [hd, Nat.mod_add_mod]
        congr 1
        omega
      split
      · split
        · next hhand hrefhand =>
          have hne : fr ≠ r.clockHand := by
            rintro rfl
            rw [href] at hrefhand
            cases hrefhand
          refine ih (r := { r.setFrame r.clockHand ⟨true, false⟩ with clockHand := (r.clockHand + 1) % r.size }) hnext hd' ?_ ?_ (by omega)
          · simpa [setFrame, hne] using hin
          · simpa [setFrame, hne] using href
        · rfl
      · exact ih (r := { r with clockHand := (r.clockHand + 1) % r.size }) hnext hd' hin href (by omega)

theorem victimLoop_found {scans d : Nat} (h : r.clockHand < r.size) (hd : fr = (r.clockHand + d) % r.size)
    (hin : (r.frames fr).inReplacer = true) (hscans : d + r.size < scans) : (victimLoop scans r).2.isSome = true := by
  induction scans generalizing r d with
  | zero => omega
  | succ scans ih =>
    have hnext : (r.clockHand + 1) % r.size < r.size := Nat.mod_lt _ (Nat.zero_lt_of_lt h)
    rw [victimLoop]
    cases d with
    | zero =>
      rw [Nat.add_zero, Nat.mod_eq_of_lt h] at hd
      subst hd
      rw [if_pos hin]
      split
      · -- the hand comes back after the other frames
        have hback : r.clockHand = ((r.clockHand + 1) % r.size + (r.size - 1)) % r.size := by
          rw [Nat.mod_add_mod, show r.clockHand + 1 + (r.size - 1) = r.clockHand + r.size by omega, Nat.add_mod_right,
            Nat.mod_eq_of_lt h]
        exact victimLoop_unreferenced (r := { r.setFrame r.clockHand ⟨true, false⟩ with clockHand := (r.clockHand + 1) % r.size })
          hnext hback (by simp [setFrame]) (by simp [setFrame]) (by omega)
      · rfl
    | succ d =>
      have hd' : fr = ((r.clockHand + 1) % r.size + d) % r.size := by
        rw [hd, Nat.mod_add_mod]
        congr 1
        omega
      split
      · split
        · refine ih (r := { r.setFrame r.clockHand ⟨true, false⟩ with clockHand := (r.clockHand + 1) % r.size }) hnext hd' ?_
            (by show d + r.size < scans; omega)
          simp only [setFrame]
          split
          · rfl
          · exact hin
        · rfl
      · exact ih (r := { r with clockHand := (r.clockHand + 1) % r.size }) hnext hd' hin (by show d + r.size < scans; omega)

/-- `victim` finds no frame only if there is none in the replacer. -/
theorem Counted.victim_none (h : Counted r) (hnone : r.victim.2 = none) (hlt : fr < r.size) :
    (r.frames fr).inReplacer = false := by
  by_contra hin
  rw [Bool.not_eq_false] at hin
  have hhand := h.hand (Nat.zero_lt_of_lt hlt)
  have hne : r.evictable ≠ 0 := by
    rw [h.evictable, Ne, List.countP_eq_zero]
    exact fun hall => hall fr (List.mem_range.mpr hlt) hin
  rw [ClockReplacer.victim, if_neg hne] at hnone
  have hdist : fr = (r.clockHand + (fr + r.size - r.clockHand) % r.size) % r.size := by
    rw [Nat.add_mod_mod, show r.clockHand + (fr + r.size - r.clockHand) = fr + r.size by omega, Nat.add_mod_right,
      Nat.mod_eq_of_lt hlt]
  have hmod := Nat.mod_lt (fr + r.size - r.clockHand) (Nat.zero_lt_of_lt hlt)
  have hfound : (victimLoop (r.size * 2) r).2.isSome = true := victimLoop_found hhand hdist hin (by omega)
  rw [hnone] at hfound
  cases hfound

theorem Counted.victim (h : Counted r) : Counted r.victim.1 := by
  have V := r.victim_spec
  refine ⟨?_, ?_⟩
  · rw [V.size]
    simp only [V.frames]
    rw [ClockReplacer.victim] at V ⊢
    split
    · simpa using h.evictable
    · next hne =>
      rw [if_neg hne] at V
      rw [victimLoop_evictable, h.evictable]
      cases ho : (victimLoop (r.size * 2) r).2 with
      | none => simp
      | some fr =>
        rw [ho] at V
        have hin := V.found fr rfl
        simp only [Option.some.injEq, Option.isSome_some, Bool.toNat_true]
        have hpos : 0 < r.size := by
          refine Nat.pos_of_ne_zero fun hzero => hne ?_
          rw [h.evictable, hzero]
          rfl
        have hlt := victimLoop_lt _ hpos (h.hand hpos) ho
        have hcount := countP_update r.size (fun i => (r.frames i).inReplacer) false hlt
        simp only [hin, Bool.toNat_true, Bool.toNat_false] at hcount
        have hsym : (List.range r.size).countP (fun i => if fr = i then false else (r.frames i).inReplacer) =
            (List.range r.size).countP (fun i => if i = fr then false else (r.frames i).inReplacer) :=
          List.countP_congr fun i _ => by simp only [eq_comm]
        rw [hsym]
        omega
  · rw [V.size]
    intro hpos
    rw [ClockReplacer.victim]
    split
    · exact h.hand hpos
    · exact victimLoop_hand _ hpos (h.hand hpos)

/-- `victim` finds a frame exactly if there is one in the replacer. -/
theorem Counted.victim_isSome (h : Counted r) : r.victim.2.isSome = true ↔ 0 < r.evictable := by
  constructor
  · intro hfound
    refine Nat.pos_of_ne_zero fun hzero => ?_
    rw [ClockReplacer.victim, if_pos hzero] at hfound
    cases hfound
  · intro hpos
    rw [← Option.ne_none_iff_isSome]
    intro hnone
    rw [h.evictable, List.countP_pos_iff] at hpos
    obtain ⟨fr, hfr, hin⟩ := hpos
    rw [h.victim_none hnone (List.mem_range.mp hfr)] at hin
    cases hin

theorem Counted.victim_lt (h : Counted r) (hfr : r.victim.2 = some fr) : fr < r.size := by
  rw [ClockReplacer.victim] at hfr
  split at hfr
  · cases hfr
  · next hne =>
    have hpos : 0 < r.size := by
      refine Nat.pos_of_ne_zero fun hzero => hne ?_
      rw [h.evictable, hzero]
      rfl
    exact victimLoop_lt _ hpos (h.hand hpos) hfr

/-! ### Runs of the replacer -/

inductive ReplacerCall where
  | pin (fr : Nat)
  | unpin (fr : Nat)
  | victim

/-- A call, with what `victim` found. -/
inductive ReplacerEvent where
  | pin (fr : Nat)
  | unpin (fr : Nat)
  | victim (found : Option Nat)

def call (r : ClockReplacer) : ReplacerCall → ClockReplacer × ReplacerEvent
  | .pin fr => (r.pin fr, .pin fr)
  | .unpin fr => (r.unpin fr, .unpin fr)
  | .victim => (r.victim.1, .victim r.victim.2)

/-- The replacer after some calls, and what happened at each. -/
def run (r : ClockReplacer) : List ReplacerCall → ClockReplacer × List ReplacerEvent
  | [] => (r, [])
  | c :: cs => (((r.call c).1.run cs).1, (r.call c).2 :: ((r.call c).1.run cs).2)

/-- The frame was unpinned, and neither pinned nor found by `victim` after that. -/
def Unpinned (events : List ReplacerEvent) (fr : Nat) : Prop :=
  ∃ before after, events = before ++ .unpin fr :: after ∧ .pin fr ∉ after ∧ .victim (some fr) ∉ after

theorem not_unpinned_nil (fr : Nat) : ¬Unpinned [] fr := by
  rintro ⟨before, after, h, -⟩
  cases before <;> cases h

theorem unpinned_concat (events : List ReplacerEvent) (e : ReplacerEvent) (fr : Nat) :
    Unpinned (events ++ [e]) fr ↔ e = .unpin fr ∨ Unpinned events fr ∧ e ≠ .pin fr ∧ e ≠ .victim (some fr) := by
  constructor
  · rintro ⟨before, after, h, hpin, hvictim⟩
    rcases List.eq_nil_or_concat after with rfl | ⟨after, e', rfl⟩
    · exact Or.inl (List.cons.inj (List.append_inj' h rfl).2).1
    · rw [List.concat_eq_append, ← List.cons_append, ← List.append_assoc] at h
      obtain ⟨hevents, he⟩ := List.append_inj' h rfl
      cases he
      rw [List.concat_eq_append, List.mem_append, List.mem_singleton, not_or] at hpin hvictim
      exact Or.inr ⟨⟨before, after, hevents, hpin.1, hvictim.1⟩, Ne.symm hpin.2, Ne.symm hvictim.2⟩
  · rintro (rfl | ⟨⟨before, after, rfl, hpin, hvictim⟩, hne, hne'⟩)
    · exact ⟨events, [], rfl, List.not_mem_nil, List.not_mem_nil⟩
    · refine ⟨before, after ++ [e], by rw [List.append_assoc, List.cons_append], ?_, ?_⟩
      · rw [List.mem_append, List.mem_singleton, not_or]
        exact ⟨hpin, Ne.symm hne⟩
      · rw [List.mem_append, List.mem_singleton, not_or]
        exact ⟨hvictim, Ne.symm hne'⟩

/-- The replacer is one of `num` frames after some events. -/
structure After (num : Nat) (events : List ReplacerEvent) (r : ClockReplacer) : Prop where
  counted : Counted r
  size : r.size = num
  frames : ∀ i < num, (r.frames i).inReplacer = true ↔ Unpinned events i

section Runs
variable {num : Nat} {events : List ReplacerEvent}

theorem After.call (h : After num events r) (c : ReplacerCall) : After num (events ++ [(r.call c).2]) (r.call c).1 := by
  cases c with
  | pin fr =>
    refine ⟨h.counted.pin fr, pin_size.trans h.size, fun i hi => ?_⟩
    have hpin : ((r.pin fr).frames i).inReplacer = true ↔ (r.frames i).inReplacer = true ∧ i ≠ fr := by
      by_cases hfr : fr < r.size
      · rw [pin_frames hfr]
        by_cases heq : i = fr <;> simp [heq]
      · have hne : i ≠ fr := by have := h.size; omega
        rw [ClockReplacer.pin, if_pos (Nat.not_lt.mp hfr)]
        exact (and_iff_left hne).symm
    rw [unpinned_concat]
    show ((r.pin fr).frames i).inReplacer = true ↔ _
    rw [hpin, h.frames i hi]
    simp [ClockReplacer.call, eq_comm]
  | unpin fr =>
    refine ⟨h.counted.unpin fr, unpin_size.trans h.size, fun i hi => ?_⟩
    have hunpin : ((r.unpin fr).frames i).inReplacer = true ↔ i = fr ∨ (r.frames i).inReplacer = true := by
      by_cases hfr : fr < r.size
      · rw [unpin_frames hfr]
        by_cases heq : i = fr <;> simp [heq]
      · have hne : i ≠ fr := by have := h.size; omega
        rw [ClockReplacer.unpin, if_pos (Nat.not_lt.mp hfr)]
        exact (or_iff_right hne).symm
    rw [unpinned_concat]
    show ((r.unpin fr).frames i).inReplacer = true ↔ _
    rw [hunpin, h.frames i hi]
    simp [ClockReplacer.call, eq_comm]
  | victim =>
    refine ⟨h.counted.victim, r.victim_spec.size.trans h.size, fun i hi => ?_⟩
    rw [unpinned_concat]
    show (r.victim.1.frames i).inReplacer = true ↔ _
    rw [r.victim_spec.frames i, ← h.frames i hi]
    by_cases heq : r.victim.2 = some i <;> simp [ClockReplacer.call, heq]

theorem After.run (h : After num events r) (cs : List ReplacerCall) : After num (events ++ (r.run cs).2) (r.run cs).1 := by
  induction cs generalizing r events with
  | nil =>
    rw [ClockReplacer.run, List.append_nil]
    exact h
  | cons c cs ih =>
    have hrest := ih (h.call c)
    rw [List.append_assoc] at hrest
    exact hrest

theorem After.create (num : Nat) : After num [] (create num) :=
  ⟨Counted.create num, rfl, fun i _ => iff_of_false Bool.false_ne_true (not_unpinned_nil i)⟩

end Runs

/-- After any calls `size_` counts the frames in the replacer, those are the frames that were unpinned last, and `victim` finds one
    of them as long as there is any, which is then out of the replacer. -/
theorem replacer_run (num : Nat) (cs : List ReplacerCall) :
    ((create num).run cs).1.evictable = (List.range num).countP (fun i => (((create num).run cs).1.frames i).inReplacer) ∧
    (∀ i < num, (((create num).run cs).1.frames i).inReplacer = true ↔ Unpinned ((create num).run cs).2 i) ∧
    (((create num).run cs).1.victim.2.isSome = true ↔ 0 < ((create num).run cs).1.evictable) ∧
    ∀ fr, ((create num).run cs).1.victim.2 = some fr → fr < num ∧ Unpinned ((create num).run cs).2 fr ∧
      (((create num).run cs).1.victim.1.frames fr).inReplacer = false := by
  have h := (After.create num).run cs
  rw [List.nil_append] at h
  refine ⟨?_, h.frames, h.counted.victim_isSome, fun fr hfr => ?_⟩
  · exact h.counted.evictable.trans (by rw [h.size])
  · have V := ((create num).run cs).1.victim_spec
    have hlt : fr < num := h.size ▸ h.counted.victim_lt hfr
    refine ⟨hlt, (h.frames fr hlt).mp (V.found fr hfr), ?_⟩
    rw [V.frames fr, if_pos hfr]

end ClockReplacer
end Rmdb
