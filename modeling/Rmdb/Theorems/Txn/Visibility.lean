import Rmdb.Theorems.Txn.Versions
import Mathlib.Data.List.Find

/-! Which version of a row a transaction sees.

A walk along a chain stops at the first version that is the reader's own or committed by its read timestamp. That version has not
expired: an expired one has another of this kind above it. -/

namespace Rmdb
open VersionChain

/-- Committed at or before the read timestamp. -/
def TupleVersion.committedBy (readTs : Int) (v : TupleVersion) : Bool := v.createTs ≠ invalidTimestamp && v.createTs ≤ readTs

/-- A version of the reader, or one committed by its read timestamp. -/
def TupleVersion.decisive (readTs id : Int) (v : TupleVersion) : Bool := v.txnId = id || v.committedBy readTs

section
variable {now readTs id : Int} {chain pre post : VersionChain} {v d : TupleVersion}

theorem decisive_iff : v.decisive readTs id = true ↔ v.txnId = id ∨ v.createTs ≠ invalidTimestamp ∧ v.createTs ≤ readTs := by
  simp [TupleVersion.decisive, TupleVersion.committedBy]

theorem not_decisive (h : v.decisive readTs id = false) :
    v.txnId ≠ id ∧ ¬(v.createTs ≠ invalidTimestamp ∧ v.createTs ≤ readTs) := by
  refine not_or.mp ?_
  rw [← decisive_iff, h]
  exact Bool.false_ne_true

/-- A committed version with no version above it that is committed by the read timestamp has not expired by then. -/
theorem ChainInv.unexpired (h : ChainInv now (pre ++ v :: post)) (hv : ¬v.Pending)
    (habove : ∀ u ∈ pre, u.committedBy readTs = false) : v.expireTs = intMax ∨ readTs < v.expireTs := by
  obtain ⟨id', us, cs, hsplit, hus, hcs⟩ := h
  rcases List.append_eq_append_iff.mp hsplit.symm with ⟨pre', rfl, hcs'⟩ | ⟨us', hus', hcs'⟩
  · rw [hcs'] at hcs
    rcases expired_split hcs.expired with hmax | ⟨-, hnone⟩ | ⟨a, ha, heq⟩
    · exact Or.inl hmax
    · cases hnone
    · have hmem : a ∈ pre' := List.mem_of_getLast? ha
      have hcommitted : ¬a.Pending := hcs.not_pending a (List.mem_append_left _ hmem)
      have hlate := habove a (List.mem_append_right us hmem)
      unfold TupleVersion.committedBy at hlate
      have hne : a.createTs ≠ invalidTimestamp := hcommitted
      refine Or.inr ?_
      rw [heq]
      simpa [hne] using hlate
  · cases us' with
    | nil =>
      rw [List.nil_append] at hcs'
      rw [← hcs'] at hcs
      rcases hcs.expired.1 with hmax | hnone
      · exact Or.inl hmax
      · cases hnone
    | cons u us' =>
      obtain ⟨rfl, -⟩ := List.cons.inj hcs'
      exact absurd (hus v (by rw [hus']; simp)).1 hv

/-- The timestamp of a committed version is one that was drawn. -/
theorem ChainInv.created (h : ChainInv now chain) (hnow : now ≤ intMax) (hv : v ∈ chain) (hcommitted : ¬v.Pending) :
    v.createTs ≠ intMax := by
  obtain ⟨id', us, cs, rfl, hus, hcs⟩ := h
  rcases List.mem_append.mp hv with hv | hv
  · exact absurd (hus v hv).1 hcommitted
  · have := (hcs.committed v hv).2
    omega

/-! ### The walks -/

theorem findVisibleLoop_pass (hpre : ∀ u ∈ pre, u.decisive readTs id = false) :
    findVisibleLoop readTs id (pre ++ post) = findVisibleLoop readTs id post := by
  induction pre with
  | nil => rfl
  | cons u pre ih =>
    obtain ⟨hu, hrest⟩ := List.forall_mem_cons.mp hpre
    obtain ⟨hown, hcommitted⟩ := not_decisive hu
    rw [List.cons_append, findVisibleLoop, if_neg hown]
    split
    · rw [if_pos (by omega), ih hrest]
    · rw [if_neg fun h => hcommitted ⟨h.1, h.2.2.1⟩, ih hrest]

theorem reconstructLoop_pass (hpre : ∀ u ∈ pre, u.decisive readTs id = false) :
    reconstructLoop readTs id (pre ++ post) = reconstructLoop readTs id post := by
  induction pre with
  | nil => rfl
  | cons u pre ih =>
    obtain ⟨hu, hrest⟩ := List.forall_mem_cons.mp hpre
    obtain ⟨hown, hcommitted⟩ := not_decisive hu
    rw [List.cons_append, reconstructLoop, if_neg hown, if_neg fun h => hcommitted ⟨h.1, h.2.2.1⟩, ih hrest]

/-- The first version that is the reader's or committed by its read timestamp is the one that a walk stops at. -/
structure Stop (now readTs id : Int) (pre : VersionChain) (d : TupleVersion) : Prop where
  passed : ∀ u ∈ pre, u.decisive readTs id = false
  decisive : d.decisive readTs id = true
  created : d.createTs ≠ invalidTimestamp → d.createTs ≠ intMax
  unexpired : d.createTs ≠ invalidTimestamp → d.expireTs = intMax ∨ readTs < d.expireTs

theorem ChainInv.stop (h : ChainInv now (pre ++ d :: post)) (hnow : now ≤ intMax) (hpre : ∀ u ∈ pre, u.decisive readTs id = false)
    (hd : d.decisive readTs id = true) : Stop now readTs id pre d where
  passed := hpre
  decisive := hd
  created hp := h.created hnow (by simp) hp
  unexpired hp := h.unexpired hp fun u hu => by
    have := hpre u hu
    unfold TupleVersion.decisive at this
    exact (Bool.or_eq_false_iff.mp this).2

theorem Stop.findVisibleLoop (h : Stop now readTs id pre d) (post : VersionChain) :
    VersionChain.findVisibleLoop readTs id (pre ++ d :: post) = if d.isDeleted then none else some d := by
  rw [findVisibleLoop_pass h.passed, VersionChain.findVisibleLoop]
  split
  · rfl
  · next hother =>
    obtain ⟨hcommitted, hle⟩ := (decisive_iff.mp h.decisive).resolve_left hother
    split
    · exact if_neg (by omega)
    · exact if_pos ⟨hcommitted, h.created hcommitted, hle, h.unexpired hcommitted⟩

theorem findVisibleLoop_none (h : ∀ u ∈ chain, u.decisive readTs id = false) : VersionChain.findVisibleLoop readTs id chain = none := by
  have hpass : VersionChain.findVisibleLoop readTs id (chain ++ []) = none := findVisibleLoop_pass h
  rwa [List.append_nil] at hpass

/-- `find_visible_version`: the first version that is the reader's or committed by its read timestamp, within reach of the walk. -/
theorem findVisibleVersion_eq (h : ChainInv now chain) (hnow : now ≤ intMax) (readTs id : Int) :
    chain.findVisibleVersion readTs id =
      ((chain.take maxIterations).find? (·.decisive readTs id)).filter fun v => !v.isDeleted := by
  unfold findVisibleVersion
  cases hfind : (chain.take maxIterations).find? (·.decisive readTs id) with
  | none =>
    refine findVisibleLoop_none fun u hu => ?_
    simpa using List.find?_eq_none.mp hfind u hu
  | some d =>
    obtain ⟨hd, pre, post, heq, hpre⟩ := List.find?_eq_some_iff_append.mp hfind
    have hchain : chain = pre ++ d :: (post ++ chain.drop maxIterations) := by
      rw [← List.cons_append, ← List.append_assoc, ← heq, List.take_append_drop]
    rw [hchain] at h
    rw [heq, (h.stop hnow (fun u hu => by simpa using hpre u hu) hd).findVisibleLoop]
    cases hdel : d.isDeleted <;> simp [Option.filter, hdel]

end

/-! ### What a reader is to see -/

namespace VersionChain
variable (chain : VersionChain) (readTs id : Int)

/-- The position of the newest version of the reader, or else of the newest one committed by its read timestamp. -/
def latest? : Option Nat := (chain.findIdx? (·.txnId = id)).or (chain.findIdx? (·.committedBy readTs))

/-- The version that the reader is to see: none if it is a deletion. -/
def specified : Option TupleVersion := ((chain.latest? readTs id).bind (chain[·]?)).filter fun v => !v.isDeleted

/-- The walk can tell the version: fewer than `max_iterations` versions are above it, and above an own version of the reader there
    is none committed by its read timestamp. Where the versions are deletions it makes no difference. -/
def Told : Prop :=
  ∀ i v, chain.latest? readTs id = some i → chain[i]? = some v → (maxIterations ≤ i → v.isDeleted = true) ∧
    ∀ u ∈ ((chain.take i).take maxIterations).find? (·.committedBy readTs), u.isDeleted = true ∧ v.isDeleted = true

variable {chain readTs id} {i : Nat} {v : TupleVersion}

/-- What is above the version that the reader is to see. -/
structure Above (pre : VersionChain) (readTs id : Int) (v : TupleVersion) : Prop where
  foreign : ∀ u ∈ pre, u.txnId ≠ id
  decisive : v.decisive readTs id = true
  differs : ∀ u ∈ pre, u.committedBy readTs = true → u ≠ v

theorem above_of_latest (hlatest : chain.latest? readTs id = some i) (hv : chain[i]? = some v) :
    Above (chain.take i) readTs id v ∧ chain = chain.take i ++ v :: chain.drop (i + 1) ∧ (chain.take i).length = i := by
  obtain ⟨hi, rfl⟩ := List.getElem?_eq_some_iff.mp hv
  refine ⟨?_, ?_, List.length_take_of_le (Nat.le_of_lt hi)⟩
  · have hmem : ∀ p : TupleVersion → Bool, (∀ j (_ : j < i) (hj : j < chain.length), ¬p chain[j] = true) →
        ∀ u ∈ chain.take i, p u = false := by
      intro p hp u hu
      obtain ⟨j, hj, rfl⟩ := List.mem_take_iff_getElem.mp hu
      simpa using hp j (Nat.lt_of_lt_of_le hj (Nat.min_le_left _ _)) (Nat.lt_of_lt_of_le hj (Nat.min_le_right _ _))
    rcases Option.or_eq_some_iff.mp hlatest with hown | ⟨hnone, hcommitted⟩
    · obtain ⟨_, hid, hbefore⟩ := List.findIdx?_eq_some_iff_getElem.mp hown
      have hid : chain[i].txnId = id := by simpa using hid
      have hforeign : ∀ u ∈ chain.take i, u.txnId ≠ id := fun u hu => by
        simpa using hmem (fun w => w.txnId = id) (fun j hj _ => hbefore j hj) u hu
      exact ⟨hforeign, decisive_iff.mpr (Or.inl hid), fun u hu _ heq => hforeign u hu (heq ▸ hid)⟩
    · obtain ⟨_, hts, hbefore⟩ := List.findIdx?_eq_some_iff_getElem.mp hcommitted
      refine ⟨fun u hu => ?_, ?_, fun u hu hts' => ?_⟩
      · simpa using List.findIdx?_eq_none_iff.mp hnone u (List.mem_of_mem_take hu)
      · unfold TupleVersion.decisive
        rw [hts, Bool.or_true]
      · rw [hmem (·.committedBy readTs) (fun j hj _ => hbefore j hj) u hu] at hts'
        cases hts'
  · rw [List.getElem_cons_drop, List.take_append_drop]

theorem Above.find?_eq {pre : VersionChain} (h : Above pre readTs id v) (n : Nat) :
    (pre.take n).find? (·.decisive readTs id) = (pre.take n).find? (·.committedBy readTs) := by
  refine List.find?_congr fun u hu => ?_
  have := h.foreign u (List.mem_of_mem_take hu)
  simp [TupleVersion.decisive, this]

theorem filter_eq_iff {u v : TupleVersion} (h : u ≠ v) : (some u).filter (fun v => !v.isDeleted) = (some v).filter (fun v => !v.isDeleted) ↔
    u.isDeleted = true ∧ v.isDeleted = true := by
  cases hu : u.isDeleted <;> cases hv : v.isDeleted <;> simp [Option.filter, hu, hv, h]

theorem findVisible_iff {now : Int} (h : ChainInv now chain) (hnow : now ≤ intMax) :
    chain.findVisibleVersion readTs id = chain.specified readTs id ↔ chain.Told readTs id := by
  rw [findVisibleVersion_eq h hnow]
  unfold specified Told
  cases hlatest : chain.latest? readTs id with
  | none =>
    obtain ⟨hown, hcommitted⟩ := Option.or_eq_none_iff.mp hlatest
    have hnone : (chain.take maxIterations).find? (·.decisive readTs id) = none := by
      refine List.find?_eq_none.mpr fun u hu => ?_
      have hown := List.findIdx?_eq_none_iff.mp hown u (List.mem_of_mem_take hu)
      have hcommitted := List.findIdx?_eq_none_iff.mp hcommitted u (List.mem_of_mem_take hu)
      simp [TupleVersion.decisive, hcommitted, of_decide_eq_false hown]
    rw [hnone]
    exact iff_of_true rfl fun i v hi => by cases hi
  | some i =>
    have hi : i < chain.length := by
      rcases Option.or_eq_some_iff.mp hlatest with hown | ⟨-, hcommitted⟩
      · exact (List.findIdx?_eq_some_iff_getElem.mp hown).1
      · exact (List.findIdx?_eq_some_iff_getElem.mp hcommitted).1
    obtain ⟨v, hv⟩ : ∃ v, chain[i]? = some v := ⟨_, List.getElem?_eq_getElem hi⟩
    obtain ⟨habove, hsplit, hlen⟩ := above_of_latest hlatest hv
    have honly : (∀ j w, some i = some j → chain[j]? = some w → (maxIterations ≤ j → w.isDeleted = true) ∧
        ∀ u ∈ ((chain.take j).take maxIterations).find? (·.committedBy readTs), u.isDeleted = true ∧ w.isDeleted = true) ↔
        (maxIterations ≤ i → v.isDeleted = true) ∧
          ∀ u ∈ ((chain.take i).take maxIterations).find? (·.committedBy readTs), u.isDeleted = true ∧ v.isDeleted = true := by
      refine ⟨fun hall => hall i v rfl hv, fun hall j w hj hw => ?_⟩
      cases hj
      cases hv.symm.trans hw
      exact hall
    rw [honly, Option.bind_some, hv]
    have hdiffer : ∀ u ∈ ((chain.take i).take maxIterations).find? (·.committedBy readTs), u ≠ v := fun u hu =>
      habove.differs u (List.mem_of_mem_take (List.mem_of_find?_eq_some hu)) (List.find?_some hu)
    have hsome : ∀ u, ((chain.take i).take maxIterations).find? (·.committedBy readTs) = some u →
        ((some u).filter (fun v => !v.isDeleted) = (some v).filter (fun v => !v.isDeleted) ↔
          (maxIterations ≤ i → v.isDeleted = true) ∧ ∀ w ∈ some u, w.isDeleted = true ∧ v.isDeleted = true) := by
      intro u hu
      rw [filter_eq_iff (hdiffer u hu)]
      refine ⟨fun h => ⟨fun _ => h.2, fun w hw => ?_⟩, fun h => h.2 u rfl⟩
      cases hw
      exact h
    rcases Nat.lt_or_ge i maxIterations with hnear | hfar
    · -- the walk comes to the version, or stops above it
      have htake : chain.take maxIterations = (chain.take i).take maxIterations ++ (v :: chain.drop (i + 1)).take (maxIterations - i) := by
        conv_lhs => rw [hsplit, List.take_append, hlen]
      obtain ⟨n, hn⟩ : ∃ n, maxIterations - i = n + 1 := ⟨maxIterations - i - 1, by omega⟩
      rw [htake, List.find?_append, habove.find?_eq, hn, List.take_succ_cons, List.find?_cons_of_pos habove.decisive]
      cases hu : ((chain.take i).take maxIterations).find? (·.committedBy readTs) with
      | none => exact iff_of_true rfl ⟨fun h => absurd h (Nat.not_le.mpr hnear), fun u hu => by cases hu⟩
      | some u => exact hsome u hu
    · have htake : chain.take maxIterations = (chain.take i).take maxIterations := by
        rw [List.take_take, Nat.min_eq_left hfar]
      rw [htake, habove.find?_eq]
      cases hu : ((chain.take i).take maxIterations).find? (·.committedBy readTs) with
      | none =>
        refine ⟨fun h => ⟨fun _ => ?_, fun u hu => by cases hu⟩, fun h => ?_⟩
        · cases hdel : v.isDeleted with
          | true => rfl
          | false =>
            rw [Option.filter_none, Option.filter_some] at h
            simp [hdel] at h
        · rw [Option.filter_none, Option.filter_some, h.1 hfar]
          rfl
      | some u => exact hsome u hu

end VersionChain

/-! ### Three walks -/

/-- If the first version that is the reader's or committed by its read timestamp is a deletion, then no version below it, within
    reach of the walks, passes `is_version_visible`. -/
def VersionChain.NothingBelow (chain : VersionChain) (readTs id : Int) : Prop :=
  ∀ i d, (chain.take maxIterations).findIdx? (·.decisive readTs id) = some i → (chain.take maxIterations)[i]? = some d →
    d.isDeleted = true → ∀ w ∈ (chain.take maxIterations).drop (i + 1), isVersionVisible w id readTs = false

section
variable {now readTs id : Int} {pre chain : VersionChain} {d w : TupleVersion}

theorem visible_decisive (h : isVersionVisible w id readTs = true) :
    w.isDeleted = false ∧ w.decisive readTs id = true := by
  unfold isVersionVisible at h
  split at h
  · next hown => exact ⟨by simpa using h, decisive_iff.mpr (Or.inl hown)⟩
  · simp only [Bool.and_eq_true, Bool.not_eq_true', decide_eq_true_eq, ne_eq] at h
    exact ⟨h.1.1.1.1, decisive_iff.mpr (Or.inr ⟨h.1.1.1.2, h.1.2⟩)⟩

theorem Stop.visible (h : Stop now readTs id pre d) (hdel : d.isDeleted = false) :
    isVersionVisible d id readTs = true := by
  unfold isVersionVisible
  split
  · simp [hdel]
  · next hother =>
    obtain ⟨hcommitted, hle⟩ := (decisive_iff.mp h.decisive).resolve_left hother
    have hcreated := h.created hcommitted
    have hexp := h.unexpired hcommitted
    simp only [hdel, hcommitted, hcreated, hle, Bool.not_false, Bool.true_and, ne_eq, not_false_eq_true, decide_true, Bool.not_eq_true',
      Bool.and_eq_false_iff, decide_eq_false_iff_not, Decidable.not_not]
    omega

/-- `reconstruct_version` copies a version that passes `is_version_visible`. -/
theorem visible_of_reconstruct {vs : VersionChain} (h : reconstructLoop readTs id vs = some w) :
    w ∈ vs ∧ isVersionVisible w id readTs = true := by
  induction vs with
  | nil => cases h
  | cons u us ih =>
    rw [reconstructLoop] at h
    split at h
    · next hown =>
      split at h
      · cases h
      · next hdel =>
        cases h
        exact ⟨List.mem_cons_self .., by simp [isVersionVisible, hown, hdel]⟩
    · next hother =>
      split at h
      · next hc =>
        cases h
        obtain ⟨hcommitted, hmax, hle, hexp, hdel⟩ := hc
        refine ⟨List.mem_cons_self .., ?_⟩
        simp only [isVersionVisible, hother, if_false, hdel, hcommitted, hmax, hle, Bool.not_false, Bool.true_and, ne_eq, not_false_eq_true,
          decide_true, Bool.not_eq_true', Bool.and_eq_false_iff, decide_eq_false_iff_not, Decidable.not_not]
        omega
      · obtain ⟨hw, hvis⟩ := ih h
        exact ⟨List.mem_cons_of_mem u hw, hvis⟩

theorem findVersionForDelete_eq (chain : VersionChain) (readTs id : Int) :
    chain.findVersionForDelete readTs id = (chain.take maxIterations).find? fun v => isVersionVisible v id readTs := by
  unfold findVersionForDelete
  refine List.find?_congr fun v _ => ?_
  cases hvis : isVersionVisible v id readTs with
  | false => exact Bool.and_false _
  | true => rw [(visible_decisive hvis).1]; rfl

/-- The walks on a chain with the version that `find_visible_version` stops at. -/
theorem Stop.walks_iff (h : Stop now readTs id pre d) (post : VersionChain) :
    ((pre ++ d :: post).find? (fun v => isVersionVisible v id readTs) = (some d).filter (fun v => !v.isDeleted) ∧
      reconstructLoop readTs id (pre ++ d :: post) = (some d).filter fun v => !v.isDeleted) ↔
      (d.isDeleted = true → ∀ u ∈ post, isVersionVisible u id readTs = false) := by
  have hpre : pre.find? (fun v => isVersionVisible v id readTs) = none := by
    refine List.find?_eq_none.mpr fun u hu hv => ?_
    have := (visible_decisive hv).2
    rw [h.passed u hu] at this
    cases this
  rw [List.find?_append, hpre, Option.none_or, reconstructLoop_pass h.passed]
  cases hdel : d.isDeleted with
  | false =>
    have hd := h.visible hdel
    refine iff_of_true ⟨?_, ?_⟩ fun h => by cases h
    · rw [List.find?_cons_of_pos (p := fun v => isVersionVisible v id readTs) hd]
      simp [Option.filter, hdel]
    · rw [reconstructLoop]
      split
      · simp [Option.filter, hdel]
      · next hother =>
        obtain ⟨hcommitted, hle⟩ := (decisive_iff.mp h.decisive).resolve_left hother
        rw [if_pos ⟨hcommitted, h.created hcommitted, hle, h.unexpired hcommitted, Bool.eq_false_iff.mp hdel⟩]
        simp [Option.filter, hdel]
  | true =>
    have hd : isVersionVisible d id readTs = false := by
      refine Bool.eq_false_iff.mpr fun hv => ?_
      rw [(visible_decisive hv).1] at hdel
      cases hdel
    have hnone : (some d).filter (fun v => !v.isDeleted) = none := by simp [Option.filter, hdel]
    rw [hnone, List.find?_cons_of_neg (p := fun v => isVersionVisible v id readTs) (Bool.eq_false_iff.mp hd)]
    refine ⟨fun hboth _ u hu => ?_, fun hall => ?_⟩
    · simpa using List.find?_eq_none.mp hboth.1 u hu
    · have hall := hall rfl
      refine ⟨List.find?_eq_none.mpr fun u hu => Bool.eq_false_iff.mp (hall u hu), ?_⟩
      rw [Option.eq_none_iff_forall_ne_some]
      intro w hw
      obtain ⟨hmem, hvis⟩ := visible_of_reconstruct hw
      rcases List.mem_cons.mp hmem with rfl | hmem
      · rw [hd] at hvis
        cases hvis
      · rw [hall w hmem] at hvis
        cases hvis

/-- The three walks select one version if and only if nothing is below a deletion at which `find_visible_version` stops. -/
theorem walks_agree_iff (h : ChainInv now chain) (hnow : now ≤ intMax) :
    (chain.findVersionForDelete readTs id = chain.findVisibleVersion readTs id ∧
      chain.reconstructVersion readTs id = chain.findVisibleVersion readTs id) ↔ chain.NothingBelow readTs id := by
  rw [findVisibleVersion_eq h hnow, findVersionForDelete_eq]
  unfold reconstructVersion NothingBelow
  cases hfind : (chain.take maxIterations).findIdx? (·.decisive readTs id) with
  | none =>
    have hnone : ∀ u ∈ chain.take maxIterations, u.decisive readTs id = false := List.findIdx?_eq_none_iff.mp hfind
    have hvis : (chain.take maxIterations).find? (fun v => isVersionVisible v id readTs) = none := by
      refine List.find?_eq_none.mpr fun u hu hv => ?_
      have := (visible_decisive hv).2
      rw [hnone u hu] at this
      cases this
    have hrec : reconstructLoop readTs id (chain.take maxIterations ++ []) = none := reconstructLoop_pass hnone
    rw [List.append_nil] at hrec
    rw [hvis, hrec, List.find?_eq_none.mpr fun u hu => Bool.eq_false_iff.mp (hnone u hu)]
    exact iff_of_true ⟨rfl, rfl⟩ fun i d hi => by cases hi
  | some i =>
    obtain ⟨hi, hdec, hbefore⟩ := List.findIdx?_eq_some_iff_getElem.mp hfind
    generalize hreach : chain.take maxIterations = reach at hfind hi hdec hbefore ⊢
    obtain ⟨d, hd⟩ : ∃ d, d = reach[i] := ⟨_, rfl⟩
    have hsplit : reach = reach.take i ++ d :: reach.drop (i + 1) := by rw [hd, List.getElem_cons_drop, List.take_append_drop]
    have hpre : ∀ u ∈ reach.take i, u.decisive readTs id = false := by
      intro u hu
      obtain ⟨j, hj, rfl⟩ := List.mem_take_iff_getElem.mp hu
      simpa using hbefore j (Nat.lt_of_lt_of_le hj (Nat.min_le_left _ _))
    have hchain : chain = reach.take i ++ d :: (reach.drop (i + 1) ++ chain.drop maxIterations) := by
      conv_lhs => rw [← List.take_append_drop maxIterations chain, hreach, hsplit, List.append_assoc, List.cons_append]
    rw [← hd] at hdec
    rw [hchain] at h
    have hstop : Stop now readTs id (reach.take i) d := h.stop hnow hpre hdec
    have honly : (∀ j w, some i = some j → reach[j]? = some w → w.isDeleted = true →
        ∀ u ∈ reach.drop (j + 1), isVersionVisible u id readTs = false) ↔
        (d.isDeleted = true → ∀ u ∈ reach.drop (i + 1), isVersionVisible u id readTs = false) := by
      refine ⟨fun hall hdel => hall i d rfl (by rw [List.getElem?_eq_getElem hi, hd]) hdel, fun hall j w hj hw => ?_⟩
      cases hj
      rw [List.getElem?_eq_getElem hi, ← hd] at hw
      cases hw
      exact hall
    have hfirst : reach.find? (·.decisive readTs id) = some d := by
      rw [hsplit]
      exact List.find?_eq_some_iff_append.mpr ⟨hdec, _, _, rfl, fun u hu => by rw [hpre u hu]; rfl⟩
    rw [honly, hfirst, ← hstop.walks_iff, ← hsplit]

end

/-! ### Reachable chains -/

namespace MvccManager
variable {K : Type} [DecidableEq K] {m n : MvccManager K}

/-- A call with a result did not need a timestamp past the last one. -/
theorem fits_of_step {a : MvccCall K} (h : MvccManager.step m a = .ok n) : m.Fits a ∧ (m.nextTimestamp ≤ intMax → n.nextTimestamp ≤ intMax) := by
  cases a with
  | insertVersion | updateVersion | rollbackTransaction =>
    cases h
    exact ⟨trivial, id⟩
  | deleteVersion row original id readTs =>
    cases h
    refine ⟨trivial, fun hle => ?_⟩
    rw [MvccManager.deleteVersion]
    split <;> exact hle
  | commitTransaction | getNextTimestamp =>
    rw [MvccManager.step] at h
    split at h
    · next hlt =>
      cases h
      exact ⟨hlt, fun _ => hlt⟩
    · cases h

theorem one_le_intMax : 1 ≤ intMax := by decide

theorem inv_of_exec {as : List (MvccCall K)} (h : Runs.exec MvccManager.step init as = .ok m) : Inv m ∧ m.nextTimestamp ≤ intMax := by
  refine Runs.exec_keeps (I := fun m => Inv m ∧ m.nextTimestamp ≤ intMax) (D := fun _ => True) (fun s a t hs _ ht => ?_)
    ⟨⟨Int.one_pos, fun _ _ hc => (by cases hc)⟩, one_le_intMax⟩ (fun _ _ => trivial) h
  obtain ⟨hfits, hnext⟩ := fits_of_step ht
  obtain ⟨u, hu, hinv⟩ := hs.1.step hfits
  rw [ht] at hu
  cases hu
  exact ⟨hinv, hnext hs.2⟩

/-- `find_visible_version` on the chains that calls leave selects the version that the reader is to see if and only if the walk
    can tell it. -/
theorem sees_specified_iff {as : List (MvccCall K)} (h : Runs.exec MvccManager.step init as = .ok m) {row : K} {chain : VersionChain}
    (hchain : m.versionChains row = some chain) (readTs id : Int) :
    chain.findVisibleVersion readTs id = chain.specified readTs id ↔ chain.Told readTs id := by
  obtain ⟨hinv, hnow⟩ := inv_of_exec h
  exact findVisible_iff (hinv.chains row chain hchain) hnow

/-- The versions that `versionCalls` leave. -/
def versionsLeft : VersionChain := [⟨[2], 2, 2, intMax, true⟩, ⟨[2], 2, 2, intMax, false⟩, ⟨[1], 1, 1, 2, false⟩]

/-- The reader of a chain with three versions sees the one that was there when it began. -/
theorem sees_specified_iff_versions : ∃ m chain, Runs.exec MvccManager.step (init : MvccManager Unit) versionCalls = .ok m ∧
    m.versionChains () = some chain ∧ (chain.findVisibleVersion 1 4 = chain.specified 1 4 ↔ chain.Told 1 4) := by
  obtain ⟨m, hm, hchain⟩ := Runs.exec_eval MvccManager.step init versionCalls (fun m => m.versionChains ()) (b := some versionsLeft)
    (by decide)
  exact ⟨m, versionsLeft, hm, hchain, sees_specified_iff hm hchain 1 4⟩

/-- The versions of a row that have expired, after as many updates. -/
def expiredVersions : Nat → VersionChain
  | 0 => []
  | n + 1 => ⟨[], n + 1, n + 1, n + 2, false⟩ :: expiredVersions n

/-- A row is inserted, and then updated by one transaction after another. -/
def updates : Nat → List (MvccCall Unit)
  | 0 => [.insertVersion () [] 1, .commitTransaction 1 [()]]
  | n + 1 => updates n ++ [.updateVersion () [] (n + 2) (n + 1), .commitTransaction (n + 2) [()]]

theorem expiredVersions_ids (n : Nat) : ∀ v ∈ expiredVersions n, v.txnId ≤ n := by
  induction n with
  | zero => exact fun v hv => by cases hv
  | succ n ih =>
    refine List.forall_mem_cons.mpr ⟨by simp, fun v hv => ?_⟩
    have := ih v hv
    omega

theorem updateVersion_next {n : Nat} (hn : (n : Int) + 1 < intMax) :
    VersionChain.updateVersion (⟨[], n + 1, n + 1, intMax, false⟩ :: expiredVersions n) [] (n + 2) (n + 1) =
      some (.new [] (n + 2) false :: ⟨[], n + 1, n + 1, intMax, false⟩ :: expiredVersions n) := by
  have hother : ¬(n : Int) + 1 = n + 2 := by omega
  have hcommitted : ¬(n : Int) + 1 = invalidTimestamp := by
    unfold invalidTimestamp
    omega
  have hseen : findVisibleVersion (⟨[], n + 1, n + 1, intMax, false⟩ :: expiredVersions n) (n + 1) (n + 2) =
      some ⟨[], n + 1, n + 1, intMax, false⟩ := by
    rw [findVisibleVersion, maxIterations, List.take_succ_cons, findVisibleLoop, if_neg hother, if_neg Bool.false_ne_true,
      if_pos ⟨hcommitted, Int.ne_of_lt hn, Int.le_refl _, Or.inl rfl⟩]
  have hfree : conflicts (⟨[], n + 1, n + 1, intMax, false⟩ :: expiredVersions n) (n + 2) = false := by simp [conflicts, hcommitted]
  simp [VersionChain.updateVersion, hfree, hother, hseen]

theorem commitChainVersions_next (n : Nat) :
    commitChainVersions (.new [] (n + 2) false :: ⟨[], n + 1, n + 1, intMax, false⟩ :: expiredVersions n) (n + 2) (n + 2) =
      ⟨[], n + 2, n + 2, intMax, false⟩ :: expiredVersions (n + 1) := by
  have hother : ¬(n : Int) + 1 = n + 2 := by omega
  have hcommitted : ¬(n : Int) + 1 = invalidTimestamp := by
    unfold invalidTimestamp
    omega
  have hrest : commitLoop (n + 2) (n + 2) false (expiredVersions n) = expiredVersions n := by
    refine commitLoop_other fun v hv h => ?_
    have := expiredVersions_ids n v hv
    omega
  simp [commitChainVersions, commitLoop, TupleVersion.new, hother, hcommitted, hrest, expiredVersions]

theorem exec_update {m : MvccManager Unit} {n : Nat} (hn : (n : Int) + 2 < intMax) (hts : m.nextTimestamp = n + 2)
    (hchain : m.versionChains () = some (⟨[], n + 1, n + 1, intMax, false⟩ :: expiredVersions n)) :
    ∃ t, Runs.exec MvccManager.step m [.updateVersion () [] (n + 2) (n + 1), .commitTransaction (n + 2) [()]] = .ok t ∧
      t.nextTimestamp = n + 3 ∧ t.versionChains () = some (⟨[], n + 2, n + 2, intMax, false⟩ :: expiredVersions (n + 1)) := by
  obtain ⟨u, hu⟩ : ∃ u, u = m.updateVersion () [] (n + 2) (n + 1) := ⟨_, rfl⟩
  have hupdate : u.versionChains () = some (.new [] (n + 2) false :: ⟨[], n + 1, n + 1, intMax, false⟩ :: expiredVersions n) := by
    rw [hu, MvccManager.updateVersion, hchain, Option.getD_some, updateVersion_next (by omega)]
    rfl
  have hnext : u.nextTimestamp = n + 2 := by
    rw [hu]
    exact hts
  refine ⟨u.getNextTimestamp.commitTransaction (n + 2) [()] u.nextTimestamp, ?_, ?_, ?_⟩
  · have hlt : u.nextTimestamp < intMax := by omega
    simp [Runs.exec, MvccManager.step, ← hu, hlt, bind, Except.bind]
  · have hdrawn : (u.getNextTimestamp.commitTransaction (n + 2) [()] u.nextTimestamp).nextTimestamp = u.nextTimestamp + 1 := rfl
    omega
  · rw [hnext, ← commitChainVersions_next]
    simp [MvccManager.commitTransaction, MvccManager.getNextTimestamp, hupdate]

theorem exec_updates (n : Nat) (hn : (n : Int) + 1 < intMax) : ∃ m, Runs.exec MvccManager.step init (updates n) = .ok m ∧
    m.nextTimestamp = n + 2 ∧ m.versionChains () = some (⟨[], n + 1, n + 1, intMax, false⟩ :: expiredVersions n) := by
  induction n with
  | zero => exact ⟨_, rfl, rfl, rfl⟩
  | succ n ih =>
    obtain ⟨m, hm, hts, hchain⟩ := ih (by omega)
    obtain ⟨t, ht, hnext⟩ := exec_update (by omega) hts hchain
    refine ⟨t, ?_, ?_⟩
    · rw [updates, Runs.exec_append hm, ht]
    · simpa [Int.add_assoc] using hnext

/-- After a thousand updates the version that a reader from before them is to see is out of reach of its walk. -/
theorem not_sees_specified_long : ∃ m chain, Runs.exec MvccManager.step (init : MvccManager Unit) (updates 1000) = .ok m ∧
    m.versionChains () = some chain ∧ chain.specified 1 1002 = some ⟨[], 1, 1, 2, false⟩ ∧ chain.findVisibleVersion 1 1002 = none := by
  obtain ⟨m, hm, -, hchain⟩ := exec_updates 1000 (by decide)
  exact ⟨m, _, hm, hchain, by decide +kernel, by decide +kernel⟩

/-- The three walks on the chains that calls leave select one version if and only if no version that passes
    `is_version_visible` is below a deletion at which `find_visible_version` stops. -/
theorem walks_select_iff {as : List (MvccCall K)} (h : Runs.exec MvccManager.step init as = .ok m) {row : K} {chain : VersionChain}
    (hchain : m.versionChains row = some chain) (readTs id : Int) :
    (chain.findVersionForDelete readTs id = chain.findVisibleVersion readTs id ∧
      chain.reconstructVersion readTs id = chain.findVisibleVersion readTs id) ↔ chain.NothingBelow readTs id := by
  obtain ⟨hinv, hnow⟩ := inv_of_exec h
  exact walks_agree_iff (hinv.chains row chain hchain) hnow

/-- The three walks on a chain that ends in a deletion, for a reader from before it. -/
theorem walks_select_iff_versions : ∃ m chain, Runs.exec MvccManager.step (init : MvccManager Unit) versionCalls = .ok m ∧
    m.versionChains () = some chain ∧ ((chain.findVersionForDelete 1 4 = chain.findVisibleVersion 1 4 ∧
      chain.reconstructVersion 1 4 = chain.findVisibleVersion 1 4) ↔ chain.NothingBelow 1 4) := by
  obtain ⟨m, hm, hchain⟩ := Runs.exec_eval MvccManager.step init versionCalls (fun m => m.versionChains ()) (b := some versionsLeft)
    (by decide)
  exact ⟨m, versionsLeft, hm, hchain, walks_select_iff hm hchain 1 4⟩

/-- A row that a transaction updated and deleted before it committed is gone for a later reader, but the two other walks select
    the version from before the deletion. -/
theorem not_walks_select_deleted : ∃ m chain, Runs.exec MvccManager.step (init : MvccManager Unit) versionCalls = .ok m ∧
    m.versionChains () = some chain ∧ chain.findVisibleVersion 2 4 = none ∧ chain.findVersionForDelete 2 4 ≠ none ∧
      chain.reconstructVersion 2 4 ≠ none := by
  obtain ⟨m, hm, hchain⟩ := Runs.exec_eval MvccManager.step init versionCalls (fun m => m.versionChains ()) (b := some versionsLeft)
    (by decide)
  exact ⟨m, versionsLeft, hm, hchain, by decide, by decide, by decide⟩

end MvccManager
end Rmdb
