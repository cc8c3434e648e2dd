import Mathlib.Logic.Basic

/-! Words and numbers in a text, as formatted extraction (`>>`) takes them out of a stream.

Extraction skips white space and stops in front of white space. `Takes` says that a reader takes a piece of text that ends in
white space out of any stream; readers one after another take the pieces one after another. -/

namespace TextStream

/-- `isspace`. -/
def isSpace (c : Char) : Bool := c = ' ' || c = '\t' || c = '\n' || c = '\x0b' || c = '\x0c' || c = '\r'

/-- A reader of a stream; nothing if the extraction fails. -/
abbrev Reader (α : Type) := StateT (List Char) Option α

/-- `>>` into a string. -/
def word : Reader String := fun cs =>
  let cs := cs.dropWhile isSpace
  if cs = [] then none else some (String.ofList (cs.takeWhile fun c => !isSpace c), cs.dropWhile fun c => !isSpace c)

/-- `>>` into a number that has no sign. -/
def nat : Reader Nat := fun cs =>
  let cs := cs.dropWhile isSpace
  let digits := cs.takeWhile Char.isDigit
  if digits = [] then none else some (Nat.ofDigitChars 10 digits 0, cs.dropWhile Char.isDigit)

/-- A loop of `n` readers that change a value. -/
def times {α : Type} (r : α → Reader α) : Nat → α → Reader α
  | 0, a => pure a
  | n + 1, a => do times r n (← r a)

/-- `<<` of a number. -/
def showNat (n : Nat) : List Char := Nat.toDigits 10 n

/-- `std::to_string` of a signed number. -/
def showInt (n : Int) : List Char := if n < 0 then '-' :: showNat n.natAbs else showNat n.natAbs

/-- The sign that a number begins with, and what is behind it. -/
def signed : List Char → Int × List Char
  | '-' :: cs => (-1, cs)
  | '+' :: cs => (1, cs)
  | cs => (1, cs)

/-- `std::stoi`; nothing if it raises an exception, because no number is there or it is none of 32 bits. -/
def stoi (cs : List Char) : Option Int :=
  let (sign, cs) := signed (cs.dropWhile isSpace)
  let digits := cs.takeWhile Char.isDigit
  let n := sign * Nat.ofDigitChars 10 digits 0
  if digits ≠ [] ∧ -0x80000000 ≤ n ∧ n ≤ 0x7fffffff then some n else none

/-- `find_last_of` of a character among the first `n` ones: its position. -/
def findLastOf (c : Char) (cs : List Char) (n : Nat) : Option Nat :=
  ((cs.take n).reverse.idxOf? c).map fun i => (cs.take n).length - 1 - i

/-- The reader takes the text out of the stream, and perhaps white space behind its last word is left. -/
def Takes {α : Type} (r : Reader α) (text : List Char) (a : α) : Prop :=
  ∀ pre rest, (∀ c ∈ pre, isSpace c) → ∃ post, (∀ c ∈ post, isSpace c) ∧ r (pre ++ text ++ rest) = some (a, post ++ rest)

/-- A word can stand in a stream. -/
def IsWord (s : String) : Prop := s.toList ≠ [] ∧ ∀ c ∈ s.toList, !isSpace c

section
variable {α β : Type}

theorem dropWhile_spaces {pre cs : List Char} (hpre : ∀ c ∈ pre, isSpace c) {c : Char} (hc : !isSpace c) :
    (pre ++ c :: cs).dropWhile isSpace = c :: cs := by
  induction pre with
  | nil => exact List.dropWhile_cons_of_neg (by simpa using hc)
  | cons d pre ih =>
    obtain ⟨hd, hpre⟩ := List.forall_mem_cons.mp hpre
    rw [List.cons_append, List.dropWhile_cons_of_pos hd, ih hpre]

theorem takes_word {s : String} (hs : IsWord s) {c : Char} (hc : isSpace c) : Takes word (s.toList ++ [c]) s := by
  intro pre rest hpre
  refine ⟨[c], by simpa using hc, ?_⟩
  obtain ⟨hne, hall⟩ := hs
  obtain ⟨d, ds, hd⟩ := List.exists_cons_of_ne_nil hne
  have hskip : (pre ++ (s.toList ++ [c]) ++ rest).dropWhile isSpace = s.toList ++ c :: rest := by
    rw [hd, List.append_assoc, List.append_assoc, List.singleton_append, List.cons_append]
    exact dropWhile_spaces hpre (hall d (by rw [hd]; exact List.mem_cons_self))
  have htake : (s.toList ++ c :: rest).takeWhile (fun c => !isSpace c) = s.toList := by
    rw [List.takeWhile_append_of_pos hall, List.takeWhile_cons_of_neg (by simpa using hc), List.append_nil]
  have hdrop : (s.toList ++ c :: rest).dropWhile (fun c => !isSpace c) = c :: rest := by
    rw [List.dropWhile_append_of_pos hall, List.dropWhile_cons_of_neg (by simpa using hc)]
  simp only [word, hskip]
  rw [if_neg (by simp), htake, hdrop, String.ofList_toList]
  rfl

theorem takes_nat (n : Nat) {c : Char} (hc : isSpace c) : Takes nat (showNat n ++ [c]) n := by
  intro pre rest hpre
  refine ⟨[c], by simpa using hc, ?_⟩
  have hall : ∀ d ∈ showNat n, d.isDigit := fun d hd => Nat.isDigit_of_mem_toDigits (by decide) (by decide) hd
  have hspace : ∀ d : Char, d.isDigit → !isSpace d := by
    intro d hd
    cases h : isSpace d with
    | false => rfl
    | true =>
      simp only [isSpace, Bool.or_eq_true, decide_eq_true_eq] at h
      rcases h with ((((rfl | rfl) | rfl) | rfl) | rfl) | rfl <;> exact absurd hd (by decide)
  have hcd : ¬c.isDigit := by
    intro hd
    have := hspace c hd
    rw [hc] at this
    cases this
  obtain ⟨d, ds, hd⟩ := List.exists_cons_of_ne_nil (Nat.toDigits_ne_nil (n := n) (b := 10))
  have hd : showNat n = d :: ds := hd
  have hskip : (pre ++ (showNat n ++ [c]) ++ rest).dropWhile isSpace = showNat n ++ c :: rest := by
    rw [hd, List.append_assoc, List.append_assoc, List.singleton_append, List.cons_append]
    exact dropWhile_spaces hpre (hspace d (hall d (by rw [hd]; exact List.mem_cons_self)))
  have htake : (showNat n ++ c :: rest).takeWhile Char.isDigit = showNat n := by
    rw [List.takeWhile_append_of_pos hall, List.takeWhile_cons_of_neg hcd, List.append_nil]
  have hdrop : (showNat n ++ c :: rest).dropWhile Char.isDigit = c :: rest := by
    rw [List.dropWhile_append_of_pos hall, List.dropWhile_cons_of_neg hcd]
  simp only [nat, hskip, htake, hdrop]
  rw [if_neg (by rw [hd]; simp), showNat, Nat.ofDigitChars_ten_toDigits]
  rfl

theorem takes_pure (a : α) : Takes (pure a : Reader α) [] a := by
  intro pre rest hpre
  exact ⟨pre, hpre, by rw [List.append_nil]; rfl⟩

theorem Takes.bind {r : Reader α} {k : α → Reader β} {s t : List Char} {a : α} {b : β} (h : Takes r s a) (hk : Takes (k a) t b) :
    Takes (r >>= k) (s ++ t) b := by
  intro pre rest hpre
  obtain ⟨post, hpost, hr⟩ := h pre (t ++ rest) hpre
  obtain ⟨post', hpost', hk⟩ := hk post rest hpost
  refine ⟨post', hpost', ?_⟩
  have hsplit : pre ++ (s ++ t) ++ rest = pre ++ s ++ (t ++ rest) := by simp only [List.append_assoc]
  have hbind : (r >>= k) (pre ++ s ++ (t ++ rest)) = (r (pre ++ s ++ (t ++ rest))).bind fun p => k p.1 p.2 := rfl
  rw [List.append_assoc] at hk
  rw [hsplit, hbind, hr]
  exact hk

/-- White space behind the text. -/
theorem Takes.trail {r : Reader α} {s : List Char} {a : α} (h : Takes r s a) {c : Char} (hc : isSpace c) : Takes r (s ++ [c]) a := by
  intro pre rest hpre
  obtain ⟨post, hpost, hr⟩ := h pre (c :: rest) hpre
  refine ⟨post ++ [c], fun d hd => ?_, ?_⟩
  · rcases List.mem_append.mp hd with hd | hd
    · exact hpost d hd
    · rw [List.mem_singleton.mp hd]
      exact hc
  · have hsplit : pre ++ (s ++ [c]) ++ rest = pre ++ s ++ c :: rest := by simp
    rw [hsplit, hr]
    simp

/-- A loop takes the texts of the items, each of which makes `next` of the value. -/
theorem takes_times {γ : Type} {r : α → Reader α} {text : γ → List Char} {next : α → γ → α} {xs : List γ}
    (h : ∀ a, ∀ x ∈ xs, Takes (r a) (text x) (next a x)) (a : α) : Takes (times r xs.length a) (xs.flatMap text) (xs.foldl next a) := by
  induction xs generalizing a with
  | nil => exact takes_pure a
  | cons x xs ih =>
    rw [List.length_cons, times, List.flatMap_cons, List.foldl_cons]
    exact (h a x List.mem_cons_self).bind (ih (fun b y hy => h b y (List.mem_cons_of_mem x hy)) (next a x))

theorem IsWord.append {a b : String} (ha : IsWord a) (hb : b.toList.all fun c => !isSpace c) : IsWord (a ++ b) := by
  refine ⟨by simp [ha.1], fun c hc => ?_⟩
  rw [String.toList_append] at hc
  rcases List.mem_append.mp hc with hc | hc
  · exact ha.2 c hc
  · exact List.all_eq_true.mp hb c hc

/-! ### Numbers and separators -/

theorem showNat_digits (n : Nat) : ∀ c ∈ showNat n, c.isDigit := fun _ hc => Nat.isDigit_of_mem_toDigits (by decide) (by decide) hc

theorem showNat_injective {m n : Nat} (h : showNat m = showNat n) : m = n := by
  have := congrArg (fun cs => Nat.ofDigitChars 10 cs 0) h
  simpa only [showNat, Nat.ofDigitChars_ten_toDigits] using this

theorem not_digit_minus : '-'.isDigit = false := rfl

theorem showInt_injective {m n : Int} (h : showInt m = showInt n) : m = n := by
  have hminus : ∀ (k l : Nat), ¬ '-' :: showNat k = showNat l := by
    intro k l heq
    have := showNat_digits l '-' (by rw [← heq]; exact List.mem_cons_self)
    rw [not_digit_minus] at this
    cases this
  unfold showInt at h
  split at h <;> split at h
  · have := showNat_injective (List.cons.inj h).2
    omega
  · exact absurd h (hminus _ _)
  · exact absurd h.symm (hminus _ _)
  · have := showNat_injective h
    omega

theorem underscore_notMem_showInt (n : Int) : '_' ∉ showInt n := by
  unfold showInt
  split
  · simp [showNat]
  · exact Nat.underscore_not_in_toDigits

/-- The number that is written is read back. -/
theorem stoi_showInt {n : Int} (hlow : -0x80000000 ≤ n) (hhigh : n ≤ 0x7fffffff) : stoi (showInt n) = some n := by
  have hdigits : (showNat n.natAbs).takeWhile Char.isDigit = showNat n.natAbs := by
    have hall : (showNat n.natAbs ++ []).takeWhile Char.isDigit = showNat n.natAbs ++ [] :=
      List.takeWhile_append_of_pos (showNat_digits n.natAbs)
    rwa [List.append_nil] at hall
  have hne : showNat n.natAbs ≠ [] := Nat.toDigits_ne_nil
  have hval : Nat.ofDigitChars 10 (showNat n.natAbs) 0 = n.natAbs := Nat.ofDigitChars_ten_toDigits
  obtain ⟨d, ds, hd⟩ := List.exists_cons_of_ne_nil hne
  have hdigit : d.isDigit := showNat_digits n.natAbs d (by rw [hd]; exact List.mem_cons_self)
  unfold showInt
  split
  · have hskip : ('-' :: showNat n.natAbs).dropWhile isSpace = '-' :: showNat n.natAbs := List.dropWhile_cons_of_neg (by decide)
    have hn : (-1 : Int) * n.natAbs = n := by omega
    simp only [stoi, hskip, signed, hdigits, hval, hn]
    exact if_pos ⟨hne, hlow, hhigh⟩
  · have hskip : (showNat n.natAbs).dropWhile isSpace = showNat n.natAbs := by
      rw [hd]
      refine List.dropWhile_cons_of_neg fun hspace => ?_
      simp only [isSpace, Bool.or_eq_true, decide_eq_true_eq] at hspace
      rcases hspace with ((((rfl | rfl) | rfl) | rfl) | rfl) | rfl <;> exact absurd hdigit (by decide)
    have hsign : signed (showNat n.natAbs) = (1, showNat n.natAbs) := by
      rw [hd]
      unfold signed
      split
      · next heq =>
        obtain ⟨rfl, -⟩ := List.cons.inj heq
        exact absurd hdigit (by decide)
      · next heq =>
        obtain ⟨rfl, -⟩ := List.cons.inj heq
        exact absurd hdigit (by decide)
      · rfl
    have hn : (1 : Int) * n.natAbs = n := by omega
    simp only [stoi, hskip, hsign, hdigits, hval, hn]
    exact if_pos ⟨hne, hlow, hhigh⟩

/-- The last separator splits a text in one way. -/
theorem append_separator_inj {c : Char} {a a' b b' : List Char} (hb : c ∉ b) (hb' : c ∉ b') (h : a ++ c :: b = a' ++ c :: b') :
    a = a' ∧ b = b' := by
  rcases List.append_eq_append_iff.mp h with ⟨x, rfl, hx⟩ | ⟨x, rfl, hx⟩
  · cases x with
    | nil => exact ⟨(List.append_nil a).symm, (List.cons.inj hx).2⟩
    | cons d x =>
      obtain ⟨rfl, rfl⟩ := List.cons.inj hx
      exact absurd (by simp) hb
  · cases x with
    | nil => exact ⟨List.append_nil a', (List.cons.inj hx).2.symm⟩
    | cons d x =>
      obtain ⟨rfl, rfl⟩ := List.cons.inj hx
      exact absurd (by simp) hb'

theorem findLastOf_eq {c : Char} {cs pre post : List Char} {n : Nat} (h : cs.take n = pre ++ c :: post) (hc : c ∉ post) :
    findLastOf c cs n = some pre.length := by
  have hfound : (pre ++ c :: post).reverse.idxOf? c = some post.length := by
    rw [List.reverse_append, List.reverse_cons, List.append_assoc, List.singleton_append, List.idxOf?, List.findIdx?_append]
    have hnone : post.reverse.findIdx? (· == c) = none := by
      refine List.findIdx?_eq_none_iff.mpr fun d hd => ?_
      rw [List.mem_reverse] at hd
      exact beq_false_of_ne fun heq => hc (heq ▸ hd)
    simp [hnone, List.findIdx?_cons]
  rw [findLastOf, h, hfound, Option.map_some, List.length_append, List.length_cons]
  congr 1
  omega

/-- The text and a separator begin another text with the separator in it. -/
theorem separated_prefix_iff {c : Char} {t u rest : List Char} :
    t ++ [c] <+: u ++ c :: rest ↔ t ++ [c] <+: u ∨ t = u ∨ ∃ v, t = u ++ c :: v ∧ v ++ [c] <+: rest := by
  constructor
  · rintro ⟨s, hs⟩
    rw [List.append_assoc, List.singleton_append] at hs
    rcases List.append_eq_append_iff.mp hs with ⟨a, rfl, ha⟩ | ⟨a, rfl, ha⟩
    · cases a with
      | nil => exact Or.inr (Or.inl (List.append_nil t).symm)
      | cons d a =>
        obtain ⟨rfl, -⟩ := List.cons.inj ha
        exact Or.inl ⟨a, by simp⟩
    · cases a with
      | nil => exact Or.inr (Or.inl (List.append_nil u))
      | cons d a =>
        obtain ⟨rfl, rfl⟩ := List.cons.inj ha
        exact Or.inr (Or.inr ⟨a, rfl, s, by simp⟩)
  · rintro (⟨s, rfl⟩ | rfl | ⟨v, rfl, s, rfl⟩)
    · exact ⟨s ++ c :: rest, by simp⟩
    · exact ⟨rest, by simp⟩
    · exact ⟨s, by simp⟩

end
end TextStream
