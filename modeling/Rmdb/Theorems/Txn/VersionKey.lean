import Rmdb.Txn.VersionKey
import Rmdb.System.SmManager

/-! The key of a version chain names one row: what is behind its last two underscores are numbers, whatever the table is called. But
`clear_table_versions` goes by the first characters of a key, and these can be those of another table. -/

namespace Rmdb
open TextStream Catalog

/-- Both numbers are `int`s. -/
structure Rid.Fits (rid : Rid) : Prop where
  page_low : -0x80000000 ≤ rid.pageNo
  page_high : rid.pageNo ≤ 0x7fffffff
  slot_low : -0x80000000 ≤ rid.slotNo
  slot_high : rid.slotNo ≤ 0x7fffffff

namespace MvccManager
variable {rid rid' : Rid} {tab tab' : String}

theorem toList_ridToKey (rid : Rid) (tab : String) :
    (ridToKey rid tab).toList = tab.toList ++ '_' :: (showInt rid.pageNo ++ '_' :: showInt rid.slotNo) := by
  simp [ridToKey]

theorem ridToKey_inj (h : ridToKey rid tab = ridToKey rid' tab') : tab = tab' ∧ rid = rid' := by
  have hlist := congrArg String.toList h
  rw [toList_ridToKey, toList_ridToKey, ← List.cons_append, ← List.append_assoc, ← List.cons_append, ← List.append_assoc] at hlist
  obtain ⟨hrest, hslot⟩ := append_separator_inj (underscore_notMem_showInt _) (underscore_notMem_showInt _) hlist
  obtain ⟨htab, hpage⟩ := append_separator_inj (underscore_notMem_showInt _) (underscore_notMem_showInt _) hrest
  refine ⟨String.toList_inj.mp htab, ?_⟩
  cases rid
  cases rid'
  rw [Rid.mk.injEq]
  exact ⟨showInt_injective hpage, showInt_injective hslot⟩

/-- The parsers of a key find the numbers that were put into it. -/
theorem parseKey_ridToKey (hrid : rid.Fits) (tab : String) : parseKey (ridToKey rid tab) = some rid := by
  obtain ⟨cs, hcs⟩ : ∃ cs, cs = (ridToKey rid tab).toList := ⟨_, rfl⟩
  obtain ⟨before, hbefore⟩ : ∃ before, before = tab.toList ++ '_' :: showInt rid.pageNo := ⟨_, rfl⟩
  have hsplit : cs = before ++ '_' :: showInt rid.slotNo := by
    rw [hcs, hbefore, toList_ridToKey, List.append_assoc, List.cons_append]
  have hlast : findLastOf '_' cs cs.length = some before.length := by
    refine findLastOf_eq ?_ (underscore_notMem_showInt rid.slotNo)
    rw [List.take_length, hsplit]
  have hbehind : before.length = tab.toList.length + 1 + (showInt rid.pageNo).length := by
    rw [hbefore, List.length_append, List.length_cons]
    omega
  have hsecond : findLastOf '_' cs (if before.length = 0 then cs.length else before.length) = some tab.toList.length := by
    rw [if_neg (by omega)]
    refine findLastOf_eq ?_ (underscore_notMem_showInt rid.pageNo)
    rw [hsplit, List.take_left, hbefore]
  have hcount : (if before.length ≤ tab.toList.length then cs.length else before.length - tab.toList.length - 1) =
      (showInt rid.pageNo).length := by
    rw [if_neg (by omega)]
    omega
  have hpage : (cs.drop (tab.toList.length + 1)).take (showInt rid.pageNo).length = showInt rid.pageNo := by
    rw [hcs, toList_ridToKey, List.drop_length_add_append, List.drop_succ_cons, List.drop_zero, List.take_left]
  have hslot : cs.drop (before.length + 1) = showInt rid.slotNo := by
    rw [hsplit, List.drop_length_add_append, List.drop_succ_cons, List.drop_zero]
  simp only [parseKey, ← hcs, hlast, hsecond, hcount, hpage, hslot, stoi_showInt hrid.page_low hrid.page_high,
    stoi_showInt hrid.slot_low hrid.slot_high, Option.bind_eq_bind, Option.bind_some]
  rfl

/-- Keys of version chains are faithful: one is made for one table and one position only, and each of the three parsers takes the
    position back out of it. -/
theorem key_faithful (hrid : rid.Fits) (tab : String) :
    (∀ rid' tab', ridToKey rid tab = ridToKey rid' tab' → tab = tab' ∧ rid = rid') ∧
      MvccRecordManager.keyToRid (ridToKey rid tab) = rid ∧ (∀ tab', MvccExecutorBase.keyToRid (ridToKey rid tab) tab' = rid) ∧
      ∀ version, persistCommittedVersion true (ridToKey rid tab) (some version) = some (rid, version) := by
  have hparse := parseKey_ridToKey hrid tab
  refine ⟨fun rid' tab' h => ridToKey_inj h, ?_, fun tab' => ?_, fun version => ?_⟩
  · rw [MvccRecordManager.keyToRid, hparse, Option.getD_some]
  · rw [MvccExecutorBase.keyToRid, hparse, Option.getD_some]
  · simp [persistCommittedVersion, hparse]

theorem key_faithful_underscores : MvccRecordManager.keyToRid (ridToKey ⟨3, 17⟩ "a_1_") = ⟨3, 17⟩ :=
  (key_faithful ⟨by decide, by decide, by decide, by decide⟩ "a_1_").2.1

/-! ### The chains of a table -/

/-- A key of another table is taken for one of the table that is dropped: its name, or its name and the page, go on like a key. -/
def Mistaken (tab other : String) (rid : Rid) : Prop :=
  (tab.toList ++ ['_']) <+: other.toList ∨ tab.toList = other.toList ++ '_' :: showInt rid.pageNo

theorem clearsKey_self (rid : Rid) (tab : String) : clearsKey tab (ridToKey rid tab) = true := by
  have hprefix : (tab ++ "_").toList.isPrefixOf (ridToKey rid tab).toList = true := by
    rw [List.isPrefixOf_iff_prefix, toList_ridToKey, String.toList_append]
    exact ⟨_, List.append_assoc ..⟩
  rw [clearsKey, hprefix, Bool.true_or]

theorem clearsKey_iff {tab other : Identifier} (hne : other.val ≠ tab.val) (rid : Rid) :
    clearsKey tab.val (ridToKey rid other.val) = true ↔ Mistaken tab.val other.val rid := by
  have hletter : "_".toList.isPrefixOf (ridToKey rid other.val).toList = false := by
    obtain ⟨c, cs, hval, hc, -⟩ := other.ok
    rw [toList_ridToKey, hval]
    refine Bool.eq_false_iff.mpr fun h => ?_
    obtain ⟨rfl, -⟩ := List.cons_prefix_cons.mp (List.isPrefixOf_iff_prefix.mp h)
    exact absurd hc (by decide)
  have hlist : other.val.toList ≠ tab.val.toList := fun h => hne (String.toList_inj.mp h)
  have hno : ∀ (n : Int) (v : List Char), ¬v ++ ['_'] <+: showInt n := fun n v h =>
    underscore_notMem_showInt n (h.subset (by simp))
  rw [clearsKey, hletter, Bool.false_and, Bool.or_false, List.isPrefixOf_iff_prefix, toList_ridToKey, String.toList_append, Mistaken]
  have hunderscore : "_".toList = ['_'] := rfl
  rw [hunderscore, separated_prefix_iff]
  constructor
  · rintro (h | h | ⟨v, hv, hrest⟩)
    · exact Or.inl h
    · exact absurd h.symm hlist
    · rcases separated_prefix_iff.mp hrest with h | rfl | ⟨w, -, h⟩
      · exact absurd h (hno _ v)
      · exact Or.inr hv
      · exact absurd h (hno _ w)
  · rintro (h | h)
    · exact Or.inl h
    · exact Or.inr (Or.inr ⟨_, h, separated_prefix_iff.mpr (Or.inr (Or.inl rfl))⟩)

/-- `clear_table_versions` removes the chains of the table and leaves those of every other table, if and only if there is no chain
    of another table that is taken for one of it. -/
theorem clears_table_iff (m : MvccManager String) (tab : Identifier) :
    ((∀ rid, (m.clearTableVersions tab.val).versionChains (ridToKey rid tab.val) = none) ∧
      ∀ (other : Identifier) (rid : Rid), other.val ≠ tab.val →
        (m.clearTableVersions tab.val).versionChains (ridToKey rid other.val) = m.versionChains (ridToKey rid other.val)) ↔
      ∀ (other : Identifier) (rid : Rid), other.val ≠ tab.val → Mistaken tab.val other.val rid →
        m.versionChains (ridToKey rid other.val) = none := by
  have hself : ∀ rid, (m.clearTableVersions tab.val).versionChains (ridToKey rid tab.val) = none := fun rid =>
    if_pos (clearsKey_self rid tab.val)
  constructor
  · rintro ⟨-, hother⟩ other rid hne hmistaken
    rw [← hother other rid hne]
    exact if_pos ((clearsKey_iff hne rid).mpr hmistaken)
  · refine fun hnone => ⟨hself, fun other rid hne => ?_⟩
    by_cases hclears : clearsKey tab.val (ridToKey rid other.val) = true
    · rw [hnone other rid hne ((clearsKey_iff hne rid).mp hclears)]
      exact if_pos hclears
    · exact if_neg hclears

/-- A row of table `t_1`. -/
def otherRow : MvccManager String := init.insertVersion (ridToKey ⟨1, 0⟩ "t_1") [7] 1

/-- With table `t` goes a row of table `t_1`. -/
theorem not_clears_table_prefix : ∃ (tab other : Identifier) (rid : Rid) (m : MvccManager String), other.val ≠ tab.val ∧
    Runs.exec MvccManager.step init [.insertVersion (ridToKey rid other.val) [7] 1] = .ok m ∧
    m.versionChains (ridToKey rid other.val) = some [.new [7] 1 false] ∧
      (m.clearTableVersions tab.val).versionChains (ridToKey rid other.val) = none := by
  have htail : ∀ d ∈ ['_', '1'], d.isAlpha ∨ d.isDigit ∨ d = '_' :=
    List.forall_mem_cons.mpr ⟨by decide, List.forall_mem_singleton.mpr (by decide)⟩
  have hthere : otherRow.versionChains (ridToKey ⟨1, 0⟩ "t_1") = some [.new [7] 1 false] := by decide
  have hgone : (otherRow.clearTableVersions "t").versionChains (ridToKey ⟨1, 0⟩ "t_1") = none := by decide
  exact ⟨⟨"t", 't', [], by decide, by decide, List.forall_mem_nil _⟩, ⟨"t_1", 't', ['_', '1'], by decide, by decide, htail⟩, ⟨1, 0⟩, otherRow,
    (by decide : "t_1" ≠ "t"), rfl, hthere, hgone⟩

end MvccManager
end Rmdb
