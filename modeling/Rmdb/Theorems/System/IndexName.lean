import Rmdb.System.SmManager

/-! The file name of an index puts the table and the columns one behind another, with underscores between them. What is lost is where one
name ends and the next one begins: cut at all their underscores, the names are the words of the file name. -/

namespace Rmdb.Catalog
open SmManager

/-- The words between the underscores of a name. -/
def nameWords (name : String) : List (List Char) := name.toList.splitOn '_'

/-- The words of the table and the columns of an index. -/
def indexWords (tab : String) (cols : List String) : List (List Char) := (tab :: cols).flatMap nameWords

theorem nameWords_append (a b : String) : nameWords (a ++ "_" ++ b) = nameWords a ++ nameWords b := by
  have hunderscore : "_".toList = ['_'] := rfl
  rw [nameWords, String.toList_append, String.toList_append, hunderscore, List.append_assoc, List.singleton_append, nameWords, nameWords,
    List.splitOn_append_cons_self]

theorem nameWords_injective {a b : String} (h : nameWords a = nameWords b) : a = b := by
  have hlist := congrArg (List.intercalate ['_']) h
  rw [nameWords, nameWords, List.intercalate_splitOn, List.intercalate_splitOn] at hlist
  exact String.toList_inj.mp hlist

theorem nameWords_foldl (tab : String) (cols : List String) :
    nameWords (cols.foldl (fun name col => name ++ "_" ++ col) tab) = indexWords tab cols := by
  induction cols generalizing tab with
  | nil => exact (List.append_nil _).symm
  | cons col cols ih =>
    rw [List.foldl_cons, ih, indexWords, List.flatMap_cons, nameWords_append, indexWords, List.flatMap_cons, List.flatMap_cons,
      List.append_assoc]

theorem getIndexName_eq_iff {tab tab' : String} {cols cols' : List String} :
    getIndexName tab cols = getIndexName tab' cols' ↔ indexWords tab cols = indexWords tab' cols' := by
  rw [← nameWords_foldl, ← nameWords_foldl]
  constructor
  · intro h
    have hlist := congrArg String.toList h
    rw [getIndexName, getIndexName, String.toList_append, String.toList_append] at hlist
    rw [String.toList_inj.mp (List.append_cancel_right hlist)]
  · intro h
    rw [getIndexName, getIndexName, nameWords_injective h]

theorem indexWords_plain {tab : String} {cols : List String} (h : ∀ name ∈ tab :: cols, '_' ∉ name.toList) :
    indexWords tab cols = (tab :: cols).map String.toList := by
  have hone : ∀ name ∈ tab :: cols, nameWords name = [name.toList] := fun name hname => List.splitOn_eq_singleton (h name hname)
  rw [indexWords, List.flatMap_congr hone]
  exact List.flatMap_pure_eq_map ..

theorem getIndexName_injective_plain {tab tab' : String} {cols cols' : List String} (h : ∀ name ∈ tab :: cols, '_' ∉ name.toList)
    (h' : ∀ name ∈ tab' :: cols', '_' ∉ name.toList) (heq : getIndexName tab cols = getIndexName tab' cols') : tab = tab' ∧ cols = cols' := by
  have hwords := getIndexName_eq_iff.mp heq
  rw [indexWords_plain h, indexWords_plain h'] at hwords
  exact List.cons.inj (List.map_injective_iff.mpr (fun _ _ hlist => String.toList_injective hlist) hwords)

theorem getIndexName_ne_identifier (tab : String) (cols : List String) (name : Identifier) : getIndexName tab cols ≠ name.val := by
  intro h
  obtain ⟨c, cs, hval, hc, hcs⟩ := name.ok
  have hdot : '.' ∈ name.val.toList := by
    rw [← h, getIndexName, String.toList_append]
    exact List.mem_append_right _ (by decide)
  rw [hval] at hdot
  rcases List.mem_cons.mp hdot with rfl | hdot
  · exact absurd hc (by decide)
  · exact absurd (hcs '.' hdot) (by decide)

/-- The name of an index is no table's name, and it is another index's name if and only if the names of the tables and columns of
    both have the same words. -/
theorem indexName_unambiguous_iff (tab tab' : Identifier) (cols cols' : List Identifier) :
    ((getIndexName tab.val (cols.map (·.val)) = getIndexName tab'.val (cols'.map (·.val)) →
        tab.val = tab'.val ∧ cols.map (·.val) = cols'.map (·.val)) ∧
      ∀ other : Identifier, getIndexName tab.val (cols.map (·.val)) ≠ other.val) ↔
      (indexWords tab.val (cols.map (·.val)) ≠ indexWords tab'.val (cols'.map (·.val)) ∨
        tab.val = tab'.val ∧ cols.map (·.val) = cols'.map (·.val)) := by
  rw [getIndexName_eq_iff, imp_iff_not_or]
  exact and_iff_left fun other => getIndexName_ne_identifier _ _ other

/-- An index on two columns of table `a` and one on a column of table `a_b`. -/
theorem not_indexName_unambiguous : ∃ (tab tab' : Identifier) (cols cols' : List Identifier), tab.val ≠ tab'.val ∧ cols ≠ [] ∧ cols' ≠ [] ∧
    getIndexName tab.val (cols.map (·.val)) = getIndexName tab'.val (cols'.map (·.val)) :=
  have htail : ∀ d ∈ ['_', 'b'], d.isAlpha ∨ d.isDigit ∨ d = '_' :=
    List.forall_mem_cons.mpr ⟨by decide, List.forall_mem_singleton.mpr (by decide)⟩
  ⟨⟨"a", 'a', [], by decide, by decide, List.forall_mem_nil _⟩, ⟨"a_b", 'a', ['_', 'b'], by decide, by decide, htail⟩,
    [⟨"b", 'b', [], by decide, by decide, List.forall_mem_nil _⟩, ⟨"c", 'c', [], by decide, by decide, List.forall_mem_nil _⟩],
    [⟨"c", 'c', [], by decide, by decide, List.forall_mem_nil _⟩], (by decide : "a" ≠ "a_b"), List.cons_ne_nil _ _, List.cons_ne_nil _ _,
    (by decide : getIndexName "a" ["b", "c"] = getIndexName "a_b" ["c"])⟩

end Rmdb.Catalog
