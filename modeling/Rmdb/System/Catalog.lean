import Rmdb.Defs
import Rmdb.Index.Key
import Rmdb.Lib.TextStream
import Mathlib.Data.List.Sort

/-! The catalog of a database (`system/sm_meta.h`): what `operator<<` writes into `db.meta` and `operator>>` reads from it.

A stream that has failed is not read further. -/

namespace Rmdb.Catalog
open TextStream

/-- `ColMeta`. -/
structure ColMeta where
  tabName : String
  name : String
  type : ColType
  len : Nat
  offset : Nat
  index : Bool
deriving DecidableEq, Repr

/-- `IndexMeta`. -/
structure IndexMeta where
  tabName : String
  colTotLen : Nat
  colNum : Nat
  cols : List ColMeta
deriving DecidableEq, Repr

/-- `TabMeta`. The indexes stand in the order in which the `unordered_map` goes through them. -/
structure TabMeta where
  name : String
  cols : List ColMeta
  indexes : List (String × IndexMeta)
deriving DecidableEq, Repr

/-- `DbMeta`. The tables stand in the order of the map, that of their names. -/
structure DbMeta where
  name : String
  tabs : List TabMeta
deriving DecidableEq, Repr

/-! ### Maps -/

/-- `indexes.find`. -/
def TabMeta.index? (tab : TabMeta) (name : String) : Option IndexMeta := tab.indexes.lookup name

/-- `indexes.emplace`: an index that is there is left alone. -/
def TabMeta.emplaceIndex (tab : TabMeta) (name : String) (index : IndexMeta) : TabMeta :=
  if (tab.index? name).isSome then tab else { tab with indexes := tab.indexes ++ [(name, index)] }

/-- `tabs_.find`. -/
def DbMeta.tab? (db : DbMeta) (name : String) : Option TabMeta := db.tabs.find? (·.name = name)

/-- `tabs_[tab.name] = tab`. -/
def DbMeta.setTab (db : DbMeta) (tab : TabMeta) : DbMeta :=
  { db with tabs :=
      if (db.tab? tab.name).isSome then db.tabs.map fun t => if t.name = tab.name then tab else t
      else db.tabs.orderedInsert (fun a b => a.name ≤ b.name) tab }

/-- `tabs_.erase`. -/
def DbMeta.eraseTab (db : DbMeta) (name : String) : DbMeta := { db with tabs := db.tabs.filter (·.name ≠ name) }

/-! ### Writing -/

/-- The number of an enumerator. -/
def typeCode : ColType → Nat
  | .int => 0
  | .float => 1
  | .string => 2

def ColMeta.text (col : ColMeta) : List Char :=
  col.tabName.toList ++ ' ' :: col.name.toList ++ ' ' :: showNat (typeCode col.type) ++ ' ' :: showNat col.len ++ ' ' ::
    showNat col.offset ++ ' ' :: showNat col.index.toNat

def IndexMeta.text (index : IndexMeta) : List Char :=
  index.tabName.toList ++ ' ' :: showNat index.colTotLen ++ ' ' :: showNat index.colNum ++
    index.cols.flatMap fun col => '\n' :: col.text

def TabMeta.text (tab : TabMeta) : List Char :=
  tab.name.toList ++ '\n' :: showNat tab.cols.length ++ '\n' :: (tab.cols.flatMap fun col => col.text ++ ['\n']) ++
    showNat tab.indexes.length ++ '\n' :: tab.indexes.flatMap fun e => e.1.toList ++ '\n' :: e.2.text ++ ['\n']

def DbMeta.text (db : DbMeta) : List Char :=
  db.name.toList ++ '\n' :: showNat db.tabs.length ++ '\n' :: db.tabs.flatMap fun tab => tab.text ++ ['\n']

/-! ### Reading -/

/-- `>>` into a `ColType`. -/
def readType : Reader ColType := do
  match ← nat with
  | 0 => pure .int
  | 1 => pure .float
  | 2 => pure .string
  | _ => fun _ => none

/-- `>>` into a `bool`. -/
def readBool : Reader Bool := do
  match ← nat with
  | 0 => pure false
  | 1 => pure true
  | _ => fun _ => none

def readCol : Reader ColMeta := do
  let tabName ← word
  let name ← word
  let type ← readType
  let len ← nat
  let offset ← nat
  let index ← readBool
  pure ⟨tabName, name, type, len, offset, index⟩

/-- `push_back` of a column that is read. -/
def pushCol (cols : List ColMeta) : Reader (List ColMeta) := do
  let col ← readCol
  pure (cols ++ [col])

/-- `>>` into an `IndexMeta`, whose columns are kept. -/
def readIndex (index : IndexMeta) : Reader IndexMeta := do
  let tabName ← word
  let colTotLen ← nat
  let colNum ← nat
  let cols ← times pushCol colNum index.cols
  pure ⟨tabName, colTotLen, colNum, cols⟩

/-- The body of the loop over the indexes, with the variables `tab` and `index`. -/
def readNamedIndex (p : TabMeta × IndexMeta) : Reader (TabMeta × IndexMeta) := do
  let name ← word
  let index ← readIndex p.2
  pure (p.1.emplaceIndex name index, index)

def readTab : Reader TabMeta := do
  let name ← word
  let n ← nat
  let cols ← times pushCol n []
  let m ← nat
  let p ← times readNamedIndex m (⟨name, cols, []⟩, ⟨"", 0, 0, []⟩)
  pure p.1

/-- `tabs_[tab.name] = tab` of a table that is read. -/
def pushTab (db : DbMeta) : Reader DbMeta := do
  let tab ← readTab
  pure (db.setTab tab)

/-- `>>` into an empty `DbMeta`. -/
def readDb : Reader DbMeta := do
  let name ← word
  let n ← nat
  times pushTab n ⟨name, []⟩

/-! ### Equality of catalogs -/

/-- What a table is: its name, its columns, and its indexes by name. -/
def TabMeta.view (tab : TabMeta) : String × List ColMeta × (String → Option IndexMeta) := (tab.name, tab.cols, tab.index?)

/-- Two catalogs have the same tables. -/
def Same (a b : DbMeta) : Prop := a.name = b.name ∧ ∀ name, (a.tab? name).map (·.view) = (b.tab? name).map (·.view)

end Rmdb.Catalog
