import Rmdb.System.Catalog
import Rmdb.Record.File
import Rmdb.Lib.Runs
import Mathlib.Logic.Function.Basic

/-! The statements that change the catalog (`SmManager` in `system/sm_manager.cpp`), with the files of `DiskManager` that they
create, open, close and remove. -/

namespace Rmdb.Catalog

/-- What a file of the database directory holds: the records of a table, or the keys of an index with its columns. -/
inductive SmFile where
  | empty
  | table (file : RmFile)
  | index (cols : List ColMeta) (entries : List (Bytes × Rid))

inductive SmError where
  | fileExists (path : String)
  | fileNotFound (path : String)
  | fileOpen (path : String)
  | tableExists (tab : String)
  | tableNotFound (tab : String)
  | columnNotFound (col : String)
  | indexExists (tab : String) (cols : List String)
  | indexNotFound (tab : String) (cols : List String)
  | nonUniqueIndex (tab : String) (cols : List String)
  | invalidRecordSize (size : Nat)
  | invalidColLength (len : Nat)
  /-- A null pointer is used. -/
  | nullHandle
deriving DecidableEq, Repr

/-- `SmManager` of an open database. A handle is given by the path of its file; `dbMeta` is the text in `db.meta`. -/
structure SmManager where
  db : DbMeta
  fhs : String → Option String
  ihs : String → Option String
  files : String → Option SmFile
  path2refcount : String → Nat
  dbMeta : List Char

namespace SmManager

/-- A step of the manager; an exception leaves what was done before it. -/
abbrev Step := Except (SmError × SmManager) SmManager

/-- A new database. -/
def init (name : String) : SmManager :=
  let db : DbMeta := ⟨name, []⟩
  ⟨db, fun _ => none, fun _ => none, fun _ => none, fun _ => 0, db.text⟩

variable (s : SmManager)

/-! ### Files -/

/-- `DiskManager::is_file`. -/
def isFile (path : String) : Bool := (s.files path).isSome

/-- `DiskManager::create_file`. -/
def createFile (path : String) : Step :=
  if s.isFile path then .error (.fileExists path, s)
  else .ok { s with files := Function.update s.files path (some .empty) }

/-- `DiskManager::open_file`. -/
def openFile (path : String) : Step :=
  if 0 < s.path2refcount path ∨ s.isFile path then
    .ok { s with path2refcount := Function.update s.path2refcount path (s.path2refcount path + 1) }
  else .error (.fileNotFound path, s)

/-- `DiskManager::close_file`. -/
def closeFile (path : String) : SmManager :=
  { s with path2refcount := Function.update s.path2refcount path (s.path2refcount path - 1) }

/-- `DiskManager::destroy_file`. -/
def destroyFile (path : String) : Step :=
  if 0 < s.path2refcount path then .error (.fileOpen path, s)
  else if s.isFile path then .ok { s with files := Function.update s.files path none }
  else .error (.fileNotFound path, s)

/-- The pages of a file that is open are written. -/
def writeFile (path : String) (file : SmFile) : SmManager := { s with files := Function.update s.files path (some file) }

/-- `flush_meta`. -/
def flushMeta : SmManager := { s with dbMeta := s.db.text }

/-! ### Tables -/

/-- `RM_MAX_RECORD_SIZE`. -/
def rmMaxRecordSize : Nat := 512

/-- `ColDef`. -/
structure ColDef where
  name : String
  type : ColType
  len : Nat
deriving DecidableEq, Repr

/-- The columns of a new table, one behind the other. -/
def layout (tab : String) : Nat → List ColDef → List ColMeta
  | _, [] => []
  | offset, def_ :: defs => ⟨tab, def_.name, def_.type, def_.len, offset, false⟩ :: layout tab (offset + def_.len) defs

/-- The length of a record. -/
def recordSize (defs : List ColDef) : Nat := defs.foldl (fun n col => n + col.len) 0

/-- `RmManager::create_file`. -/
def rmCreateFile (path : String) (recordSize : Nat) : Step := do
  if recordSize < 1 ∨ rmMaxRecordSize < recordSize then .error (.invalidRecordSize recordSize, s)
  else
    let s ← s.createFile path
    let s ← s.openFile path
    .ok ((s.writeFile path (.table (RmFile.create recordSize))).closeFile path)

/-- `create_table`. -/
def createTable (tab : String) (defs : List ColDef) : Step := do
  if (s.db.tab? tab).isSome then .error (.tableExists tab, s)
  else
    let s ← s.rmCreateFile tab (recordSize defs)
    let s := { s with db := s.db.setTab ⟨tab, layout tab 0 defs, []⟩ }
    let s ← s.openFile tab
    .ok { s with fhs := Function.update s.fhs tab ((s.fhs tab).or (some tab)) }.flushMeta

/-- `drop_table`. -/
def dropTable (tab : String) : Step := do
  if (s.db.tab? tab).isNone then .error (.tableNotFound tab, s)
  else match s.fhs tab with
    | none => .error (.nullHandle, s)
    | some path =>
      let s ← (s.closeFile path).destroyFile tab
      .ok { s with fhs := Function.update s.fhs tab none, db := s.db.eraseTab tab }.flushMeta

/-! ### Indexes -/

/-- `IX_MAX_COL_LEN`. -/
def ixMaxColLen : Nat := 512

/-- `get_index_name`. -/
def getIndexName (tab : String) (cols : List String) : String :=
  cols.foldl (fun name col => name ++ "_" ++ col) tab ++ ".idx"

/-- `get_col` of each name; the first one that is missing raises an exception. -/
def getCols (tab : TabMeta) : List String → Except SmError (List ColMeta)
  | [] => .ok []
  | name :: names =>
    match tab.cols.find? (·.name = name) with
    | none => .error (.columnNotFound name)
    | some col => (getCols tab names).map (col :: ·)

/-- `col_tot_len`. -/
def totalLen (cols : List ColMeta) : Nat := cols.foldl (fun n col => n + col.len) 0

/-- `IxManager::create_index`. -/
def ixCreateIndex (path : String) (cols : List ColMeta) : Step := do
  let s ← s.createFile path
  let s ← s.openFile path
  if ixMaxColLen < totalLen cols then .error (.invalidColLength (totalLen cols), s)
  else .ok ((s.writeFile path (.index cols [])).closeFile path)

/-- The records of a table file, in the order of `RmScan`. -/
def records (file : RmFile) : List (Rid × Bytes) :=
  (List.range file.numPages.toNat).flatMap fun p =>
    (List.range file.perPage).filterMap fun n => (file.lookup ⟨(p : Nat), (n : Nat)⟩).map fun rec => (⟨(p : Nat), (n : Nat)⟩, rec)

/-- A column of a key as `ix_compare` sees it: both zeros of a FLOAT are one number. -/
def cellOf (rec : Bytes) (col : ColMeta) : Bytes :=
  let bytes := (rec.drop col.offset).take col.len
  if col.type = .float ∧ floatMagnitude (readWord bytes) = 0 then List.replicate col.len 0 else bytes

/-- The entries of the records, or nothing if two of them have one key. -/
def fillIndex (cols : List ColMeta) : List (Rid × Bytes) → List (Bytes × Rid) → Option (List (Bytes × Rid))
  | [], entries => some entries
  | (rid, rec) :: recs, entries =>
    let key := cols.flatMap (cellOf rec)
    if entries.any (·.1 = key) then none else fillIndex cols recs (entries ++ [(key, rid)])

/-- The records of the table behind a handle. -/
def tableRecords (tab : String) : List (Rid × Bytes) :=
  match (s.fhs tab).bind s.files with
  | some (.table file) => records file
  | some .empty | some (.index ..) | none => []

/-- `create_index`. -/
def createIndex (tab : String) (names : List String) : Step := do
  let path := getIndexName tab names
  if s.isFile path then .error (.indexExists tab names, s)
  else match s.db.tab? tab with
    | none => .error (.tableNotFound tab, s)
    | some tabMeta =>
      match getCols tabMeta names with
      | .error e => .error (e, s)
      | .ok cols =>
        let s ← s.ixCreateIndex path cols
        let s ← s.openFile path
        match fillIndex cols (s.tableRecords tab) [] with
        | none =>
          let s ← (s.closeFile path).destroyFile path
          .error (.nonUniqueIndex tab names, s)
        | some entries =>
          let s := s.writeFile path (.index cols entries)
          let s := { s with db := s.db.setTab (tabMeta.emplaceIndex path ⟨tab, totalLen cols, names.length, cols⟩) }
          .ok { s with ihs := Function.update s.ihs path (some path) }.flushMeta

/-- `drop_index`. A null handle is not closed. -/
def dropIndex (tab : String) (names : List String) : Step := do
  let path := getIndexName tab names
  match s.db.tab? tab with
  | none => .error (.tableNotFound tab, s)
  | some tabMeta =>
    if s.isFile path then
      let s := match s.ihs path with
        | some handle => s.closeFile handle
        | none => s
      -- `destroy_index` closes the file once more if it is open
      let s ← (s.closeFile path).destroyFile path
      .ok { s with
        ihs := Function.update s.ihs path none
        db := s.db.setTab { tabMeta with indexes := tabMeta.indexes.filter (·.1 ≠ path) } }.flushMeta
    else .error (.indexNotFound tab names, s)

end SmManager

/-- A name that the lexer admits: a letter, and letters, digits and underscores behind it. -/
structure Identifier where
  val : String
  ok : ∃ c cs, val.toList = c :: cs ∧ c.isAlpha ∧ ∀ d ∈ cs, d.isAlpha ∨ d.isDigit ∨ d = '_'

/-- The statements that build and take down a catalog, with the names that the parser passes on; an index has a column. -/
inductive DdlCall where
  | createTable (tab : Identifier) (defs : List (Identifier × ColType × Nat))
  | dropTable (tab : Identifier)
  | createIndex (tab col : Identifier) (cols : List Identifier)
  | dropIndex (tab col : Identifier) (cols : List Identifier)
  /-- What statements on rows leave in a file. -/
  | write (path : String) (file : SmFile)

namespace SmManager

def ddl (s : SmManager) : DdlCall → Step
  | .createTable tab defs => s.createTable tab.val (defs.map fun d => ⟨d.1.val, d.2.1, d.2.2⟩)
  | .dropTable tab => s.dropTable tab.val
  | .createIndex tab col cols => s.createIndex tab.val ((col :: cols).map (·.val))
  | .dropIndex tab col cols => s.dropIndex tab.val ((col :: cols).map (·.val))
  | .write path file => if s.isFile path then .ok (s.writeFile path file) else .ok s

/-- The state behind a statement; `client_handler` goes on after an exception. -/
def after : Step → SmManager
  | .ok s => s
  | .error (_, s) => s

/-- The database after some statements. -/
def run (s : SmManager) (calls : List DdlCall) : SmManager := calls.foldl (fun s a => after (s.ddl a)) s

/-- A table is created, and indexes on it. -/
def createAll (s : SmManager) (tab : String) (defs : List ColDef) (indexes : List (List String)) : Step := do
  let s ← s.createTable tab defs
  indexes.foldlM (fun s names => s.createIndex tab names) s

end SmManager
end Rmdb.Catalog
