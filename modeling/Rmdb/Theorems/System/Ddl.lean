import Rmdb.Theorems.System.Catalog

/-! What the statements that change the catalog do, and what they undo.

`create_table` and `create_index` put their files, handles and entries of the catalog one after another; each has one outcome in
which all of it is done. `drop_table` takes back what `create_table` did and leaves what `create_index` did outside the
catalog. -/

namespace Rmdb.Catalog
open TextStream

theorem Identifier.isWord (name : Identifier) : IsWord name.val := by
  obtain ⟨c, cs, hval, hc, hcs⟩ := name.ok
  have hspace : ∀ d : Char, d.isAlpha ∨ d.isDigit ∨ d = '_' → !TextStream.isSpace d := by
    intro d hd
    cases h : TextStream.isSpace d with
    | false => rfl
    | true =>
      simp only [TextStream.isSpace, Bool.or_eq_true, decide_eq_true_eq] at h
      rcases h with ((((rfl | rfl) | rfl) | rfl) | rfl) | rfl <;> exact absurd hd (by decide)
  refine ⟨by rw [hval]; simp, fun d hd => ?_⟩
  rw [hval] at hd
  rcases List.mem_cons.mp hd with rfl | hd
  · exact hspace d (Or.inl hc)
  · exact hspace d (hcs d hd)

namespace SmManager
variable {s t : SmManager} {tab path : String} {defs : List ColDef} {names : List String}

/-! ### The outcomes of a statement -/

/-- The state behind `create_table`. -/
def tableCreated (s : SmManager) (tab : String) (defs : List ColDef) : SmManager where
  db := s.db.setTab ⟨tab, layout tab 0 defs, []⟩
  fhs := Function.update s.fhs tab ((s.fhs tab).or (some tab))
  ihs := s.ihs
  files := Function.update s.files tab (some (.table (RmFile.create (recordSize defs))))
  path2refcount := Function.update s.path2refcount tab (s.path2refcount tab + 1)
  dbMeta := (s.db.setTab ⟨tab, layout tab 0 defs, []⟩).text

theorem createTable_cases (s : SmManager) (tab : String) (defs : List ColDef) :
    (∃ e, s.createTable tab defs = .error (e, s)) ∧
        ¬(s.db.tab? tab = none ∧ s.files tab = none ∧ 1 ≤ recordSize defs ∧ recordSize defs ≤ rmMaxRecordSize) ∨
      (s.db.tab? tab = none ∧ s.files tab = none ∧ 1 ≤ recordSize defs ∧ recordSize defs ≤ rmMaxRecordSize) ∧
        s.createTable tab defs = .ok (s.tableCreated tab defs) := by
  rw [createTable]
  by_cases htab : (s.db.tab? tab).isSome
  · refine Or.inl ⟨⟨_, if_pos htab⟩, fun h => ?_⟩
    rw [h.1] at htab
    cases htab
  · rw [if_neg htab, rmCreateFile]
    have hnone : s.db.tab? tab = none := by simpa using htab
    by_cases hsize : recordSize defs < 1 ∨ rmMaxRecordSize < recordSize defs
    · refine Or.inl ⟨⟨.invalidRecordSize (recordSize defs), ?_⟩, fun h => by omega⟩
      rw [if_pos hsize]
      rfl
    · rw [if_neg hsize, createFile]
      cases hfile : s.files tab with
      | some file => exact Or.inl ⟨⟨.fileExists tab, by simp [isFile, hfile, bind, Except.bind]⟩, fun h => by cases h.2.1⟩
      | none =>
        refine Or.inr ⟨⟨hnone, rfl, by omega, by omega⟩, ?_⟩
        simp [isFile, hfile, bind, Except.bind, openFile, closeFile, writeFile, flushMeta, tableCreated]

/-- The state with the new index file open. -/
def indexOpened (s : SmManager) (path : String) (cols : List ColMeta) : SmManager :=
  { s with
    files := Function.update s.files path (some (.index cols []))
    path2refcount := Function.update s.path2refcount path (s.path2refcount path + 1) }

/-- The entry of an index in the catalog. -/
def indexMeta (tab : String) (names : List String) (cols : List ColMeta) : IndexMeta := ⟨tab, totalLen cols, names.length, cols⟩

/-- The state behind `create_index`. -/
def indexCreated (s : SmManager) (tab : String) (names : List String) (tabMeta : TabMeta) (cols : List ColMeta)
    (entries : List (Bytes × Rid)) : SmManager where
  db := s.db.setTab (tabMeta.emplaceIndex (getIndexName tab names) (indexMeta tab names cols))
  fhs := s.fhs
  ihs := Function.update s.ihs (getIndexName tab names) (some (getIndexName tab names))
  files := Function.update s.files (getIndexName tab names) (some (.index cols entries))
  path2refcount := Function.update s.path2refcount (getIndexName tab names) (s.path2refcount (getIndexName tab names) + 1)
  dbMeta := (s.db.setTab (tabMeta.emplaceIndex (getIndexName tab names) (indexMeta tab names cols))).text

/-- The state with a new file that is open and has no header yet. -/
def fileOpened (s : SmManager) (path : String) : SmManager :=
  { s with
    files := Function.update s.files path (some .empty)
    path2refcount := Function.update s.path2refcount path (s.path2refcount path + 1) }

theorem ixCreateIndex_eq (h : s.files path = none) (cols : List ColMeta) : s.ixCreateIndex path cols =
    if ixMaxColLen < totalLen cols then .error (.invalidColLength (totalLen cols), s.fileOpened path)
    else .ok (s.writeFile path (.index cols [])) := by
  simp [ixCreateIndex, createFile, isFile, h, bind, Except.bind, openFile, closeFile, writeFile, fileOpened]

theorem openFile_new (cols : List ColMeta) : (s.writeFile path (.index cols [])).openFile path = .ok (s.indexOpened path cols) := by
  simp [openFile, isFile, writeFile, indexOpened]

/-- `create_index` of a new index on columns that the table has. -/
theorem createIndex_eq {tabMeta : TabMeta} {cols : List ColMeta} (hnone : s.files (getIndexName tab names) = none)
    (htab : s.db.tab? tab = some tabMeta) (hcols : getCols tabMeta names = .ok cols) : s.createIndex tab names =
    if ixMaxColLen < totalLen cols then .error (.invalidColLength (totalLen cols), s.fileOpened (getIndexName tab names))
    else match fillIndex cols ((s.indexOpened (getIndexName tab names) cols).tableRecords tab) [] with
      | none => ((s.indexOpened (getIndexName tab names) cols).closeFile (getIndexName tab names)).destroyFile (getIndexName tab names) >>=
          fun t => .error (.nonUniqueIndex tab names, t)
      | some entries => .ok (s.indexCreated tab names tabMeta cols entries) := by
  have hfile : ¬s.isFile (getIndexName tab names) := by simp [isFile, hnone]
  have hopen := ixCreateIndex_eq hnone cols
  by_cases hlen : ixMaxColLen < totalLen cols
  · rw [if_pos hlen] at hopen ⊢
    simp only [createIndex, if_neg hfile, htab, hcols, hopen, bind, Except.bind]
  · rw [if_neg hlen] at hopen ⊢
    cases hfill : fillIndex cols ((s.indexOpened (getIndexName tab names) cols).tableRecords tab) [] with
    | none => simp only [createIndex, if_neg hfile, htab, hcols, hopen, bind, Except.bind, openFile_new, hfill]
    | some entries =>
      simp only [createIndex, if_neg hfile, htab, hcols, hopen, bind, Except.bind, openFile_new, hfill]
      simp [writeFile, flushMeta, indexOpened, indexCreated, indexMeta]

/-- Otherwise it raises an exception and has done nothing. -/
theorem createIndex_none (h : ¬(s.files (getIndexName tab names) = none ∧ ∃ tabMeta cols, s.db.tab? tab = some tabMeta ∧
    getCols tabMeta names = .ok cols)) : ∃ e, s.createIndex tab names = .error (e, s) := by
  by_cases hfile : s.isFile (getIndexName tab names)
  · exact ⟨.indexExists tab names, if_pos hfile⟩
  · cases htab : s.db.tab? tab with
    | none => exact ⟨.tableNotFound tab, by simp only [createIndex, if_neg hfile, htab]⟩
    | some tabMeta =>
      cases hcols : getCols tabMeta names with
      | error e => exact ⟨e, by simp only [createIndex, if_neg hfile, htab, hcols]⟩
      | ok cols => exact absurd ⟨by simpa [isFile] using hfile, tabMeta, cols, htab, hcols⟩ h

/-- `create_index` raises an exception before it creates a file or after, or creates the index. -/
theorem createIndex_cases (s : SmManager) (tab : String) (names : List String) :
    (∃ e, s.createIndex tab names = .error (e, s)) ∨
      s.files (getIndexName tab names) = none ∧
        ((∃ e cols, s.createIndex tab names = .error (e, s.fileOpened (getIndexName tab names)) ∨
          s.createIndex tab names = ((s.indexOpened (getIndexName tab names) cols).closeFile (getIndexName tab names)).destroyFile
            (getIndexName tab names) >>= fun t => .error (e, t)) ∨
        ∃ tabMeta cols entries, s.db.tab? tab = some tabMeta ∧ getCols tabMeta names = .ok cols ∧
          s.createIndex tab names = .ok (s.indexCreated tab names tabMeta cols entries)) := by
  by_cases h : s.files (getIndexName tab names) = none ∧ ∃ tabMeta cols, s.db.tab? tab = some tabMeta ∧ getCols tabMeta names = .ok cols
  · obtain ⟨hnone, tabMeta, cols, htab, hcols⟩ := h
    have heq := createIndex_eq hnone htab hcols
    refine Or.inr ⟨hnone, ?_⟩
    by_cases hlen : ixMaxColLen < totalLen cols
    · rw [if_pos hlen] at heq
      exact Or.inl ⟨_, cols, Or.inl heq⟩
    · rw [if_neg hlen] at heq
      cases hfill : fillIndex cols ((s.indexOpened (getIndexName tab names) cols).tableRecords tab) [] with
      | none =>
        rw [hfill] at heq
        exact Or.inl ⟨_, cols, Or.inr heq⟩
      | some entries =>
        rw [hfill] at heq
        exact Or.inr ⟨tabMeta, cols, entries, htab, hcols, heq⟩
  · exact Or.inl (createIndex_none h)

/-- `drop_table` raises an exception or takes the table out of the catalog. -/
theorem dropTable_cases (s : SmManager) (tab : String) :
    (∃ e p, s.dropTable tab = .error (e, s) ∨ s.dropTable tab = .error (e, s.closeFile p)) ∨
      (s.db.tab? tab).isSome ∧ ∃ p, s.fhs tab = some p ∧ ¬0 < (s.closeFile p).path2refcount tab ∧ s.isFile tab ∧
        s.dropTable tab = .ok { s.closeFile p with
          files := Function.update s.files tab none
          fhs := Function.update s.fhs tab none
          db := s.db.eraseTab tab
          dbMeta := (s.db.eraseTab tab).text } := by
  by_cases htab : (s.db.tab? tab).isNone
  · exact Or.inl ⟨.tableNotFound tab, "", Or.inl (if_pos htab)⟩
  · have hsome : (s.db.tab? tab).isSome := by
      rwa [← Option.isNone_eq_false_iff, ← Bool.not_eq_true]
    cases hfh : s.fhs tab with
    | none => exact Or.inl ⟨.nullHandle, "", Or.inl (by simp only [dropTable, if_neg htab, hfh])⟩
    | some p =>
      by_cases hopen : 0 < (s.closeFile p).path2refcount tab
      · refine Or.inl ⟨.fileOpen tab, p, Or.inr ?_⟩
        simp only [dropTable, if_neg htab, hfh, destroyFile, if_pos hopen, bind, Except.bind]
      · by_cases hfile : s.isFile tab
        · have hfile' : (s.closeFile p).isFile tab := hfile
          refine Or.inr ⟨hsome, p, rfl, hopen, hfile, ?_⟩
          simp only [dropTable, if_neg htab, hfh, destroyFile, if_neg hopen, if_pos hfile', bind, Except.bind]
          rfl
        · have hfile' : ¬(s.closeFile p).isFile tab := hfile
          refine Or.inl ⟨.fileNotFound tab, p, Or.inr ?_⟩
          simp only [dropTable, if_neg htab, hfh, destroyFile, if_neg hopen, if_neg hfile', bind, Except.bind]

/-- The state behind `drop_index`, from the one in which its handle is closed. -/
def indexDropped (u : SmManager) (path : String) (tabMeta : TabMeta) : SmManager :=
  { u with
    files := Function.update u.files path none
    ihs := Function.update u.ihs path none
    db := u.db.setTab { tabMeta with indexes := tabMeta.indexes.filter (·.1 ≠ path) }
    dbMeta := (u.db.setTab { tabMeta with indexes := tabMeta.indexes.filter (·.1 ≠ path) }).text }

/-- `drop_index` raises an exception after it closed some files, or takes the index away. -/
theorem dropIndex_cases (s : SmManager) (tab : String) (names : List String) :
    ∃ refs, (∀ p, refs p ≤ s.path2refcount p) ∧
      ((∃ e, s.dropIndex tab names = .error (e, { s with path2refcount := refs })) ∨
        ∃ tabMeta, s.db.tab? tab = some tabMeta ∧ ¬0 < refs (getIndexName tab names) ∧
          s.dropIndex tab names = .ok (indexDropped { s with path2refcount := refs } (getIndexName tab names) tabMeta)) := by
  have hclose : ∀ (u : SmManager) (q p : String), (u.closeFile q).path2refcount p ≤ u.path2refcount p := by
    intro u q p
    by_cases h : p = q
    · subst h
      simp [closeFile]
    · simp [closeFile, h]
  have htail : ∀ (refs : String → Nat) (tabMeta : TabMeta), (∀ p, refs p ≤ s.path2refcount p) → s.isFile (getIndexName tab names) →
      ∃ refs', (∀ p, refs' p ≤ s.path2refcount p) ∧
        ∀ r, r = ((({ s with path2refcount := refs } : SmManager).closeFile (getIndexName tab names)).destroyFile (getIndexName tab names) >>=
            fun u => .ok { u with
              ihs := Function.update u.ihs (getIndexName tab names) none
              db := u.db.setTab { tabMeta with indexes := tabMeta.indexes.filter (·.1 ≠ getIndexName tab names) } }.flushMeta) →
          (∃ e, r = .error (e, { s with path2refcount := refs' })) ∨ ¬0 < refs' (getIndexName tab names) ∧
            r = .ok (indexDropped { s with path2refcount := refs' } (getIndexName tab names) tabMeta) := by
    intro refs tabMeta hrefs hfile
    refine ⟨(({ s with path2refcount := refs } : SmManager).closeFile (getIndexName tab names)).path2refcount,
      fun p => (hclose _ _ p).trans (hrefs p), ?_⟩
    rintro r rfl
    rw [destroyFile]
    split
    · exact Or.inl ⟨_, rfl⟩
    · next hopen =>
      have hfile' : (({ s with path2refcount := refs } : SmManager).closeFile (getIndexName tab names)).isFile
          (getIndexName tab names) := hfile
      rw [if_pos hfile']
      exact Or.inr ⟨hopen, rfl⟩
  cases htab : s.db.tab? tab with
  | none => exact ⟨s.path2refcount, fun _ => le_rfl, Or.inl ⟨.tableNotFound tab, by simp only [dropIndex, htab]⟩⟩
  | some tabMeta =>
    by_cases hfile : s.isFile (getIndexName tab names)
    · cases hih : s.ihs (getIndexName tab names) with
      | none =>
        obtain ⟨refs, hrefs, hout⟩ := htail s.path2refcount tabMeta (fun _ => le_rfl) hfile
        refine ⟨refs, hrefs, ?_⟩
        rcases (hout (s.dropIndex tab names) (by simp only [dropIndex, htab, if_pos hfile, hih])) with herr | ⟨hopen, hok⟩
        · exact Or.inl herr
        · exact Or.inr ⟨tabMeta, rfl, hopen, hok⟩
      | some handle =>
        obtain ⟨refs, hrefs, hout⟩ := htail (s.closeFile handle).path2refcount tabMeta (hclose s handle) hfile
        refine ⟨refs, hrefs, ?_⟩
        rcases (hout (s.dropIndex tab names) (by simp only [dropIndex, htab, if_pos hfile, hih]; rfl)) with herr | ⟨hopen, hok⟩
        · exact Or.inl herr
        · exact Or.inr ⟨tabMeta, rfl, hopen, hok⟩
    · exact ⟨s.path2refcount, fun _ => le_rfl, Or.inl ⟨.indexNotFound tab names, by simp only [dropIndex, htab, if_neg hfile]⟩⟩

/-! ### What every statement keeps -/

/-- The catalog can be written, a file that is open is there, and a table has its own file open. -/
structure Sound (s : SmManager) : Prop where
  db : s.db.Ok
  open_isFile : ∀ path, 0 < s.path2refcount path → s.isFile path
  fhs : ∀ tab path, s.fhs tab = some path → path = tab ∧ (s.db.tab? tab).isSome

/-- A state with the same catalog and the same handles. -/
theorem Sound.of_same (h : s.Sound) (hdb : t.db = s.db) (hfhs : t.fhs = s.fhs)
    (hopen : ∀ path, 0 < t.path2refcount path → t.isFile path) : t.Sound where
  db := hdb ▸ h.db
  open_isFile := hopen
  fhs tab path hfh := by
    rw [hdb]
    rw [hfhs] at hfh
    exact h.fhs tab path hfh

theorem open_isFile_update (h : s.Sound) (path : String) (file : SmFile) (n : Nat) (q : String)
    (hq : 0 < Function.update s.path2refcount path n q) : (Function.update s.files path (some file) q).isSome := by
  by_cases hpath : q = path
  · rw [hpath, Function.update_self]
    rfl
  · rw [Function.update_of_ne hpath] at hq ⊢
    exact h.open_isFile q hq

theorem Sound.closeFile (h : s.Sound) (path : String) : (s.closeFile path).Sound := by
  refine h.of_same rfl rfl fun q hq => h.open_isFile q ?_
  have hq : 0 < Function.update s.path2refcount path (s.path2refcount path - 1) q := hq
  by_cases hpath : q = path
  · subst hpath
    rw [Function.update_self] at hq
    omega
  · rwa [Function.update_of_ne hpath] at hq

theorem open_isFile_remove (h : s.Sound) {path : String} (hclosed : ¬0 < s.path2refcount path) {q : String}
    (hq : 0 < s.path2refcount q) : (Function.update s.files path none q).isSome := by
  have hpath : q ≠ path := fun heq => hclosed (heq ▸ hq)
  rw [Function.update_of_ne hpath]
  exact h.open_isFile q hq

theorem Sound.destroyFile (h : s.Sound) (path : String) : (after (s.destroyFile path)).Sound := by
  rw [SmManager.destroyFile]
  split
  · exact h
  · next hclosed =>
    split
    · exact h.of_same rfl rfl fun q hq => open_isFile_remove h hclosed hq
    · exact h

theorem Sound.writeFile (h : s.Sound) (path : String) (file : SmFile) : (s.writeFile path file).Sound := by
  refine h.of_same rfl rfl fun q hq => ?_
  refine open_isFile_update h path file (s.path2refcount path) q ?_
  rw [Function.update_eq_self]
  exact hq

theorem mem_layout {tab : String} {offset : Nat} {col : ColMeta} (h : col ∈ layout tab offset defs) :
    col.tabName = tab ∧ ∃ d ∈ defs, col.name = d.name := by
  induction defs generalizing offset with
  | nil => cases h
  | cons d defs ih =>
    rcases List.mem_cons.mp h with rfl | h
    · exact ⟨rfl, d, List.mem_cons_self, rfl⟩
    · obtain ⟨htab, d', hd', hname⟩ := ih h
      exact ⟨htab, d', List.mem_cons_of_mem d hd', hname⟩

theorem fhs_setTab (h : s.Sound) {tabMeta : TabMeta} (n p : String) (hfh : s.fhs n = some p) :
    p = n ∧ ((s.db.setTab tabMeta).tab? n).isSome := by
  obtain ⟨hpath, hsome⟩ := h.fhs n p hfh
  exact ⟨hpath, isSome_tab?_setTab.mpr (Or.inr hsome)⟩

theorem Sound.tableCreated (h : s.Sound) (htab : IsWord tab) (hdefs : ∀ d ∈ defs, IsWord d.name) :
    (s.tableCreated tab defs).Sound where
  db := by
    refine h.db.setTab ⟨htab, fun col hcol => ?_, by simp, List.nodup_nil⟩
    obtain ⟨hcolTab, d, hd, hname⟩ := mem_layout hcol
    exact ⟨hcolTab ▸ htab, hname ▸ hdefs d hd⟩
  open_isFile := open_isFile_update h tab _ _
  fhs n p hfh := by
    by_cases hn : n = tab
    · subst hn
      refine ⟨?_, isSome_tab?_setTab.mpr (Or.inl rfl)⟩
      have hfh : (s.fhs n).or (some n) = some p := by simpa [SmManager.tableCreated] using hfh
      cases hold : s.fhs n with
      | none =>
        rw [hold] at hfh
        exact (Option.some.inj hfh).symm
      | some q =>
        rw [hold] at hfh
        obtain rfl : q = p := Option.some.inj hfh
        exact (h.fhs n q hold).1
    · refine fhs_setTab h n p ?_
      simpa [SmManager.tableCreated, hn] using hfh

theorem Sound.dropTable (h : s.Sound) (tab : String) : (after (s.dropTable tab)).Sound := by
  rcases dropTable_cases s tab with ⟨e, p, heq | heq⟩ | ⟨-, p, -, hclosed, -, heq⟩
  · rw [heq]
    exact h
  · rw [heq]
    exact h.closeFile p
  · rw [heq]
    refine ⟨h.db.eraseTab tab, fun q hq => open_isFile_remove (h.closeFile p) hclosed hq, fun n q hfh => ?_⟩
    have hn : n ≠ tab := by
      rintro rfl
      simp [after] at hfh
    have hfh : s.fhs n = some q := by simpa [after, hn] using hfh
    obtain ⟨hpath, hsome⟩ := h.fhs n q hfh
    exact ⟨hpath, isSome_tab?_eraseTab hn hsome⟩

theorem getCols_ok {tabMeta : TabMeta} {cols : List ColMeta} (h : getCols tabMeta names = .ok cols) :
    (∀ col ∈ cols, col ∈ tabMeta.cols) ∧ cols.length = names.length := by
  induction names generalizing cols with
  | nil =>
    cases h
    exact ⟨by simp, rfl⟩
  | cons name names ih =>
    rw [getCols] at h
    split at h
    · cases h
    · next col hfind =>
      cases hrest : getCols tabMeta names with
      | error e =>
        rw [hrest] at h
        cases h
      | ok rest =>
        rw [hrest] at h
        obtain rfl : col :: rest = cols := Except.ok.inj h
        obtain ⟨hmem, hlen⟩ := ih hrest
        exact ⟨List.forall_mem_cons.mpr ⟨List.mem_of_find?_eq_some hfind, hmem⟩, congrArg (· + 1) hlen⟩

theorem Sound.indexCreated (h : s.Sound) (hpath : IsWord (getIndexName tab names)) (hnames : names ≠ []) {tabMeta : TabMeta}
    {cols : List ColMeta} (htab : s.db.tab? tab = some tabMeta) (hcols : getCols tabMeta names = .ok cols)
    (entries : List (Bytes × Rid)) : (s.indexCreated tab names tabMeta cols entries).Sound where
  db := by
    obtain ⟨hmem, hname⟩ := (tab?_eq_some h.db.nodup).mp htab
    have hok := h.db.tabs tabMeta hmem
    obtain ⟨hin, hlen⟩ := getCols_ok hcols
    refine h.db.setTab (hok.emplaceIndex hpath ⟨hname ▸ hok.name, fun col hcol => hok.cols col (hin col hcol), hlen.symm, ?_⟩)
    rintro rfl
    exact hnames (List.length_eq_zero_iff.mp hlen.symm)
  open_isFile := open_isFile_update h _ _ _
  fhs := fhs_setTab h

theorem Sound.createIndex (h : s.Sound) (hpath : IsWord (getIndexName tab names)) (hnames : names ≠ []) :
    (after (s.createIndex tab names)).Sound := by
  rcases createIndex_cases s tab names with ⟨e, heq⟩ | ⟨-, ⟨e, cols, heq | heq⟩ | ⟨tabMeta, cols, entries, htab, hcols, heq⟩⟩
  · rw [heq]
    exact h
  · rw [heq]
    exact h.of_same rfl rfl (open_isFile_update h _ _ _)
  · have hopened : (s.indexOpened (getIndexName tab names) cols).Sound := h.of_same rfl rfl (open_isFile_update h _ _ _)
    have hgone := (hopened.closeFile (getIndexName tab names)).destroyFile (getIndexName tab names)
    rw [heq]
    cases hdestroy : ((s.indexOpened (getIndexName tab names) cols).closeFile (getIndexName tab names)).destroyFile
        (getIndexName tab names) with
    | ok u =>
      rw [hdestroy] at hgone
      exact hgone
    | error d =>
      rw [hdestroy] at hgone
      exact hgone
  · rw [heq]
    exact h.indexCreated hpath hnames htab hcols entries

theorem Sound.dropIndex (h : s.Sound) (tab : String) (names : List String) : (after (s.dropIndex tab names)).Sound := by
  rcases dropIndex_cases s tab names with ⟨refs, hrefs, ⟨e, heq⟩ | ⟨tabMeta, htab, hclosed, heq⟩⟩
  · rw [heq]
    exact h.of_same rfl rfl fun p hp => h.open_isFile p (Nat.lt_of_lt_of_le hp (hrefs p))
  · have hrefs : ({ s with path2refcount := refs } : SmManager).Sound :=
      h.of_same rfl rfl fun p hp => h.open_isFile p (Nat.lt_of_lt_of_le hp (hrefs p))
    have hok := h.db.tabs tabMeta ((tab?_eq_some h.db.nodup).mp htab).1
    rw [heq]
    refine ⟨h.db.setTab ⟨hok.name, hok.cols, fun e he => hok.indexes e (List.mem_filter.mp he).1, ?_⟩,
      fun q hq => open_isFile_remove hrefs hclosed hq, fhs_setTab h⟩
    exact hok.nodup.sublist (List.filter_sublist.map _)

/-! ### Names -/

theorem isWord_getIndexName (tab : Identifier) (cols : List Identifier) : IsWord (getIndexName tab.val (cols.map (·.val))) := by
  have hfold : ∀ name, IsWord name → IsWord ((cols.map (·.val)).foldl (fun name col => name ++ "_" ++ col) name) := by
    induction cols with
    | nil => exact fun _ hname => hname
    | cons col cols ih =>
      intro name hname
      exact ih _ (IsWord.append (IsWord.append hname (by decide)) (List.all_eq_true.mpr col.isWord.2))
  exact IsWord.append (hfold tab.val tab.isWord) (by decide)

/-! ### Runs -/

theorem Sound.ddl (h : s.Sound) (a : DdlCall) : (after (s.ddl a)).Sound := by
  cases a with
  | createTable tab defs =>
    rcases (createTable_cases s tab.val (defs.map fun d => ⟨d.1.val, d.2.1, d.2.2⟩)) with ⟨⟨e, heq⟩, -⟩ | ⟨-, heq⟩
    · rw [SmManager.ddl, heq]
      exact h
    · rw [SmManager.ddl, heq]
      refine h.tableCreated tab.isWord fun d hd => ?_
      obtain ⟨def_, -, rfl⟩ := List.mem_map.mp hd
      exact def_.1.isWord
  | dropTable tab => exact h.dropTable tab.val
  | createIndex tab col cols => exact h.createIndex (isWord_getIndexName tab (col :: cols)) (by simp)
  | dropIndex tab col cols => exact h.dropIndex tab.val _
  | write path file =>
    rw [SmManager.ddl]
    split
    · exact h.writeFile path file
    · exact h

theorem sound_init (name : Identifier) : (init name.val).Sound where
  db := ⟨name.isWord, by simp [init], List.nodup_nil⟩
  open_isFile _ h := absurd h (Nat.lt_irrefl 0)
  fhs _ _ h := by cases h

theorem sound_run (name : Identifier) (calls : List DdlCall) : ((init name.val).run calls).Sound := by
  have hrun : ∀ s : SmManager, s.Sound → (s.run calls).Sound := by
    induction calls with
    | nil => exact fun _ h => h
    | cons a calls ih => exact fun s h => ih _ (h.ddl a)
  exact hrun _ (sound_init name)

/-! ### Reading the catalog back -/

/-- Reading what was written gives the same catalog. -/
def RoundTrip (db : DbMeta) : Prop := ∃ db' rest, readDb db.text = some (db', rest) ∧ Same db' db

theorem roundTrip_iff {db : DbMeta} (h : db.Ok) : RoundTrip db ↔ ∀ tab ∈ db.tabs, tab.indexes.length ≤ 1 := by
  obtain ⟨rest, -, hread⟩ := takes_db h [] [] (by simp)
  rw [List.nil_append, List.append_nil] at hread
  rw [← same_reread_iff h]
  constructor
  · rintro ⟨db', rest', hread', hsame⟩
    obtain ⟨rfl, -⟩ : db.reread = db' ∧ _ := Prod.mk.inj (Option.some.inj (hread.symm.trans hread'))
    exact hsame
  · exact fun hsame => ⟨db.reread, rest ++ [], hread, hsame⟩

/-- A catalog that was built is read back if and only if no table has a second index. -/
theorem roundTrip_run_iff (name : Identifier) (calls : List DdlCall) : RoundTrip ((init name.val).run calls).db ↔
    ∀ tab ∈ ((init name.val).run calls).db.tabs, tab.indexes.length ≤ 1 :=
  roundTrip_iff (sound_run name calls).db

/-! ### Dropping a table -/

theorem createIndex_ok (h : s.createIndex tab names = .ok t) :
    s.files (getIndexName tab names) = none ∧ ∃ file, t.files = Function.update s.files (getIndexName tab names) (some file) := by
  rcases createIndex_cases s tab names with ⟨e, heq⟩ | ⟨hnone, ⟨e, cols, heq | heq⟩ | ⟨tabMeta, cols, entries, -, -, heq⟩⟩
  · rw [heq] at h
    cases h
  · rw [heq] at h
    cases h
  · rw [heq] at h
    cases hdestroy : ((s.indexOpened (getIndexName tab names) cols).closeFile (getIndexName tab names)).destroyFile
        (getIndexName tab names) with
    | ok u =>
      rw [hdestroy] at h
      cases h
    | error d =>
      rw [hdestroy] at h
      cases h
  · rw [heq] at h
    cases h
    exact ⟨hnone, _, rfl⟩

/-- Files stay while indexes are created, and the file of each index is new. -/
theorem createIndexes_ok {indexes : List (List String)} (h : indexes.foldlM (fun s names => s.createIndex tab names) s = .ok t) :
    (∀ path, s.isFile path → t.isFile path) ∧
      ∀ names ∈ indexes, s.files (getIndexName tab names) = none ∧ t.isFile (getIndexName tab names) := by
  induction indexes generalizing s with
  | nil =>
    cases h
    exact ⟨fun _ hfile => hfile, by simp⟩
  | cons names indexes ih =>
    rw [List.foldlM_cons] at h
    cases hnext : s.createIndex tab names with
    | error e =>
      rw [hnext] at h
      cases h
    | ok u =>
      rw [hnext] at h
      obtain ⟨hstay, hnew⟩ := ih h
      obtain ⟨hnone, file, hfiles⟩ := createIndex_ok hnext
      have hmono : ∀ path, s.isFile path → u.isFile path := by
        intro path hfile
        rw [isFile, hfiles]
        by_cases hpath : path = getIndexName tab names
        · rw [hpath, Function.update_self]
          rfl
        · rw [Function.update_of_ne hpath]
          exact hfile
      have hself : u.isFile (getIndexName tab names) := by
        rw [isFile, hfiles, Function.update_self]
        rfl
      refine ⟨fun path hfile => hstay path (hmono path hfile), fun names' hmem => ?_⟩
      rcases List.mem_cons.mp hmem with rfl | hmem
      · exact ⟨hnone, hstay _ hself⟩
      · obtain ⟨hnone', hfile'⟩ := hnew names' hmem
        refine ⟨?_, hfile'⟩
        by_contra hsome
        have hu := hmono (getIndexName tab names') (by rwa [isFile, Option.isSome_iff_ne_none])
        rw [isFile, hnone'] at hu
        cases hu

/-- What is left of a table that was created and dropped: the catalog, the handles and the files are as before, and the same
statements create it again with empty indexes. -/
def DropRestores (s t : SmManager) (tab : String) (defs : List ColDef) (indexes : List (List String)) : Prop :=
  ∃ u, t.dropTable tab = .ok u ∧ u.db = s.db ∧ u.fhs = s.fhs ∧ u.ihs = s.ihs ∧ u.files = s.files ∧
    ∃ v, u.createAll tab defs indexes = .ok v ∧
      ∀ names ∈ indexes, ∃ cols, v.files (getIndexName tab names) = some (.index cols [])

theorem createAll_ok {indexes : List (List String)} (h : s.createAll tab defs indexes = .ok t) :
    (s.db.tab? tab = none ∧ s.files tab = none ∧ 1 ≤ recordSize defs ∧ recordSize defs ≤ rmMaxRecordSize) ∧
      indexes.foldlM (fun s names => s.createIndex tab names) (s.tableCreated tab defs) = .ok t := by
  rw [createAll] at h
  rcases createTable_cases s tab defs with ⟨⟨e, heq⟩, -⟩ | ⟨hcond, heq⟩
  · rw [heq] at h
    cases h
  · rw [heq] at h
    exact ⟨hcond, h⟩

/-- The file of an index stays when its table is dropped. -/
theorem not_dropRestores {indexes : List (List String)} (h : s.createAll tab defs indexes = .ok t) (hindexes : indexes ≠ []) :
    ¬DropRestores s t tab defs indexes := by
  rintro ⟨u, hdrop, -, -, -, hfiles, -⟩
  obtain ⟨-, hcreate⟩ := createAll_ok h
  obtain ⟨names, hmem⟩ := List.exists_mem_of_ne_nil indexes hindexes
  obtain ⟨hnone, hfile⟩ := (createIndexes_ok hcreate).2 names hmem
  have hne : getIndexName tab names ≠ tab := by
    intro heq
    rw [heq] at hnone
    simp [tableCreated] at hnone
  have hold : s.files (getIndexName tab names) = none := by simpa [tableCreated, hne] using hnone
  rcases dropTable_cases t tab with ⟨e, p, heq | heq⟩ | ⟨-, p, -, -, -, heq⟩
  · rw [heq] at hdrop
    cases hdrop
  · rw [heq] at hdrop
    cases hdrop
  · rw [heq] at hdrop
    cases hdrop
    have hleft : Function.update t.files tab none (getIndexName tab names) = none := (congrFun hfiles _).trans hold
    rw [Function.update_of_ne hne] at hleft
    rw [isFile, hleft] at hfile
    cases hfile

/-- `drop_table` undoes `create_table`. -/
theorem dropRestores_table (hs : s.Sound)
    (h : s.db.tab? tab = none ∧ s.files tab = none ∧ 1 ≤ recordSize defs ∧ recordSize defs ≤ rmMaxRecordSize) :
    DropRestores s (s.tableCreated tab defs) tab defs [] := by
  have hfh : s.fhs tab = none := by
    cases hfh : s.fhs tab with
    | none => rfl
    | some p =>
      have hsome := (hs.fhs tab p hfh).2
      rw [h.1] at hsome
      cases hsome
  have hclosed : s.path2refcount tab = 0 := by
    by_contra hopen
    have hfile := hs.open_isFile tab (Nat.pos_of_ne_zero hopen)
    rw [isFile, h.2.1] at hfile
    cases hfile
  have herase : (s.db.setTab ⟨tab, layout tab 0 defs, []⟩).eraseTab tab = s.db := eraseTab_setTab h.1
  have hdrop : (s.tableCreated tab defs).dropTable tab = .ok { s with dbMeta := s.db.text } := by
    have hsome : (((s.tableCreated tab defs).db.tab? tab).isNone) = false := by
      rw [Option.isNone_eq_false_iff]
      exact isSome_tab?_setTab.mpr (Or.inl rfl)
    have hhandle : (s.tableCreated tab defs).fhs tab = some tab := by simp [tableCreated, hfh]
    have hfhs : Function.update s.fhs tab none = s.fhs := Function.update_eq_self_iff.mpr hfh.symm
    have hfiles : Function.update s.files tab none = s.files := Function.update_eq_self_iff.mpr h.2.1.symm
    have hrefs : Function.update s.path2refcount tab 0 = s.path2refcount := Function.update_eq_self_iff.mpr hclosed.symm
    simp only [dropTable, hsome, hhandle]
    simp [tableCreated, closeFile, destroyFile, hclosed, isFile, bind, Except.bind, flushMeta, hfhs, hfiles, hrefs, herase]
  refine ⟨_, hdrop, rfl, rfl, rfl, rfl, ?_⟩
  obtain ⟨-, hnot⟩ | ⟨-, heq⟩ := createTable_cases ({ s with dbMeta := s.db.text } : SmManager) tab defs
  · exact absurd h hnot
  · refine ⟨({ s with dbMeta := s.db.text } : SmManager).tableCreated tab defs, ?_, by simp⟩
    rw [createAll, heq]
    rfl

/-- A table that is created and dropped leaves nothing if and only if no index was created on it. -/
theorem dropRestores_iff (name : Identifier) (calls : List DdlCall) (t : SmManager) (tab : String) (defs : List ColDef)
    (indexes : List (List String)) (h : ((init name.val).run calls).createAll tab defs indexes = .ok t) :
    DropRestores ((init name.val).run calls) t tab defs indexes ↔ indexes = [] := by
  constructor
  · intro hdrop
    by_contra hindexes
    exact not_dropRestores h hindexes hdrop
  · rintro rfl
    obtain ⟨hcond, hcreate⟩ := createAll_ok h
    cases hcreate
    exact dropRestores_table (sound_run name calls) hcond

end SmManager

/-- A name of one letter. -/
def letter (c : Char) (h : c.isAlpha) : Identifier := ⟨String.singleton c, c, [], String.toList_singleton c, h, by simp⟩

/-- A table with two columns and an index on each. -/
def twoIndexes : List DdlCall :=
  [.createTable (letter 't' rfl) [(letter 'a' rfl, .int, 4), (letter 'b' rfl, .int, 4)],
    .createIndex (letter 't' rfl) (letter 'a' rfl) [], .createIndex (letter 't' rfl) (letter 'b' rfl) []]

theorem not_roundTrip_twoIndexes : ¬∀ (name : Identifier) (calls : List DdlCall), SmManager.RoundTrip ((SmManager.init name.val).run calls).db := by
  intro h
  have htrip := (SmManager.roundTrip_iff (SmManager.sound_run (letter 'd' rfl) twoIndexes).db).mp (h (letter 'd' rfl) twoIndexes)
  exact absurd htrip (by decide +kernel)

/-- The columns of that table. -/
def twoCols : List SmManager.ColDef := [⟨"a", .int, 4⟩, ⟨"b", .int, 4⟩]

theorem dropRestores_noIndex : ∃ t, (SmManager.init (letter 'd' rfl).val).createAll "t" twoCols [] = .ok t ∧
    SmManager.DropRestores (SmManager.init (letter 'd' rfl).val) t "t" twoCols [] := by
  have hcreate : (SmManager.init (letter 'd' rfl).val).createAll "t" twoCols [] =
      .ok ((SmManager.init (letter 'd' rfl).val).tableCreated "t" twoCols) := by
    rcases SmManager.createTable_cases (SmManager.init (letter 'd' rfl).val) "t" twoCols with ⟨-, hnot⟩ | ⟨-, heq⟩
    · exact absurd ⟨rfl, rfl, by decide, by decide⟩ hnot
    · rw [SmManager.createAll, heq]
      rfl
  exact ⟨_, hcreate, (SmManager.dropRestores_iff (letter 'd' rfl) [] _ "t" twoCols [] hcreate).mpr rfl⟩

theorem not_dropRestores_oneIndex : ¬∀ (name : Identifier) (calls : List DdlCall) (t : SmManager) (tab : String)
    (defs : List SmManager.ColDef) (indexes : List (List String)),
    ((SmManager.init name.val).run calls).createAll tab defs indexes = .ok t →
      SmManager.DropRestores ((SmManager.init name.val).run calls) t tab defs indexes := by
  intro h
  have hcreate : ∃ t, ((SmManager.init (letter 'd' rfl).val).run []).createAll "t" twoCols [["a"]] = .ok t := by
    have hok : (((SmManager.init (letter 'd' rfl).val).run []).createAll "t" twoCols [["a"]]).isOk := by decide +kernel
    cases hrun : ((SmManager.init (letter 'd' rfl).val).run []).createAll "t" twoCols [["a"]] with
    | ok t => exact ⟨t, rfl⟩
    | error e =>
      rw [hrun] at hok
      cases hok
  obtain ⟨t, hcreate⟩ := hcreate
  exact SmManager.not_dropRestores hcreate (by simp) (h (letter 'd' rfl) [] t "t" twoCols [["a"]] hcreate)

end Rmdb.Catalog
