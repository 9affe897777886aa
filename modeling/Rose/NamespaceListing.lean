import Rose.NamespaceTree

/-!
# Directory listings

In a tree-shaped catalog a listing of a directory has one entry for each of its
immediate children, with the kind of the child.
-/

namespace Rose

open LabelledRuns

/-- The entries are the immediate children of a directory, each once. -/
structure ListsChildren (catalog : Catalog) (dir : Path) (entries : List DirEntry) : Prop where
  once : (entries.map DirEntry.name).Nodup
  files : ∀ name, (∃ entry ∈ entries, entry.name = name ∧ entry.isDir = false) ↔
    slash ∉ name ∧ childPath dir name ∈ catalog.filePaths
  dirs : ∀ name, (∃ entry ∈ entries, entry.name = name ∧ entry.isDir = true) ↔
    slash ∉ name ∧ childPath dir name ∈ catalog.dirPaths

/-- The root and the directories can be listed, and a listing shows the
immediate children. -/
def ListsExactly (catalog : Catalog) : Prop :=
  ∀ path, ((∃ entries, catalog.listDir path = .ok entries) ↔
      cleanPath path = [] ∨ cleanPath path ∈ catalog.dirPaths) ∧
    ∀ entries, catalog.listDir path = .ok entries → ListsChildren catalog (cleanPath path) entries

/-- The directory entries of a listing. -/
def dirEntries (catalog : Catalog) (dir : Path) : List DirEntry :=
  (catalog.dirs.rows.filter (fun row => decide (row.parent = dir))).map
    fun row => DirEntry.mk row.name true 0 row.mtime

/-- The file entries of a listing. -/
def fileEntries (catalog : Catalog) (dir : Path) : List DirEntry :=
  (catalog.heads.rows.filter (fun row => decide (row.parent = dir))).filterMap
    fun row => (catalog.files.find? row.fileID).map (fileEntry row)

variable {catalog : Catalog} {dir : Path}

section Columns

theorem childPath_of_columns {path parent name : Path} (entry : Entry path)
    (columns : (parent, name) = splitPath path) :
    childPath parent name = path ∧ slash ∉ name := by
  have joined := childPath_splitPath entry
  have plain := slash_not_mem_name entry
  rw [← columns] at joined plain
  exact ⟨joined, plain⟩

theorem columns_of_childPath {parent name path : Path} (entry : Entry path) (noSlash : slash ∉ name)
    (joined : path = childPath parent name) :
    splitPath path = (parent, name) := by
  rw [joined] at entry ⊢
  exact splitPath_childPath entry noSlash

theorem TreeShaped.head_child (shaped : TreeShaped catalog) {head : FileHead}
    (present : head ∈ catalog.heads.rows) :
    childPath head.parent head.name = head.path ∧ slash ∉ head.name :=
  childPath_of_columns (shaped.tree.entry _ (Or.inl (KeyedTable.key_mem_keys present)))
    (shaped.headColumns head present)

theorem TreeShaped.dir_child (shaped : TreeShaped catalog) {row : DirRow}
    (present : row ∈ catalog.dirs.rows) :
    childPath row.parent row.name = row.path ∧ slash ∉ row.name :=
  childPath_of_columns (shaped.tree.entry _ (Or.inr (KeyedTable.key_mem_keys present)))
    (shaped.dirColumns row present)

end Columns

variable {entry : DirEntry}

theorem mem_dirEntries :
    entry ∈ dirEntries catalog dir ↔ ∃ row ∈ catalog.dirs.rows,
      row.parent = dir ∧ entry = ⟨row.name, true, 0, row.mtime⟩ := by
  simp only [dirEntries, List.mem_map, List.mem_filter, decide_eq_true_eq]
  constructor
  · rintro ⟨row, ⟨present, here⟩, rfl⟩
    exact ⟨row, present, here, rfl⟩
  · rintro ⟨row, present, here, rfl⟩
    exact ⟨row, ⟨present, here⟩, rfl⟩

theorem mem_fileEntries :
    entry ∈ fileEntries catalog dir ↔ ∃ head ∈ catalog.heads.rows, head.parent = dir ∧ ∃ version,
        catalog.files.find? head.fileID = some version ∧ entry = fileEntry head version := by
  simp only [fileEntries, List.mem_filterMap, List.mem_filter,
    decide_eq_true_eq, Option.map_eq_some_iff]
  constructor
  · rintro ⟨head, ⟨present, here⟩, version, found, rfl⟩
    exact ⟨head, present, here, version, found, rfl⟩
  · rintro ⟨head, present, here, version, found, rfl⟩
    exact ⟨head, ⟨present, here⟩, version, found, rfl⟩

section

variable (shaped : TreeShaped catalog)
include shaped

theorem dir_listed_iff (name : Path) :
    (∃ entry ∈ dirEntries catalog dir, entry.name = name) ↔
      slash ∉ name ∧ childPath dir name ∈ catalog.dirPaths := by
  constructor
  · rintro ⟨entry, listed, rfl⟩
    obtain ⟨row, present, rfl, rfl⟩ := mem_dirEntries.mp listed
    obtain ⟨joined, plain⟩ := shaped.dir_child present
    exact ⟨plain, row, present, joined.symm⟩
  · rintro ⟨noSlash, row, present, joined⟩
    have split := columns_of_childPath
      (shaped.tree.entry _ (Or.inr (KeyedTable.key_mem_keys present))) noSlash
      joined
    have columns := (shaped.dirColumns row present).trans split
    rw [Prod.mk.injEq] at columns
    exact ⟨_, mem_dirEntries.mpr ⟨row, present, columns.1, rfl⟩, columns.2⟩

theorem file_listed_iff (name : Path) :
    (∃ entry ∈ fileEntries catalog dir, entry.name = name) ↔
      slash ∉ name ∧ childPath dir name ∈ catalog.filePaths := by
  constructor
  · rintro ⟨entry, listed, rfl⟩
    obtain ⟨head, present, rfl, version, -, rfl⟩ := mem_fileEntries.mp listed
    obtain ⟨joined, plain⟩ := shaped.head_child present
    exact ⟨plain, head, present, joined.symm⟩
  · rintro ⟨noSlash, head, present, joined⟩
    have split := columns_of_childPath
      (shaped.tree.entry _ (Or.inl (KeyedTable.key_mem_keys present))) noSlash
      joined
    have columns := (shaped.headColumns head present).trans split
    rw [Prod.mk.injEq] at columns
    obtain ⟨version, found⟩ : ∃ version, catalog.files.find? head.fileID = some version := by
      obtain ⟨version, versionIn, same⟩ :=
        (KeyedTable.has_iff _ _).mp (shaped.versions head present)
      exact ⟨version, (KeyedTable.find?_eq_some_iff _ _ _).mpr ⟨versionIn, same⟩⟩
    exact ⟨_, mem_fileEntries.mpr ⟨head, present, columns.1, version, found, rfl⟩, columns.2⟩

theorem dirEntries_once : ((dirEntries catalog dir).map DirEntry.name).Nodup := by
  unfold dirEntries
  rw [List.map_map]
  have rowsOnce : catalog.dirs.rows.Nodup := catalog.dirs.distinct.of_map
  refine (rowsOnce.filter _).map_on fun first firstIn second secondIn same => ?_
  obtain ⟨firstIn, firstHere⟩ := List.mem_filter.mp firstIn
  obtain ⟨secondIn, secondHere⟩ := List.mem_filter.mp secondIn
  refine catalog.dirs.eq_of_key_eq firstIn secondIn ?_
  rw [← (shaped.dir_child firstIn).1, ← (shaped.dir_child secondIn).1,
    of_decide_eq_true firstHere, of_decide_eq_true secondHere]
  exact congrArg (childPath dir) same

theorem fileEntries_once : ((fileEntries catalog dir).map DirEntry.name).Nodup := by
  unfold fileEntries
  have rowsOnce : catalog.heads.rows.Nodup := catalog.heads.distinct.of_map
  rw [List.nodup_iff_pairwise_ne, List.pairwise_map, List.pairwise_filterMap]
  refine (rowsOnce.filter _).pairwise_of_forall_ne ?_
  intro first firstIn second secondIn different firstEntry firstShown secondEntry secondShown same
  obtain ⟨firstIn, firstHere⟩ := List.mem_filter.mp firstIn
  obtain ⟨secondIn, secondHere⟩ := List.mem_filter.mp secondIn
  obtain ⟨firstVersion, -, rfl⟩ := Option.map_eq_some_iff.mp firstShown
  obtain ⟨secondVersion, -, rfl⟩ := Option.map_eq_some_iff.mp secondShown
  refine different (catalog.heads.eq_of_key_eq firstIn secondIn ?_)
  rw [← (shaped.head_child firstIn).1, ← (shaped.head_child secondIn).1,
    of_decide_eq_true firstHere, of_decide_eq_true secondHere]
  exact congrArg (childPath dir) same

end

/-- What a listing returns. -/
def listing (catalog : Catalog) (dir : Path) : List DirEntry :=
  (dirEntries catalog dir).mergeSort nameOrder ++ (fileEntries catalog dir).mergeSort nameOrder

theorem mem_listing :
    entry ∈ listing catalog dir ↔
      entry ∈ dirEntries catalog dir ∨ entry ∈ fileEntries catalog dir := by
  unfold listing
  rw [List.mem_append, List.mem_mergeSort, List.mem_mergeSort]

theorem dirEntries_isDir (listed : entry ∈ dirEntries catalog dir) : entry.isDir = true := by
  obtain ⟨row, -, -, rfl⟩ := mem_dirEntries.mp listed
  rfl

theorem fileEntries_isDir (listed : entry ∈ fileEntries catalog dir) : entry.isDir = false := by
  obtain ⟨head, -, -, version, -, rfl⟩ := mem_fileEntries.mp listed
  rfl

section

variable (shaped : TreeShaped catalog)
include shaped

theorem listing_listsChildren (dir : Path) : ListsChildren catalog dir (listing catalog dir) := by
  refine ⟨?_, fun name => ?_, fun name => ?_⟩
  · unfold listing
    rw [List.map_append]
    have dirsOnce := ((List.mergeSort_perm (dirEntries catalog dir)
      nameOrder).map DirEntry.name).nodup_iff.mpr (dirEntries_once shaped)
    have filesOnce := ((List.mergeSort_perm (fileEntries catalog dir)
      nameOrder).map DirEntry.name).nodup_iff.mpr (fileEntries_once shaped)
    refine dirsOnce.append filesOnce fun name inDirs inFiles => ?_
    obtain ⟨dirEntry, dirListed, rfl⟩ := List.mem_map.mp inDirs
    obtain ⟨fileEntry, fileListed, sameName⟩ := List.mem_map.mp inFiles
    have isDir := (dir_listed_iff shaped dirEntry.name).mp
      ⟨dirEntry, List.mem_mergeSort.mp dirListed, rfl⟩
    have isFile := (file_listed_iff shaped dirEntry.name).mp
      ⟨fileEntry, List.mem_mergeSort.mp fileListed, sameName⟩
    exact shaped.tree.disjoint _ isFile.2 isDir.2
  · rw [← file_listed_iff shaped]
    constructor
    · rintro ⟨entry, listed, sameName, isFile⟩
      rcases mem_listing.mp listed with isDir | listed
      · rw [dirEntries_isDir isDir] at isFile
        cases isFile
      · exact ⟨entry, listed, sameName⟩
    · rintro ⟨entry, listed, sameName⟩
      exact ⟨entry, mem_listing.mpr (Or.inr listed), sameName, fileEntries_isDir listed⟩
  · rw [← dir_listed_iff shaped]
    constructor
    · rintro ⟨entry, listed, sameName, isDir⟩
      rcases mem_listing.mp listed with listed | isFile
      · exact ⟨entry, listed, sameName⟩
      · rw [fileEntries_isDir isFile] at isDir
        cases isDir
    · rintro ⟨entry, listed, sameName⟩
      exact ⟨entry, mem_listing.mpr (Or.inl listed), sameName, dirEntries_isDir listed⟩

/-- In a tree-shaped catalog a stat finds a directory exactly at the root and
at the directory rows. -/
theorem statPath_isDir_iff {path : Path} (notRoot : cleanPath path ≠ []) :
    (∃ entry, catalog.statPath (cleanPath path) = some entry ∧
      entry.isDir = true) ↔ cleanPath path ∈ catalog.dirPaths := by
  unfold Catalog.statPath
  rw [cleanPath_cleanPath]
  simp only [if_neg notRoot]
  cases found : catalog.heads.find? (cleanPath path) with
  | none =>
    cases dirFound : catalog.dirs.find? (cleanPath path) with
    | none =>
      have missing := (KeyedTable.find?_eq_none_iff _ _).mp dirFound
      constructor
      · rintro ⟨entry, impossible, -⟩
        cases impossible
      · rintro ⟨row, present, same⟩
        exact absurd same (missing row present)
    | some row =>
      obtain ⟨present, same⟩ := (KeyedTable.find?_eq_some_iff _ _ _).mp dirFound
      exact ⟨fun _ => ⟨row, present, same⟩, fun _ => ⟨_, rfl, rfl⟩⟩
  | some head =>
    obtain ⟨present, same⟩ := (KeyedTable.find?_eq_some_iff _ _ _).mp found
    obtain ⟨version, versionIn, sameID⟩ :=
      (KeyedTable.has_iff _ _).mp (shaped.versions head present)
    have versionFound : catalog.files.find? head.fileID = some version :=
      (KeyedTable.find?_eq_some_iff _ _ _).mpr ⟨versionIn, sameID⟩
    have isFile : cleanPath path ∈ catalog.filePaths := ⟨head, present, same⟩
    constructor
    · rintro ⟨entry, shown, isDir⟩
      simp only [Option.bind_eq_bind, Option.bind_some, versionFound] at shown
      cases shown
      cases isDir
    · exact fun isDir => absurd isDir (shaped.tree.disjoint _ isFile)

theorem listsExactly : ListsExactly catalog := by
  intro path
  have listed : ∀ entries, catalog.listDir path = .ok entries →
      entries = listing catalog (cleanPath path) := by
    intro entries found
    unfold Catalog.listDir at found
    simp only at found
    split_ifs at found with atRoot
    · cases found
      rfl
    · split at found
      · cases found
      · split_ifs at found
        cases found
        rfl
  refine ⟨?_, fun entries found => ?_⟩
  · by_cases atRoot : cleanPath path = []
    · refine ⟨fun _ => Or.inl atRoot, fun _ => ⟨listing catalog (cleanPath path), ?_⟩⟩
      unfold Catalog.listDir
      simp only [if_pos atRoot]
      rfl
    · rw [or_iff_right atRoot, ← statPath_isDir_iff shaped atRoot]
      unfold Catalog.listDir
      simp only [if_neg atRoot]
      cases catalog.statPath (cleanPath path) with
      | none => simp
      | some entry => cases isDir : entry.isDir <;> simp [isDir]
  · rw [listed entries found]
    exact listing_listsChildren shaped _

end

/-- As long as every rename of a directory leaves the lookalikes of its rows in
place, each run of catalog transactions keeps the namespace a tree and its
listings exact. -/
theorem namespace_stays_tree {run : List (CatalogAction × Catalog)}
    (isRun : IsRun CatalogStep Catalog.empty run)
    (safe : AllSteps RenamesExactly Catalog.empty run) :
    AllStates (fun catalog => TreeShaped catalog ∧ ListsExactly catalog)
      Catalog.empty run := by
  have shaped : AllStates TreeShaped Catalog.empty run := isRun.allStates_of_allSteps
      (fun _ _ _ shaped stepped safe => shaped.step stepped safe)
      TreeShaped.empty safe
  exact ⟨⟨shaped.1, listsExactly shaped.1⟩, fun entry member =>
    ⟨shaped.2 entry member, listsExactly (shaped.2 entry member)⟩⟩

/-- A file `a/x` and a directory `a/y` move with `a` to `b`. -/
theorem namespace_stays_tree_after_rename :
    AllStates (fun catalog => TreeShaped catalog ∧ ListsExactly catalog) Catalog.empty
      (Catalog.empty.runAll [.commitFile (ascii ['a', '/', 'x']) 0 [],
        .mkdir (ascii ['a', '/', 'y']) 0, .renameFile (ascii ['a']) (ascii ['b']) 0]) := by
  refine namespace_stays_tree (Catalog.isRun_runAll _ _)
    ⟨trivial, trivial, fun _ _ _ => ?_, trivial⟩
  refine ⟨?_, ?_, ?_⟩
  · decide +kernel
  · decide +kernel
  · decide +kernel

/-- With a file `a/x` and a directory `A/x`, renaming `a` leaves both a file
and a directory `b/x`. -/
theorem rename_collides_by_case :
    ∃ run : List (CatalogAction × Catalog), IsRun CatalogStep Catalog.empty run ∧
        ¬AllStates (fun catalog => TreeShaped catalog ∧ ListsExactly catalog)
          Catalog.empty run := by
  refine ⟨Catalog.empty.runAll [.commitFile (ascii ['a', '/', 'x']) 0 [],
    .mkdir (ascii ['A', '/', 'x']) 0, .renameFile (ascii ['a']) (ascii ['b']) 0],
    Catalog.isRun_runAll _ _, fun holds => ?_⟩
  obtain ⟨shaped, -⟩ := holds.lastState
  refine shaped.tree.disjoint (ascii ['b', '/', 'x']) ?_ ?_
  · refine (KeyedTable.has_iff_mem_keys _ _).mp ?_
    decide +kernel
  · refine (KeyedTable.has_iff_mem_keys _ _).mp ?_
    decide +kernel

end Rose
