import Rose.ReferenceRuns

/-!
# Reading a snapshot

What a client reads of a snapshot: the entry of a path, the listing of a
directory and the extents of a file with their places.  These reads depend only
on the snapshot's own rows and on the versions they hold.
-/

namespace Rose

open FallibleActions

/-- The place of one extent of a blob, looked up by its hash. -/
def extentPlacement (chunks : KeyedTable ChunkRow.hash) (extent : Bytes) :
    Except CatalogError ChunkPlacement :=
  match chunks.find? (extent.take 15) with
  | none => .error (.placementNotFound (extent.take 15))
  | some row =>
    .ok
      { hash := extent.take 15
        vlogID := row.vlogID
        vaddrOffset := row.vaddrOffset
        logicalLen := LittleEndian.decode (extent.drop 15)
        compressedLen := row.compressedLen }

/-- What a snapshot listing shows of a file. -/
def snapshotFileEntry (row : SnapshotFile) (version : FileVersion) :
    DirEntry :=
  ⟨row.name, false, chunksLogicalSize version.chunks, row.mtime⟩

namespace Catalog

variable (catalog : Catalog)

def snapshotStat (id : Nat) (path : Path) : Except CatalogError (Option DirEntry) :=
  if !catalog.snapshots.has id then .error (.snapshotNotFound id)
  else
    let path := cleanPath path
    if path = [] then .ok (some ⟨[], true, 0, 0⟩)
    else
      let file := do
        let row ← catalog.snapshotFiles.find? (id, path)
        let version ← catalog.files.find? row.fileID
        pure ⟨(splitPath path).2, false, chunksLogicalSize version.chunks, row.mtime⟩
      let dir := (catalog.snapshotDirs.find? (id, path)).map fun row =>
        ⟨(splitPath path).2, true, 0, row.mtime⟩
      .ok (file <|> dir)

def listSnapshotDir (id : Nat) (path : Path) :
    Except CatalogError (List DirEntry) := do
  let entry ← catalog.snapshotStat id path
  let isDir := match entry with
    | none => false
    | some entry => entry.isDir
  if isDir then
    let dirs := (catalog.snapshotDirs.rows.filter fun row =>
      decide (row.snapshotID = id) && decide (row.parent = cleanPath path)).map
        fun row => DirEntry.mk row.name true 0 row.mtime
    let files := (catalog.snapshotFiles.rows.filter fun row =>
      decide (row.snapshotID = id) && decide (row.parent = cleanPath path) ).filterMap fun row =>
          (catalog.files.find? row.fileID).map (snapshotFileEntry row)
    pure ((dirs ++ files).mergeSort nameOrder)
  else .error (.snapshotDirNotFound path)

/-- The version of a file in a snapshot; zero when there is none. -/
def openSnapshotFile (id : Nat) (path : Path) : Nat :=
  match catalog.snapshotFiles.find? (id, path) with
  | none => 0
  | some row => row.fileID

/-- The extents of a version with their current places. -/
def fileVersionChunks (fileID : Nat) : Except CatalogError (List ChunkPlacement) :=
  if fileID = 0 then .ok []
  else do
    let blob ← catalog.fileChunks fileID
    (extentsOf blob).mapM (extentPlacement catalog.chunks)

end Catalog

/-- The hash and the length of an extent, without its place. -/
def extentIdentity (placement : ChunkPlacement) : Bytes × Nat :=
  (placement.hash, placement.logicalLen)

/-- The rows of a snapshot and the versions they hold are those of an earlier
catalog. -/
structure SnapshotKept (first later : Catalog) (id : Nat) : Prop where
  recorded : later.snapshots.has id = true
  files : later.snapshotFiles.rows.filter (fun row => decide (row.snapshotID = id)) =
    first.snapshotFiles.rows.filter (fun row => decide (row.snapshotID = id))
  dirs : later.snapshotDirs.rows.filter (fun row => decide (row.snapshotID = id)) =
    first.snapshotDirs.rows.filter (fun row => decide (row.snapshotID = id))
  versions : ∀ row ∈ first.snapshotFiles.rows, row.snapshotID = id →
    ∃ version, first.files.find? row.fileID = some version ∧
      later.files.find? row.fileID = some version

namespace SnapshotKept

variable {first later : Catalog} {id : Nat}

variable (kept : SnapshotKept first later id)
include kept

theorem mem_files_iff {row : SnapshotFile} (own : row.snapshotID = id) :
    row ∈ later.snapshotFiles.rows ↔ row ∈ first.snapshotFiles.rows := by
  have sameFilter := congrArg (row ∈ ·) kept.files
  simpa [own] using sameFilter

theorem mem_dirs_iff {row : SnapshotDir} (own : row.snapshotID = id) :
    row ∈ later.snapshotDirs.rows ↔ row ∈ first.snapshotDirs.rows := by
  have sameFilter := congrArg (row ∈ ·) kept.dirs
  simpa [own] using sameFilter

theorem find?_file (path : Path) :
    later.snapshotFiles.find? (id, path) = first.snapshotFiles.find? (id, path) :=
  KeyedTable.find?_congr fun _ isWanted =>
    kept.mem_files_iff (Prod.mk.inj isWanted).1

theorem find?_dir (path : Path) :
    later.snapshotDirs.find? (id, path) = first.snapshotDirs.find? (id, path) :=
  KeyedTable.find?_congr fun _ isWanted =>
    kept.mem_dirs_iff (Prod.mk.inj isWanted).1

theorem find?_version {row : SnapshotFile} (present : row ∈ first.snapshotFiles.rows)
    (own : row.snapshotID = id) : later.files.find? row.fileID = first.files.find? row.fileID := by
  obtain ⟨version, inFirst, inLater⟩ := kept.versions row present own
  rw [inFirst, inLater]

theorem snapshotStat_eq (firstHas : first.snapshots.has id = true) (path : Path) :
    later.snapshotStat id path = first.snapshotStat id path := by
  unfold Catalog.snapshotStat
  dsimp only
  rw [kept.recorded, firstHas, kept.find?_file, kept.find?_dir]
  cases found : first.snapshotFiles.find? (id, cleanPath path) with
  | none => rfl
  | some row =>
    obtain ⟨present, keys⟩ := (KeyedTable.find?_eq_some_iff _ _ _).mp found
    simp only [Option.bind_eq_bind, Option.bind_some,
      kept.find?_version present (Prod.mk.inj keys).1]

theorem dirs_listed (selects : SnapshotDir → Bool) :
    (later.snapshotDirs.rows.filter fun row =>
      decide (row.snapshotID = id) && selects row) =
      first.snapshotDirs.rows.filter fun row =>
        decide (row.snapshotID = id) && selects row := by
  have split : ∀ rows : List SnapshotDir, (rows.filter fun row =>
      decide (row.snapshotID = id) && selects row) =
      (rows.filter fun row => decide (row.snapshotID = id)).filter selects := by
    intro rows
    rw [List.filter_filter]
    simp only [Bool.and_comm]
  rw [split, split, kept.dirs]

theorem files_listed (selects : SnapshotFile → Bool) :
    (later.snapshotFiles.rows.filter fun row =>
      decide (row.snapshotID = id) && selects row) =
      first.snapshotFiles.rows.filter fun row =>
        decide (row.snapshotID = id) && selects row := by
  have split : ∀ rows : List SnapshotFile, (rows.filter fun row =>
      decide (row.snapshotID = id) && selects row) =
      (rows.filter fun row => decide (row.snapshotID = id)).filter selects := by
    intro rows
    rw [List.filter_filter]
    simp only [Bool.and_comm]
  rw [split, split, kept.files]

theorem listSnapshotDir_eq (firstHas : first.snapshots.has id = true) (path : Path) :
    later.listSnapshotDir id path = first.listSnapshotDir id path := by
  unfold Catalog.listSnapshotDir
  rw [kept.snapshotStat_eq firstHas, kept.dirs_listed, kept.files_listed]
  have sameEntries : ((first.snapshotFiles.rows.filter fun row =>
      decide (row.snapshotID = id) && decide (row.parent = cleanPath path) ).filterMap fun row =>
          (later.files.find? row.fileID).map (snapshotFileEntry row)) =
      (first.snapshotFiles.rows.filter fun row =>
        decide (row.snapshotID = id) && decide (row.parent = cleanPath path) ).filterMap fun row =>
            (first.files.find? row.fileID).map (snapshotFileEntry row) := by
    refine List.filterMap_congr fun row member => ?_
    obtain ⟨present, selected⟩ := List.mem_filter.mp member
    rw [Bool.and_eq_true, decide_eq_true_eq] at selected
    rw [kept.find?_version present selected.1]
  rw [sameEntries]

theorem openSnapshotFile_eq (path : Path) :
    later.openSnapshotFile id path = first.openSnapshotFile id path := by
  unfold Catalog.openSnapshotFile
  rw [kept.find?_file]

end SnapshotKept

section Extents

variable {catalog : Catalog}

theorem extentPlacement_of_mem {chunks : KeyedTable ChunkRow.hash} {extent : Bytes}
    (present : extent.take 15 ∈ chunks.keys) :
    ∃ placement, extentPlacement chunks extent = .ok placement ∧ extentIdentity placement =
        (extent.take 15, LittleEndian.decode (extent.drop 15)) ∧
      ∃ row ∈ chunks.rows, row.hash = placement.hash ∧ row.vlogID = placement.vlogID := by
  obtain ⟨row, rowIn, sameHash⟩ := present
  have found : chunks.find? (extent.take 15) = some row :=
    (KeyedTable.find?_eq_some_iff _ _ _).mpr ⟨rowIn, sameHash⟩
  unfold extentPlacement
  rw [found]
  exact ⟨_, rfl, rfl, row, rowIn, sameHash, rfl⟩

theorem mapM_extentPlacement {chunks : KeyedTable ChunkRow.hash} {extents : List Bytes}
    (present : ∀ extent ∈ extents, extent.take 15 ∈ chunks.keys) :
    ∃ placements, extents.mapM (extentPlacement chunks) = .ok placements ∧
      placements.map extentIdentity = extents.map (fun extent =>
        (extent.take 15, LittleEndian.decode (extent.drop 15))) ∧
      ∀ placement ∈ placements, ∃ row ∈ chunks.rows,
        row.hash = placement.hash ∧ row.vlogID = placement.vlogID := by
  induction extents with
  | nil => exact ⟨[], rfl, rfl, by simp⟩
  | cons extent extents ih =>
    obtain ⟨placement, placed, identity, row, rowIn, sameHash, sameVlog⟩ :=
      extentPlacement_of_mem (present extent (by simp))
    obtain ⟨placements, mapped, identities, rows⟩ :=
      ih fun other member => present other (by simp [member])
    refine ⟨placement :: placements, ?_, ?_, ?_⟩
    · rw [List.mapM_cons, placed, mapped]
      rfl
    · rw [List.map_cons, List.map_cons, identity, identities]
    · intro other member
      rcases List.mem_cons.mp member with rfl | later
      · exact ⟨row, rowIn, sameHash, sameVlog⟩
      · exact rows other later

/-- A held version resolves: its extents keep their identities and each has a
chunk row. -/
theorem Counted.fileVersionChunks (counted : Counted catalog) {fileID : Nat}
    (rooted : catalog.Roots fileID) {version : FileVersion}
    (found : catalog.files.find? fileID = some version) (nonzero : fileID ≠ 0) :
    ∃ placements, catalog.fileVersionChunks fileID = .ok placements ∧
      placements.map extentIdentity = (extentsOf version.chunks).map
        (fun extent =>
          (extent.take 15, LittleEndian.decode (extent.drop 15))) ∧
      ∀ placement ∈ placements, ∃ row ∈ catalog.chunks.rows,
        row.hash = placement.hash ∧ row.vlogID = placement.vlogID ∧ 0 < row.refcount := by
  have present := counted.hashes_present rooted found
  have presentTake : ∀ extent ∈ extentsOf version.chunks,
      extent.take 15 ∈ catalog.chunks.keys := fun extent member =>
    present _ (List.mem_map_of_mem member)
  obtain ⟨placements, mapped, identities, rows⟩ := mapM_extentPlacement presentTake
  refine ⟨placements, ?_, identities, fun placement member => ?_⟩
  · unfold Catalog.fileVersionChunks Catalog.fileChunks
    rw [if_neg nonzero, found]
    exact mapped
  · obtain ⟨row, rowIn, sameHash, sameVlog⟩ := rows placement member
    refine ⟨row, rowIn, sameHash, sameVlog, ?_⟩
    have occurs : placement.hash ∈ chunkHashes version.chunks := by
      have listed : extentIdentity placement ∈ placements.map extentIdentity :=
        List.mem_map_of_mem member
      rw [identities] at listed
      obtain ⟨extent, extentIn, same⟩ := List.mem_map.mp listed
      exact List.mem_map.mpr ⟨extent, extentIn, congrArg Prod.fst same⟩
    have bound := versionUses_le_rootUses rooted row.hash
    rw [versionUses_of_find? found, ← counted.refcount_eq rowIn, sameHash] at bound
    have positive := List.count_pos_iff.mpr occurs
    omega

end Extents

end Rose
