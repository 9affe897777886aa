import Rose.CatalogOperations

/-!
# What the statements of the catalog change

Inversion and frame rules for the shared parts of the transactions: which rows
they add, change and delete, and which tables they leave alone.
-/

namespace Rose

open FallibleActions

@[simp]
theorem dirRow_path (path : Path) (mtime : Int) :
    (dirRow path mtime).path = path := rfl

@[simp]
theorem fileHead_path (path : Path) (fileID : Nat) (mtime : Int) :
    (fileHead path fileID mtime).path = path := rfl

theorem orConflict_eq_ok_iff {α : Type} {found : Option α} {value : α} :
    orConflict found = .ok value ↔ found = some value := by
  cases found <;> simp [orConflict]

namespace Catalog

theorem ensureDir_eq_ok_iff {catalog after : Catalog} {mtime : Int} {dir : Path} :
    catalog.ensureDir mtime dir = .ok after ↔ catalog.heads.has dir = false ∧
        after = { catalog with
          dirs := catalog.dirs.addIfAbsent (dirRow dir mtime) } := by
  unfold ensureDir
  cases catalog.heads.has dir with
  | false => simp [eq_comm]
  | true => simp

theorem foldlM_ensureDir {mtime : Int} {ancestors : List Path}
    {catalog after : Catalog}
    (ensured : ancestors.foldlM
      (fun catalog dir => ensureDir catalog mtime dir) catalog = .ok after) :
    after = { catalog with dirs := after.dirs } ∧
      (∀ ancestor ∈ ancestors, catalog.heads.has ancestor = false) ∧
      ∀ dir, dir ∈ after.dirs.rows ↔ dir ∈ catalog.dirs.rows ∨
        ∃ ancestor ∈ ancestors, catalog.dirs.has ancestor = false ∧
          dir = dirRow ancestor mtime := by
  induction ancestors generalizing catalog with
  | nil =>
    cases ensured
    simp
  | cons ancestor ancestors ih =>
    rw [List.foldlM_cons, bind_eq_ok_iff] at ensured
    obtain ⟨middle, first, rest⟩ := ensured
    obtain ⟨noFile, rfl⟩ := ensureDir_eq_ok_iff.mp first
    obtain ⟨frame, noFiles, members⟩ := ih rest
    refine ⟨frame, ?_, fun dir => ?_⟩
    · intro other member
      rcases List.mem_cons.mp member with rfl | later
      · exact noFile
      · exact noFiles other later
    · rw [members]
      simp only [KeyedTable.mem_addIfAbsent, KeyedTable.has_eq_false_iff,
        dirRow_path, List.mem_cons]
      constructor
      · rintro ((present | ⟨rfl, absent⟩) | ⟨other, later, absent, rfl⟩)
        · exact Or.inl present
        · exact Or.inr ⟨ancestor, Or.inl rfl, absent, rfl⟩
        · exact Or.inr ⟨other, Or.inr later, fun row present => absent row (Or.inl present), rfl⟩
      · rintro (present | ⟨other, rfl | later, absent, rfl⟩)
        · exact Or.inl (Or.inl present)
        · exact Or.inl (Or.inr ⟨rfl, absent⟩)
        · by_cases same : other = ancestor
          · subst same
            exact Or.inl (Or.inr ⟨rfl, absent⟩)
          · refine Or.inr ⟨other, later, ?_, rfl⟩
            rintro row (present | ⟨rfl, -⟩)
            · exact absent row present
            · exact fun equal => same equal.symm

theorem ensureDirs_ok {catalog after : Catalog} {path : Path} {mtime : Int}
    (ensured : catalog.ensureDirs path mtime = .ok after) :
    after = { catalog with dirs := after.dirs } ∧
      (∀ ancestor ∈ ancestorsOf path, catalog.heads.has ancestor = false) ∧
      ∀ dir, dir ∈ after.dirs.rows ↔ dir ∈ catalog.dirs.rows ∨ ∃ ancestor ∈ ancestorsOf path,
          catalog.dirs.has ancestor = false ∧ dir = dirRow ancestor mtime :=
  foldlM_ensureDir ensured

section References

variable {catalog after : Catalog}

section

variable {fileID : Nat} {delta : Int}
  (adjusted : catalog.adjustVersionRefs fileID delta = .ok after)
include adjusted

theorem adjustVersionRefs_ok :
    ∃ version, catalog.files.find? fileID = some version ∧
      after = { catalog with
        chunks := adjustChunkRefs catalog.chunks version.chunks delta } := by
  unfold adjustVersionRefs fileChunks at adjusted
  cases found : catalog.files.find? fileID with
  | none =>
    rw [found] at adjusted
    cases adjusted
  | some version =>
    rw [found] at adjusted
    cases adjusted
    exact ⟨version, rfl, rfl⟩

theorem adjustVersionRefs_frame : after = { catalog with chunks := after.chunks } := by
  obtain ⟨version, -, rfl⟩ := adjustVersionRefs_ok adjusted
  rfl

end

variable {path : Path} (released : catalog.releaseHead path = .ok after)
include released

theorem releaseHead_ok :
    (catalog.heads.find? path = none ∧ after = catalog) ∨
      ∃ head, catalog.heads.find? path = some head ∧
        catalog.adjustVersionRefs head.fileID (-1) = .ok after := by
  unfold releaseHead at released
  cases found : catalog.heads.find? path with
  | none =>
    rw [found] at released
    cases released
    exact Or.inl ⟨rfl, rfl⟩
  | some head =>
    rw [found] at released
    exact Or.inr ⟨head, rfl, released⟩

theorem releaseHead_frame : after = { catalog with chunks := after.chunks } := by
  rcases releaseHead_ok released with ⟨-, rfl⟩ | ⟨head, -, adjusted⟩
  · rfl
  · exact adjustVersionRefs_frame adjusted

end References

section Publication

variable {catalog after : Catalog} {path : Path} {mtime : Int} {placements : List ChunkPlacement}
  {id : Nat}

/-- The catalog of a publication before the directories above the path are
ensured. -/
def withVersion (released : Catalog) (path : Path) (mtime : Int)
    (placements : List ChunkPlacement) : Catalog :=
  { released with
    chunks := upsertChunkRefs released.chunks placements
    files := released.files.append
      (fun id => ⟨id, path, mtime, packExtents placements⟩) (fun _ => rfl)
    heads := released.heads.put
      (fileHead path (released.files.last + 1) mtime) }

variable (published : catalog.publishFileVersion path mtime placements = .ok (id, after))
include published

theorem publishFileVersion_ok :
    cleanPath path ≠ [] ∧ catalog.dirs.has (cleanPath path) = false ∧ id = catalog.files.last + 1 ∧
      ∃ released, catalog.releaseHead (cleanPath path) = .ok released ∧
        (released.withVersion (cleanPath path) mtime placements).ensureDirs
          (cleanPath path) mtime = .ok after := by
  unfold publishFileVersion at published
  simp only at published
  split_ifs at published with atRoot isDir
  obtain ⟨released, releasing, rest⟩ := bind_eq_ok_iff.mp published
  obtain ⟨ensured, ensuring, rest⟩ := bind_eq_ok_iff.mp rest
  cases rest
  refine ⟨atRoot, by simpa using isDir, ?_, released, releasing, ensuring⟩
  rw [releaseHead_frame releasing]

theorem publishFileVersion_head : ∃ head ∈ after.heads.rows, head.fileID = id := by
  obtain ⟨-, -, rfl, released, releasing, ensuring⟩ := publishFileVersion_ok published
  obtain ⟨frame, -, -⟩ := ensureDirs_ok ensuring
  refine ⟨fileHead (cleanPath path) (catalog.files.last + 1) mtime, ?_, rfl⟩
  rw [frame, releaseHead_frame releasing]
  exact (KeyedTable.mem_put _ _ _).mpr (Or.inr rfl)

end Publication

section Renaming

variable {catalog after : Catalog} {oldPath newPath : Path} {now : Int}

/-- The catalog in which a rename looks for its source: only write operations
and leases have changed. -/
def rebound (catalog : Catalog) (oldPath newPath : Path) : Catalog :=
  (catalog.cancelPrepared (· == newPath)).retargetPrepared oldPath newPath

/-- What a successful directory rename checked, and how its tables came about:
the destination is cleared, missing ancestors are added, then the rows of the
subtree are rewritten. -/
structure DirRenamed (catalog after : Catalog) (oldPath newPath : Path) (now : Int) : Prop where
  source : catalog.dirs.has oldPath = true
  noFile : catalog.heads.has newPath = false
  vacant : catalog.dirs.has newPath = true → catalog.hasChildren newPath = false
  ancestors : ∀ ancestor ∈ ancestorsOf newPath, catalog.heads.has ancestor = false
  frame : after = { catalog with dirs := after.dirs, heads := after.heads }
  dirs : ∃ ensured : KeyedTable DirRow.path,
    (∀ dir, dir ∈ ensured.rows ↔ (dir ∈ catalog.dirs.rows ∧ dir.path ≠ newPath) ∨
        ∃ ancestor ∈ ancestorsOf newPath,
          (∀ row ∈ catalog.dirs.rows, row.path ≠ newPath →
            row.path ≠ ancestor) ∧ dir = dirRow ancestor now) ∧
    rewriteSubtreePaths ensured (movedDir oldPath newPath) oldPath = .ok after.dirs
  heads : rewriteSubtreePaths catalog.heads (movedHead oldPath newPath) oldPath = .ok after.heads

theorem renameDirSubtree_ok (renamed : catalog.renameDirSubtree oldPath newPath now = .ok after) :
    (∀ ancestor ∈ ancestorsOf newPath, catalog.heads.has ancestor = false) ∧
    after = { catalog with dirs := after.dirs, heads := after.heads } ∧
    (∃ ensured : KeyedTable DirRow.path,
      (∀ dir, dir ∈ ensured.rows ↔ dir ∈ catalog.dirs.rows ∨ ∃ ancestor ∈ ancestorsOf newPath,
          catalog.dirs.has ancestor = false ∧ dir = dirRow ancestor now) ∧
      rewriteSubtreePaths ensured (movedDir oldPath newPath) oldPath = .ok after.dirs) ∧
    rewriteSubtreePaths catalog.heads (movedHead oldPath newPath) oldPath = .ok after.heads := by
  unfold renameDirSubtree at renamed
  obtain ⟨ensured, ensuring, rest⟩ := bind_eq_ok_iff.mp renamed
  obtain ⟨dirs, dirsMoved, rest⟩ := bind_eq_ok_iff.mp rest
  obtain ⟨heads, headsMoved, rest⟩ := bind_eq_ok_iff.mp rest
  cases rest
  obtain ⟨frame, noFiles, members⟩ := ensureDirs_ok ensuring
  rw [frame] at headsMoved ⊢
  exact ⟨noFiles, rfl, ⟨ensured.dirs, members, dirsMoved⟩, headsMoved⟩

theorem renameDir_ok (renamed : catalog.renameDir oldPath newPath now = .ok after) :
    DirRenamed catalog after oldPath newPath now := by
  unfold renameDir at renamed
  split_ifs at renamed with missing occupied replaces crowded
  · obtain ⟨noFiles, frame, ⟨ensured, members, dirsMoved⟩, headsMoved⟩ :=
      renameDirSubtree_ok renamed
    exact
      { source := by simpa using missing
        noFile := by simpa using occupied
        vacant := fun _ => by simpa using crowded
        ancestors := noFiles
        frame := frame
        dirs := ⟨ensured, by
          simpa [KeyedTable.has_eq_false_iff] using members, dirsMoved⟩
        heads := headsMoved }
  · obtain ⟨noFiles, frame, ⟨ensured, members, dirsMoved⟩, headsMoved⟩ :=
      renameDirSubtree_ok renamed
    have absent : ∀ row ∈ catalog.dirs.rows, row.path ≠ newPath := by
      rw [← KeyedTable.has_eq_false_iff]
      simpa using replaces
    refine
      { source := by simpa using missing
        noFile := by simpa using occupied
        vacant := fun present => absurd present replaces
        ancestors := noFiles
        frame := frame
        dirs := ⟨ensured, fun dir => ?_, dirsMoved⟩
        heads := headsMoved }
    rw [members]
    refine or_congr ?_ ?_
    · exact ⟨fun present => ⟨present, absent dir present⟩, And.left⟩
    · refine exists_congr fun ancestor => and_congr_right fun _ => ?_
      rw [KeyedTable.has_eq_false_iff]
      refine and_congr_left fun _ => ?_
      exact ⟨fun free row rowIn _ => free row rowIn,
        fun free row rowIn => free row rowIn (absent row rowIn)⟩

theorem renameFile_same (same : cleanPath oldPath = cleanPath newPath)
    (renamed : catalog.renameFile oldPath newPath now = .ok after) :
    after = catalog := by
  unfold renameFile at renamed
  simp only [same, if_true] at renamed
  split_ifs at renamed
  cases renamed
  rfl

/-- A successful rename between different paths moved a directory or a file. -/
theorem renameFile_ok (different : cleanPath oldPath ≠ cleanPath newPath)
    (renamed : catalog.renameFile oldPath newPath now = .ok after) :
    cleanPath oldPath ≠ [] ∧ cleanPath newPath ≠ [] ∧
      ¬Below (cleanPath oldPath) (cleanPath newPath) ∧
      ((catalog.heads.find? (cleanPath oldPath) = none ∧
        DirRenamed (catalog.rebound (cleanPath oldPath) (cleanPath newPath))
          after (cleanPath oldPath) (cleanPath newPath) now) ∨
      ∃ head, catalog.heads.find? (cleanPath oldPath) = some head ∧
        (catalog.rebound (cleanPath oldPath) (cleanPath newPath)).renameHead
          head (cleanPath newPath) now = .ok after) := by
  unfold renameFile at renamed
  simp only at renamed
  split_ifs at renamed with atRoot inside
  push Not at atRoot
  refine ⟨atRoot.1, atRoot.2, inside, ?_⟩
  have sameHeads : (((catalog.cancelPrepared (· == cleanPath newPath)
      ).retargetPrepared (cleanPath oldPath) (cleanPath newPath)).heads) =
      catalog.heads := rfl
  rw [sameHeads] at renamed
  cases found : catalog.heads.find? (cleanPath oldPath) with
  | none =>
    rw [found] at renamed
    exact Or.inl ⟨rfl, renameDir_ok renamed⟩
  | some head =>
    rw [found] at renamed
    exact Or.inr ⟨head, rfl, renamed⟩

end Renaming

end Catalog

end Rose
