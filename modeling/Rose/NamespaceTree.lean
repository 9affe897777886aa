import Rose.CatalogFrames
import Rose.DirectoryRename
import Rose.PathTrees

/-!
# The namespace is a tree

In every run of catalog transactions the paths of the heads and of the
directory rows form a tree, and their parent and name columns are the split of
the path.  A directory rename keeps this as long as no row is selected by the
case of letters alone.
-/

namespace Rose

open FallibleActions PathTree

/-- The paths of the live files. -/
def Catalog.filePaths (catalog : Catalog) : Set Path := catalog.heads.keys

/-- The paths of the directories. -/
def Catalog.dirPaths (catalog : Catalog) : Set Path := catalog.dirs.keys

/-- The namespace tables describe a tree of files with versions. -/
structure TreeShaped (catalog : Catalog) : Prop where
  tree : PathTree catalog.filePaths catalog.dirPaths
  headColumns : ∀ head ∈ catalog.heads.rows, (head.parent, head.name) = splitPath head.path
  dirColumns : ∀ dir ∈ catalog.dirs.rows, (dir.parent, dir.name) = splitPath dir.path
  versions : ∀ head ∈ catalog.heads.rows, catalog.files.has head.fileID = true

theorem movedPath_append (oldPath newPath suffix : Path) :
    movedPath oldPath newPath (oldPath ++ suffix) = newPath ++ suffix := by
  unfold movedPath
  rw [List.drop_left]

namespace TreeShaped

variable {before after : Catalog} {path : Path} {mtime : Int}

theorem empty : TreeShaped Catalog.empty where
  tree := by
    have noFiles : Catalog.empty.filePaths = ∅ := KeyedTable.keys_empty
    have noDirs : Catalog.empty.dirPaths = ∅ := KeyedTable.keys_empty
    rw [noFiles, noDirs]
    exact PathTree.empty
  headColumns := fun _ present => by cases present
  dirColumns := fun _ present => by cases present
  versions := fun _ present => by cases present

theorem of_same (shaped : TreeShaped before) (files : after.files = before.files)
    (heads : after.heads = before.heads) (dirs : after.dirs = before.dirs) : TreeShaped after := by
  obtain ⟨tree, headColumns, dirColumns, versions⟩ := shaped
  unfold Catalog.filePaths Catalog.dirPaths at tree
  rw [← heads, ← dirs] at tree
  rw [← heads] at headColumns
  rw [← dirs] at dirColumns
  rw [← heads, ← files] at versions
  exact ⟨tree, headColumns, dirColumns, versions⟩

theorem hasChildren_eq_false_iff (shaped : TreeShaped before) :
    before.hasChildren path = false ↔ ∀ other ∈ before.filePaths ∪ before.dirPaths,
        (splitPath other).1 ≠ path := by
  unfold Catalog.hasChildren
  rw [Bool.or_eq_false_iff, List.any_eq_false, List.any_eq_false]
  simp only [decide_eq_true_eq]
  constructor
  · rintro ⟨noFile, noDir⟩ other (⟨head, present, rfl⟩ | ⟨dir, present, rfl⟩)
    · rw [← shaped.headColumns head present]
      exact noFile head present
    · rw [← shaped.dirColumns dir present]
      exact noDir dir present
  · intro vacant
    refine ⟨fun head present => ?_, fun dir present => ?_⟩
    · have column := congrArg Prod.fst (shaped.headColumns head present)
      rw [show head.parent = _ from column]
      exact vacant head.path (Or.inl ⟨head, present, rfl⟩)
    · have column := congrArg Prod.fst (shaped.dirColumns dir present)
      rw [show dir.parent = _ from column]
      exact vacant dir.path (Or.inr ⟨dir, present, rfl⟩)

end TreeShaped

section Ancestors

variable {before after : Catalog} {path : Path} {mtime : Int}

theorem mem_ancestorsOf_iff_above (notRoot : cleanPath path ≠ []) (root : Path) :
    root ∈ ancestorsOf (cleanPath path) ↔ root ∈ above (cleanPath path) := by
  rw [mem_ancestorsOf (by rwa [cleanPath_cleanPath]), cleanPath_cleanPath]
  rfl

/-- Ensuring the directories above a path adds exactly those, none of which is
a file. -/
theorem ensureDirs_paths (notRoot : cleanPath path ≠ [])
    (ensured : before.ensureDirs (cleanPath path) mtime = .ok after) :
    after.filePaths = before.filePaths ∧ after.dirPaths = before.dirPaths ∪ above (cleanPath path) ∧
      ∀ root ∈ above (cleanPath path), root ∉ before.filePaths := by
  obtain ⟨frame, noFiles, members⟩ := Catalog.ensureDirs_ok ensured
  refine ⟨?_, ?_, ?_⟩
  · rw [frame]
    rfl
  · ext root
    constructor
    · rintro ⟨dir, present, rfl⟩
      rcases (members dir).mp present with old | ⟨ancestor, listed, -, rfl⟩
      · exact Or.inl ⟨dir, old, rfl⟩
      · exact Or.inr ((mem_ancestorsOf_iff_above notRoot _).mp listed)
    · rintro (⟨dir, old, rfl⟩ | isAbove)
      · exact ⟨dir, (members dir).mpr (Or.inl old), rfl⟩
      · have listed := (mem_ancestorsOf_iff_above notRoot root).mpr isAbove
        cases present : before.dirs.has root with
        | true =>
          obtain ⟨dir, old, same⟩ := (before.dirs.has_iff root).mp present
          exact ⟨dir, (members dir).mpr (Or.inl old), same⟩
        | false =>
          exact ⟨dirRow root mtime, (members _).mpr (Or.inr ⟨root, listed, present, rfl⟩), rfl⟩
  · intro root isAbove
    have listed := (mem_ancestorsOf_iff_above notRoot root).mpr isAbove
    exact (before.heads.has_eq_false_iff_not_mem_keys root).mp (noFiles root listed)

theorem ensureDirs_dirColumns (ensured : before.ensureDirs path mtime = .ok after)
    (columns : ∀ dir ∈ before.dirs.rows, (dir.parent, dir.name) = splitPath dir.path) :
    ∀ dir ∈ after.dirs.rows, (dir.parent, dir.name) = splitPath dir.path := by
  obtain ⟨-, -, members⟩ := Catalog.ensureDirs_ok ensured
  intro dir present
  rcases (members dir).mp present with old | ⟨ancestor, -, -, rfl⟩
  · exact columns dir old
  · rfl

theorem not_mem_above (path : Path) : path ∉ above path := fun isAbove => isAbove.2.ne rfl

end Ancestors

namespace TreeShaped

variable {before after : Catalog} {path oldPath newPath : Path} {mtime now : Int}

section

variable (shaped : TreeShaped before)
include shaped

theorem publishFileVersion {placements : List ChunkPlacement} {id : Nat}
    (published : before.publishFileVersion path mtime placements = .ok (id, after)) :
    TreeShaped after := by
  obtain ⟨notRoot, notDir, -, released, releasing, ensuring⟩ :=
    Catalog.publishFileVersion_ok published
  have releases := Catalog.releaseHead_writes releasing
  have ensures := Catalog.ensureDirs_writes ensuring
  have sameHeads : released.heads = before.heads := releases .heads (by simp)
  have sameDirs : released.dirs = before.dirs := releases .dirs (by simp)
  have sameFiles : released.files = before.files := releases .files (by simp)
  have heads : after.heads = before.heads.put
      (fileHead (cleanPath path) (before.files.last + 1) mtime) := by
    rw [ensures .heads (by simp), ← sameHeads, ← sameFiles]
    rfl
  have files := Catalog.publishFileVersion_appends published
  obtain ⟨filePaths, dirPaths, free⟩ := ensureDirs_paths notRoot ensuring
  have recordedFiles : (released.withVersion (cleanPath path) mtime placements).filePaths =
        before.filePaths ∪ {cleanPath path} := by
    unfold Catalog.filePaths Catalog.withVersion
    rw [KeyedTable.keys_put, sameHeads]
    rfl
  have recordedDirs : (released.withVersion (cleanPath path) mtime placements).dirPaths =
        before.dirPaths := by
    unfold Catalog.dirPaths Catalog.withVersion
    rw [sameDirs]
  rw [recordedFiles] at filePaths free
  rw [recordedDirs] at dirPaths
  refine ⟨?_, ?_, ?_, ?_⟩
  · rw [filePaths, dirPaths]
    have entry := entry_cleanPath notRoot
    have grown := shaped.tree.addAncestors entry
      fun root isAbove isFile => free root isAbove (Or.inl isFile)
    refine grown.addFile entry ?_ Set.subset_union_right
    rintro (isDir | isAbove)
    · rw [KeyedTable.has_eq_false_iff_not_mem_keys] at notDir
      exact notDir isDir
    · exact not_mem_above _ isAbove
  · intro head present
    rw [heads, KeyedTable.mem_put] at present
    rcases present with ⟨old, -⟩ | rfl
    · exact shaped.headColumns head old
    · rfl
  · refine ensureDirs_dirColumns ensuring fun dir present => ?_
    refine shaped.dirColumns dir ?_
    rw [← sameDirs]
    exact present
  · intro head present
    rw [heads, KeyedTable.mem_put] at present
    rw [files, KeyedTable.has_iff]
    rcases present with ⟨old, -⟩ | rfl
    · obtain ⟨version, versionIn, same⟩ :=
        (before.files.has_iff head.fileID).mp (shaped.versions head old)
      exact ⟨version, by simp [versionIn], same⟩
    · exact ⟨⟨before.files.last + 1, cleanPath path, mtime, packExtents placements⟩, by simp, rfl⟩

theorem unlinkFile (unlinked : before.unlinkFile path = .ok after) : TreeShaped after := by
  have writes := Catalog.unlinkFile_writes unlinked
  obtain ⟨released, releasing, rfl⟩ := Catalog.unlinkFile_ok unlinked
  have sameHeads : released.heads = before.heads :=
    Catalog.releaseHead_writes releasing .heads (by simp)
  have sameDirs := writes .dirs (by simp)
  have sameFiles := writes .files (by simp)
  simp only [SameTable] at sameDirs sameFiles
  refine ⟨?_, ?_, ?_, ?_⟩
  · unfold Catalog.filePaths Catalog.dirPaths
    rw [sameDirs, KeyedTable.keys_keep_ne, sameHeads]
    exact shaped.tree.removeFile
  · intro head present
    rw [KeyedTable.mem_keep, sameHeads] at present
    exact shaped.headColumns head present.1
  · rw [sameDirs]
    exact shaped.dirColumns
  · intro head present
    rw [KeyedTable.mem_keep, sameHeads] at present
    rw [sameFiles]
    exact shaped.versions head present.1

theorem mkdir (made : before.mkdir path mtime = .ok after) : TreeShaped after := by
  have writes := Catalog.mkdir_writes made
  rcases Catalog.mkdir_ok made with ⟨-, rfl⟩ | ⟨notRoot, notFile, ensured, ensuring, rfl⟩
  · exact shaped
  have sameHeads : ensured.heads = before.heads := writes .heads (by simp)
  have sameFiles : ensured.files = before.files := writes .files (by simp)
  obtain ⟨filePaths, dirPaths, free⟩ := ensureDirs_paths notRoot ensuring
  refine ⟨?_, ?_, ?_, ?_⟩
  · have entry := entry_cleanPath notRoot
    have grown := (shaped.tree.addAncestors entry free).addDir entry
      ((KeyedTable.has_eq_false_iff_not_mem_keys _ _).mp notFile)
      Set.subset_union_right
    rw [← filePaths, ← dirPaths] at grown
    unfold Catalog.filePaths Catalog.dirPaths at grown ⊢
    rw [KeyedTable.keys_addIfAbsent]
    exact grown
  · rw [sameHeads]
    exact shaped.headColumns
  · intro dir present
    rcases (KeyedTable.mem_addIfAbsent _ _ _).mp present with old | ⟨rfl, -⟩
    · exact ensureDirs_dirColumns ensuring shaped.dirColumns dir old
    · rfl
  · rw [sameHeads, sameFiles]
    exact shaped.versions

theorem rmdir (removed : before.rmdir path = .ok after) : TreeShaped after := by
  obtain ⟨-, vacant, rfl⟩ := Catalog.rmdir_ok removed
  refine ⟨?_, shaped.headColumns, ?_, shaped.versions⟩
  · have shrunk := shaped.tree.removeDir (shaped.hasChildren_eq_false_iff.mp vacant)
    unfold Catalog.filePaths Catalog.dirPaths at shrunk ⊢
    rw [KeyedTable.keys_keep_ne]
    exact shrunk
  · intro dir present
    exact shaped.dirColumns dir ((KeyedTable.mem_keep _ _ _).mp present).1

theorem setMtime (path : Path) (mtime : Int) : TreeShaped (before.setMtime path mtime).2 := by
  unfold Catalog.setMtime
  simp only
  split_ifs with atRoot isFile
  · exact shaped
  · refine ⟨?_, ?_, shaped.dirColumns, ?_⟩
    · unfold Catalog.filePaths Catalog.dirPaths
      rw [KeyedTable.keys_change]
      exact shaped.tree
    · intro head present
      obtain ⟨old, oldIn, rfl⟩ := List.mem_map.mp present
      have columns := shaped.headColumns old oldIn
      split_ifs <;> exact columns
    · intro head present
      obtain ⟨old, oldIn, rfl⟩ := List.mem_map.mp present
      have version := shaped.versions old oldIn
      split_ifs <;> exact version
  · refine ⟨?_, shaped.headColumns, ?_, shaped.versions⟩
    · unfold Catalog.filePaths Catalog.dirPaths
      rw [KeyedTable.keys_change]
      exact shaped.tree
    · intro dir present
      obtain ⟨old, oldIn, rfl⟩ := List.mem_map.mp present
      have columns := shaped.dirColumns old oldIn
      split_ifs <;> exact columns

theorem renameHead {head : FileHead} (present : head ∈ before.heads.rows)
    (notRoot : cleanPath newPath ≠ []) (different : head.path ≠ cleanPath newPath)
    (renamed : before.renameHead head (cleanPath newPath) now = .ok after) : TreeShaped after := by
  have writes := Catalog.renameHead_writes renamed
  obtain ⟨notDir, released, releasing, ensuring⟩ := Catalog.renameHead_ok renamed
  have releases := Catalog.releaseHead_writes releasing
  have sameHeads : released.heads = before.heads := releases .heads (by simp)
  have sameDirs : released.dirs = before.dirs := releases .dirs (by simp)
  have sameFiles : after.files = before.files := writes .files (by simp)
  have heads : after.heads = (before.heads.put
      (fileHead (cleanPath newPath) head.fileID head.mtime)).keep
        fun other => decide (other.path ≠ head.path) := by
    rw [Catalog.ensureDirs_writes ensuring .heads (by simp), sameHeads]
  obtain ⟨filePaths, dirPaths, free⟩ := ensureDirs_paths notRoot ensuring
  have movedFiles : after.filePaths = before.filePaths \ {head.path} ∪ {cleanPath newPath} := by
    unfold Catalog.filePaths
    rw [heads, KeyedTable.keys_keep_ne, KeyedTable.keys_put]
    ext path
    simp only [fileHead_path, Set.mem_sdiff, Set.mem_union, Set.mem_singleton_iff]
    constructor
    · rintro ⟨old | rfl, other⟩
      · exact Or.inl ⟨old, other⟩
      · exact Or.inr rfl
    · rintro (⟨old, other⟩ | rfl)
      · exact ⟨Or.inl old, other⟩
      · exact ⟨Or.inr rfl, different.symm⟩
  have grownDirs : after.dirPaths = before.dirPaths ∪ above (cleanPath newPath) := by
    rw [dirPaths]
    unfold Catalog.dirPaths
    rw [sameDirs]
  refine ⟨?_, ?_, ?_, ?_⟩
  · rw [movedFiles, grownDirs]
    have entry := entry_cleanPath notRoot
    have remaining : PathTree (before.filePaths \ {head.path})
        before.dirPaths := shaped.tree.removeFile
    refine (remaining.addAncestors entry fun root isAbove isFile => ?_).addFile
      entry ?_ Set.subset_union_right
    · refine free root isAbove ?_
      rw [← filePaths, movedFiles]
      exact Or.inl isFile
    · rintro (isDir | isAbove)
      · rw [KeyedTable.has_eq_false_iff_not_mem_keys] at notDir
        exact notDir isDir
      · exact not_mem_above _ isAbove
  · intro other otherIn
    rw [heads, KeyedTable.mem_keep, KeyedTable.mem_put] at otherIn
    rcases otherIn.1 with ⟨old, -⟩ | rfl
    · exact shaped.headColumns other old
    · rfl
  · refine ensureDirs_dirColumns ensuring fun dir dirIn => ?_
    refine shaped.dirColumns dir ?_
    rw [← sameDirs]
    exact dirIn
  · intro other otherIn
    rw [heads, KeyedTable.mem_keep, KeyedTable.mem_put] at otherIn
    rw [sameFiles]
    rcases otherIn.1 with ⟨old, -⟩ | rfl
    · exact shaped.versions other old
    · exact shaped.versions head present

end

section Directories

theorem keys_of_moved {Row : Type} {key : Row → Path} {table result : KeyedTable key}
    {move : Row → Row} (movesPath : ∀ row, key (move row) = movedPath oldPath newPath (key row))
    (exactly : MovedExactly table result move oldPath) :
    result.keys = moved oldPath newPath table.keys := by
  ext path
  constructor
  · rintro ⟨row, present, rfl⟩
    rcases (exactly row).mp present with ⟨old, outside⟩ | ⟨old, oldIn, within, rfl⟩
    · exact Or.inl ⟨⟨row, old, rfl⟩, outside⟩
    · obtain ⟨suffix, same⟩ := within.exists_append
      refine Or.inr ⟨suffix, ⟨old, oldIn, same⟩, same ▸ within, ?_⟩
      rw [movesPath, same, movedPath_append]
  · rintro (⟨⟨row, old, rfl⟩, outside⟩ | ⟨suffix, ⟨row, old, same⟩, within, rfl⟩)
    · exact ⟨row, (exactly row).mpr (Or.inl ⟨old, outside⟩), rfl⟩
    · refine ⟨move row, (exactly _).mpr (Or.inr ⟨row, old, ?_, rfl⟩), ?_⟩
      · rw [same]
        exact within
      · rw [movesPath, same, movedPath_append]

theorem nothing_within (shaped : TreeShaped before) (noFile : before.heads.has newPath = false)
    (vacant : before.dirs.has newPath = true → before.hasChildren newPath = false)
    (notRoot : newPath ≠ []) :
    ∀ path ∈ before.filePaths ∪ before.dirPaths \ {newPath}, ¬AtOrBelow newPath path := by
  rw [KeyedTable.has_eq_false_iff_not_mem_keys] at noFile
  have nothingBelow : ∀ path ∈ before.filePaths ∪ before.dirPaths, ¬Below newPath path := by
    intro path present below
    have isDir := shaped.tree.ancestors path present newPath notRoot below
    obtain ⟨child, childIn, isChild⟩ := shaped.tree.exists_child present below
    exact (shaped.hasChildren_eq_false_iff.mp
      (vacant ((KeyedTable.has_iff_mem_keys _ _).mpr isDir))) child childIn isChild
  rintro path (file | ⟨dir, different⟩) (rfl | below)
  · exact noFile file
  · exact nothingBelow path (Or.inl file) below
  · exact different rfl
  · exact nothingBelow path (Or.inr dir) below

theorem keys_of_ensured {ensured : KeyedTable DirRow.path} (notRoot : cleanPath newPath ≠ [])
    (members : Ensured before (cleanPath newPath) now ensured) :
    ensured.keys = before.dirPaths \ {cleanPath newPath} ∪ above (cleanPath newPath) := by
  ext root
  constructor
  · rintro ⟨dir, present, rfl⟩
    rcases (members dir).mp present with ⟨old, different⟩ | ⟨ancestor, listed, -, rfl⟩
    · exact Or.inl ⟨⟨dir, old, rfl⟩, different⟩
    · exact Or.inr ((mem_ancestorsOf_iff_above notRoot _).mp listed)
  · rintro (⟨⟨dir, old, rfl⟩, different⟩ | isAbove)
    · exact ⟨dir, (members dir).mpr (Or.inl ⟨old, different⟩), rfl⟩
    · have listed := (mem_ancestorsOf_iff_above notRoot root).mpr isAbove
      by_cases missing : ∀ row ∈ before.dirs.rows, row.path ≠ cleanPath newPath → row.path ≠ root
      · exact ⟨dirRow root now, (members _).mpr (Or.inr ⟨root, listed, missing, rfl⟩), rfl⟩
      · push Not at missing
        obtain ⟨row, old, different, same⟩ := missing
        exact ⟨row, (members row).mpr (Or.inl ⟨old, different⟩), same⟩

variable (shaped : TreeShaped before) (notRoot : cleanPath newPath ≠ [])
include shaped notRoot

theorem tree_before_move
    (renamed : Catalog.DirRenamed before after oldPath (cleanPath newPath) now) :
    PathTree before.filePaths
      (before.dirPaths \ {cleanPath newPath} ∪ above (cleanPath newPath)) := by
  have nothing := shaped.nothing_within renamed.noFile renamed.vacant notRoot
  have cleared : PathTree before.filePaths (before.dirPaths \ {cleanPath newPath}) := by
    refine shaped.tree.removeDir fun other present isChild => ?_
    have below : Below (cleanPath newPath) other := by
      rw [← isChild]
      exact Below.of_parent (shaped.tree.entry other present) (by rwa [isChild])
    refine nothing other (present.imp_right fun dir => ⟨dir, ?_⟩) (Or.inr below)
    exact below.ne
  refine cleared.addAncestors (entry_cleanPath notRoot) fun root isAbove => ?_
  exact (KeyedTable.has_eq_false_iff_not_mem_keys _ _).mp
    (renamed.ancestors root ((mem_ancestorsOf_iff_above notRoot root).mpr isAbove))

theorem renameDirectory (apart : ¬Below oldPath (cleanPath newPath))
    (different : oldPath ≠ cleanPath newPath)
    (safe : SparesLookalikes before oldPath (cleanPath newPath))
    (renamed : Catalog.DirRenamed before after oldPath (cleanPath newPath) now) :
    TreeShaped after := by
  obtain ⟨ensured, members, dirsMoved⟩ := renamed.dirs
  have headsExact : MovedExactly before.heads after.heads
      (movedHead oldPath (cleanPath newPath)) oldPath :=
    movedExactly_of_sparesLookalikeRows renamed.heads safe.heads
  have dirsSafe : SparesLookalikeRows ensured.rows DirRow.path
      (movedDir oldPath (cleanPath newPath)) oldPath :=
    (sparesLookalikeRows_ensured_iff (cleanPath_cleanPath newPath) notRoot
      members).mpr ⟨safe.dirs, safe.ancestors⟩
  have dirsExact : MovedExactly ensured after.dirs (movedDir oldPath (cleanPath newPath)) oldPath :=
    movedExactly_of_sparesLookalikeRows dirsMoved dirsSafe
  have nothing := shaped.nothing_within renamed.noFile renamed.vacant notRoot
  refine ⟨?_, ?_, ?_, ?_⟩
  · have filePaths : after.filePaths = moved oldPath (cleanPath newPath) before.filePaths :=
      keys_of_moved (fun _ => rfl) headsExact
    have dirPaths : after.dirPaths = moved oldPath (cleanPath newPath) ensured.keys :=
      keys_of_moved (fun _ => rfl) dirsExact
    rw [filePaths, dirPaths, keys_of_ensured notRoot members]
    refine (shaped.tree_before_move notRoot renamed).moveSubtree
      (entry_cleanPath notRoot) apart ?_ Set.subset_union_right
      (Or.inl ⟨(KeyedTable.has_iff_mem_keys _ _).mp renamed.source, different⟩)
    rintro path (file | dir | isAbove) within
    · exact nothing path (Or.inl file) within
    · exact nothing path (Or.inr dir) within
    · exact (Below.of_atOrBelow within isAbove.2).ne rfl
  · intro head present
    rcases (headsExact head).mp present with ⟨old, -⟩ | ⟨old, -, -, rfl⟩
    · exact shaped.headColumns head old
    · rfl
  · intro dir present
    rcases (dirsExact dir).mp present with ⟨old, -⟩ | ⟨old, -, -, rfl⟩
    · rcases (members dir).mp old with ⟨dirIn, -⟩ | ⟨ancestor, -, -, rfl⟩
      · exact shaped.dirColumns dir dirIn
      · rfl
    · rfl
  · intro head present
    have sameFiles : after.files = before.files := by rw [renamed.frame]
    rw [sameFiles]
    rcases (headsExact head).mp present with ⟨old, -⟩ | ⟨old, oldIn, -, rfl⟩
    · exact shaped.versions head old
    · exact shaped.versions old oldIn

end Directories

variable (shaped : TreeShaped before)
include shaped

theorem renameFile
    (safe : before.heads.has (cleanPath oldPath) = false →
      before.dirs.has (cleanPath oldPath) = true → cleanPath oldPath ≠ cleanPath newPath →
      SparesLookalikes before (cleanPath oldPath) (cleanPath newPath))
    (renamed : before.renameFile oldPath newPath now = .ok after) : TreeShaped after := by
  by_cases same : cleanPath oldPath = cleanPath newPath
  · rw [Catalog.renameFile_same same renamed]
    exact shaped
  have rebound : TreeShaped (before.rebound (cleanPath oldPath)
      (cleanPath newPath)) := shaped.of_same rfl rfl rfl
  obtain ⟨-, notRoot, apart, moved⟩ := Catalog.renameFile_ok same renamed
  rcases moved with ⟨missing, moved⟩ | ⟨head, found, moved⟩
  · have noFile : before.heads.has (cleanPath oldPath) = false := by
      rw [KeyedTable.has_eq_false_iff, ← KeyedTable.find?_eq_none_iff]
      exact missing
    obtain ⟨heads, dirs, ancestors⟩ := safe noFile moved.source same
    exact rebound.renameDirectory notRoot apart same ⟨heads, dirs, ancestors⟩ moved
  · obtain ⟨present, atOld⟩ := (KeyedTable.find?_eq_some_iff _ _ _).mp found
    exact rebound.renameHead present notRoot (atOld ▸ same) moved

theorem gcFileVersions {limit : Nat} (collected : before.gcFileVersions limit = .ok after) :
    TreeShaped after := by
  obtain ⟨files, rfl, -, spares⟩ := Catalog.gcFileVersions_ok collected
  refine ⟨shaped.tree, shaped.headColumns, shaped.dirColumns, ?_⟩
  intro head present
  obtain ⟨version, versionIn, same⟩ := (KeyedTable.has_iff _ _).mp (shaped.versions head present)
  exact (KeyedTable.has_iff _ _).mpr ⟨version, spares version versionIn
    (Catalog.ownsVersion_iff.mpr (Or.inl ⟨head, present, same.symm⟩)), same⟩

theorem commitWriteOpVersion {opID fileID : Nat} {expiresAt : Int}
    {placements : List ChunkPlacement}
    (committed : before.commitWriteOpVersion opID path mtime placements
      expiresAt = .ok (fileID, after)) : TreeShaped after := by
  obtain ⟨op, -, ⟨-, -, rfl⟩ | ⟨-, published, retained, publishing, retaining, rfl⟩⟩ :=
    Catalog.commitWriteOpVersion_ok committed
  · exact shaped
  · have retains := Catalog.retainUntil_writes retaining
    exact (shaped.publishFileVersion publishing).of_same
      (retains .files (by simp)) (retains .heads (by simp))
      (retains .dirs (by simp))

end TreeShaped

/-- The rename of a directory leaves the lookalikes of its rows in place. -/
def RenamesExactly (before : Catalog) : CatalogAction → Prop
  | .renameFile oldPath newPath _ =>
    before.heads.has (cleanPath oldPath) = false → before.dirs.has (cleanPath oldPath) = true →
      cleanPath oldPath ≠ cleanPath newPath →
        SparesLookalikes before (cleanPath oldPath) (cleanPath newPath)
  | _ => True

theorem TreeShaped.apply {before after : Catalog} {action : CatalogAction}
    (shaped : TreeShaped before) (safe : RenamesExactly before action)
    (applied : before.apply action = .ok after) : TreeShaped after := by
  cases action with
  | commitFile path mtime placements =>
    obtain ⟨id, published⟩ := map_snd_eq_ok_iff.mp applied
    exact shaped.publishFileVersion published
  | unlinkFile path => exact shaped.unlinkFile applied
  | renameFile oldPath newPath now => exact shaped.renameFile safe applied
  | mkdir path mtime => exact shaped.mkdir applied
  | rmdir path => exact shaped.rmdir applied
  | setMtime path mtime =>
    cases applied
    exact shaped.setMtime path mtime
  | gcFileVersions limit => exact shaped.gcFileVersions applied
  | commitWriteOpVersion opID path mtime placements =>
    obtain ⟨fileID, committed⟩ := map_snd_eq_ok_iff.mp applied
    exact shaped.commitWriteOpVersion committed
  | commitWriteOpVersionWithRetention opID path mtime placements expiresAt =>
    obtain ⟨fileID, committed⟩ := map_snd_eq_ok_iff.mp applied
    exact shaped.commitWriteOpVersion (Catalog.commitWithRetention_ok committed).2
  | _ =>
    have writes := Catalog.apply_writes applied
    exact shaped.of_same (writes .files (by simp [CatalogAction.writes]))
      (writes .heads (by simp [CatalogAction.writes]))
      (writes .dirs (by simp [CatalogAction.writes]))

theorem TreeShaped.step {before after : Catalog} {action : CatalogAction}
    (shaped : TreeShaped before) (stepped : CatalogStep before action after)
    (safe : RenamesExactly before action) : TreeShaped after := by
  rcases stepped with applied | rfl
  · exact shaped.apply safe applied
  · exact shaped

end Rose
