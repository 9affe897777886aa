import Mathlib.Data.Set.Insert
import Rose.NamespacePaths

/-!
# Trees of paths

A namespace is a set of file paths and a set of directory paths.  It is a tree
when no path is both and every directory above a path is there.  This file
proves that adding an entry below existing directories, removing a file or an
empty directory, and moving a whole subtree to a vacant place keep the tree.
-/

namespace Rose

theorem Below.trans {first second third : Path} (upper : Below first second)
    (lower : Below second third) : Below first third := by
  obtain ⟨rest, rfl⟩ := upper
  obtain ⟨more, rfl⟩ := lower
  exact ⟨rest ++ slash :: more, by simp⟩

theorem Below.of_atOrBelow {first second third : Path} (upper : AtOrBelow first second)
    (lower : Below second third) :
    Below first third := by
  rcases upper with rfl | upper
  · exact lower
  · exact upper.trans lower

theorem Below.ne {root path : Path} (below : Below root path) : path ≠ root := by
  rintro rfl
  exact absurd below.length_lt (by omega)

theorem Entry.of_below {root path : Path} (entry : Entry path) (notRoot : root ≠ [])
    (below : Below root path) : Entry root := by
  refine ⟨notRoot, fun hasSlash => entry.2 ?_⟩
  obtain ⟨rest, rfl⟩ := below
  cases root with
  | nil => exact absurd rfl notRoot
  | cons symbol root => simpa using hasSlash

/-- Of two directories above a path one is at or above the other. -/
theorem Below.total {first second path : Path} (left : Below first path)
    (right : Below second path) : Below first second ∨ first = second ∨ Below second first := by
  obtain ⟨rest, rfl⟩ := left
  obtain ⟨more, same⟩ := right
  simp only [List.append_assoc, List.singleton_append] at same
  rcases List.append_eq_append_iff.mp same with
    ⟨extra, longer, shorter⟩ | ⟨extra, longer, shorter⟩
  · cases extra with
    | nil => exact Or.inr (Or.inl (by simpa using longer))
    | cons symbol extra =>
      rw [List.cons_append, List.cons.injEq] at shorter
      refine Or.inr (Or.inr ⟨extra, ?_⟩)
      rw [longer, ← shorter.1]
      simp
  · cases extra with
    | nil => exact Or.inr (Or.inl (by simpa using longer.symm))
    | cons symbol extra =>
      rw [List.cons_append, List.cons.injEq] at shorter
      refine Or.inl ⟨extra, ?_⟩
      rw [longer, ← shorter.1]
      simp

theorem AtOrBelow.exists_append {root path : Path} (within : AtOrBelow root path) :
    ∃ suffix, path = root ++ suffix := by
  rcases within with rfl | ⟨rest, rfl⟩
  · exact ⟨[], by simp⟩
  · exact ⟨slash :: rest, by simp⟩

/-- File paths and directory paths that form a tree. -/
structure PathTree (files dirs : Set Path) : Prop where
  entry : ∀ path, path ∈ files ∪ dirs → Entry path
  disjoint : ∀ path ∈ files, path ∉ dirs
  ancestors : ∀ path ∈ files ∪ dirs, ∀ root, root ≠ [] → Below root path → root ∈ dirs

namespace PathTree

variable {files dirs : Set Path} {path : Path}

theorem empty : PathTree ∅ ∅ := by
  constructor
  · simp
  · simp
  · simp

/-- The directories above a path. -/
def above (path : Path) : Set Path :=
  { root | root ≠ [] ∧ Below root path }

section

variable (tree : PathTree files dirs)
include tree

theorem addAncestors (entry : Entry path) (free : ∀ root ∈ above path, root ∉ files) :
    PathTree files (dirs ∪ above path) := by
  constructor
  · rintro other (file | dir | ⟨notRoot, below⟩)
    · exact tree.entry other (Or.inl file)
    · exact tree.entry other (Or.inr dir)
    · exact entry.of_below notRoot below
  · rintro other file (dir | isAbove)
    · exact tree.disjoint other file dir
    · exact free other isAbove file
  · rintro other (file | dir | ⟨-, below⟩) root notRoot rootBelow
    · exact Or.inl (tree.ancestors other (Or.inl file) root notRoot rootBelow)
    · exact Or.inl (tree.ancestors other (Or.inr dir) root notRoot rootBelow)
    · exact Or.inr ⟨notRoot, rootBelow.trans below⟩

theorem addFile (entry : Entry path) (notDir : path ∉ dirs) (nested : above path ⊆ dirs) :
    PathTree (files ∪ {path}) dirs := by
  constructor
  · rintro other ((file | rfl) | dir)
    · exact tree.entry other (Or.inl file)
    · exact entry
    · exact tree.entry other (Or.inr dir)
  · rintro other (file | rfl)
    · exact tree.disjoint other file
    · exact notDir
  · rintro other ((file | rfl) | dir) root notRoot below
    · exact tree.ancestors other (Or.inl file) root notRoot below
    · exact nested ⟨notRoot, below⟩
    · exact tree.ancestors other (Or.inr dir) root notRoot below

theorem addDir (entry : Entry path) (notFile : path ∉ files) (nested : above path ⊆ dirs) :
    PathTree files (dirs ∪ {path}) := by
  constructor
  · rintro other (file | dir | rfl)
    · exact tree.entry other (Or.inl file)
    · exact tree.entry other (Or.inr dir)
    · exact entry
  · rintro other file (dir | rfl)
    · exact tree.disjoint other file dir
    · exact notFile file
  · rintro other (file | dir | rfl) root notRoot below
    · exact Or.inl (tree.ancestors other (Or.inl file) root notRoot below)
    · exact Or.inl (tree.ancestors other (Or.inr dir) root notRoot below)
    · exact Or.inl (nested ⟨notRoot, below⟩)

theorem removeFile : PathTree (files \ {path}) dirs := by
  constructor
  · rintro other (⟨file, -⟩ | dir)
    · exact tree.entry other (Or.inl file)
    · exact tree.entry other (Or.inr dir)
  · rintro other ⟨file, -⟩
    exact tree.disjoint other file
  · rintro other (⟨file, -⟩ | dir)
    · exact tree.ancestors other (Or.inl file)
    · exact tree.ancestors other (Or.inr dir)

/-- A directory with something below it has an immediate child. -/
theorem exists_child {root : Path} (present : path ∈ files ∪ dirs) (below : Below root path) :
    ∃ child ∈ files ∪ dirs, (splitPath child).1 = root := by
  induction length : path.length using Nat.strong_induction_on generalizing path with
  | h size ih =>
    subst length
    have entry := tree.entry path present
    obtain ⟨nested, same | higher⟩ := (below_iff_parent entry).mp below
    · exact ⟨path, present, same.symm⟩
    · have parentIn := tree.ancestors path present _ nested (Below.of_parent entry nested)
      exact ih _ (length_parent_lt entry nested) (Or.inr parentIn) higher rfl

theorem removeDir (vacant : ∀ other ∈ files ∪ dirs, (splitPath other).1 ≠ path) :
    PathTree files (dirs \ {path}) := by
  have nothingBelow : ∀ other ∈ files ∪ dirs, ¬Below path other := by
    intro other present below
    obtain ⟨child, childIn, isChild⟩ := tree.exists_child present below
    exact vacant child childIn isChild
  constructor
  · rintro other (file | ⟨dir, -⟩)
    · exact tree.entry other (Or.inl file)
    · exact tree.entry other (Or.inr dir)
  · rintro other file ⟨dir, -⟩
    exact tree.disjoint other file dir
  · intro other present root rootNotRoot below
    have stillIn : other ∈ files ∪ dirs := present.imp_right And.left
    refine ⟨tree.ancestors other stillIn root rootNotRoot below, ?_⟩
    rintro rfl
    exact nothingBelow other stillIn below

end

section Moving

variable {oldPath newPath : Path}

/-- The paths after everything at or below `oldPath` has moved to `newPath`. -/
def moved (oldPath newPath : Path) (paths : Set Path) : Set Path :=
  { path | path ∈ paths ∧ ¬AtOrBelow oldPath path } ∪
    { path | ∃ suffix, oldPath ++ suffix ∈ paths ∧
      AtOrBelow oldPath (oldPath ++ suffix) ∧ path = newPath ++ suffix }

theorem atOrBelow_append_iff (root suffix : Path) :
    AtOrBelow root (root ++ suffix) ↔ suffix = [] ∨ ∃ rest, suffix = slash :: rest := by
  unfold AtOrBelow Below
  rw [List.append_right_eq_self, List.prefix_append_right_inj]
  refine or_congr_right ?_
  constructor
  · rintro ⟨rest, rfl⟩
    exact ⟨rest, rfl⟩
  · rintro ⟨rest, rfl⟩
    exact ⟨rest, rfl⟩

theorem atOrBelow_append_congr {root suffix : Path} (other : Path)
    (within : AtOrBelow root (root ++ suffix)) :
    AtOrBelow other (other ++ suffix) :=
  (atOrBelow_append_iff other suffix).mpr ((atOrBelow_append_iff root suffix).mp within)

/-- A directory above a moved path is above the destination, the destination
itself, or was moved with the path. -/
theorem below_append_cases {root suffix : Path} (within : AtOrBelow newPath (newPath ++ suffix))
    (below : Below root (newPath ++ suffix)) :
    Below root newPath ∨ ∃ shorter, root = newPath ++ shorter ∧
      ∀ other, AtOrBelow other (other ++ shorter) ∧ Below (other ++ shorter) (other ++ suffix) := by
  rcases within with same | deeper
  · rw [same] at below
    exact Or.inl below
  · rcases below.total deeper with higher | rfl | ⟨rest, rfl⟩
    · exact Or.inl higher
    · refine Or.inr ⟨[], by simp, fun other => ?_⟩
      have nested : Below other (other ++ suffix) := by
        unfold Below at deeper ⊢
        rwa [List.prefix_append_right_inj] at deeper ⊢
      simpa [AtOrBelow] using nested
    · refine Or.inr ⟨slash :: rest, by simp, fun other => ?_⟩
      refine ⟨(atOrBelow_append_iff _ _).mpr (Or.inr ⟨rest, rfl⟩), ?_⟩
      have nested : slash :: rest ++ [slash] <+: suffix := by
        simpa [Below, List.append_assoc] using below
      simpa [Below, List.append_assoc] using nested

theorem moveSubtree (tree : PathTree files dirs) (entry : Entry newPath)
    (apart : ¬Below oldPath newPath) (vacant : ∀ path ∈ files ∪ dirs, ¬AtOrBelow newPath path)
    (nested : above newPath ⊆ dirs) (source : oldPath ∈ dirs) :
    PathTree (moved oldPath newPath files) (moved oldPath newPath dirs) := by
  constructor
  · have shifted : ∀ suffix, Entry (newPath ++ suffix) := by
      intro suffix
      obtain ⟨nonempty, plain⟩ := entry
      refine ⟨by simp [nonempty], ?_⟩
      rwa [List.head?_append_of_ne_nil _ nonempty]
    rintro path ((⟨file, -⟩ | ⟨suffix, -, -, rfl⟩) | (⟨dir, -⟩ | ⟨suffix, -, -, rfl⟩))
    · exact tree.entry path (Or.inl file)
    · exact shifted suffix
    · exact tree.entry path (Or.inr dir)
    · exact shifted suffix
  · rintro path (⟨file, -⟩ | ⟨suffix, file, within, rfl⟩)
      (⟨dir, -⟩ | ⟨other, dir, otherWithin, same⟩)
    · exact tree.disjoint path file dir
    · rw [same] at file
      exact vacant _ (Or.inl file) (atOrBelow_append_congr newPath otherWithin)
    · exact vacant _ (Or.inr dir) (atOrBelow_append_congr newPath within)
    · rw [List.append_cancel_left same] at file
      exact tree.disjoint _ file dir
  · have stays : ∀ root ∈ dirs, ¬AtOrBelow oldPath root →
        root ∈ moved oldPath newPath dirs := fun root dir outside =>
      Or.inl ⟨dir, outside⟩
    have outside : ∀ root, Below root newPath → ¬AtOrBelow oldPath root :=
      fun root higher within => apart (Below.of_atOrBelow within higher)
    have unmoved : ∀ path ∈ files ∪ dirs, ¬AtOrBelow oldPath path →
        ∀ root, root ≠ [] → Below root path → root ∈ moved oldPath newPath dirs := by
      intro path present pathOutside root notRoot below
      exact stays root (tree.ancestors path present root notRoot below)
        fun within => pathOutside (Or.inr (Below.of_atOrBelow within below))
    have shifted : ∀ suffix, oldPath ++ suffix ∈ files ∪ dirs →
        AtOrBelow oldPath (oldPath ++ suffix) →
        ∀ root, root ≠ [] → Below root (newPath ++ suffix) → root ∈ moved oldPath newPath dirs := by
      intro suffix present within root notRoot below
      rcases below_append_cases (atOrBelow_append_congr newPath within) below
        with higher | ⟨shorter, rfl, along⟩
      · exact stays root (nested ⟨notRoot, higher⟩) (outside root higher)
      · obtain ⟨rootWithin, rootBelow⟩ := along oldPath
        have oldNotRoot := (tree.entry oldPath (Or.inr source)).1
        exact Or.inr ⟨shorter, tree.ancestors _ present _
          (by simp [oldNotRoot]) rootBelow, rootWithin, rfl⟩
    rintro path ((⟨file, pathOutside⟩ | ⟨suffix, file, within, rfl⟩) |
      (⟨dir, pathOutside⟩ | ⟨suffix, dir, within, rfl⟩))
    · exact unmoved path (Or.inl file) pathOutside
    · exact shifted suffix (Or.inl file) within
    · exact unmoved path (Or.inr dir) pathOutside
    · exact shifted suffix (Or.inr dir) within

end Moving

end PathTree

end Rose
