import Mathlib.Algebra.Order.BigOperators.Group.List
import Rose.CatalogEffects

/-!
# Renaming a directory

A directory rename selects the rows to move with a LIKE pattern and rewrites
their paths one by one.  The intended relation is a prefix of the path, but the
pattern also selects lookalikes: rows below another spelling of the directory,
and every name with the same text before a zero byte.  This file states what the
rename is for and shows that it does that exactly when the rewriting leaves each
lookalike as it is.
-/

namespace Rose

open FallibleActions

section Rewriting

variable {Row : Type} {path : Row → Path} {table after : KeyedTable path} {move : Row → Row}
  {oldPath newPath : Path}

theorem length_movedPath_add {root path : Path} (long : root.length ≤ path.length) :
    (movedPath root newPath path).length + root.length = path.length + newPath.length := by
  unfold movedPath
  rw [List.length_append, List.length_drop]
  omega

/-- The selecting pattern takes a path for one below the directory that is not. -/
def Lookalike (root path : Path) : Prop := LooksBelow root path ∧ ¬AtOrBelow root path

instance (root path : Path) : Decidable (Lookalike root path) :=
  inferInstanceAs (Decidable (_ ∧ _))

theorem inSubtree_iff_atOrBelow_or (root path : Path) :
    inSubtree root path = true ↔ AtOrBelow root path ∨ Lookalike root path := by
  constructor
  · intro selected
    by_cases within : AtOrBelow root path
    · exact Or.inl within
    · refine Or.inr ⟨((inSubtree_iff root path).mp selected).resolve_left ?_, within⟩
      exact fun same => within (Or.inl same)
  · rintro (within | lookalike)
    · exact within.inSubtree
    · exact (inSubtree_iff root path).mpr (Or.inr lookalike.1)

/-- The rows after a rewriting in which every row at or below the directory
moves and no other does. -/
def MovedExactly (table after : KeyedTable path) (move : Row → Row) (oldPath : Path) : Prop :=
  ∀ row, row ∈ after.rows ↔ (row ∈ table.rows ∧ ¬AtOrBelow oldPath (path row)) ∨
      ∃ moved ∈ table.rows, AtOrBelow oldPath (path moved) ∧ move moved = row

/-- The rewriting leaves the lookalikes that it selects as they are. -/
def SparesLookalikeRows (rows : List Row) (path : Row → Path) (move : Row → Row)
    (oldPath : Path) : Prop :=
  ∀ row ∈ rows, Lookalike oldPath (path row) → move row = row

theorem rewriteSubtreePaths_rekeyed
    (rewritten : rewriteSubtreePaths table move oldPath = .ok after) :
    (∀ name ∈ (table.rows.map path).filter (inSubtree oldPath), oldPath.length ≤ name.length) ∧
      table.rekeyAll? move ((table.rows.map path).filter (inSubtree oldPath)) = some after := by
  unfold rewriteSubtreePaths at rewritten
  dsimp only at rewritten
  split_ifs at rewritten with long
  exact ⟨long, orConflict_eq_ok_iff.mp rewritten⟩

/-- What a successful rewriting did, with the selection spelled out. -/
theorem rewriteSubtreePaths_ok (rewritten : rewriteSubtreePaths table move oldPath = .ok after) :
    (∀ row, row ∈ after.rows ↔ (row ∈ table.rows ∧ inSubtree oldPath (path row) = false) ∨
        ∃ old ∈ table.rows, inSubtree oldPath (path old) = true ∧ move old = row) ∧
    (∀ row ∈ table.rows, inSubtree oldPath (path row) = true →
      ∀ other ∈ table.rows, inSubtree oldPath (path other) = false → path other ≠ path (move row)) ∧
    (∀ first ∈ table.rows, inSubtree oldPath (path first) = true →
      ∀ second ∈ table.rows, inSubtree oldPath (path second) = true →
        path (move first) = path (move second) → first = second) ∧
    ∀ row ∈ table.rows, inSubtree oldPath (path row) = true →
      oldPath.length ≤ (path row).length := by
  have listed : ∀ row ∈ table.rows,
      (path row ∈ (table.rows.map path).filter (inSubtree oldPath) ↔
        inSubtree oldPath (path row) = true) := by
    intro row rowIn
    rw [List.mem_filter]
    exact and_iff_right (List.mem_map_of_mem rowIn)
  have once : ((table.rows.map path).filter (inSubtree oldPath)).Nodup := table.distinct.filter _
  have present : ∀ name ∈ (table.rows.map path).filter (inSubtree oldPath),
      ∃ row ∈ table.rows, path row = name := by
    intro name member
    exact List.mem_map.mp (List.mem_of_mem_filter member)
  obtain ⟨long, done⟩ := rewriteSubtreePaths_rekeyed rewritten
  obtain ⟨free, distinct⟩ := KeyedTable.rekeyAll?_keys once present done
  refine ⟨fun row => ?_, ?_, ?_, ?_⟩
  · rw [KeyedTable.mem_of_rekeyAll? once present done]
    refine or_congr ?_ ?_
    · refine and_congr_right fun rowIn => ?_
      rw [listed row rowIn, Bool.not_eq_true]
    · refine exists_congr fun old => and_congr_right fun oldIn => ?_
      rw [listed old oldIn]
  · intro row rowIn selected other otherIn unselected
    refine free row rowIn ((listed row rowIn).mpr selected) other otherIn ?_
    rw [listed other otherIn, unselected]
    simp
  · intro first firstIn firstSelected second secondIn secondSelected
    exact distinct first firstIn ((listed first firstIn).mpr firstSelected)
      second secondIn ((listed second secondIn).mpr secondSelected)
  · exact fun row rowIn selected => long _ ((listed row rowIn).mpr selected)

/-- A map that keeps finitely many paths among themselves cannot change their
lengths by a fixed amount. -/
theorem shift_eq_of_closed {paths : List Path} {step : Path → Path} {cut added : Nat}
    (closed : ∀ path ∈ paths, step path ∈ paths)
    (shift : ∀ path ∈ paths, (step path).length + cut = path.length + added) {path : Path}
    (member : path ∈ paths) : cut = added := by
  have iterate : ∀ count : Nat, ∃ other ∈ paths,
      other.length + count * cut = path.length + count * added := by
    intro count
    induction count with
    | zero => exact ⟨path, member, by omega⟩
    | succ count ih =>
      obtain ⟨other, otherIn, total⟩ := ih
      refine ⟨step other, closed other otherIn, ?_⟩
      have next := shift other otherIn
      rw [Nat.succ_mul, Nat.succ_mul]
      omega
  have bound : ∀ other ∈ paths, other.length ≤ (paths.map List.length).sum := fun other otherIn =>
      List.single_le_sum (by simp) _ (List.mem_map_of_mem otherIn)
  rcases Nat.lt_trichotomy cut added with grows | same | shrinks
  · obtain ⟨excess, rfl⟩ := Nat.exists_eq_add_of_lt grows
    obtain ⟨other, otherIn, total⟩ := iterate ((paths.map List.length).sum + 1)
    have fits := bound other otherIn
    rw [Nat.mul_add, Nat.mul_add, Nat.mul_one] at total
    omega
  · exact same
  · obtain ⟨excess, rfl⟩ := Nat.exists_eq_add_of_lt shrinks
    obtain ⟨other, otherIn, total⟩ := iterate (path.length + 1)
    rw [Nat.mul_add, Nat.mul_add, Nat.mul_one] at total
    omega

theorem movedExactly_of_sparesLookalikeRows
    (rewritten : rewriteSubtreePaths table move oldPath = .ok after)
    (safe : SparesLookalikeRows table.rows path move oldPath) :
    MovedExactly table after move oldPath := by
  obtain ⟨members, -⟩ := rewriteSubtreePaths_ok rewritten
  intro row
  rw [members]
  constructor
  · rintro (⟨rowIn, unselected⟩ | ⟨old, oldIn, selected, rfl⟩)
    · refine Or.inl ⟨rowIn, fun within => ?_⟩
      rw [within.inSubtree] at unselected
      cases unselected
    · rcases (inSubtree_iff_atOrBelow_or _ _).mp selected with within | lookalike
      · exact Or.inr ⟨old, oldIn, within, rfl⟩
      · rw [safe old oldIn lookalike]
        exact Or.inl ⟨oldIn, lookalike.2⟩
  · rintro (⟨rowIn, outside⟩ | ⟨old, oldIn, within, rfl⟩)
    · cases selected : inSubtree oldPath (path row) with
      | false => exact Or.inl ⟨rowIn, rfl⟩
      | true =>
        rcases (inSubtree_iff_atOrBelow_or _ _).mp selected with within | lookalike
        · exact absurd within outside
        · exact Or.inr ⟨row, rowIn, selected, safe row rowIn lookalike⟩
    · exact Or.inr ⟨old, oldIn, within.inSubtree, rfl⟩

/-- An exact move keeps the lookalikes among themselves, so
their lengths do not change; then each moves to where it already is. -/
theorem sparesLookalikeRows_of_movedExactly
    (movesPath : ∀ row, path (move row) = movedPath oldPath newPath (path row))
    (rewritten : rewriteSubtreePaths table move oldPath = .ok after)
    (exactly : MovedExactly table after move oldPath) :
    SparesLookalikeRows table.rows path move oldPath := by
  obtain ⟨members, free, distinct, long⟩ := rewriteSubtreePaths_ok rewritten
  have lookalikeSelected : ∀ row, Lookalike oldPath (path row) →
      inSubtree oldPath (path row) = true := fun row lookalike =>
    (inSubtree_iff_atOrBelow_or _ _).mpr (Or.inr lookalike)
  have staysLookalike : ∀ row ∈ table.rows, Lookalike oldPath (path row) →
      move row ∈ table.rows ∧ Lookalike oldPath (path (move row)) := by
    intro row rowIn lookalike
    have movedIn : move row ∈ after.rows := (members (move row)).mpr
      (Or.inr ⟨row, rowIn, lookalikeSelected row lookalike, rfl⟩)
    rcases (exactly (move row)).mp movedIn with
      ⟨present, outside⟩ | ⟨other, otherIn, within, same⟩
    · refine ⟨present, ?_⟩
      cases selected : inSubtree oldPath (path (move row)) with
      | false =>
        exact absurd rfl
          (free row rowIn (lookalikeSelected row lookalike) (move row) present selected)
      | true =>
        exact ((inSubtree_iff_atOrBelow_or _ _).mp selected).resolve_left outside
    · have sameRow := distinct other otherIn within.inSubtree row rowIn
        (lookalikeSelected row lookalike) (congrArg path same)
      exact absurd (sameRow ▸ within) lookalike.2
  intro row rowIn lookalike
  obtain ⟨movedIn, movedLookalike⟩ := staysLookalike row rowIn lookalike
  have sameLength : oldPath.length = newPath.length := by
    obtain ⟨candidates, mem_candidates⟩ : ∃ candidates : List Path, ∀ name, name ∈ candidates ↔
          (∃ other ∈ table.rows, path other = name) ∧ Lookalike oldPath name :=
      ⟨(table.rows.map path).filter fun name => Lookalike oldPath name, fun name => by simp⟩
    have closed : ∀ name ∈ candidates, movedPath oldPath newPath name ∈ candidates := by
      intro name member
      obtain ⟨⟨other, otherIn, rfl⟩, otherLookalike⟩ := (mem_candidates name).mp member
      obtain ⟨present, still⟩ := staysLookalike other otherIn otherLookalike
      rw [← movesPath, mem_candidates]
      exact ⟨⟨move other, present, rfl⟩, still⟩
    have shift : ∀ name ∈ candidates, (movedPath oldPath newPath name).length + oldPath.length =
          name.length + newPath.length := by
      intro name member
      obtain ⟨⟨other, otherIn, rfl⟩, nameLookalike⟩ := (mem_candidates name).mp member
      exact length_movedPath_add (long other otherIn (lookalikeSelected other nameLookalike))
    exact shift_eq_of_closed closed shift
      ((mem_candidates (path row)).mpr ⟨⟨row, rowIn, rfl⟩, lookalike⟩)
  have again : path (move (move row)) = path (move row) := by
    rw [movesPath (move row), movesPath row]
    unfold movedPath
    rw [sameLength, List.drop_left]
  exact distinct (move row) movedIn (lookalikeSelected _ movedLookalike) row rowIn
    (lookalikeSelected _ lookalike) again

end Rewriting

section Directories

variable {before after : Catalog} {oldPath newPath : Path} {now : Int}

/-- The namespace in which everything at or below `oldPath` has moved to
`newPath`, a replaced directory at `newPath` is gone and the missing
directories above `newPath` exist. -/
structure MovedDirectory (before after : Catalog) (oldPath newPath : Path) (now : Int) : Prop where
  heads : ∀ head, head ∈ after.heads.rows ↔
    (head ∈ before.heads.rows ∧ ¬AtOrBelow oldPath head.path) ∨
      ∃ moved ∈ before.heads.rows, AtOrBelow oldPath moved.path ∧
        movedHead oldPath newPath moved = head
  dirs : ∀ dir, dir ∈ after.dirs.rows ↔
    (dir ∈ before.dirs.rows ∧ ¬AtOrBelow oldPath dir.path ∧ dir.path ≠ newPath) ∨
    (∃ moved ∈ before.dirs.rows, AtOrBelow oldPath moved.path ∧
      movedDir oldPath newPath moved = dir) ∨
    ∃ ancestor ∈ ancestorsOf newPath, before.dirs.has ancestor = false ∧ dir = dirRow ancestor now

/-- No row but a replaced directory, and no directory above the destination,
is a lookalike, unless the rewriting leaves it as it is. -/
structure SparesLookalikes (before : Catalog) (oldPath newPath : Path) : Prop where
  heads : ∀ head ∈ before.heads.rows, Lookalike oldPath head.path →
    movedHead oldPath newPath head = head
  dirs : ∀ dir ∈ before.dirs.rows, dir.path ≠ newPath →
    Lookalike oldPath dir.path → movedDir oldPath newPath dir = dir
  ancestors : ∀ ancestor ∈ ancestorsOf newPath, ¬Lookalike oldPath ancestor

theorem ancestor_outside {ancestor : Path} (clean : cleanPath newPath = newPath)
    (notRoot : newPath ≠ []) (outside : ¬Below oldPath newPath)
    (above : ancestor ∈ ancestorsOf newPath) :
    ancestor ≠ newPath ∧ ¬AtOrBelow oldPath ancestor := by
  rw [mem_ancestorsOf (by rwa [clean]), clean] at above
  obtain ⟨-, below⟩ := above
  refine ⟨?_, ?_⟩
  · rintro rfl
    exact absurd below.length_lt (by omega)
  · rintro (rfl | oldBelow)
    · exact outside below
    · obtain ⟨rest, rfl⟩ := oldBelow
      obtain ⟨more, rfl⟩ := below
      exact outside ⟨rest ++ slash :: more, by simp⟩

theorem movedPath_ne_ancestor {ancestor : Path} (path : Path) (clean : cleanPath newPath = newPath)
    (notRoot : newPath ≠ []) (above : ancestor ∈ ancestorsOf newPath) :
    movedPath oldPath newPath path ≠ ancestor := by
  rw [mem_ancestorsOf (by rwa [clean]), clean] at above
  rintro rfl
  have shorter := above.2.length_lt
  unfold movedPath at shorter
  rw [List.length_append] at shorter
  omega

/-- The directory rows that the rewriting starts from. -/
def Ensured (before : Catalog) (newPath : Path) (now : Int) (ensured : KeyedTable DirRow.path) :
    Prop :=
  ∀ dir, dir ∈ ensured.rows ↔ (dir ∈ before.dirs.rows ∧ dir.path ≠ newPath) ∨
      ∃ ancestor ∈ ancestorsOf newPath,
        (∀ row ∈ before.dirs.rows, row.path ≠ newPath →
          row.path ≠ ancestor) ∧ dir = dirRow ancestor now

theorem missing_ancestor_iff {ancestor : Path} (apart : ancestor ≠ newPath) :
    (∀ row ∈ before.dirs.rows, row.path ≠ newPath → row.path ≠ ancestor) ↔
      before.dirs.has ancestor = false := by
  rw [KeyedTable.has_eq_false_iff]
  constructor
  · rintro missing row present rfl
    exact missing row present apart rfl
  · exact fun missing row present _ => missing row present

section

variable (clean : cleanPath newPath = newPath) (notRoot : newPath ≠ [])
include clean notRoot

theorem movedExactly_ensured_iff {ensured : KeyedTable DirRow.path}
    (outside : ¬AtOrBelow oldPath newPath) (members : Ensured before newPath now ensured) :
    MovedExactly ensured after.dirs (movedDir oldPath newPath) oldPath ↔
      ∀ dir, dir ∈ after.dirs.rows ↔
        (dir ∈ before.dirs.rows ∧ ¬AtOrBelow oldPath dir.path ∧ dir.path ≠ newPath) ∨
        (∃ moved ∈ before.dirs.rows, AtOrBelow oldPath moved.path ∧
          movedDir oldPath newPath moved = dir) ∨
        ∃ ancestor ∈ ancestorsOf newPath, before.dirs.has ancestor = false ∧
          dir = dirRow ancestor now := by
  have apart : ∀ ancestor ∈ ancestorsOf newPath,
      ancestor ≠ newPath ∧ ¬AtOrBelow oldPath ancestor := fun _ =>
    ancestor_outside clean notRoot fun below => outside (Or.inr below)
  refine forall_congr' fun dir => iff_congr Iff.rfl ?_
  constructor
  · rintro (⟨present, untouched⟩ | ⟨moved, present, within, rfl⟩)
    · rcases (members dir).mp present with ⟨dirIn, different⟩ | ⟨ancestor, above, missing, rfl⟩
      · exact Or.inl ⟨dirIn, untouched, different⟩
      · exact Or.inr (Or.inr ⟨ancestor, above,
          (missing_ancestor_iff (apart ancestor above).1).mp missing, rfl⟩)
    · rcases (members moved).mp present with ⟨movedIn, -⟩ | ⟨ancestor, above, -, rfl⟩
      · exact Or.inr (Or.inl ⟨moved, movedIn, within, rfl⟩)
      · exact absurd within (apart ancestor above).2
  · rintro (⟨dirIn, untouched, different⟩ | ⟨moved, movedIn, within, rfl⟩ |
      ⟨ancestor, above, missing, rfl⟩)
    · exact Or.inl ⟨(members dir).mpr (Or.inl ⟨dirIn, different⟩), untouched⟩
    · refine Or.inr ⟨moved, (members moved).mpr (Or.inl ⟨movedIn, ?_⟩), within, rfl⟩
      rintro same
      exact outside (same ▸ within)
    · exact Or.inl ⟨(members _).mpr (Or.inr ⟨ancestor, above,
        (missing_ancestor_iff (apart ancestor above).1).mpr missing, rfl⟩),
        (apart ancestor above).2⟩

theorem sparesLookalikeRows_ensured_iff {ensured : KeyedTable DirRow.path}
    (members : Ensured before newPath now ensured) :
    SparesLookalikeRows ensured.rows DirRow.path (movedDir oldPath newPath) oldPath ↔
      (∀ dir ∈ before.dirs.rows, dir.path ≠ newPath →
        Lookalike oldPath dir.path → movedDir oldPath newPath dir = dir) ∧
      ∀ ancestor ∈ ancestorsOf newPath, ¬Lookalike oldPath ancestor := by
  constructor
  · intro safe
    refine ⟨fun dir dirIn different =>
      safe dir ((members dir).mpr (Or.inl ⟨dirIn, different⟩)), ?_⟩
    intro ancestor above lookalike
    obtain ⟨row, rowIn, samePath⟩ : ∃ row ∈ ensured.rows, row.path = ancestor := by
      by_cases missing : ∀ row ∈ before.dirs.rows, row.path ≠ newPath → row.path ≠ ancestor
      · exact ⟨dirRow ancestor now, (members _).mpr (Or.inr ⟨ancestor, above, missing, rfl⟩), rfl⟩
      · push Not at missing
        obtain ⟨row, rowIn, different, samePath⟩ := missing
        exact ⟨row, (members row).mpr (Or.inl ⟨rowIn, different⟩), samePath⟩
    have fixed := safe row rowIn (samePath ▸ lookalike)
    exact movedPath_ne_ancestor row.path clean notRoot above
      ((congrArg DirRow.path fixed).trans samePath)
  · rintro ⟨dirsSafe, ancestorsSafe⟩ row rowIn lookalike
    rcases (members row).mp rowIn with ⟨present, different⟩ | ⟨ancestor, above, -, rfl⟩
    · exact dirsSafe row present different lookalike
    · exact absurd lookalike (ancestorsSafe ancestor above)

theorem movedDirectory_iff (different : oldPath ≠ newPath) (outside : ¬Below oldPath newPath)
    (renamed : Catalog.DirRenamed before after oldPath newPath now) :
    MovedDirectory before after oldPath newPath now ↔ SparesLookalikes before oldPath newPath := by
  obtain ⟨ensured, members, dirsMoved⟩ := renamed.dirs
  have headsIff : MovedExactly before.heads after.heads (movedHead oldPath newPath) oldPath ↔
      SparesLookalikeRows before.heads.rows FileHead.path (movedHead oldPath newPath) oldPath :=
    ⟨sparesLookalikeRows_of_movedExactly (fun _ => rfl) renamed.heads,
      movedExactly_of_sparesLookalikeRows renamed.heads⟩
  have dirsIff : MovedExactly ensured after.dirs (movedDir oldPath newPath) oldPath ↔
      SparesLookalikeRows ensured.rows DirRow.path (movedDir oldPath newPath)
        oldPath :=
    ⟨sparesLookalikeRows_of_movedExactly (fun _ => rfl) dirsMoved,
      movedExactly_of_sparesLookalikeRows dirsMoved⟩
  have newOutside : ¬AtOrBelow oldPath newPath := by
    rintro (same | below)
    · exact different same.symm
    · exact outside below
  rw [movedExactly_ensured_iff clean notRoot newOutside members,
    sparesLookalikeRows_ensured_iff clean notRoot members] at dirsIff
  constructor
  · intro moved
    obtain ⟨dirsSafe, ancestorsSafe⟩ := dirsIff.mp moved.dirs
    exact ⟨headsIff.mp moved.heads, dirsSafe, ancestorsSafe⟩
  · intro safe
    exact ⟨headsIff.mpr safe.heads, dirsIff.mpr ⟨safe.dirs, safe.ancestors⟩⟩

end

/-- A failed directory rename changes nothing.  A successful one to the same
path changes nothing either; one to another path moves the directory exactly
when every lookalike of the directory's rows stays. -/
theorem renameFile_moves_directory_iff (before : Catalog) (oldPath newPath : Path) (now : Int)
    (notFile : before.heads.has (cleanPath oldPath) = false) :
    let outcome := before.run (.renameFile oldPath newPath now)
    (∀ reason, outcome.1 = .error reason → outcome.2 = before) ∧
      (outcome.1 = .ok () → (cleanPath oldPath = cleanPath newPath → outcome.2 = before) ∧
        (cleanPath oldPath ≠ cleanPath newPath →
          (MovedDirectory before outcome.2 (cleanPath oldPath) (cleanPath newPath) now ↔
            SparesLookalikes before (cleanPath oldPath) (cleanPath newPath)))) := by
  have noHead : before.heads.find? (cleanPath oldPath) = none := by
    rw [KeyedTable.find?_eq_none_iff, ← KeyedTable.has_eq_false_iff]
    exact notFile
  cases renamed : before.renameFile oldPath newPath now with
  | error reason =>
    have ran : before.run (.renameFile oldPath newPath now) = (.error reason, before) := by
      simp [Catalog.run, Catalog.apply, renamed]
    rw [ran]
    exact ⟨fun _ _ => rfl, fun impossible => by cases impossible⟩
  | ok after =>
    have ran : before.run (.renameFile oldPath newPath now) = (.ok (), after) := by
      simp [Catalog.run, Catalog.apply, renamed]
    rw [ran]
    refine ⟨fun _ impossible => (by cases impossible), fun _ => ⟨?_, ?_⟩⟩
    · exact fun same => Catalog.renameFile_same same renamed
    · intro different
      obtain ⟨-, newNotRoot, outside, moved⟩ := Catalog.renameFile_ok different renamed
      rcases moved with ⟨-, moved⟩ | ⟨head, found, -⟩
      · have exactly := movedDirectory_iff (cleanPath_cleanPath newPath)
          newNotRoot different outside moved
        exact ⟨fun holds =>
            let safe := exactly.mp ⟨holds.heads, holds.dirs⟩
            ⟨safe.heads, safe.dirs, safe.ancestors⟩,
          fun safe =>
            let holds := exactly.mpr ⟨safe.heads, safe.dirs, safe.ancestors⟩
            ⟨holds.heads, holds.dirs⟩⟩
      · rw [noHead] at found
        cases found

/-- Directories `A` and `a`, and one file below `root`. -/
def twinDirectories (root : Path) : Catalog :=
  { Catalog.empty with
    files := Catalog.empty.files.append (fun id => ⟨id, root ++ ascii ['/', 'x'], 0, []⟩)
      (fun _ => rfl)
    heads := ⟨[fileHead (root ++ ascii ['/', 'x']) 1 0], by simp⟩
    dirs := ⟨[dirRow (ascii ['A']) 0, dirRow (ascii ['a']) 0], by decide⟩ }

/-- Renaming `a` to `b` moves `a/x`. -/
theorem renameFile_moves_twin :
    (twinDirectories (ascii ['a'])).heads.has (cleanPath (ascii ['a'])) = false ∧
      MovedDirectory (twinDirectories (ascii ['a']))
        ((twinDirectories (ascii ['a'])).run (.renameFile (ascii ['a']) (ascii ['b']) 0)).2
        (ascii ['a']) (ascii ['b']) 0 := by
  have notFile : (twinDirectories (ascii ['a'])).heads.has (cleanPath (ascii ['a'])) = false := by
    decide +kernel
  refine ⟨notFile, ?_⟩
  have renamed := (renameFile_moves_directory_iff (twinDirectories (ascii ['a']))
    (ascii ['a']) (ascii ['b']) 0 notFile).2 (by decide +kernel)
  have cleanOld : cleanPath (ascii ['a']) = ascii ['a'] := by decide
  have cleanNew : cleanPath (ascii ['b']) = ascii ['b'] := by decide
  rw [cleanOld, cleanNew] at renamed
  refine (renamed.2 (by decide)).mpr ⟨?_, ?_, ?_⟩
  · decide +kernel
  · decide +kernel
  · decide +kernel

/-- Renaming `a` to `b` takes `A/x` along. -/
theorem renameFile_moves_other_spelling :
    ∃ before : Catalog, before.heads.has (cleanPath (ascii ['a'])) = false ∧
      (before.run (.renameFile (ascii ['a']) (ascii ['b']) 0)).1 = .ok () ∧
      ¬MovedDirectory before (before.run (.renameFile (ascii ['a']) (ascii ['b']) 0)).2
        (ascii ['a']) (ascii ['b']) 0 := by
  refine ⟨twinDirectories (ascii ['A']), by decide +kernel, by decide +kernel, ?_⟩
  intro moved
  have stays := (moved.heads (fileHead (ascii ['A', '/', 'x']) 1 0)).mpr
    (Or.inl ⟨by decide, by decide⟩)
  have gone : fileHead (ascii ['A', '/', 'x']) 1 0 ∉ ((twinDirectories (ascii ['A'])).run
      (.renameFile (ascii ['a']) (ascii ['b']) 0)).2.heads.rows := by
    decide +kernel
  exact gone stays

end Directories

end Rose
