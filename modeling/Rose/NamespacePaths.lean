import Mathlib.Data.List.TakeWhile
import Rose.LikePatterns

/-!
# Namespace paths

Paths are stored without a leading slash; the root is the empty path.
`cleanPath` brings a client path into that form, `splitPath` cuts off the last
component and `ancestorsOf` lists the directories above a path.  The rows below
a directory are selected by an escaped LIKE pattern, which compares less than
the whole names.
-/

namespace Rose

open LikePatterns

abbrev Path := List UInt8

abbrev slash : UInt8 := 47

abbrev dot : UInt8 := 46

/-- A path written with ASCII characters. -/
def ascii (text : List Char) : Path := text.map Char.toUInt8

/-- One component read by the cleaning of a rooted path: empty and `.`
components are dropped, `..` removes the one before it. -/
def pushComponent (stack : List Path) (part : Path) : List Path :=
  if part = [] ∨ part = [dot] then stack
  else if part = [dot, dot] then stack.tail
  else part :: stack

/-- The canonical form of a client path, `path.Clean("/" + path)` without its
leading slash. -/
def cleanPath (path : Path) : Path :=
  [slash].intercalate (((path.splitOn slash).foldl pushComponent []).reverse)

/-- The containing directory and the base name of a path. -/
def splitPath (path : Path) : Path × Path :=
  let trimmed := path.dropWhile (· == slash)
  ((trimmed.reverse.dropWhile (· != slash)).tail.reverse,
    (trimmed.reverse.takeWhile (· != slash)).reverse)

/-- The chain of parents above a path, deepest first. -/
def parentChain : Nat → Path → List Path
  | 0, _ => []
  | fuel + 1, path =>
    if (splitPath path).1 = [] then []
    else (splitPath path).1 :: parentChain fuel (splitPath path).1

/-- Every directory above a path, deepest first. -/
def ancestorsOf (path : Path) : List Path := parentChain (cleanPath path).length (cleanPath path)

def escapeLike (path : Path) : Path := escapeBytes path

/-- The condition that selects the rows of a subtree. -/
def inSubtree (root path : Path) : Bool :=
  path == root || like (escapeLike root ++ [slash, 37]) path

/-- `path` lies below the directory `root`. -/
def Below (root path : Path) : Prop := (root ++ [slash]) <+: path

def AtOrBelow (root path : Path) : Prop := path = root ∨ Below root path

instance (root path : Path) : Decidable (Below root path) :=
  inferInstanceAs (Decidable ((root ++ [slash]) <+: path))

instance (root path : Path) : Decidable (AtOrBelow root path) :=
  inferInstanceAs (Decidable (_ ∨ _))

theorem Below.length_lt {root path : Path} (below : Below root path) :
    root.length < path.length := by
  have longer := below.length_le
  rw [List.length_append, List.length_singleton] at longer
  omega

/-- `path` is neither the root nor written with a leading slash. -/
def Entry (path : Path) : Prop := path ≠ [] ∧ path.head? ≠ some slash

/-- The path of an entry of a directory. -/
def childPath (parent name : Path) : Path :=
  if parent = [] then name else parent ++ slash :: name

section Cleaning

/-- A component that cleaning keeps. -/
def ProperName (part : Path) : Prop := part ≠ [] ∧ part ≠ [dot] ∧ part ≠ [dot, dot] ∧ slash ∉ part

theorem not_mem_of_mem_splitOn {path part : Path} (piece : part ∈ path.splitOn slash) :
    slash ∉ part := by
  induction path generalizing part with
  | nil =>
    rw [List.splitOn_nil, List.mem_singleton] at piece
    subst piece
    simp
  | cons symbol path ih =>
    rw [List.splitOn, List.splitOnP_cons_eq_if_modifyHead] at piece
    split_ifs at piece with isSlash
    · rcases List.mem_cons.mp piece with rfl | later
      · simp
      · exact ih later
    · have notSlash : symbol ≠ slash := by simpa using isSlash
      cases pieces : path.splitOnP (· == slash) with
      | nil => simp [pieces] at piece
      | cons first others =>
        rw [pieces, List.modifyHead_cons, List.mem_cons] at piece
        rcases piece with rfl | later
        · have firstClean : slash ∉ first := ih (by rw [List.splitOn, pieces]; simp)
          simp [notSlash.symm, firstClean]
        · exact ih (by rw [List.splitOn, pieces]; simp [later])

variable {stack : List Path}

theorem pushComponent_proper {part : Path} (noSlash : slash ∉ part)
    (proper : ∀ kept ∈ stack, ProperName kept) :
    ∀ kept ∈ pushComponent stack part, ProperName kept := by
  unfold pushComponent
  split_ifs with dropped up
  · exact proper
  · exact fun kept member => proper kept (List.mem_of_mem_tail member)
  · intro kept member
    rcases List.mem_cons.mp member with rfl | older
    · push Not at dropped
      exact ⟨dropped.1, dropped.2, up, noSlash⟩
    · exact proper kept older

variable {parts : List Path}

theorem foldl_pushComponent_proper (noSlash : ∀ part ∈ parts, slash ∉ part)
    (proper : ∀ kept ∈ stack, ProperName kept) :
    ∀ kept ∈ parts.foldl pushComponent stack, ProperName kept := by
  induction parts generalizing stack with
  | nil => exact proper
  | cons part parts ih =>
    exact ih (fun other member => noSlash other (by simp [member]))
      (pushComponent_proper (noSlash part (by simp)) proper)

theorem foldl_pushComponent_of_proper (proper : ∀ part ∈ parts, ProperName part) :
    parts.foldl pushComponent stack = parts.reverse ++ stack := by
  induction parts generalizing stack with
  | nil => rfl
  | cons part parts ih =>
    obtain ⟨nonempty, notDot, notUp, -⟩ := proper part (by simp)
    have pushed : pushComponent stack part = part :: stack := by
      simp [pushComponent, nonempty, notDot, notUp]
    rw [List.foldl_cons, pushed, ih (fun other member => proper other (by simp [member]))]
    simp

theorem cleanPath_eq_intercalate (path : Path) :
    ∃ parts : List Path, (∀ part ∈ parts, ProperName part) ∧
      cleanPath path = [slash].intercalate parts :=
  ⟨_, fun part member =>
    foldl_pushComponent_proper (fun _ piece => not_mem_of_mem_splitOn piece)
      (by simp) part (List.mem_reverse.mp member), rfl⟩

theorem cleanPath_intercalate (proper : ∀ part ∈ parts, ProperName part) :
    cleanPath ([slash].intercalate parts) = [slash].intercalate parts := by
  cases parts with
  | nil => decide
  | cons part parts =>
    unfold cleanPath
    rw [List.splitOn_intercalate slash (fun part member => (proper part member).2.2.2)
      (by simp), foldl_pushComponent_of_proper proper, List.append_nil,
      List.reverse_reverse]

@[simp]
theorem cleanPath_cleanPath (path : Path) : cleanPath (cleanPath path) = cleanPath path := by
  obtain ⟨parts, proper, cleaned⟩ := cleanPath_eq_intercalate path
  rw [cleaned, cleanPath_intercalate proper]

theorem cleanPath_eq_self_iff {path : Path} (notRoot : path ≠ []) :
    cleanPath path = path ↔ ∀ part ∈ path.splitOn slash, ProperName part := by
  constructor
  · intro clean
    obtain ⟨parts, proper, cleaned⟩ := cleanPath_eq_intercalate path
    have same : path = [slash].intercalate parts := clean.symm.trans cleaned
    have some : parts ≠ [] := by
      rintro rfl
      exact notRoot same
    rw [same, List.splitOn_intercalate slash (fun part member => (proper part member).2.2.2) some]
    exact proper
  · intro proper
    have joined := cleanPath_intercalate proper
    rwa [List.intercalate_splitOn] at joined

theorem cleanPath_below {oldPath newPath rest : Path}
    (clean : cleanPath (oldPath ++ slash :: rest) = oldPath ++ slash :: rest)
    (newClean : cleanPath newPath = newPath) (notRoot : newPath ≠ []) :
    cleanPath (newPath ++ slash :: rest) = newPath ++ slash :: rest := by
  rw [cleanPath_eq_self_iff (by simp)] at clean ⊢
  rw [cleanPath_eq_self_iff notRoot] at newClean
  rw [List.splitOn_append_cons_self] at clean ⊢
  intro part member
  rcases List.mem_append.mp member with inNew | inRest
  · exact newClean part inNew
  · exact clean part (List.mem_append.mpr (Or.inr inRest))

theorem head?_cleanPath (path : Path) : (cleanPath path).head? ≠ some slash := by
  obtain ⟨parts, proper, cleaned⟩ := cleanPath_eq_intercalate path
  rw [cleaned]
  cases parts with
  | nil => decide
  | cons part parts =>
    obtain ⟨nonempty, -, -, noSlash⟩ := proper part (by simp)
    cases part with
    | nil => exact absurd rfl nonempty
    | cons symbol part =>
      have notSlash : symbol ≠ slash := by
        rintro rfl
        simp at noSlash
      cases parts with
      | nil => simpa using notSlash
      | cons next parts => simpa [List.intercalate_cons_cons] using notSlash

theorem entry_cleanPath {path : Path} (notRoot : cleanPath path ≠ []) : Entry (cleanPath path) :=
  ⟨notRoot, head?_cleanPath path⟩

end Cleaning

section Splitting

variable {path : Path}

theorem Entry.dropWhile_slash (entry : Entry path) : path.dropWhile (· == slash) = path := by
  obtain ⟨nonempty, plain⟩ := entry
  cases path with
  | nil => rfl
  | cons symbol path =>
    have notSlash : symbol ≠ slash := by simpa using plain
    simp [notSlash]

theorem splitPath_of_not_mem (entry : Entry path) (noSlash : slash ∉ path) :
    splitPath path = ([], path) := by
  have all : ∀ symbol ∈ path.reverse, (symbol != slash) = true := by
    intro symbol member
    rw [List.mem_reverse] at member
    simpa using fun isSlash : symbol = slash => noSlash (isSlash ▸ member)
  unfold splitPath
  simp only [entry.dropWhile_slash]
  rw [List.dropWhile_eq_nil_iff.mpr all, List.takeWhile_eq_self_iff.mpr all]
  simp

theorem splitPath_append {parent name : Path} (entry : Entry (parent ++ slash :: name))
    (noSlash : slash ∉ name) :
    splitPath (parent ++ slash :: name) = (parent, name) := by
  have all : ∀ symbol ∈ name.reverse, (symbol != slash) = true := by
    intro symbol member
    rw [List.mem_reverse] at member
    simpa using fun isSlash : symbol = slash => noSlash (isSlash ▸ member)
  unfold splitPath
  simp only [entry.dropWhile_slash]
  have reversed : (parent ++ slash :: name).reverse = name.reverse ++ slash :: parent.reverse := by
    simp
  rw [reversed, List.dropWhile_append_of_pos all, List.takeWhile_append_of_pos all]
  simp

theorem exists_last_slash (hasSlash : slash ∈ path) :
    ∃ parent name, path = parent ++ slash :: name ∧ slash ∉ name := by
  obtain ⟨name, parent, reversed, noSlash⟩ :=
    List.eq_append_cons_of_mem (List.mem_reverse.mpr hasSlash)
  refine ⟨parent.reverse, name.reverse, ?_, by simpa using noSlash⟩
  have cut := congrArg List.reverse reversed
  simpa using cut

theorem childPath_splitPath (entry : Entry path) :
    childPath (splitPath path).1 (splitPath path).2 = path := by
  by_cases hasSlash : slash ∈ path
  · obtain ⟨parent, name, rfl, noSlash⟩ := exists_last_slash hasSlash
    rw [splitPath_append entry noSlash]
    have nonempty : parent ≠ [] := by
      rintro rfl
      exact entry.2 rfl
    simp [childPath, nonempty]
  · simp [splitPath_of_not_mem entry hasSlash, childPath]

theorem slash_not_mem_name (entry : Entry path) : slash ∉ (splitPath path).2 := by
  by_cases hasSlash : slash ∈ path
  · obtain ⟨parent, name, rfl, noSlash⟩ := exists_last_slash hasSlash
    rwa [splitPath_append entry noSlash]
  · rwa [splitPath_of_not_mem entry hasSlash]

theorem splitPath_childPath {parent name : Path} (entry : Entry (childPath parent name))
    (noSlash : slash ∉ name) :
    splitPath (childPath parent name) = (parent, name) := by
  unfold childPath at entry ⊢
  split_ifs at entry ⊢ with atRoot
  · rw [splitPath_of_not_mem entry noSlash, atRoot]
  · exact splitPath_append entry noSlash

section

variable (entry : Entry path)
include entry

theorem Below.of_parent (nested : (splitPath path).1 ≠ []) : Below (splitPath path).1 path := by
  have whole := childPath_splitPath entry
  rw [childPath, if_neg nested] at whole
  exact ⟨(splitPath path).2, by simpa using whole⟩

theorem Entry.parent (nested : (splitPath path).1 ≠ []) : Entry (splitPath path).1 := by
  refine ⟨nested, ?_⟩
  have whole := childPath_splitPath entry
  rw [childPath, if_neg nested] at whole
  intro hasSlash
  apply entry.2
  rw [← whole, List.head?_append, hasSlash]
  rfl

/-- A directory above an entry is its parent or above its parent. -/
theorem below_iff_parent {root : Path} :
    Below root path ↔ (splitPath path).1 ≠ [] ∧
        (root = (splitPath path).1 ∨ Below root (splitPath path).1) := by
  by_cases hasSlash : slash ∈ path
  · obtain ⟨parent, name, rfl, noSlash⟩ := exists_last_slash hasSlash
    rw [splitPath_append entry noSlash]
    have nested : parent ≠ [] := by
      rintro rfl
      exact entry.2 rfl
    simp only [ne_eq, nested, not_false_eq_true, true_and]
    constructor
    · rintro ⟨suffix, whole⟩
      rw [List.append_assoc, List.singleton_append, List.append_eq_append_iff] at whole
      rcases whole with ⟨extra, parentEq, suffixEq⟩ | ⟨extra, rootEq, nameEq⟩
      · cases extra with
        | nil => exact Or.inl (by simpa using parentEq.symm)
        | cons symbol extra =>
          rw [List.cons_append, List.cons.injEq] at suffixEq
          exact Or.inr ⟨extra, by rw [parentEq, suffixEq.1]; simp⟩
      · cases extra with
        | nil => exact Or.inl (by simpa using rootEq)
        | cons symbol extra =>
          rw [List.cons_append, List.cons.injEq] at nameEq
          exact absurd (by rw [nameEq.2]; simp) noSlash
    · rintro (rfl | ⟨suffix, parentEq⟩)
      · exact ⟨name, by simp⟩
      · exact ⟨suffix ++ slash :: name, by rw [← parentEq]; simp⟩
  · rw [splitPath_of_not_mem entry hasSlash]
    simp only [ne_eq, not_true_eq_false, false_and, iff_false]
    rintro ⟨suffix, rfl⟩
    simp at hasSlash

theorem length_parent_lt (nested : (splitPath path).1 ≠ []) :
    (splitPath path).1.length < path.length :=
  (Below.of_parent entry nested).length_lt

theorem mem_parentChain {fuel : Nat} {root : Path} (enough : path.length ≤ fuel) :
    root ∈ parentChain fuel path ↔ root ≠ [] ∧ Below root path := by
  induction fuel generalizing path with
  | zero =>
    have noPath : path = [] := List.length_eq_zero_iff.mp (by omega)
    exact absurd noPath entry.1
  | succ fuel ih =>
    unfold parentChain
    by_cases nested : (splitPath path).1 = []
    · rw [if_pos nested]
      simp only [List.not_mem_nil, false_iff, not_and]
      intro _
      rw [below_iff_parent entry]
      exact fun below => below.1 nested
    · have shorter := length_parent_lt entry nested
      rw [if_neg nested, List.mem_cons, ih (entry.parent nested) (by omega)]
      constructor
      · rintro (rfl | ⟨notRoot, above⟩)
        · exact ⟨nested, Below.of_parent entry nested⟩
        · exact ⟨notRoot, (below_iff_parent entry).mpr ⟨nested, Or.inr above⟩⟩
      · rintro ⟨notRoot, below⟩
        rcases ((below_iff_parent entry).mp below).2 with same | above
        · exact Or.inl same
        · exact Or.inr ⟨notRoot, above⟩

end

theorem mem_ancestorsOf {root : Path} (notRoot : cleanPath path ≠ []) :
    root ∈ ancestorsOf path ↔ root ≠ [] ∧ Below root (cleanPath path) :=
  mem_parentChain (entry_cleanPath notRoot) le_rfl

end Splitting

section Subtrees

/-- The selecting pattern takes `path` for a path below `root`.  The database
reads both up to a zero byte, and without the case of ASCII letters. -/
def LooksBelow (root path : Path) : Prop :=
  if 0 ∈ root then spelling path = spelling root
  else spelling root ++ [slash.toNat] <+: spelling path

instance (root path : Path) : Decidable (LooksBelow root path) :=
  inferInstanceAs (Decidable (if 0 ∈ root then _ else _))

theorem lower_eq_slash_iff (code : Nat) : lower code = slash.toNat ↔ code = slash.toNat := by
  change lower code = 47 ↔ code = 47
  unfold lower
  split_ifs with letter
  · omega
  · rfl

theorem inSubtree_iff (root path : Path) :
    inSubtree root path = true ↔ path = root ∨ LooksBelow root path := by
  unfold inSubtree LooksBelow escapeLike
  rw [Bool.or_eq_true, beq_iff_eq]
  refine or_congr_right ?_
  split_ifs with zero
  · exact like_escapeBytes_of_zero zero _ path
  · exact like_escapeBytes_separator zero (by decide) (by decide) (by decide)
      lower_eq_slash_iff path

theorem Below.looksBelow {root path : Path} (below : Below root path) : LooksBelow root path := by
  obtain ⟨rest, rfl⟩ := below
  unfold LooksBelow spelling
  rw [List.append_assoc, List.singleton_append]
  split_ifs with zero
  · unfold readText
    rw [beforeZero_append_of_mem zero]
  · have kept : beforeZero (slash :: rest) = slash :: beforeZero rest :=
      List.takeWhile_cons_of_pos (by decide)
    rw [readText_append zero (by decide) (by decide), List.map_append,
      List.prefix_append_right_inj]
    unfold readText
    rw [kept, codesFrom_ascii (by decide)]
    exact ⟨(codesFrom none (beforeZero rest)).map lower, rfl⟩

theorem AtOrBelow.inSubtree {root path : Path} (within : AtOrBelow root path) :
    inSubtree root path = true := by
  rw [inSubtree_iff]
  exact within.imp_right Below.looksBelow

end Subtrees

end Rose
