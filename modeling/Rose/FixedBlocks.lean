import Rose.ListSplice

/-!
# Lists cut into blocks of one size

Cutting a list from the front into full blocks leaves a rest shorter than a
block.  The cut is determined by its result, so whatever else cuts a list into
full blocks and a short rest agrees with it.
-/

namespace Rose.FixedBlocks

open ListSplice

variable {α : Type} {size : Nat}

/-- The full blocks of a list and what is left after them. -/
def splitBlocks (size : Nat) (list : List α) : List (List α) × List α :=
  if 0 < size ∧ size ≤ list.length then
    let rest := splitBlocks size (list.drop size)
    (list.take size :: rest.1, rest.2)
  else
    ([], list)
termination_by list.length
decreasing_by
  rw [List.length_drop]
  omega

theorem splitBlocks_of_lt {list : List α} (short : list.length < size) :
    splitBlocks size list = ([], list) := by
  rw [splitBlocks, if_neg (by omega)]

theorem splitBlocks_of_le {list : List α} (positive : 0 < size) (fits : size ≤ list.length) :
    splitBlocks size list =
      (list.take size :: (splitBlocks size (list.drop size)).1,
        (splitBlocks size (list.drop size)).2) := by
  rw [splitBlocks, if_pos ⟨positive, fits⟩]

theorem splitBlocks_flatten (size : Nat) (list : List α) :
    (splitBlocks size list).1.flatten ++ (splitBlocks size list).2 = list := by
  induction list using splitBlocks.induct size with
  | case1 list fits ih =>
    rw [splitBlocks_of_le fits.1 fits.2, List.flatten_cons,
      List.append_assoc, ih, List.take_append_drop]
  | case2 list short =>
    rw [splitBlocks, if_neg short]
    rfl

variable {block : List α}

theorem length_of_mem_splitBlocks {list : List α} (member : block ∈ (splitBlocks size list).1) :
    block.length = size := by
  induction list using splitBlocks.induct size with
  | case1 list fits ih =>
    rw [splitBlocks_of_le fits.1 fits.2, List.mem_cons] at member
    rcases member with rfl | later
    · rw [List.length_take, Nat.min_eq_left fits.2]
    · exact ih later
  | case2 list short =>
    rw [splitBlocks, if_neg short] at member
    cases member

theorem length_splitBlocks_rest (positive : 0 < size) (list : List α) :
    (splitBlocks size list).2.length < size := by
  induction list using splitBlocks.induct size with
  | case1 list fits ih =>
    rw [splitBlocks_of_le fits.1 fits.2]
    exact ih
  | case2 list short =>
    rw [splitBlocks, if_neg short]
    dsimp only
    omega

theorem splitBlocks_block_append (positive : 0 < size) (full : block.length = size)
    (list : List α) :
    splitBlocks size (block ++ list) =
      (block :: (splitBlocks size list).1, (splitBlocks size list).2) := by
  rw [splitBlocks_of_le positive (by rw [List.length_append]; omega), ← full,
    List.take_left, List.drop_left]

variable {blocks : List (List α)}

theorem splitBlocks_flatten_append {rest : List α} (sizes : ∀ block ∈ blocks, block.length = size)
    (short : rest.length < size) :
    splitBlocks size (blocks.flatten ++ rest) = (blocks, rest) := by
  induction blocks with
  | nil => exact splitBlocks_of_lt short
  | cons block blocks ih =>
    rw [List.forall_mem_cons] at sizes
    rw [List.flatten_cons, List.append_assoc,
      splitBlocks_block_append (by omega) sizes.1, ih sizes.2]

theorem length_flatten_blocks (sizes : ∀ block ∈ blocks, block.length = size) :
    blocks.flatten.length = size * blocks.length := by
  induction blocks with
  | nil => simp
  | cons block blocks ih =>
    rw [List.forall_mem_cons] at sizes
    rw [List.flatten_cons, List.length_append, sizes.1, ih sizes.2,
      List.length_cons, Nat.mul_succ, Nat.add_comm]

theorem length_splitBlocks (size : Nat) (list : List α) :
    size * (splitBlocks size list).1.length + (splitBlocks size list).2.length = list.length := by
  have whole := congrArg List.length (splitBlocks_flatten size list)
  rwa [List.length_append, length_flatten_blocks fun _ => length_of_mem_splitBlocks] at whole

/-- Appending cuts the old rest together with the new entries. -/
theorem splitBlocks_append (positive : 0 < size) (list more : List α) :
    splitBlocks size (list ++ more) =
      ((splitBlocks size list).1 ++ (splitBlocks size ((splitBlocks size list).2 ++ more)).1,
        (splitBlocks size ((splitBlocks size list).2 ++ more)).2) := by
  have first := splitBlocks_flatten size list
  have second := splitBlocks_flatten size ((splitBlocks size list).2 ++ more)
  have sizes : ∀ block ∈ (splitBlocks size list).1 ++
      (splitBlocks size ((splitBlocks size list).2 ++ more)).1,
      block.length = size :=
    List.forall_mem_append.mpr ⟨fun _ => length_of_mem_splitBlocks,
      fun _ => length_of_mem_splitBlocks⟩
  rw [← splitBlocks_flatten_append sizes (length_splitBlocks_rest positive _),
    List.flatten_append, List.append_assoc, second, ← List.append_assoc, first]

theorem drop_flatten (sizes : ∀ block ∈ blocks, block.length = size) (count : Nat) :
    blocks.flatten.drop (size * count) = (blocks.drop count).flatten := by
  induction blocks generalizing count with
  | nil => simp
  | cons block blocks ih =>
    rw [List.forall_mem_cons] at sizes
    cases count with
    | zero => rfl
    | succ count =>
      rw [List.drop_succ_cons, ← ih sizes.2, List.flatten_cons, Nat.mul_succ, Nat.add_comm,
        ← List.drop_drop, ← sizes.1, List.drop_left]

theorem take_flatten (sizes : ∀ block ∈ blocks, block.length = size) (count : Nat) :
    blocks.flatten.take (size * count) = (blocks.take count).flatten := by
  induction blocks generalizing count with
  | nil => simp
  | cons block blocks ih =>
    rw [List.forall_mem_cons] at sizes
    cases count with
    | zero => rfl
    | succ count =>
      rw [List.take_succ_cons, List.flatten_cons, List.flatten_cons, ← ih sizes.2, Nat.mul_succ,
        Nat.add_comm, ← List.take_length_add_append, sizes.1]

/-- A block is a slice of the list. -/
theorem slice_flatten {index : Nat} (rest : List α) (sizes : ∀ block ∈ blocks, block.length = size)
    (found : blocks[index]? = some block) :
    slice (blocks.flatten ++ rest) (size * index) size = block := by
  induction blocks generalizing index with
  | nil => simp at found
  | cons first blocks ih =>
    rw [List.forall_mem_cons] at sizes
    cases index with
    | zero =>
      rw [List.getElem?_cons_zero, Option.some.injEq] at found
      exact slice_eq_field
        (by rw [List.flatten_cons, List.append_assoc, List.nil_append, found]) rfl (found ▸ sizes.1)
    | succ index =>
      rw [List.getElem?_cons_succ] at found
      rw [List.flatten_cons, List.append_assoc, Nat.mul_succ, Nat.add_comm, ← ih sizes.2 found]
      nth_rewrite 1 [← sizes.1]
      rw [slice_append_right]

end Rose.FixedBlocks
