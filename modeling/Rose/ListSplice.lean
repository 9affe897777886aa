import Mathlib.Data.List.Basic

/-!
# Slices and overwritten ranges of a list

This file collects the list operations behind an in-memory byte buffer: taking
a slice, copying one list over a range of another without changing its length,
and resizing with a fill value.  Everything is characterized by its entries, so
that two buffers are compared position by position.
-/

namespace Rose.ListSplice

variable {α : Type*}

/-- The `count` entries of `list` from position `start` on, fewer when the list
ends before. -/
def slice (list : List α) (start count : Nat) : List α := (list.drop start).take count

theorem getElem?_slice (list : List α) (start count index : Nat) :
    (slice list start count)[index]? = if index < count then list[start + index]? else none := by
  simp [slice, List.getElem?_take, List.getElem?_drop]

@[simp]
theorem length_slice (list : List α) (start count : Nat) :
    (slice list start count).length = min count (list.length - start) := by
  simp [slice]

@[simp]
theorem slice_zero_count (list : List α) (start : Nat) : slice list start 0 = [] := by
  simp [slice]

variable {list : List α} {start count : Nat}

theorem slice_eq_nil_of_length_le (beyond : list.length ≤ start) : slice list start count = [] := by
  simp [slice, List.drop_eq_nil_of_le beyond]

theorem slice_one {entry : α} (found : list[start]? = some entry) :
    slice list start 1 = [entry] := by
  apply List.ext_getElem?
  intro index
  rw [getElem?_slice]
  cases index with
  | zero => simpa using found
  | succ index => simp

theorem slice_append_slice (list : List α) (start first second : Nat) :
    slice list start first ++ slice list (start + first) second =
      slice list start (first + second) := by
  simp only [slice]
  rw [List.take_add, List.drop_drop]

theorem slice_append_slice_of_le (list : List α) {first second third : Nat}
    (firstLe : first ≤ second) (secondLe : second ≤ third) :
    slice list first (second - first) ++ slice list second (third - second) =
      slice list first (third - first) := by
  have joined := slice_append_slice list first (second - first) (third - second)
  rw [Nat.add_sub_cancel' firstLe] at joined
  rw [joined]
  congr 1
  omega

variable {front : List α}

theorem slice_append_left {back : List α} (inside : start + count ≤ front.length) :
    slice (front ++ back) start count = slice front start count := by
  apply List.ext_getElem?
  intro index
  simp only [getElem?_slice]
  by_cases indexLt : index < count
  · rw [if_pos indexLt, if_pos indexLt, List.getElem?_append_left (by omega)]
  · rw [if_neg indexLt, if_neg indexLt]

theorem slice_append_right (front back : List α) (start count : Nat) :
    slice (front ++ back) (front.length + start) count = slice back start count := by
  simp [slice, List.drop_append, List.drop_eq_nil_of_le]

variable {offset : Nat}

theorem slice_slice (list : List α) {inner : Nat} (inside : offset + inner ≤ count) :
    slice (slice list start count) offset inner = slice list (start + offset) inner := by
  apply List.ext_getElem?
  intro index
  simp only [getElem?_slice]
  by_cases indexLt : index < inner
  · rw [if_pos indexLt, if_pos indexLt, if_pos (by omega), Nat.add_assoc]
  · rw [if_neg indexLt, if_neg indexLt]

theorem slice_eq_field {field back : List α} (split : list = front ++ (field ++ back))
    (startEq : front.length = start) (countEq : field.length = count) :
    slice list start count = field := by
  subst split startEq countEq
  simp [slice]

/-- Overwrite `target` from position `start` on by `source`, dropping the part
of the source that does not fit. -/
def copyAt (target : List α) (start : Nat) (source : List α) : List α :=
  target.take start ++ source.take (target.length - start) ++ target.drop (start + source.length)

theorem getElem?_copyAt (target source : List α) (start index : Nat) :
    (copyAt target start source)[index]? =
      if start ≤ index ∧ index < start + source.length ∧ index < target.length then
        source[index - start]?
      else
        target[index]? := by
  unfold copyAt
  by_cases before : index < start
  · rw [if_neg (by omega), List.append_assoc]
    by_cases inTarget : index < target.length
    · rw [List.getElem?_append_left (by simp; omega)]
      simp [before]
    · have short : target.length - start = 0 := by omega
      rw [short, List.drop_eq_nil_of_le (by omega)]
      simp [before]
  · by_cases covered : index < start + source.length ∧ index < target.length
    · rw [if_pos (by omega), List.getElem?_append_left (by simp; omega),
        List.getElem?_append_right (by simp; omega)]
      simp only [List.length_take, List.getElem?_take]
      have offset : index - min start target.length = index - start := by omega
      rw [offset, if_pos (by omega)]
    · rw [if_neg (by omega), List.getElem?_append_right (by simp; omega)]
      simp only [List.length_append, List.length_take, List.getElem?_drop]
      by_cases inTarget : index < target.length
      · congr 1
        omega
      · rw [List.getElem?_eq_none (by omega), List.getElem?_eq_none (by omega)]

@[simp]
theorem length_copyAt (target source : List α) (start : Nat) :
    (copyAt target start source).length = target.length := by
  unfold copyAt
  simp only [List.length_append, List.length_take, List.length_drop]
  omega

variable {source : List α}

theorem copyAt_zero_of_length_eq {target : List α} (length_eq : source.length = target.length) :
    copyAt target 0 source = source := by
  rw [copyAt, List.take_zero, List.nil_append, Nat.sub_zero, Nat.zero_add,
    length_eq, List.drop_length, List.append_nil, ← length_eq,
    List.take_length]

theorem slice_copyAt_of_disjoint {target : List α}
    (disjoint : offset + count ≤ start ∨ start + source.length ≤ offset) :
    slice (copyAt target start source) offset count = slice target offset count := by
  apply List.ext_getElem?
  intro index
  rw [getElem?_slice, getElem?_slice, getElem?_copyAt]
  by_cases inside : index < count
  · rw [if_pos inside, if_pos inside, if_neg (by omega)]
  · rw [if_neg inside, if_neg inside]

/-- Cut a list at `size`, or extend it to `size` by copies of `fill`. -/
def resize (fill : α) (size : Nat) (list : List α) : List α :=
  list.take size ++ List.replicate (size - list.length) fill

@[simp]
theorem length_resize (fill : α) (size : Nat) (list : List α) :
    (resize fill size list).length = size := by
  simp only [resize, List.length_append, List.length_take, List.length_replicate]
  omega

theorem getElem?_resize (fill : α) (size : Nat) (list : List α) (index : Nat) :
    (resize fill size list)[index]? =
      if index < size then some (list[index]?.getD fill) else none := by
  unfold resize
  by_cases inSize : index < size
  · rw [if_pos inSize]
    by_cases inList : index < list.length
    · rw [List.getElem?_append_left (by simp; omega)]
      simp [inSize, List.getElem?_eq_getElem inList]
    · rw [List.getElem?_append_right (by simp; omega),
        List.getElem?_replicate, if_pos (by simp; omega),
        List.getElem?_eq_none (l := list) (by omega)]
      rfl
  · rw [if_neg inSize, List.getElem?_eq_none]
    simp
    omega

/-- Write `source` at `start`, first extending the list when it is too short.
An empty write does nothing. -/
def overwrite (fill : α) (list : List α) (start : Nat) (source : List α) :
    List α :=
  if source = [] then
    list
  else
    copyAt (resize fill (max list.length (start + source.length)) list) start source

variable (fill : α)
include fill

theorem length_overwrite (list source : List α) (start : Nat) (nonempty : source ≠ []) :
    (overwrite fill list start source).length = max list.length (start + source.length) := by
  simp [overwrite, nonempty]

theorem getElem?_overwrite (list source : List α) (start index : Nat) (nonempty : source ≠ []) :
    (overwrite fill list start source)[index]? =
      if start ≤ index ∧ index < start + source.length then
        source[index - start]?
      else if index < max list.length (start + source.length) then
        some (list[index]?.getD fill)
      else
        none := by
  rw [overwrite, if_neg nonempty, getElem?_copyAt, getElem?_resize, length_resize]
  by_cases covered : start ≤ index ∧ index < start + source.length
  · rw [if_pos covered, if_pos (by omega)]
  · rw [if_neg covered, if_neg (by omega)]

/-- Overwriting right after a front part extends it. -/
theorem append_isPrefix_overwrite (isFront : front <+: list) (source : List α) :
    front ++ source <+: overwrite fill list front.length source := by
  obtain ⟨rest, rfl⟩ := isFront
  by_cases empty : source = []
  · rw [overwrite, if_pos empty, empty, List.append_nil]
    exact ⟨rest, rfl⟩
  · refine ⟨(overwrite fill (front ++ rest) front.length source).drop
      (front ++ source).length, List.ext_getElem? fun index => ?_⟩
    rw [List.getElem?_append]
    split_ifs with inside
    · rw [List.length_append] at inside
      rw [getElem?_overwrite _ _ _ _ _ empty, List.getElem?_append, List.length_append]
      by_cases inFront : index < front.length
      · rw [if_pos inFront, if_neg (by omega), if_pos (by omega), List.getElem?_append_left inFront,
          List.getElem?_eq_getElem inFront, Option.getD_some]
      · rw [if_neg inFront, if_pos (by omega)]
    · rw [List.getElem?_drop, Nat.add_sub_cancel' (by omega)]

theorem overwrite_end (list source : List α) :
    overwrite fill list list.length source = list ++ source := by
  by_cases empty : source = []
  · rw [overwrite, if_pos empty, empty, List.append_nil]
  · refine ((append_isPrefix_overwrite fill (List.prefix_refl list) source).eq_of_length ?_).symm
    rw [List.length_append, length_overwrite _ _ _ _ empty]
    omega

theorem slice_overwrite_self (list source : List α) (start : Nat) :
    slice (overwrite fill list start source) start source.length = source := by
  by_cases empty : source = []
  · rw [empty]
    exact slice_zero_count _ _
  · apply List.ext_getElem?
    intro index
    rw [getElem?_slice, getElem?_overwrite fill list source start _ empty]
    split_ifs with below reached
    · rw [Nat.add_sub_cancel_left]
    · omega
    · omega
    · exact (List.getElem?_eq_none (Nat.le_of_not_lt below)).symm

theorem slice_overwrite_before (inside : offset + count ≤ list.length)
    (before : offset + count ≤ start) :
    slice (overwrite fill list start source) offset count = slice list offset count := by
  by_cases empty : source = []
  · rw [overwrite, if_pos empty]
  · apply List.ext_getElem?
    intro index
    rw [getElem?_slice, getElem?_slice, getElem?_overwrite fill list source start _ empty]
    split_ifs with below reached grown
    · omega
    · rw [List.getElem?_eq_getElem (by omega)]
      rfl
    · omega
    · rfl

/-- Two adjacent writes are one. -/
theorem overwrite_overwrite_adjacent (list first second : List α) (start : Nat) :
    overwrite fill (overwrite fill list start first) (start + first.length)
      second = overwrite fill list start (first ++ second) := by
  by_cases firstEmpty : first = []
  · rw [firstEmpty, overwrite.eq_def fill list start [], if_pos rfl,
      List.nil_append, List.length_nil, Nat.add_zero]
  by_cases secondEmpty : second = []
  · rw [secondEmpty, List.append_nil, overwrite, if_pos rfl]
  have nonempty : first ++ second ≠ [] := by simp [firstEmpty]
  apply List.ext_getElem?
  intro index
  rw [getElem?_overwrite _ _ _ _ _ secondEmpty,
    getElem?_overwrite _ _ _ _ _ nonempty, length_overwrite _ _ _ _ firstEmpty,
    getElem?_overwrite _ _ _ _ _ firstEmpty, List.length_append]
  by_cases inFirst : start ≤ index ∧ index < start + first.length
  · rw [if_neg (by omega), if_pos (by omega), if_pos inFirst, if_pos (by omega),
      List.getElem?_append_left (by omega),
      List.getElem?_eq_getElem (by omega)]
    rfl
  · by_cases inSecond : start + first.length ≤ index ∧ index < start + first.length + second.length
    · rw [if_pos inSecond, if_pos (by omega), List.getElem?_append_right (by omega)]
      congr 1
      omega
    · have outside : ¬(start ≤ index ∧ index < start + (first.length + second.length)) := by omega
      have sameSize : max (max list.length (start + first.length))
          (start + first.length + second.length) =
            max list.length (start + (first.length + second.length)) := by
        omega
      rw [if_neg inSecond, if_neg inFirst, if_neg outside, sameSize]
      by_cases near : index < max list.length (start + first.length)
      · rw [if_pos near]
        rfl
      · rw [if_neg near, List.getElem?_eq_none (by omega : list.length ≤ index)]

theorem slice_resize {size : Nat} (inside : offset + count ≤ list.length)
    (kept : offset + count ≤ size) :
    slice (resize fill size list) offset count = slice list offset count := by
  apply List.ext_getElem?
  intro index
  rw [getElem?_slice, getElem?_slice, getElem?_resize]
  split_ifs with below fits
  · rw [List.getElem?_eq_getElem (by omega)]
    rfl
  · omega
  · rfl

end Rose.ListSplice
