import Rose.FixedBlocks
import Mathlib.Data.List.Perm.Subperm

/-!
# Systematic erasure codes

A row of data columns is extended by parity columns.  As many columns of the
result as there were data columns, whichever they are, determine all of them.
The row may also be given as one list, cut into its columns.
-/

namespace Rose

open ListSplice FixedBlocks

/-- A systematic code for rows of equally wide columns. -/
structure ErasureCode (α : Type) where
  data : Nat
  parity : Nat
  width : Nat
  encode : List (List α) → List (List α)
  /-- The columns that are missing are left out. -/
  reconstruct : List (Option (List α)) → Option (List (List α))
  verify : List (List α) → Bool
  data_pos : 0 < data
  width_pos : 0 < width
  length_encode : ∀ columns : List (List α), columns.length = data →
    (∀ column ∈ columns, column.length = width) →
    (encode columns).length = data + parity
  width_encode : ∀ columns : List (List α), columns.length = data →
    (∀ column ∈ columns, column.length = width) →
    ∀ column ∈ encode columns, column.length = width
  systematic : ∀ columns : List (List α), columns.length = data →
    (∀ column ∈ columns, column.length = width) →
    (encode columns).take data = columns
  reconstruct_exact : ∀ (columns : List (List α))
    (shards : List (Option (List α))) (present : List Nat),
    columns.length = data → (∀ column ∈ columns, column.length = width) →
    shards.length = data + parity →
    (∀ (index : Nat) (column : List α), shards[index]? = some (some column) →
      (encode columns)[index]? = some column) →
    present.Nodup → data ≤ present.length →
    (∀ index ∈ present, ∃ column, shards[index]? = some (some column)) →
    reconstruct shards = some (encode columns)
  verify_iff : ∀ shards : List (List α), shards.length = data + parity →
    (∀ column ∈ shards, column.length = width) →
    (verify shards = true ↔ ∃ columns : List (List α), columns.length = data ∧
      (∀ column ∈ columns, column.length = width) ∧ shards = encode columns)

namespace ErasureCode

variable {α : Type} (code : ErasureCode α)

/-- The span of a row. -/
def rowWidth : Nat := code.width * code.data

theorem rowWidth_pos : 0 < code.rowWidth := Nat.mul_pos code.width_pos code.data_pos

/-- The columns of a row that is given as one list. -/
def columns (row : List α) : List (List α) := (List.range code.data).map fun index =>
    slice row (index * code.width) code.width

def encodeRow (row : List α) : List (List α) := code.encode (code.columns row)

variable {code} {row : List α}

theorem length_columns : (code.columns row).length = code.data := by
  rw [columns, List.length_map, List.length_range]

theorem width_columns (whole : row.length = code.rowWidth) :
    ∀ column ∈ code.columns row, column.length = code.width := by
  intro column member
  obtain ⟨index, inside, rfl⟩ := List.mem_map.mp member
  have fits : (index + 1) * code.width ≤ code.data * code.width :=
    Nat.mul_le_mul_right _ (List.mem_range.mp inside)
  rw [Nat.add_one_mul, Nat.mul_comm code.data] at fits
  rw [rowWidth] at whole
  rw [length_slice]
  omega

/-- Equally wide columns are the columns of the row that they form. -/
theorem columns_flatten {parts : List (List α)} (count : parts.length = code.data)
    (sizes : ∀ part ∈ parts, part.length = code.width) :
    code.columns parts.flatten = parts := by
  apply List.ext_getElem?
  intro index
  rw [columns, List.getElem?_map]
  by_cases inside : index < code.data
  · have found := List.getElem?_eq_getElem (Nat.lt_of_lt_of_eq inside count.symm)
    have part := slice_flatten [] sizes found
    rw [List.append_nil, Nat.mul_comm] at part
    rw [List.getElem?_range inside, Option.map_some, part, found]
  · rw [List.getElem?_eq_none (by rw [List.length_range]; omega), List.getElem?_eq_none (by omega)]
    rfl

section

variable (whole : row.length = code.rowWidth)
include whole

theorem length_encodeRow : (code.encodeRow row).length = code.data + code.parity :=
  code.length_encode _ length_columns (width_columns whole)

theorem width_encodeRow {column : List α} (member : column ∈ code.encodeRow row) :
    column.length = code.width :=
  code.width_encode _ length_columns (width_columns whole) column member

/-- The data columns of an encoded row are the row itself. -/
theorem slice_encodeRow {index : Nat} {column : List α} (isData : index < code.data)
    (found : (code.encodeRow row)[index]? = some column) :
    slice row (index * code.width) code.width = column := by
  have first : (code.columns row)[index]? = some column := by
    rw [← code.systematic _ length_columns (width_columns whole), List.getElem?_take_of_lt isData]
    exact found
  rw [columns, List.getElem?_map, List.getElem?_range isData] at first
  exact Option.some.inj first

theorem getElem?_encodeRow {index : Nat} (inside : index < code.data + code.parity) :
    ∃ column, (code.encodeRow row)[index]? = some column ∧ column.length = code.width := by
  have found := List.getElem?_eq_getElem (Nat.lt_of_lt_of_eq inside (length_encodeRow whole).symm)
  exact ⟨_, found, width_encodeRow whole (List.mem_of_getElem? found)⟩

/-- Enough columns of an encoded row bring back all of it. -/
theorem reconstruct_encodeRow {shards : List (Option (List α))} {present : List Nat}
    (count : shards.length = code.data + code.parity)
    (genuine : ∀ (index : Nat) (column : List α), shards[index]? = some (some column) →
      (code.encodeRow row)[index]? = some column) (distinct : present.Nodup)
    (enough : code.data ≤ present.length)
    (there : ∀ index ∈ present, ∃ column, shards[index]? = some (some column)) :
    code.reconstruct shards = some (code.encodeRow row) :=
  code.reconstruct_exact _ shards present length_columns (width_columns whole)
    count genuine distinct enough there

theorem verify_encodeRow : code.verify (code.encodeRow row) = true :=
  (code.verify_iff _ (length_encodeRow whole) fun _ => width_encodeRow whole).mpr
      ⟨_, length_columns, width_columns whole, rfl⟩

end

/-- Columns that pass the check encode the row that their data columns form. -/
theorem exists_encodeRow_of_verify {shards : List (List α)}
    (count : shards.length = code.data + code.parity)
    (widths : ∀ column ∈ shards, column.length = code.width) (valid : code.verify shards = true) :
    ∃ row : List α, row.length = code.rowWidth ∧ shards = code.encodeRow row := by
  obtain ⟨parts, number, sizes, encoded⟩ := (code.verify_iff shards count widths).mp valid
  refine ⟨parts.flatten, ?_, ?_⟩
  · rw [length_flatten_blocks sizes, number]
    rfl
  · rw [encodeRow, columns_flatten number sizes]
    exact encoded

/-! ### Two columns and their sum -/

def xorColumn (first second : List UInt8) : List UInt8 := List.zipWith (· ^^^ ·) first second

theorem xorColumn_comm (first second : List UInt8) :
    xorColumn first second = xorColumn second first :=
  List.zipWith_comm_of_comm fun a b => UInt8.xor_comm a b

theorem xorColumn_cancel {first second : List UInt8} (same : first.length = second.length) :
    xorColumn first (xorColumn first second) = second := by
  induction first generalizing second with
  | nil => exact (List.eq_nil_of_length_eq_zero same.symm).symm
  | cons byte first ih =>
    cases second with
    | nil => cases same
    | cons other second =>
      have rest := ih (Nat.succ.inj same)
      have head : byte ^^^ (byte ^^^ other) = other := by
        rw [← UInt8.xor_assoc, UInt8.xor_self, UInt8.zero_xor]
      simp only [xorColumn, List.zipWith_cons_cons] at rest ⊢
      rw [head, rest]

def xorEncode : List (List UInt8) → List (List UInt8)
  | [first, second] => [first, second, xorColumn first second]
  | columns => columns

def xorReconstruct : List (Option (List UInt8)) → Option (List (List UInt8))
  | [some first, some second, _] =>
    some [first, second, xorColumn first second]
  | [some first, none, some sum] => some [first, xorColumn first sum, sum]
  | [none, some second, some sum] => some [xorColumn second sum, second, sum]
  | _ => none

theorem not_all_eq {present : List Nat} (distinct : present.Nodup) (enough : 2 ≤ present.length)
    (lone : Nat) :
    ¬∀ index ∈ present, index = lone := by
  intro only
  have inside : present ⊆ [lone] := fun index member =>
    List.mem_singleton.mpr (only index member)
  have few := (List.subperm_of_subset distinct inside).length_le
  rw [List.length_singleton] at few
  omega

theorem xorReconstruct_exact {first second : List UInt8} (same : first.length = second.length)
    {shards : List (Option (List UInt8))} {present : List Nat}
    (count : shards.length = 3)
    (genuine : ∀ (index : Nat) (column : List UInt8), shards[index]? = some (some column) →
      [first, second, xorColumn first second][index]? = some column)
    (distinct : present.Nodup) (enough : 2 ≤ present.length)
    (there : ∀ index ∈ present, ∃ column, shards[index]? = some (some column)) :
    xorReconstruct shards = some [first, second, xorColumn first second] := by
  obtain ⟨zeroth, one, two, rfl⟩ := List.length_eq_three.mp count
  -- two missing columns would leave a single index for the present ones
  have lone := not_all_eq distinct enough
  rcases zeroth with _ | zeroth <;> rcases one with _ | one <;>
    rcases two with _ | two
  · exact absurd (fun index member => by
      obtain ⟨column, found⟩ := there index member
      rcases index with _ | _ | _ | index <;> simp at found) (lone 0)
  · exact absurd (fun index member => by
      obtain ⟨column, found⟩ := there index member
      rcases index with _ | _ | _ | index <;> simp at found ⊢) (lone 2)
  · exact absurd (fun index member => by
      obtain ⟨column, found⟩ := there index member
      rcases index with _ | _ | _ | index <;> simp at found ⊢) (lone 1)
  · have isOne := Option.some.inj (genuine 1 one rfl)
    have isTwo := Option.some.inj (genuine 2 two rfl)
    subst isOne isTwo
    rw [xorReconstruct, xorColumn_comm first, xorColumn_cancel same.symm]
  · exact absurd (fun index member => by
      obtain ⟨column, found⟩ := there index member
      rcases index with _ | _ | _ | index <;> simp at found ⊢) (lone 0)
  · have isZero := Option.some.inj (genuine 0 zeroth rfl)
    have isTwo := Option.some.inj (genuine 2 two rfl)
    subst isZero isTwo
    rw [xorReconstruct, xorColumn_cancel same]
  all_goals
    have isZero := Option.some.inj (genuine 0 zeroth rfl)
    have isOne := Option.some.inj (genuine 1 one rfl)
    subst isZero isOne
    rfl

/-- Any two of two columns and their sum give the third. -/
def xorCode (width : Nat) (positive : 0 < width) : ErasureCode UInt8 where
  data := 2
  parity := 1
  width := width
  encode := xorEncode
  reconstruct := xorReconstruct
  verify shards := decide (shards = xorEncode (shards.take 2))
  data_pos := Nat.two_pos
  width_pos := positive
  length_encode columns number _ := by
    obtain ⟨first, second, rfl⟩ := List.length_eq_two.mp number
    rfl
  width_encode columns number sizes := by
    obtain ⟨first, second, rfl⟩ := List.length_eq_two.mp number
    simp only [List.forall_mem_cons, xorEncode, xorColumn] at sizes ⊢
    refine ⟨sizes.1, sizes.2.1, ?_, sizes.2.2⟩
    rw [List.length_zipWith, sizes.1, sizes.2.1, Nat.min_self]
  systematic columns number _ := by
    obtain ⟨first, second, rfl⟩ := List.length_eq_two.mp number
    rfl
  reconstruct_exact columns shards present number sizes count genuine distinct
      enough there := by
    obtain ⟨first, second, rfl⟩ := List.length_eq_two.mp number
    simp only [List.forall_mem_cons] at sizes
    exact xorReconstruct_exact (sizes.1.trans sizes.2.1.symm) count genuine distinct enough there
  verify_iff shards count sizes := by
    rw [decide_eq_true_iff]
    constructor
    · intro valid
      refine ⟨shards.take 2, ?_, fun column member =>
        sizes column (List.mem_of_mem_take member), valid⟩
      rw [List.length_take, count]
      rfl
    · rintro ⟨columns, number, -, rfl⟩
      obtain ⟨first, second, rfl⟩ := List.length_eq_two.mp number
      rfl

end ErasureCode

end Rose
