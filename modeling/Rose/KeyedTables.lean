import Mathlib.Data.List.Nodup
import Mathlib.Algebra.Order.BigOperators.Group.List
import Mathlib.Algebra.Order.Ring.Int
import Mathlib.Data.Set.Insert

/-!
# Tables with a unique key

A table is a list of rows with distinct keys; the order of the rows carries no
meaning.  The operations are those of a relational store: lookup, insertion
that refuses a taken key, replacement, update and deletion by a condition, and
an update that changes the key of a row.  Each has its membership rule, and
totals of a row weight follow the rows.
-/

namespace Rose

/-- Rows with pairwise distinct keys. -/
structure KeyedTable {Row Key : Type} (key : Row → Key) where
  rows : List Row
  distinct : (rows.map key).Nodup

namespace KeyedTable

variable {Row Key : Type} {key : Row → Key} (table : KeyedTable key)

instance : Inhabited (KeyedTable key) := ⟨⟨[], List.nodup_nil⟩⟩

/-- The table without rows. -/
def empty : KeyedTable key := ⟨[], List.nodup_nil⟩

@[simp]
theorem rows_empty : (empty : KeyedTable key).rows = [] := rfl

@[ext]
theorem ext {first second : KeyedTable key} (sameRows : first.rows = second.rows) :
    first = second := by
  cases first
  cases second
  cases sameRows
  rfl

theorem eq_of_key_eq {first second : Row} (firstIn : first ∈ table.rows)
    (secondIn : second ∈ table.rows) (sameKey : key first = key second) : first = second :=
  List.inj_on_of_nodup_map table.distinct firstIn secondIn sameKey

/-- The rows a condition selects stay, the others are deleted. -/
def keep (table : KeyedTable key) (kept : Row → Bool) : KeyedTable key where
  rows := table.rows.filter kept
  distinct := table.distinct.sublist (List.filter_sublist.map key)

@[simp]
theorem mem_keep (kept : Row → Bool) (row : Row) :
    row ∈ (table.keep kept).rows ↔ row ∈ table.rows ∧ kept row = true :=
  List.mem_filter

/-- Every row is updated without changing its key. -/
def change (table : KeyedTable key) (update : Row → Row)
    (keepsKey : ∀ row, key (update row) = key row) : KeyedTable key where
  rows := table.rows.map update
  distinct := by
    have sameKeys : (table.rows.map update).map key = table.rows.map key := by
      rw [List.map_map]
      exact List.map_congr_left fun row _ => keepsKey row
    rw [sameKeys]
    exact table.distinct

@[simp]
theorem mem_change (update : Row → Row) (keepsKey : ∀ row, key (update row) = key row) (row : Row) :
    row ∈ (table.change update keepsKey).rows ↔ ∃ old ∈ table.rows, update old = row :=
  List.mem_map

/-- The keys that the table has rows for. -/
def keys (table : KeyedTable key) : Set Key :=
  { wanted | ∃ row ∈ table.rows, key row = wanted }

theorem key_mem_keys {table : KeyedTable key} {row : Row} (present : row ∈ table.rows) :
    key row ∈ table.keys :=
  ⟨row, present, rfl⟩

@[simp]
theorem keys_empty : (empty : KeyedTable key).keys = ∅ := by
  ext wanted
  simp [keys]

@[simp]
theorem keys_change (update : Row → Row) (keepsKey : ∀ row, key (update row) = key row) :
    (table.change update keepsKey).keys = table.keys := by
  ext wanted
  simp only [keys, Set.mem_ofPred_eq, mem_change]
  constructor
  · rintro ⟨row, ⟨old, present, rfl⟩, rfl⟩
    exact ⟨old, present, (keepsKey old).symm⟩
  · rintro ⟨old, present, rfl⟩
    exact ⟨update old, ⟨old, present, rfl⟩, keepsKey old⟩

/-- The sum of a row weight over the table. -/
def total (table : KeyedTable key) (weight : Row → Int) : Int := (table.rows.map weight).sum

theorem total_congr {first second : Row → Int} (same : ∀ row ∈ table.rows, first row = second row) :
    table.total first = table.total second := by
  unfold total
  rw [List.map_congr_left same]

theorem total_change (update : Row → Row) (keepsKey : ∀ row, key (update row) = key row)
    (weight : Row → Int) :
    (table.change update keepsKey).total weight = table.total fun row => weight (update row) := by
  unfold total change
  rw [List.map_map]
  rfl

theorem total_keep_add (kept : Row → Bool) (weight : Row → Int) :
    (table.keep kept).total weight + ((table.rows.filter fun row => !kept row).map weight).sum =
      table.total weight := by
  have split := (List.filter_append_perm kept table.rows).map weight
  rw [List.map_append] at split
  have sums := split.sum_eq
  rw [List.sum_append] at sums
  exact sums

theorem total_nonneg {weight : Row → Int} (nonneg : ∀ row, 0 ≤ weight row) :
    0 ≤ table.total weight := by
  refine List.sum_nonneg fun value member => ?_
  obtain ⟨row, -, rfl⟩ := List.mem_map.mp member
  exact nonneg row

theorem weight_le_total {weight : Row → Int} (nonneg : ∀ row, 0 ≤ weight row) {row : Row}
    (present : row ∈ table.rows) : weight row ≤ table.total weight := by
  refine List.single_le_sum (fun value member => ?_) _ (List.mem_map_of_mem present)
  obtain ⟨other, -, rfl⟩ := List.mem_map.mp member
  exact nonneg other

section Lookup

variable [DecidableEq Key]

theorem keys_keep_ne (removed : Key) :
    (table.keep fun row => decide (key row ≠ removed)).keys = table.keys \ {removed} := by
  ext wanted
  simp only [keys, Set.mem_ofPred_eq, mem_keep, decide_eq_true_eq,
    Set.mem_sdiff, Set.mem_singleton_iff]
  constructor
  · rintro ⟨row, ⟨present, different⟩, rfl⟩
    exact ⟨⟨row, present, rfl⟩, different⟩
  · rintro ⟨⟨row, present, rfl⟩, different⟩
    exact ⟨row, ⟨present, different⟩, rfl⟩

/-- The row with a key. -/
def find? (table : KeyedTable key) (wanted : Key) : Option Row :=
  table.rows.find? fun row => decide (key row = wanted)

/-- Whether a row has the key. -/
def has (table : KeyedTable key) (wanted : Key) : Bool :=
  table.rows.any fun row => decide (key row = wanted)

section

variable (wanted : Key)

theorem has_iff : table.has wanted = true ↔ ∃ row ∈ table.rows, key row = wanted := by
  simp [has]

theorem has_iff_mem_keys : table.has wanted = true ↔ wanted ∈ table.keys :=
  table.has_iff wanted

theorem has_eq_false_iff_not_mem_keys : table.has wanted = false ↔ wanted ∉ table.keys := by
  rw [← has_iff_mem_keys, Bool.not_eq_true]

theorem has_eq_false_iff : table.has wanted = false ↔ ∀ row ∈ table.rows, key row ≠ wanted := by
  simp [has]

theorem find?_eq_some_iff (row : Row) :
    table.find? wanted = some row ↔ row ∈ table.rows ∧ key row = wanted := by
  constructor
  · intro found
    exact ⟨List.mem_of_find?_eq_some found, of_decide_eq_true (List.find?_some found :)⟩
  · rintro ⟨present, rfl⟩
    cases found : table.find? (key row) with
    | none =>
      exact absurd (decide_eq_true rfl) (List.find?_eq_none.mp found row present)
    | some other =>
      have otherKey : key other = key row := of_decide_eq_true (List.find?_some found :)
      rw [table.eq_of_key_eq (List.mem_of_find?_eq_some found) present otherKey]

theorem find?_eq_none_iff : table.find? wanted = none ↔ ∀ row ∈ table.rows, key row ≠ wanted := by
  simp [find?]

end

variable {row : Row}

theorem find?_of_mem (present : row ∈ table.rows) : table.find? (key row) = some row :=
  (table.find?_eq_some_iff (key row) row).mpr ⟨present, rfl⟩

variable {table} {wanted : Key}

theorem mem_of_find? (found : table.find? wanted = some row) : row ∈ table.rows :=
  ((table.find?_eq_some_iff wanted row).mp found).1

theorem key_of_find? (found : table.find? wanted = some row) : key row = wanted :=
  ((table.find?_eq_some_iff wanted row).mp found).2

/-- A lookup depends only on which rows the table has. -/
theorem find?_congr {first second : KeyedTable key}
    (sameRows : ∀ row, key row = wanted → (row ∈ first.rows ↔ row ∈ second.rows)) :
    first.find? wanted = second.find? wanted := by
  cases found : second.find? wanted with
  | none =>
    rw [find?_eq_none_iff] at found ⊢
    intro row present isWanted
    exact found row ((sameRows row isWanted).mp present) isWanted
  | some row =>
    rw [find?_eq_some_iff] at found ⊢
    exact ⟨(sameRows row found.2).mpr found.1, found.2⟩

theorem find?_change (table : KeyedTable key) (update : Row → Row)
    (keepsKey : ∀ row, key (update row) = key row) (wanted : Key) :
    (table.change update keepsKey).find? wanted = (table.find? wanted).map update := by
  cases found : table.find? wanted with
  | none =>
    rw [find?_eq_none_iff] at found
    rw [Option.map_none, find?_eq_none_iff]
    intro row present
    obtain ⟨old, oldIn, rfl⟩ := (table.mem_change update keepsKey row).mp present
    rw [keepsKey]
    exact found old oldIn
  | some row =>
    obtain ⟨present, same⟩ := (table.find?_eq_some_iff wanted row).mp found
    rw [Option.map_some, find?_eq_some_iff]
    exact ⟨(table.mem_change update keepsKey _).mpr ⟨row, present, rfl⟩, (keepsKey row).trans same⟩

/-- The weight of the row with a key; zero when there is none. -/
def weightAt (table : KeyedTable key) (weight : Row → Int) (wanted : Key) :
    Int :=
  ((table.find? wanted).map weight).getD 0

variable (table)

theorem weightAt_of_mem (weight : Row → Int) (present : row ∈ table.rows) :
    table.weightAt weight (key row) = weight row := by
  unfold weightAt
  rw [table.find?_of_mem present]
  rfl

theorem weightAt_of_not_mem_keys (weight : Row → Int) (absent : wanted ∉ table.keys) :
    table.weightAt weight wanted = 0 := by
  have missing : table.find? wanted = none := by
    rw [find?_eq_none_iff]
    exact fun row present same => absent ⟨row, present, same⟩
  unfold weightAt
  rw [missing]
  rfl

theorem weightAt_congr {first second : Row → Int}
    (same : ∀ row ∈ table.rows, first row = second row) (wanted : Key) :
    table.weightAt first wanted = table.weightAt second wanted := by
  by_cases present : wanted ∈ table.keys
  · obtain ⟨row, rowIn, rfl⟩ := present
    rw [weightAt_of_mem table first rowIn, weightAt_of_mem table second rowIn, same row rowIn]
  · rw [weightAt_of_not_mem_keys table first present, weightAt_of_not_mem_keys table second present]

theorem weightAt_change (update : Row → Row)
    (keepsKey : ∀ row, key (update row) = key row) (weight : Row → Int) (wanted : Key) :
    (table.change update keepsKey).weightAt weight wanted =
      table.weightAt (fun row => weight (update row)) wanted := by
  unfold weightAt
  rw [find?_change, Option.map_map]
  rfl

/-- Deleting rows of weight zero changes no weight. -/
theorem weightAt_keep (kept : Row → Bool) (weight : Row → Int)
    (weightless : ∀ row ∈ table.rows, kept row = false → weight row = 0) (wanted : Key) :
    (table.keep kept).weightAt weight wanted = table.weightAt weight wanted := by
  by_cases present : wanted ∈ table.keys
  · obtain ⟨row, rowIn, rfl⟩ := present
    rw [weightAt_of_mem table weight rowIn]
    cases isKept : kept row with
    | true =>
      exact weightAt_of_mem (table.keep kept) weight ((table.mem_keep kept row).mpr ⟨rowIn, isKept⟩)
    | false =>
      rw [weightless row rowIn isKept]
      refine weightAt_of_not_mem_keys _ _ ?_
      rintro ⟨other, otherIn, same⟩
      obtain ⟨otherIn, otherKept⟩ := (table.mem_keep kept other).mp otherIn
      rw [table.eq_of_key_eq otherIn rowIn same, isKept] at otherKept
      cases otherKept
  · rw [weightAt_of_not_mem_keys table weight present]
    refine weightAt_of_not_mem_keys _ _ ?_
    rintro ⟨other, otherIn, same⟩
    exact present ⟨other, ((table.mem_keep kept other).mp otherIn).1, same⟩

theorem filter_key_eq (rows : List Row) (distinct : (rows.map key).Nodup) (wanted : Key) :
    (rows.filter fun row => decide (key row = wanted)) =
      (rows.find? fun row => decide (key row = wanted)).toList := by
  induction rows with
  | nil => rfl
  | cons row rows ih =>
    rw [List.map_cons, List.nodup_cons] at distinct
    by_cases same : key row = wanted
    · have rest : (rows.filter fun row => decide (key row = wanted)) = [] := by
        rw [List.filter_eq_nil_iff]
        intro other present sameKey
        refine distinct.1 (List.mem_map.mpr ⟨other, present, ?_⟩)
        rw [same]
        exact of_decide_eq_true sameKey
      simp [same, rest]
    · simp [same, ih distinct.2]

/-- Deleting a key takes its weight off the total. -/
theorem total_keep_ne (weight : Row → Int) (removed : Key) :
    (table.keep fun row => decide (key row ≠ removed)).total weight =
      table.total weight - table.weightAt weight removed := by
  have split := table.total_keep_add (fun row => decide (key row ≠ removed)) weight
  have selected : (table.rows.filter fun row => !decide (key row ≠ removed)) =
      (table.find? removed).toList := by
    rw [find?, ← filter_key_eq _ table.distinct]
    simp
  have deleted : (((table.find? removed).toList).map weight).sum =
      table.weightAt weight removed := by
    unfold weightAt
    cases table.find? removed <;> simp
  rw [selected, deleted] at split
  omega

/-- Insertion; `none` when the key is taken. -/
def add? (table : KeyedTable key) (row : Row) : Option (KeyedTable key) :=
  if taken : key row ∈ table.rows.map key then none
  else some
    { rows := table.rows ++ [row]
      distinct := by
        rw [List.map_append]
        exact table.distinct.append (List.nodup_singleton _) (by simpa using taken) }

theorem add?_eq_none_iff (row : Row) :
    table.add? row = none ↔ ∃ other ∈ table.rows, key other = key row := by
  unfold add?
  split_ifs with taken
  · simpa using taken
  · simpa using taken

theorem add?_eq_some_iff (table after : KeyedTable key) (row : Row) :
    table.add? row = some after ↔ (∀ other ∈ table.rows, key other ≠ key row) ∧
        after.rows = table.rows ++ [row] := by
  constructor
  · intro added
    have free : ¬∃ other ∈ table.rows, key other = key row := by
      rw [← add?_eq_none_iff, added]
      simp
    refine ⟨by simpa using free, ?_⟩
    unfold add? at added
    split_ifs at added
    cases added
    rfl
  · rintro ⟨free, sameRows⟩
    unfold add?
    rw [dif_neg (by simpa using free)]
    exact congrArg some (KeyedTable.ext sameRows.symm)

variable {table} {after : KeyedTable key}

theorem mem_of_add? (added : table.add? row = some after) (other : Row) :
    other ∈ after.rows ↔ other ∈ table.rows ∨ other = row := by
  rw [((table.add?_eq_some_iff after row).mp added).2]
  simp

theorem total_of_add? (added : table.add? row = some after) (weight : Row → Int) :
    after.total weight = table.total weight + weight row := by
  unfold total
  rw [((table.add?_eq_some_iff after row).mp added).2]
  simp

/-- Insertion that replaces the row with the same key. -/
def put (table : KeyedTable key) (row : Row) : KeyedTable key where
  rows := table.rows.filter (fun other => decide (key other ≠ key row)) ++ [row]
  distinct := by
    rw [List.map_append]
    refine List.Nodup.append (table.distinct.sublist (List.filter_sublist.map key))
      (List.nodup_singleton _) ?_
    simp

variable (table)

@[simp]
theorem mem_put (row other : Row) :
    other ∈ (table.put row).rows ↔ (other ∈ table.rows ∧ key other ≠ key row) ∨ other = row := by
  simp [put]

theorem keys_put (row : Row) : (table.put row).keys = table.keys ∪ {key row} := by
  ext wanted
  simp only [keys, Set.mem_ofPred_eq, mem_put, Set.mem_union, Set.mem_singleton_iff]
  constructor
  · rintro ⟨other, ⟨present, -⟩ | rfl, rfl⟩
    · exact Or.inl ⟨other, present, rfl⟩
    · exact Or.inr rfl
  · rintro (⟨other, present, rfl⟩ | rfl)
    · by_cases same : key other = key row
      · exact ⟨row, Or.inr rfl, same.symm⟩
      · exact ⟨other, Or.inl ⟨present, same⟩, rfl⟩
    · exact ⟨row, Or.inr rfl, rfl⟩

theorem find?_put (row : Row) (wanted : Key) :
    (table.put row).find? wanted = if wanted = key row then some row else table.find? wanted := by
  split_ifs with same
  · rw [find?_eq_some_iff]
    exact ⟨by simp, same.symm⟩
  · refine find?_congr fun other isWanted => ?_
    rw [mem_put]
    constructor
    · rintro (⟨present, -⟩ | rfl)
      · exact present
      · exact absurd isWanted.symm same
    · intro present
      exact Or.inl ⟨present, fun sameKey => same (isWanted.symm.trans sameKey)⟩

theorem weightAt_put (weight : Row → Int) (row : Row) (wanted : Key) :
    (table.put row).weightAt weight wanted =
      if wanted = key row then weight row else table.weightAt weight wanted := by
  unfold weightAt
  rw [find?_put]
  split_ifs <;> rfl

theorem total_put (weight : Row → Int) (row : Row) : (table.put row).total weight =
      table.total weight - table.weightAt weight (key row) + weight row := by
  rw [← total_keep_ne]
  unfold total put keep
  simp

/-- Insertion that leaves a row with the same key alone. -/
def addIfAbsent (table : KeyedTable key) (row : Row) : KeyedTable key := (table.add? row).getD table

@[simp]
theorem mem_addIfAbsent (row other : Row) :
    other ∈ (table.addIfAbsent row).rows ↔ other ∈ table.rows ∨
        (other = row ∧ ∀ taken ∈ table.rows, key taken ≠ key row) := by
  unfold addIfAbsent
  cases added : table.add? row with
  | none =>
    obtain ⟨old, oldIn, sameKey⟩ := (table.add?_eq_none_iff row).mp added
    constructor
    · exact Or.inl
    · rintro (present | ⟨-, free⟩)
      · exact present
      · exact absurd sameKey (free old oldIn)
  | some after =>
    rw [Option.getD_some, mem_of_add? added]
    have free := ((table.add?_eq_some_iff after row).mp added).1
    constructor
    · rintro (present | same)
      · exact Or.inl present
      · exact Or.inr ⟨same, free⟩
    · rintro (present | ⟨same, -⟩)
      · exact Or.inl present
      · exact Or.inr same

theorem keys_addIfAbsent (row : Row) : (table.addIfAbsent row).keys = table.keys ∪ {key row} := by
  ext wanted
  simp only [keys, Set.mem_ofPred_eq, mem_addIfAbsent, Set.mem_union, Set.mem_singleton_iff]
  constructor
  · rintro ⟨other, present | ⟨rfl, -⟩, rfl⟩
    · exact Or.inl ⟨other, present, rfl⟩
    · exact Or.inr rfl
  · rintro (⟨other, present, rfl⟩ | rfl)
    · exact ⟨other, Or.inl present, rfl⟩
    · by_cases taken : ∃ other ∈ table.rows, key other = key row
      · obtain ⟨other, present, same⟩ := taken
        exact ⟨other, Or.inl present, same⟩
      · push Not at taken
        exact ⟨row, Or.inr ⟨rfl, taken⟩, rfl⟩

/-- The row with a key is rewritten, its key included; `none` when the new key
is taken by another row. -/
def rekey? (table : KeyedTable key) (rewrite : Row → Row) (wanted : Key) :
    Option (KeyedTable key) :=
  match table.find? wanted with
  | none => some table
  | some row =>
    (table.keep fun other => decide (key other ≠ wanted)).add? (rewrite row)

/-- The rows with the listed keys are rewritten one after the other. -/
def rekeyAll? (rewrite : Row → Row) :
    List Key → KeyedTable key → Option (KeyedTable key)
  | [], table => some table
  | wanted :: rest, table =>
    (table.rekey? rewrite wanted).bind (rekeyAll? rewrite rest)

variable {table} {rewrite : Row → Row}

theorem mem_of_rekey? (present : row ∈ table.rows)
    (rewritten : table.rekey? rewrite (key row) = some after) :
    (∀ other ∈ table.rows, key other ≠ key row → key other ≠ key (rewrite row)) ∧
    ∀ other, other ∈ after.rows ↔
      (other ∈ table.rows ∧ key other ≠ key row) ∨ other = rewrite row := by
  unfold rekey? at rewritten
  rw [table.find?_of_mem present] at rewritten
  refine ⟨fun other otherIn different => ?_, fun other => ?_⟩
  · exact ((add?_eq_some_iff _ _ _).mp rewritten).1 other (by simp [otherIn, different])
  · rw [mem_of_add? rewritten]
    simp

section

variable {weight : Row → Int} (keepsWeight : ∀ row, weight (rewrite row) = weight row)
include keepsWeight

theorem total_of_rekey? (rewritten : table.rekey? rewrite wanted = some after) :
    after.total weight = table.total weight := by
  unfold rekey? at rewritten
  cases found : table.find? wanted with
  | none =>
    rw [found] at rewritten
    cases rewritten
    rfl
  | some row =>
    rw [found] at rewritten
    rw [total_of_add? rewritten, total_keep_ne, keepsWeight]
    unfold weightAt
    rw [found]
    simp

/-- A rewriting that keeps the weight of every row keeps the total. -/
theorem total_of_rekeyAll? {wanted : List Key}
    (rewritten : table.rekeyAll? rewrite wanted = some after) :
    after.total weight = table.total weight := by
  induction wanted generalizing table with
  | nil =>
    cases rewritten
    rfl
  | cons name wanted ih =>
    obtain ⟨middle, moved, rest⟩ := Option.bind_eq_some_iff.mp rewritten
    rw [ih rest, total_of_rekey? keepsWeight moved]

end

variable {wanted : List Key} (once : wanted.Nodup)
  (present : ∀ name ∈ wanted, ∃ row ∈ table.rows, key row = name)
  (rewritten : table.rekeyAll? rewrite wanted = some after)
include once present rewritten

/-- Rewriting succeeds only when no rewritten row meets a row that is still to
be rewritten, so each listed row is rewritten once and no other is. -/
theorem mem_of_rekeyAll? (row : Row) :
    row ∈ after.rows ↔ (row ∈ table.rows ∧ key row ∉ wanted) ∨
        ∃ old ∈ table.rows, key old ∈ wanted ∧ rewrite old = row := by
  induction wanted generalizing table with
  | nil =>
    cases rewritten
    simp
  | cons name wanted ih =>
    rw [List.nodup_cons] at once
    obtain ⟨first, firstIn, rfl⟩ := present name (by simp)
    obtain ⟨middle, moved, rest⟩ := Option.bind_eq_some_iff.mp rewritten
    obtain ⟨free, members⟩ := mem_of_rekey? firstIn moved
    have stays : ∀ name ∈ wanted, ∃ row ∈ middle.rows, key row = name := by
      intro name later
      obtain ⟨row, rowIn, rfl⟩ := present name (by simp [later])
      refine ⟨row, (members row).mpr (Or.inl ⟨rowIn, ?_⟩), rfl⟩
      rintro same
      exact once.1 (same ▸ later)
    have settled : key (rewrite first) ∉ wanted := by
      intro later
      obtain ⟨row, rowIn, same⟩ := present (key (rewrite first)) (by simp [later])
      by_cases isFirst : key row = key first
      · exact once.1 (isFirst ▸ same ▸ later)
      · exact free row rowIn isFirst same
    rw [ih once.2 stays rest, members]
    constructor
    · rintro (⟨⟨rowIn, different⟩ | rfl, notLater⟩ | ⟨old, oldIn, later, rfl⟩)
      · exact Or.inl ⟨rowIn, by simp [different, notLater]⟩
      · exact Or.inr ⟨first, firstIn, by simp, rfl⟩
      · rcases (members old).mp oldIn with ⟨oldIn, -⟩ | rfl
        · exact Or.inr ⟨old, oldIn, by simp [later], rfl⟩
        · exact absurd later settled
    · rintro (⟨rowIn, notListed⟩ | ⟨old, oldIn, listed, rfl⟩)
      · rw [List.mem_cons, not_or] at notListed
        exact Or.inl ⟨Or.inl ⟨rowIn, notListed.1⟩, notListed.2⟩
      · by_cases isFirst : key old = key first
        · rw [table.eq_of_key_eq oldIn firstIn isFirst]
          exact Or.inl ⟨Or.inr rfl, settled⟩
        · refine Or.inr ⟨old, (members old).mpr (Or.inl ⟨oldIn, isFirst⟩), ?_, rfl⟩
          exact (List.mem_cons.mp listed).resolve_left isFirst

/-- A successful rewriting gives no row the key of a row that it leaves alone,
and no two rows the same key. -/
theorem rekeyAll?_keys :
    (∀ row ∈ table.rows, key row ∈ wanted → ∀ other ∈ table.rows, key other ∉ wanted →
        key other ≠ key (rewrite row)) ∧
    (∀ first ∈ table.rows, key first ∈ wanted → ∀ second ∈ table.rows, key second ∈ wanted →
        key (rewrite first) = key (rewrite second) → first = second) := by
  induction wanted generalizing table with
  | nil => simp
  | cons name wanted ih =>
    rw [List.nodup_cons] at once
    obtain ⟨head, headIn, rfl⟩ := present name (by simp)
    obtain ⟨middle, moved, rest⟩ := Option.bind_eq_some_iff.mp rewritten
    obtain ⟨free, members⟩ := mem_of_rekey? headIn moved
    have remains : ∀ row ∈ table.rows, key row ≠ key head →
        row ∈ middle.rows := fun row rowIn different =>
      (members row).mpr (Or.inl ⟨rowIn, different⟩)
    have later : ∀ name ∈ wanted, name ≠ key head := by
      rintro name listed rfl
      exact once.1 listed
    have stays : ∀ name ∈ wanted, ∃ row ∈ middle.rows, key row = name := by
      intro name listed
      obtain ⟨row, rowIn, rfl⟩ := present name (by simp [listed])
      exact ⟨row, remains row rowIn (later _ listed), rfl⟩
    obtain ⟨freeLater, distinctLater⟩ := ih once.2 stays rest
    have headSettled : key (rewrite head) ∉ wanted := by
      intro listed
      obtain ⟨row, rowIn, same⟩ := present (key (rewrite head)) (by simp [listed])
      exact free row rowIn (same ▸ later _ listed) same
    have headApart : ∀ row ∈ table.rows, key row ∈ wanted →
        key (rewrite head) ≠ key (rewrite row) := fun row rowIn listed =>
      freeLater row (remains row rowIn (later _ listed)) listed
        (rewrite head) ((members _).mpr (Or.inr rfl)) headSettled
    constructor
    · intro row rowIn listed other otherIn unlisted
      rw [List.mem_cons, not_or] at unlisted
      rcases List.mem_cons.mp listed with isHead | listed
      · rw [table.eq_of_key_eq rowIn headIn isHead]
        exact free other otherIn unlisted.1
      · exact freeLater row (remains row rowIn (later _ listed)) listed
          other (remains other otherIn unlisted.1) unlisted.2
    · intro first firstIn firstListed second secondIn secondListed same
      rcases List.mem_cons.mp firstListed with isHead | firstListed
      · rw [table.eq_of_key_eq firstIn headIn isHead] at same ⊢
        rcases List.mem_cons.mp secondListed with alsoHead | secondListed
        · exact (table.eq_of_key_eq secondIn headIn alsoHead).symm
        · exact absurd same (headApart second secondIn secondListed)
      · rcases List.mem_cons.mp secondListed with isHead | secondListed
        · rw [table.eq_of_key_eq secondIn headIn isHead] at same
          exact absurd same.symm (headApart first firstIn firstListed)
        · exact distinctLater first (remains first firstIn (later _ firstListed)) firstListed second
            (remains second secondIn (later _ secondListed)) secondListed same

end Lookup

end KeyedTable

/-- A table whose keys are handed out by a counter that never goes back. -/
structure SequencedTable {Row : Type} (key : Row → Nat) extends
    KeyedTable key where
  last : Nat
  bounded : ∀ row ∈ rows, key row ≤ last

namespace SequencedTable

variable {Row : Type} {key : Row → Nat}

/-- The table before its first row. -/
def empty : SequencedTable key where
  toKeyedTable := KeyedTable.empty
  last := 0
  bounded := by simp

/-- Insertion under the next key of the counter. -/
def append (table : SequencedTable key) (build : Nat → Row) (numbered : ∀ id, key (build id) = id) :
    SequencedTable key where
  rows := table.rows ++ [build (table.last + 1)]
  distinct := by
    rw [List.map_append]
    refine table.distinct.append (List.nodup_singleton _) ?_
    simp only [List.map_cons, List.map_nil, List.disjoint_singleton,
      List.mem_map, not_exists, not_and]
    intro row present sameKey
    have bound := table.bounded row present
    rw [sameKey, numbered] at bound
    omega
  last := table.last + 1
  bounded := by
    intro row member
    rcases List.mem_append.mp member with present | added
    · exact Nat.le_succ_of_le (table.bounded row present)
    · rw [List.mem_singleton.mp added]
      exact Nat.le_of_eq (numbered _)

def keep (table : SequencedTable key) (kept : Row → Bool) :
    SequencedTable key where
  toKeyedTable := table.toKeyedTable.keep kept
  last := table.last
  bounded := fun row member =>
    table.bounded row ((table.mem_keep kept row).mp member).1

def change (table : SequencedTable key) (update : Row → Row)
    (keepsKey : ∀ row, key (update row) = key row) : SequencedTable key where
  toKeyedTable := table.toKeyedTable.change update keepsKey
  last := table.last
  bounded := by
    intro row member
    obtain ⟨old, present, rfl⟩ := (table.mem_change update keepsKey row).mp member
    rw [keepsKey]
    exact table.bounded old present

@[simp]
theorem mem_append (table : SequencedTable key) (build : Nat → Row)
    (numbered : ∀ id, key (build id) = id) (row : Row) :
    row ∈ (table.append build numbered).rows ↔ row ∈ table.rows ∨ row = build (table.last + 1) := by
  simp [append]

@[simp]
theorem mem_keep (table : SequencedTable key) (kept : Row → Bool) (row : Row) :
    row ∈ (table.keep kept).rows ↔ row ∈ table.rows ∧ kept row = true :=
  table.toKeyedTable.mem_keep kept row

@[simp]
theorem has_change (table : SequencedTable key) (update : Row → Row)
    (keepsKey : ∀ row, key (update row) = key row) (wanted : Nat) :
    (table.change update keepsKey).has wanted = table.has wanted := by
  have sameKeys : (table.change update keepsKey).keys = table.keys :=
    KeyedTable.keys_change _ _ keepsKey
  rw [Bool.eq_iff_iff, KeyedTable.has_iff_mem_keys, sameKeys, ← KeyedTable.has_iff_mem_keys]

/-- Only the new key is looked up differently after an insertion. -/
theorem find?_append (table : SequencedTable key) (build : Nat → Row)
    (numbered : ∀ id, key (build id) = id) (wanted : Nat) :
    (table.append build numbered).find? wanted =
      if wanted = table.last + 1 then some (build (table.last + 1))
      else table.find? wanted := by
  split_ifs with isNew
  · rw [KeyedTable.find?_eq_some_iff]
    exact ⟨by simp, (numbered _).trans isNew.symm⟩
  · refine KeyedTable.find?_congr fun row isWanted => ?_
    rw [mem_append]
    constructor
    · rintro (present | rfl)
      · exact present
      · exact absurd (isWanted.symm.trans (numbered _)) isNew
    · exact Or.inl

theorem find?_le_last {table : SequencedTable key} {wanted : Nat} {row : Row}
    (found : table.find? wanted = some row) : wanted ≤ table.last := by
  obtain ⟨present, same⟩ := (KeyedTable.find?_eq_some_iff _ _ _).mp found
  rw [← same]
  exact table.bounded row present

end SequencedTable

end Rose
