import Rose.VlogReads

/-!
# Reading rows with missing columns

A row whose columns lie on the plogs is read exactly, directly or from a
rebuilt row, as long as no more columns are missing than there is parity.
With more of them missing the read either still succeeds or reports an error,
but never returns other bytes.
-/

namespace Rose

open ListSplice FixedBlocks

namespace Vlog

variable {code : ErasureCode UInt8} {vlog : Vlog} {events : ReadEvents} {bytes : Bytes} {row : Nat}

section Collecting

variable {word : List Bytes} {order present : List Nat} {shards result : List (Option Bytes)}
  {available failed : Nat}

/-- The columns that have arrived, all of them columns of the word. -/
structure Gathered (word : List Bytes) (shards : List (Option Bytes)) (present : List Nat) :
    Prop where
  genuine : ∀ (index : Nat) (column : Bytes),
    shards[index]? = some (some column) → word[index]? = some column
  there : ∀ index ∈ present, ∃ column : Bytes, shards[index]? = some (some column)
  distinct : present.Nodup

theorem Gathered.set (gathered : Gathered word shards present) {client : Nat} {column : Bytes}
    (isNew : client ∉ present) (inside : client < shards.length)
    (isColumn : word[client]? = some column) :
    Gathered word (shards.set client (some column)) (client :: present) := by
  refine ⟨fun index other found => ?_, fun index member => ?_,
    List.nodup_cons.mpr ⟨isNew, gathered.distinct⟩⟩
  · rw [List.getElem?_set] at found
    by_cases same : client = index
    · rw [if_pos same, if_pos inside] at found
      cases found
      rw [← same]
      exact isColumn
    · rw [if_neg same] at found
      exact gathered.genuine index other found
  · by_cases same : client = index
    · refine ⟨column, ?_⟩
      rw [List.getElem?_set, if_pos same, if_pos inside]
    · obtain ⟨other, found⟩ := gathered.there index
        ((List.mem_cons.mp member).resolve_left fun eq => same eq.symm)
      refine ⟨other, ?_⟩
      rw [List.getElem?_set, if_neg same]
      exact found

/-- When the collection ends well, there are enough columns. -/
theorem collectColumns_eq_ok (rebuilt : ∀ client ∈ order, ∀ column,
      vlog.rebuildRead events row client = some column →
      word[client]? = some column)
    (gathered : Gathered word shards present)
    (apart : (order ++ present).Nodup)
    (bounded : ∀ client ∈ order, client < shards.length)
    (total : order.length + present.length + failed = vlog.dataShards + vlog.parityShards)
    (few : failed ≤ vlog.parityShards)
    (ran : vlog.collectColumns events row order shards present.length failed = .ok result) :
    result.length = shards.length ∧ ∃ chosen,
      Gathered word result chosen ∧ vlog.dataShards ≤ chosen.length := by
  induction order generalizing shards present failed with
  | nil =>
    cases ran
    rw [List.length_nil] at total
    exact ⟨rfl, present, gathered, by omega⟩
  | cons client later ih =>
    rw [List.forall_mem_cons] at rebuilt bounded
    rw [List.length_cons] at total
    have apartLater : (later ++ client :: present).Nodup := (List.perm_middle.nodup_iff).mpr apart
    rw [collectColumns] at ran
    cases answer : vlog.rebuildRead events row client with
    | none =>
      rw [answer] at ran
      dsimp only at ran
      by_cases hopeless : vlog.parityShards < failed + 1
      · rw [if_pos hopeless] at ran
        cases ran
      · rw [if_neg hopeless] at ran
        exact ih rebuilt.2 gathered (List.nodup_cons.mp apart).2 bounded.2 (by omega) (by omega) ran
    | some column =>
      have isNew : client ∉ present := (List.nodup_cons.mp apartLater.of_append_right).1
      have more := gathered.set isNew bounded.1 (rebuilt.1 column answer)
      rw [answer] at ran
      dsimp only at ran
      by_cases enough : vlog.dataShards ≤ present.length + 1
      · rw [if_pos enough] at ran
        cases ran
        exact ⟨List.length_set, _, more, enough⟩
      · rw [if_neg enough] at ran
        have rest := ih rebuilt.2 more apartLater (by rw [List.length_set]; exact bounded.2)
          (by rw [List.length_cons]; omega) few ran
        rwa [List.length_set] at rest

theorem collectColumns_eq_error {reason : ReadError}
    (ran : vlog.collectColumns events row order shards available failed = .error reason) :
    vlog.parityShards < failed + (order.filter fun client =>
      (vlog.rebuildRead events row client).isNone).length := by
  induction order generalizing shards available failed with
  | nil => cases ran
  | cons client later ih =>
    rw [collectColumns] at ran
    cases answer : vlog.rebuildRead events row client with
    | none =>
      rw [answer] at ran
      dsimp only at ran
      rw [List.filter_cons_of_pos (by rw [answer]; rfl), List.length_cons]
      by_cases hopeless : vlog.parityShards < failed + 1
      · omega
      · rw [if_neg hopeless] at ran
        have rest := ih ran
        omega
    | some column =>
      rw [answer] at ran
      dsimp only at ran
      rw [List.filter_cons_of_neg (by rw [answer]; exact Bool.false_ne_true)]
      by_cases enough : vlog.dataShards ≤ available + 1
      · rw [if_pos enough] at ran
        cases ran
      · rw [if_neg enough] at ran
        exact ih ran

end Collecting

/-- One row of the logical bytes. -/
def rowAt (vlog : Vlog) (bytes : Bytes) (row : Nat) : Bytes :=
  slice bytes (row * vlog.stripeWidth) vlog.stripeWidth

/-- The columns of a row lie at their place on all plogs. -/
structure StoresRow (code : ErasureCode UInt8) (vlog : Vlog) (bytes : Bytes) (row : Nat) :
    Prop where
  inside : (row + 1) * vlog.stripeWidth ≤ bytes.length
  columns : ∀ (client : Nat) (copy : PlogCopy), vlog.copies[client]? = some copy →
      LiesAt copy.content (row * vlog.columnBytes) (vlog.column code (vlog.rowAt bytes row) client)

/-- The columns of a row that cannot be read when it is rebuilt. -/
def missing (vlog : Vlog) (events : ReadEvents) (row : Nat) : List Nat :=
  (List.range vlog.copies.length).filter fun client =>
    (vlog.rebuildRead events row client).isNone

section

variable (stores : vlog.StoresRow code bytes row)
include stores

theorem StoresRow.length_row : (vlog.rowAt bytes row).length = vlog.stripeWidth := by
  have inside := stores.inside
  rw [Nat.succ_mul] at inside
  rw [rowAt, length_slice]
  omega

variable (coded : vlog.Coded code)
include coded

theorem StoresRow.readShard_eq {served : Bool} {client position count : Nat} {data : Bytes}
    (within : position + count ≤ vlog.columnBytes)
    (ran : vlog.readShard served client (row * vlog.columnBytes + position) count = some data) :
    client < vlog.copies.length ∧
    data = slice (vlog.column code (vlog.rowAt bytes row) client) position
      count := by
  unfold readShard at ran
  split_ifs at ran
  obtain ⟨copy, found, read⟩ := Option.bind_eq_some_iff.mp ran
  unfold PlogCopy.read at read
  split_ifs at read
  cases read
  have inside := (List.getElem?_eq_some_iff.mp found).1
  have lies := stores.columns client copy found
  have width := (coded.getElem?_encodeRow stores.length_row inside).2
  rw [LiesAt, width, ← coded.column_eq] at lies
  refine ⟨inside, ?_⟩
  rw [← lies, slice_slice _ within]

/-- The row that rebuilding gives, unless too many columns are missing. -/
theorem StoresRow.reconstructRow_cases (events : ReadEvents) :
    vlog.reconstructRow code events row = .ok (code.encodeRow (vlog.rowAt bytes row)) ∨
      (∃ reason, vlog.reconstructRow code events row = .error reason) ∧
        vlog.parityShards < (vlog.missing events row).length := by
  have whole := stores.length_row
  have order := events.arrives row (List.range vlog.copies.length)
  unfold reconstructRow
  cases ran : vlog.collectColumns events row (events.arrival row (List.range vlog.copies.length))
      (List.replicate vlog.copies.length none) 0 0 with
  | error reason =>
    have many := collectColumns_eq_error ran
    rw [Nat.zero_add, (order.filter _).length_eq] at many
    exact Or.inr ⟨⟨reason, rfl⟩, many⟩
  | ok shards =>
    have rebuilt : ∀ client ∈ events.arrival row (List.range vlog.copies.length), ∀ column,
        vlog.rebuildRead events row client = some column →
        (code.encodeRow (vlog.rowAt bytes row))[client]? = some column := by
      intro client _ column read
      obtain ⟨inside, column_eq⟩ := stores.readShard_eq coded (Nat.le_of_eq (Nat.zero_add _)) read
      obtain ⟨found, width⟩ := coded.getElem?_encodeRow whole inside
      rw [found, column_eq, slice, List.drop_zero, coded.column_eq,
        List.take_of_length_le (Nat.le_of_eq width)]
    have nothing : Gathered (code.encodeRow (vlog.rowAt bytes row))
        (List.replicate vlog.copies.length none) [] := by
      refine ⟨fun index column found => ?_, by simp, List.nodup_nil⟩
      rw [List.getElem?_replicate] at found
      split_ifs at found
      cases found
    obtain ⟨length_eq, chosen, gathered, enough⟩ := collectColumns_eq_ok rebuilt nothing
      (by rw [List.append_nil]; exact order.nodup_iff.mpr List.nodup_range)
      (fun client member => by
        rw [List.length_replicate]
        exact List.mem_range.mp (order.subset member))
      (by
        rw [order.length_eq, List.length_range, List.length_nil,
          coded.count_eq, coded.data_eq, coded.parity_eq]
        rfl)
      (Nat.zero_le _) ran
    rw [List.length_replicate, coded.count_eq] at length_eq
    rw [coded.data_eq] at enough
    rw [coded.stripeWidth_eq] at whole
    have exact_row := ErasureCode.reconstruct_encodeRow whole length_eq
      gathered.genuine gathered.distinct enough gathered.there
    dsimp only
    rw [exact_row]
    exact Or.inl rfl

/-- One column of a row, directly or from the rebuilt row. -/
theorem StoresRow.readColumn_cases (events : ReadEvents) {position count column : Nat}
    {columns : Option (List Bytes)} (isData : column < vlog.dataShards)
    (within : position + count ≤ vlog.columnBytes)
    (rebuilt : ∀ word, columns = some word → word = code.encodeRow (vlog.rowAt bytes row)) :
    (∃ next, vlog.readColumn code events row position count column columns =
        .ok (slice (vlog.rowAt bytes row) (column * vlog.columnBytes + position) count, next) ∧
      ∀ word, next = some word → word = code.encodeRow (vlog.rowAt bytes row)) ∨
      (∃ reason, vlog.readColumn code events row position count column columns = .error reason) ∧
        vlog.parityShards < (vlog.missing events row).length := by
  have inside : column < vlog.copies.length := by
    rw [coded.count_eq]
    rw [coded.data_eq] at isData
    omega
  have whole := stores.length_row
  obtain ⟨found, -⟩ := coded.getElem?_encodeRow whole inside
  have part : slice (vlog.column code (vlog.rowAt bytes row) column) position
      count = slice (vlog.rowAt bytes row) (column * vlog.columnBytes + position) count := by
    rw [coded.stripeWidth_eq] at whole
    rw [coded.data_eq] at isData
    rw [← ErasureCode.slice_encodeRow whole isData found, ← coded.column_eq, slice_slice _ within]
  cases columns with
  | some word =>
    refine Or.inl ⟨some word, ?_, rebuilt⟩
    rw [readColumn, rebuilt word rfl, found, Option.getD_some, part]
  | none =>
    rw [readColumn]
    cases direct : vlog.readShard (events.direct row column) column
        (row * vlog.columnBytes + position) count with
    | some data =>
      obtain ⟨-, data_eq⟩ := stores.readShard_eq coded within direct
      refine Or.inl ⟨none, ?_, by simp⟩
      rw [data_eq, part]
    | none =>
      rcases stores.reconstructRow_cases coded events with
        rebuiltRow | ⟨⟨reason, failed⟩, many⟩
      · refine Or.inl ⟨some _, ?_, fun word isWord =>
          (Option.some.inj isWord).symm⟩
        dsimp only
        rw [rebuiltRow]
        dsimp only
        rw [found, Option.getD_some, part]
      · refine Or.inr ⟨⟨reason, ?_⟩, many⟩
        dsimp only
        rw [failed]

/-- The bytes of a row between two positions. -/
theorem StoresRow.readRowRange_cases (events : ReadEvents) {stop : Nat}
    (inRow : stop ≤ vlog.stripeWidth) (current : Nat) (reached : current ≤ stop)
    (columns : Option (List Bytes))
    (rebuilt : ∀ word, columns = some word → word = code.encodeRow (vlog.rowAt bytes row)) :
    vlog.readRowRange code events row stop current columns =
        .ok (slice (vlog.rowAt bytes row) current (stop - current)) ∨
      (∃ reason, vlog.readRowRange code events row stop current columns = .error reason) ∧
        vlog.parityShards < (vlog.missing events row).length := by
  induction remaining_eq : stop - current using Nat.strong_induction_on
    generalizing current columns with
  | h remaining ih =>
    have positive : 0 < vlog.columnBytes := by
      rw [coded.column_eq]
      exact code.width_pos
    rw [readRowRange.eq_def]
    by_cases done : current = stop
    · rw [dif_neg (by omega)]
      left
      have none_left : remaining = 0 := by omega
      rw [none_left, slice_zero_count]
    rw [dif_pos ⟨by omega, positive⟩]
    dsimp only
    have position_lt := Nat.mod_lt current positive
    have split := Nat.div_add_mod current vlog.columnBytes
    have isData : current / vlog.columnBytes < vlog.dataShards := by
      apply Nat.div_lt_of_lt_mul
      rw [stripeWidth] at inRow
      omega
    generalize count_eq : min (vlog.columnBytes - current % vlog.columnBytes)
      (stop - current) = count
    have place : current / vlog.columnBytes * vlog.columnBytes +
        current % vlog.columnBytes = current := by
      rw [Nat.mul_comm]
      exact split
    rcases stores.readColumn_cases coded events isData
      (by omega : current % vlog.columnBytes + count ≤ vlog.columnBytes)
      rebuilt with ⟨next, ran, rebuiltNext⟩ | ⟨⟨reason, failed⟩, many⟩
    · rw [ran, place]
      dsimp only
      rcases ih (stop - (current + count)) (by omega) (current + count)
        (by omega) next rebuiltNext rfl with rest | ⟨⟨reason, failed⟩, many⟩
      · left
        rw [rest]
        have total : count + (stop - (current + count)) = remaining := by
          omega
        dsimp only
        rw [slice_append_slice, total]
      · right
        rw [failed]
        exact ⟨⟨reason, rfl⟩, many⟩
    · right
      rw [failed]
      exact ⟨⟨reason, rfl⟩, many⟩

end

/-- The rows of a range, all of which lie on the plogs. -/
theorem readRows_cases (coded : vlog.Coded code) (events : ReadEvents)
    {stop : Nat} (current : Nat) (reached : current ≤ stop)
    (stores : ∀ row, row * vlog.stripeWidth < stop → current < (row + 1) * vlog.stripeWidth →
      vlog.StoresRow code bytes row) :
    vlog.readRows code events stop current = .ok (slice bytes current (stop - current)) ∨
      (∃ reason, vlog.readRows code events stop current = .error reason) ∧
        ∃ row, row * vlog.stripeWidth < stop ∧ current < (row + 1) * vlog.stripeWidth ∧
          vlog.parityShards < (vlog.missing events row).length := by
  induction remaining_eq : stop - current using Nat.strong_induction_on generalizing current with
  | h remaining ih =>
    have positive := coded.stripeWidth_pos
    rw [readRows.eq_def]
    by_cases done : current = stop
    · rw [dif_neg (by omega)]
      left
      have none_left : remaining = 0 := by omega
      rw [none_left, slice_zero_count]
    rw [dif_pos ⟨by omega, positive⟩]
    dsimp only
    generalize row_eq : current / vlog.stripeWidth = row
    have starts : row * vlog.stripeWidth ≤ current := by
      rw [← row_eq]
      exact Nat.div_mul_le_self _ _
    have ends : current < (row + 1) * vlog.stripeWidth := by
      rw [← row_eq, Nat.mul_comm]
      exact Nat.lt_mul_div_succ current positive
    have isStored := stores row (by omega) ends
    have next : (row + 1) * vlog.stripeWidth =
        row * vlog.stripeWidth + vlog.stripeWidth := Nat.succ_mul _ _
    generalize end_eq : min ((row + 1) * vlog.stripeWidth) stop = rowEnd
    rcases isStored.readRowRange_cases coded events
      (by omega : rowEnd - row * vlog.stripeWidth ≤ vlog.stripeWidth)
      (current - row * vlog.stripeWidth) (by omega) none (by simp) with
      ran | ⟨⟨reason, failed⟩, many⟩
    · rw [ran]
      dsimp only
      have part : slice (vlog.rowAt bytes row) (current - row * vlog.stripeWidth)
          (rowEnd - row * vlog.stripeWidth - (current - row * vlog.stripeWidth)) =
          slice bytes current (rowEnd - current) := by
        rw [rowAt, slice_slice _ (by omega), Nat.add_sub_cancel' starts]
        congr 1
        omega
      rw [part]
      rcases ih (stop - rowEnd) (by omega) rowEnd (by omega)
        (fun later before after => stores later before (by omega)) rfl with
        rest | ⟨⟨reason, failed⟩, later, before, after, many⟩
      · left
        rw [rest]
        dsimp only
        rw [slice_append_slice_of_le bytes (by omega) (by omega), remaining_eq]
      · right
        rw [failed]
        exact ⟨⟨reason, rfl⟩, later, before, by omega, many⟩
    · right
      rw [failed]
      exact ⟨⟨reason, rfl⟩, row, by omega, ends, many⟩

theorem read_cases (coded : vlog.Coded code) (events : ReadEvents)
    {offset count : Nat} (inside : offset + count ≤ vlog.length)
    (fits : vlog.length < 2 ^ 63)
    (stores : ∀ row, row * vlog.stripeWidth < offset + count →
      offset < (row + 1) * vlog.stripeWidth →
      vlog.StoresRow code bytes row) :
    vlog.read code events offset count = .ok (slice bytes offset count) ∨
      (∃ reason, vlog.read code events offset count = .error reason) ∧
        ∃ row, row * vlog.stripeWidth < offset + count ∧ offset < (row + 1) * vlog.stripeWidth ∧
          vlog.parityShards < (vlog.missing events row).length := by
  have stop_eq : ((offset : Int) + (count : Int)).toNat = offset + count := by
    omega
  have direct : vlog.read code events offset count =
      vlog.readRows code events (offset + count) offset := by
    unfold read
    rw [if_neg (by omega), if_neg (by omega), if_neg (by omega), coded.scheme,
      stop_eq, Int.toNat_natCast]
  have rows := readRows_cases coded events offset (Nat.le_add_right _ _) stores
  rwa [Nat.add_sub_cancel_left, ← direct] at rows

end Vlog

end Rose
