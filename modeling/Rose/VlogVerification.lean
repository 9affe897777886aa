import Rose.StripedRuns

/-!
# What verification of a vlog promises

A verified range can be read back from every mirror alone, or from any columns
that are as many as there is data, and gives the expected bytes.  Conversely
bytes that every plog reads back as they were sent to it verify.
-/

namespace Rose

open ListSplice FixedBlocks

/-- Every entry was mapped, at its place. -/
theorem mapM_eq_some_iff {α β : Type} {convert : α → Option β} {list : List α} {mapped : List β} :
    list.mapM convert = some mapped ↔ mapped.length = list.length ∧ ∀ (index : Nat) (entry : α),
        list[index]? = some entry → convert entry = mapped[index]? := by
  induction list generalizing mapped with
  | nil =>
    rw [List.mapM_nil]
    constructor
    · intro isNil
      cases isNil
      simp
    · rintro ⟨length_eq, -⟩
      rw [List.eq_nil_of_length_eq_zero length_eq]
      rfl
  | cons first rest ih =>
    rw [List.mapM_cons]
    constructor
    · intro ran
      obtain ⟨value, isValue, ran⟩ := Option.bind_eq_some_iff.mp ran
      obtain ⟨values, areValues, ran⟩ := Option.bind_eq_some_iff.mp ran
      cases ran
      obtain ⟨length_eq, places⟩ := ih.mp areValues
      refine ⟨congrArg (· + 1) length_eq, fun index entry found => ?_⟩
      cases index with
      | zero =>
        cases found
        exact isValue
      | succ index => exact places index entry found
    · rintro ⟨length_eq, places⟩
      cases mapped with
      | nil => cases length_eq
      | cons value values =>
        have isValue : convert first = some value := places 0 first rfl
        have areValues : rest.mapM convert = some values :=
          ih.mpr ⟨Nat.succ.inj length_eq, fun index entry found =>
            places (index + 1) entry found⟩
        rw [isValue, areValues]
        rfl

namespace Vlog

variable {code : ErasureCode UInt8} {vlog : Vlog} {offset row : Nat} {expected : Bytes}

variable {validRow : List Bytes → Bool}

/-- When a row passes: its columns form a codeword, and its data columns agree
with the expected bytes where the range meets them. -/
theorem rowMatches_eq_true :
    vlog.rowMatches validRow offset expected row = true ↔
      ∃ shards, vlog.copies.mapM (PlogCopy.read · (row * vlog.columnBytes)
          vlog.columnBytes) = some shards ∧
        validRow shards = true ∧
        ∀ (shard : Nat) (column : Bytes), shard < vlog.dataShards → shards[shard]? = some column →
          vlog.columnMatches offset expected row shard column = true := by
  unfold rowMatches
  cases vlog.copies.mapM (PlogCopy.read · (row * vlog.columnBytes) vlog.columnBytes) with
  | none => simp
  | some shards =>
    dsimp only
    rw [Bool.and_eq_true, List.all_eq_true]
    constructor
    · rintro ⟨valid, all⟩
      refine ⟨shards, rfl, valid, fun shard column isData found => ?_⟩
      apply all (column, shard)
      apply List.mem_zipIdx_iff_getElem?.mpr
      rw [List.getElem?_take_of_lt isData]
      exact found
    · rintro ⟨other, same, valid, all⟩
      cases same
      refine ⟨valid, ?_⟩
      rintro ⟨column, shard⟩ member
      have found := List.mem_zipIdx_iff_getElem?.mp member
      have isData : shard < vlog.dataShards := by
        have inside := (List.getElem?_eq_some_iff.mp found).1
        rw [List.length_take] at inside
        omega
      rw [List.getElem?_take_of_lt isData] at found
      exact all shard column isData found

theorem columnMatches_byte {shard place : Nat} {column : Bytes}
    (agrees : vlog.columnMatches offset expected row shard column = true)
    (starts : (row * vlog.dataShards + shard) * vlog.columnBytes ≤ place)
    (ends : place < (row * vlog.dataShards + shard) * vlog.columnBytes + vlog.columnBytes)
    (above : offset ≤ place) (below : place < offset + expected.length) :
    column[place - (row * vlog.dataShards + shard) * vlog.columnBytes]? =
      expected[place - offset]? := by
  simp only [columnMatches, decide_eq_true_iff] at agrees
  generalize start_eq : (row * vlog.dataShards + shard) * vlog.columnBytes = start at *
  generalize low_eq : max start offset = low at *
  generalize high_eq : min (start + vlog.columnBytes) (offset + expected.length) = high at *
  have same := congrArg (·[place - low]?) (agrees (by omega))
  rw [getElem?_slice, getElem?_slice, if_pos (by omega), if_pos (by omega)] at same
  have inColumn : low - start + (place - low) = place - start := by omega
  have inRange : low - offset + (place - low) = place - offset := by omega
  rwa [inColumn, inRange] at same

/-- A row that passed is stored as one row on all plogs. -/
theorem row_of_rowMatches (coded : vlog.Coded code)
    (passed : vlog.rowMatches code.verify offset expected row = true) :
    ∃ rowData, rowData.length = vlog.stripeWidth ∧
      (∀ (client : Nat) (copy : PlogCopy), vlog.copies[client]? = some copy →
        copy.read (row * vlog.columnBytes) vlog.columnBytes =
          some (vlog.column code rowData client)) ∧
      ∀ shard < vlog.dataShards, vlog.columnMatches offset expected row shard
        (vlog.column code rowData shard) = true := by
  obtain ⟨shards, read, valid, agree⟩ := rowMatches_eq_true.mp passed
  obtain ⟨count, places⟩ := mapM_eq_some_iff.mp read
  have widths : ∀ column ∈ shards, column.length = code.width := by
    intro column member
    obtain ⟨index, inside, rfl⟩ := List.mem_iff_getElem.mp member
    have place := places index _ (List.getElem?_eq_getElem (Nat.lt_of_lt_of_eq inside count))
    rw [List.getElem?_eq_getElem inside, PlogCopy.read] at place
    split_ifs at place with readable
    rw [← Option.some.inj place, length_slice, ← coded.column_eq]
    omega
  obtain ⟨rowData, whole, rfl⟩ := ErasureCode.exists_encodeRow_of_verify
    (count.trans coded.count_eq) widths valid
  rw [← coded.stripeWidth_eq] at whole
  refine ⟨rowData, whole, fun client copy found => ?_, fun shard isData => ?_⟩
  · rw [places client copy found]
    exact (coded.getElem?_encodeRow whole (List.getElem?_eq_some_iff.mp found).1).1
  · apply agree shard _ isData
    have inside : shard < vlog.copies.length := by
      rw [coded.data_eq] at isData
      rw [coded.count_eq]
      omega
    exact (coded.getElem?_encodeRow whole inside).1

/-- The rows that the range meets all passed. -/
theorem rowMatches_of_verifyAll (scheme : vlog.protectionScheme = .ec)
    (positive : 0 < vlog.stripeWidth) (verified : vlog.verifyAll validRow offset expected = true) :
    offset + expected.length ≤ vlog.length ∧ ∀ row,
      row * vlog.stripeWidth < offset + expected.length →
      offset < (row + 1) * vlog.stripeWidth → expected ≠ [] →
      vlog.rowMatches validRow offset expected row = true := by
  unfold verifyAll at verified
  by_cases outside : vlog.length < offset + expected.length
  · rw [if_pos outside] at verified
    cases verified
  rw [if_neg outside] at verified
  refine ⟨Nat.le_of_not_lt outside, fun row before after nonempty => ?_⟩
  rw [if_neg nonempty, scheme] at verified
  dsimp only at verified
  rw [List.all_eq_true] at verified
  apply verified
  rw [List.mem_range']
  change ∃ index < (offset + expected.length - 1) / vlog.stripeWidth + 1 -
    offset / vlog.stripeWidth,
    row = offset / vlog.stripeWidth + 1 * index
  have first : offset / vlog.stripeWidth ≤ row :=
    Nat.lt_succ_iff.mp (Nat.div_lt_of_lt_mul (by rw [Nat.mul_comm]; exact after))
  have last : row ≤ (offset + expected.length - 1) / vlog.stripeWidth := by
    rw [Nat.le_div_iff_mul_le positive]
    omega
  exact ⟨row - offset / vlog.stripeWidth, by omega, by omega⟩

theorem exists_joined_rows {rowData : Nat → Bytes} {stop : Nat} (positive : 0 < vlog.stripeWidth)
    (whole : ∀ row, (rowData row).length = vlog.stripeWidth) :
    ∃ bytes : Bytes, ∀ row, row * vlog.stripeWidth < stop →
      (row + 1) * vlog.stripeWidth ≤ bytes.length ∧ vlog.rowAt bytes row = rowData row := by
  refine ⟨((List.range stop).map rowData).flatten, fun row before => ?_⟩
  have sizes : ∀ block ∈ (List.range stop).map rowData, block.length = vlog.stripeWidth := by
    intro block member
    obtain ⟨index, -, rfl⟩ := List.mem_map.mp member
    exact whole index
  have below : row < stop := Nat.lt_of_le_of_lt (Nat.le_mul_of_pos_right row positive) before
  constructor
  · rw [length_flatten_blocks sizes, List.length_map, List.length_range, Nat.mul_comm]
    exact Nat.mul_le_mul_left _ below
  · have found : ((List.range stop).map rowData)[row]? = some (rowData row) := by
      rw [List.getElem?_map, List.getElem?_range below]
      rfl
    have part := slice_flatten [] sizes found
    rw [List.append_nil, Nat.mul_comm] at part
    exact part

/-- Where a byte of the range stands. -/
theorem byte_of_columnMatches (coded : vlog.Coded code) {rowData : Bytes}
    (whole : rowData.length = vlog.stripeWidth)
    (agree : ∀ shard < vlog.dataShards, vlog.columnMatches offset expected row
      shard (vlog.column code rowData shard) = true) {place : Nat}
    (starts : row * vlog.stripeWidth ≤ place)
    (ends : place < (row + 1) * vlog.stripeWidth)
    (above : offset ≤ place) (below : place < offset + expected.length) :
    rowData[place - row * vlog.stripeWidth]? = expected[place - offset]? := by
  have positive : 0 < vlog.columnBytes := by
    rw [coded.column_eq]
    exact code.width_pos
  rw [Nat.succ_mul] at ends
  generalize inRow_eq : place - row * vlog.stripeWidth = inRow
  have split := Nat.div_add_mod inRow vlog.columnBytes
  have position_lt := Nat.mod_lt inRow positive
  have isData : inRow / vlog.columnBytes < vlog.dataShards := by
    apply Nat.div_lt_of_lt_mul
    rw [stripeWidth] at ends starts inRow_eq
    omega
  generalize shard_eq : inRow / vlog.columnBytes = shard at *
  have start_eq : (row * vlog.dataShards + shard) * vlog.columnBytes =
      row * vlog.stripeWidth + vlog.columnBytes * shard := by
    rw [stripeWidth, Nat.add_mul, Nat.mul_assoc, Nat.mul_comm shard, Nat.mul_comm vlog.dataShards]
  have byte := columnMatches_byte (agree shard isData)
    (by rw [start_eq]; omega) (by rw [start_eq]; omega) above below
  have inside : shard < vlog.copies.length := by
    rw [coded.data_eq] at isData
    rw [coded.count_eq]
    omega
  obtain ⟨found, -⟩ := coded.getElem?_encodeRow whole inside
  rw [coded.stripeWidth_eq] at whole
  rw [coded.data_eq] at isData
  have column_eq := ErasureCode.slice_encodeRow whole isData found
  rw [start_eq, ← column_eq, ← coded.column_eq, getElem?_slice, if_pos (by omega)] at byte
  have place_eq : shard * vlog.columnBytes +
      (place - (row * vlog.stripeWidth + vlog.columnBytes * shard)) =
      inRow := by
    rw [Nat.mul_comm shard]
    omega
  rwa [place_eq] at byte

/-- A verified range is stored on the plogs as rows that hold the expected
bytes. -/
theorem exists_stored_bytes (coded : vlog.Coded code)
    (passed : ∀ row, row * vlog.stripeWidth < offset + expected.length →
      offset < (row + 1) * vlog.stripeWidth →
      vlog.rowMatches code.verify offset expected row = true) :
    ∃ bytes : Bytes, slice bytes offset expected.length = expected ∧
      ∀ row, row * vlog.stripeWidth < offset + expected.length →
        offset < (row + 1) * vlog.stripeWidth →
        vlog.StoresRow code bytes row ∧ ∀ (client : Nat) (copy : PlogCopy),
          vlog.copies[client]? = some copy →
          (copy.read (row * vlog.columnBytes) vlog.columnBytes).isSome := by
  have positive := coded.stripeWidth_pos
  have rowOf : ∀ row, ∃ rowData : Bytes, rowData.length = vlog.stripeWidth ∧
      (row * vlog.stripeWidth < offset + expected.length → offset < (row + 1) * vlog.stripeWidth →
        (∀ (client : Nat) (copy : PlogCopy), vlog.copies[client]? = some copy →
          copy.read (row * vlog.columnBytes) vlog.columnBytes =
            some (vlog.column code rowData client)) ∧
        ∀ shard < vlog.dataShards, vlog.columnMatches offset expected row
          shard (vlog.column code rowData shard) = true) := by
    intro row
    by_cases meets : row * vlog.stripeWidth < offset + expected.length ∧
        offset < (row + 1) * vlog.stripeWidth
    · obtain ⟨rowData, whole, stored, agree⟩ := row_of_rowMatches coded (passed row meets.1 meets.2)
      exact ⟨rowData, whole, fun _ _ => ⟨stored, agree⟩⟩
    · exact ⟨List.replicate vlog.stripeWidth 0, List.length_replicate,
        fun before after => absurd ⟨before, after⟩ meets⟩
  choose rowData whole stored using rowOf
  obtain ⟨bytes, rows⟩ := @exists_joined_rows vlog rowData (offset + expected.length) positive whole
  refine ⟨bytes, ?_, fun row before after => ⟨⟨(rows row before).1, ?_⟩, ?_⟩⟩
  · apply List.ext_getElem?
    intro index
    rw [getElem?_slice]
    by_cases inside : index < expected.length
    · rw [if_pos inside]
      have starts := Nat.div_mul_le_self (offset + index) vlog.stripeWidth
      have ends := Nat.lt_mul_div_succ (offset + index) positive
      rw [Nat.mul_comm] at ends
      generalize (offset + index) / vlog.stripeWidth = row at starts ends
      obtain ⟨-, rowAt_eq⟩ := rows row (by omega)
      have byte := byte_of_columnMatches coded (whole row)
        (stored row (by omega) (by omega)).2 starts ends
        (Nat.le_add_right _ _) (by omega)
      rw [← rowAt_eq, rowAt, getElem?_slice, Nat.add_sub_cancel' starts,
        Nat.add_sub_cancel_left] at byte
      rw [Nat.succ_mul] at ends
      rwa [if_pos (by omega)] at byte
    · rw [if_neg inside, List.getElem?_eq_none (by omega)]
  · intro client copy found
    have read := (stored row before after).1 client copy found
    have inside := (List.getElem?_eq_some_iff.mp found).1
    rw [(rows row before).2, LiesAt,
      (coded.getElem?_encodeRow (whole row) inside).2, ← coded.column_eq]
    unfold PlogCopy.read at read
    split_ifs at read
    exact Option.some.inj read
  · intro client copy found
    rw [(stored row before after).1 client copy found]
    rfl

/-- The columns of a row that answer when it is rebuilt. -/
def survivors (vlog : Vlog) (events : ReadEvents) (row : Nat) : List Nat :=
  (List.range vlog.copies.length).filter (events.rebuild row)

section

variable (coded : vlog.Coded code)
include coded

/-- With every plog readable, only columns that do not answer are missing. -/
theorem missing_le_of_survivors {events : ReadEvents}
    (readable : ∀ (client : Nat) (copy : PlogCopy), vlog.copies[client]? = some copy →
      (copy.read (row * vlog.columnBytes) vlog.columnBytes).isSome)
    (enough : vlog.dataShards ≤ (vlog.survivors events row).length) :
    (vlog.missing events row).length ≤ vlog.parityShards := by
  have total : (List.range vlog.copies.length).length = _ :=
    List.length_eq_length_filter_add (events.rebuild row)
  have few : (vlog.missing events row).length ≤
      ((List.range vlog.copies.length).filter fun client => !events.rebuild row client).length := by
    rw [missing, ← List.countP_eq_length_filter, ← List.countP_eq_length_filter]
    apply List.countP_mono_left
    intro client isClient absent
    have found := List.getElem?_eq_getElem (List.mem_range.mp isClient)
    have served := readable client _ found
    cases answers : events.rebuild row client with
    | false => rfl
    | true =>
      rw [rebuildRead, readShard, answers, if_pos rfl, found, Option.bind_some] at absent
      rw [Option.isNone_iff_eq_none.mp absent] at served
      cases served
  have count : vlog.copies.length = vlog.dataShards + vlog.parityShards := by
    rw [coded.count_eq, coded.data_eq, coded.parity_eq]
  rw [List.length_range] at total
  unfold survivors at enough
  omega

/-- A verified range is read back from any columns that are as many as there is
data. -/
theorem read_of_verifyAll (fits : vlog.length < 2 ^ 63)
    (verified : vlog.verifyAll code.verify offset expected = true) (events : ReadEvents)
    (enough : ∀ row, row * vlog.stripeWidth < offset + expected.length →
      offset < (row + 1) * vlog.stripeWidth →
      vlog.dataShards ≤ (vlog.survivors events row).length) :
    vlog.read code events offset expected.length = .ok expected := by
  obtain ⟨inside, passed⟩ := rowMatches_of_verifyAll coded.scheme coded.stripeWidth_pos verified
  by_cases empty : expected = []
  · have nothing : vlog.readRows code events offset offset = .ok [] := by
      rw [readRows.eq_def, dif_neg (by omega)]
    subst empty
    rw [List.length_nil] at inside ⊢
    unfold read
    rw [if_neg (by omega), if_neg (by omega), if_neg (by omega), coded.scheme]
    dsimp only
    rw [Int.natCast_zero, Int.add_zero, Int.toNat_natCast]
    exact nothing
  · obtain ⟨bytes, bytes_eq, stored⟩ := exists_stored_bytes coded
      fun row before after => passed row before after empty
    rcases read_cases coded events inside fits
      (fun row before after => (stored row before after).1) with
      ran | ⟨-, row, before, after, many⟩
    · rw [ran, bytes_eq]
    · have few := missing_le_of_survivors coded (stored row before after).2
        (enough row before after)
      omega

/-- Bytes that all plogs read back as they were sent to them verify. -/
theorem Coded.rowMatches_of_readBack {now : Vlog} (codedNow : now.Coded code)
    (aligned : vlog.length % vlog.stripeWidth = 0) {data : Bytes}
    (whole : data.length % vlog.stripeWidth = 0)
    (readBack : ∀ (client : Nat) (copy : PlogCopy), now.copies[client]? = some copy →
      ∀ piece ∈ vlog.writePieces code data client, copy.read piece.1 piece.2.length = some piece.2)
    (before : row * vlog.stripeWidth < vlog.length + data.length)
    (after : vlog.length / vlog.stripeWidth ≤ row) :
    now.rowMatches code.verify vlog.length data row = true := by
  have positive := coded.stripeWidth_pos
  have rowsBefore : vlog.length / vlog.stripeWidth * vlog.stripeWidth =
      vlog.length := Nat.div_mul_cancel (Nat.dvd_of_mod_eq_zero aligned)
  obtain ⟨index, rfl⟩ := Nat.exists_eq_add_of_le after
  have start : (vlog.length / vlog.stripeWidth + index) * vlog.stripeWidth =
      vlog.length + index * vlog.stripeWidth := by
    rw [Nat.add_mul, rowsBefore]
  have isWhole : (index + 1) * vlog.stripeWidth ≤ data.length := by
    have rows := Nat.div_mul_cancel (Nat.dvd_of_mod_eq_zero whole)
    have below : index < data.length / vlog.stripeWidth := by
      apply Nat.lt_of_mul_lt_mul_right (a := vlog.stripeWidth)
      rw [rows]
      omega
    rw [← rows]
    exact Nat.mul_le_mul_right _ below
  have block := exists_block positive isWhole
  have block_length : (slice data (index * vlog.stripeWidth)
      vlog.stripeWidth).length = vlog.stripeWidth :=
    length_of_mem_splitBlocks (List.mem_of_getElem? block)
  generalize row_eq : slice data (index * vlog.stripeWidth) vlog.stripeWidth =
    rowData at block block_length
  have place : vlog.plogOffset (vlog.length + index * vlog.stripeWidth) =
      (vlog.length / vlog.stripeWidth + index) * now.columnBytes := by
    rw [plogOffset, Nat.add_mul_div_right _ _ positive, codedNow.column_eq, coded.column_eq]
  have counts : now.copies.length = vlog.copies.length :=
    codedNow.count_eq.trans coded.count_eq.symm
  have encoded : rowData.length = code.rowWidth := by
    rw [block_length, coded.stripeWidth_eq]
  refine rowMatches_eq_true.mpr ⟨code.encodeRow rowData, ?_,
    ErasureCode.verify_encodeRow encoded, fun shard column isData found => ?_⟩
  · refine mapM_eq_some_iff.mpr ⟨?_, fun client copy found => ?_⟩
    · rw [ErasureCode.length_encodeRow encoded, codedNow.count_eq]
    · have inside := (List.getElem?_eq_some_iff.mp found).1
      rw [counts] at inside
      obtain ⟨isColumn, width⟩ := coded.getElem?_encodeRow block_length inside
      have member : (vlog.plogOffset (vlog.length + index * vlog.stripeWidth),
          vlog.column code rowData client) ∈
          vlog.writePieces code data client := by
        rw [writePieces_ec coded.scheme]
        exact mem_columnPieces block client
      have read := readBack client copy found _ member
      rw [place, width, ← codedNow.column_eq] at read
      rw [isColumn, read]
  · rw [codedNow.data_eq] at isData
    have column_eq := ErasureCode.slice_encodeRow encoded isData found
    have fits : (shard + 1) * code.width ≤ code.data * code.width := Nat.mul_le_mul_right _ isData
    rw [Nat.succ_mul, Nat.mul_comm code.data, ← ErasureCode.rowWidth,
      ← coded.stripeWidth_eq] at fits
    rw [← row_eq, slice_slice _ fits] at column_eq
    have start_eq : ((vlog.length / vlog.stripeWidth + index) *
        now.dataShards + shard) * now.columnBytes =
        vlog.length + (index * vlog.stripeWidth + shard * code.width) := by
      have width_eq : now.dataShards * now.columnBytes = vlog.stripeWidth := by
        rw [codedNow.data_eq, codedNow.column_eq, Nat.mul_comm, coded.stripeWidth_eq]
        rfl
      rw [Nat.add_mul, Nat.mul_assoc, width_eq, start, codedNow.column_eq, Nat.add_assoc]
    simp only [columnMatches, decide_eq_true_iff]
    rw [start_eq, codedNow.column_eq, Nat.max_eq_left (Nat.le_add_right _ _),
      Nat.sub_self, Nat.add_sub_cancel_left, ← column_eq]
    intro _
    rw [slice_slice _ (by omega), Nat.add_zero]

end

theorem verifyAll_of_readBack {now after : Vlog} {events : WriteEvents}
    {data : Bytes} {max : Option Nat}
    (ran : vlog.writeWithin code events data max = (.ok offset, after))
    (scheme_eq : now.protectionScheme = vlog.protectionScheme)
    (rows : vlog.protectionScheme = .ec → vlog.Coded code ∧ now.Coded code ∧
      vlog.length % vlog.stripeWidth = 0)
    (reaches : after.length ≤ now.length)
    (readBack : ∀ (client : Nat) (copy : PlogCopy), now.copies[client]? = some copy →
      ∀ piece ∈ vlog.writePieces code data client,
        copy.read piece.1 piece.2.length = some piece.2) :
    now.verifyAll code.verify offset data = true := by
  obtain ⟨rfl, wrote⟩ := wrote_of_writeWithin ran
  rw [wrote.length_eq] at reaches
  unfold verifyAll
  rw [if_neg (Nat.not_lt.mpr reaches)]
  by_cases empty : data = []
  · rw [if_pos empty]
  rw [if_neg empty]
  by_cases scheme : vlog.protectionScheme = .ec
  · obtain ⟨coded, codedNow, aligned⟩ := rows scheme
    have whole : data.length % vlog.stripeWidth = 0 := by
      have inOne := (ensureWrite_of_writeWithin ran).2
      rcases ensureWrite_cases code vlog events vlog.length [data] with
        ⟨-, reason, result⟩ | ⟨isEmpty, -⟩ | ⟨-, whole, -⟩ | ⟨notEc, -⟩
      · rw [result] at inOne
        cases inOne
      · exact absurd (List.flatten_singleton.symm.trans isEmpty) empty
      · rwa [List.flatten_singleton] at whole
      · exact absurd scheme notEc
    have width_eq : now.columnBytes * now.dataShards = vlog.stripeWidth := by
      rw [codedNow.column_eq, codedNow.data_eq, coded.stripeWidth_eq]
      rfl
    rw [scheme_eq, scheme]
    dsimp only
    rw [width_eq, List.all_eq_true]
    intro row member
    obtain ⟨index, below, rfl⟩ := List.mem_range'.mp member
    have positive := coded.stripeWidth_pos
    have nonempty := List.length_pos_iff.mpr empty
    apply coded.rowMatches_of_readBack codedNow aligned whole readBack _ (by omega)
    have last : vlog.length / vlog.stripeWidth + 1 * index ≤
        (vlog.length + data.length - 1) / vlog.stripeWidth := by omega
    rw [Nat.le_div_iff_mul_le positive] at last
    omega
  · have all : (now.copies.all fun copy =>
        decide (copy.read vlog.length data.length = some data)) = true := by
      rw [List.all_eq_true]
      intro copy member
      obtain ⟨client, found⟩ := List.mem_iff_getElem?.mp member
      have read := readBack client copy found
      rw [writePieces_mirrored scheme] at read
      exact decide_eq_true (read _ List.mem_cons_self)
    cases kind : now.protectionScheme with
    | ec => exact absurd (scheme_eq.symm.trans kind) scheme
    | none => exact all
    | duplicate => exact all

theorem read_mirror_of_verifyAll (scheme : vlog.protectionScheme ≠ .ec)
    (verified : vlog.verifyAll validRow offset expected = true) (nonempty : expected ≠ [])
    {client : Nat} {copy : PlogCopy} (found : vlog.copies[client]? = some copy) :
    copy.read offset expected.length = some expected := by
  unfold verifyAll at verified
  split_ifs at verified
  have all : (vlog.copies.all fun copy =>
      decide (copy.read offset expected.length = some expected)) = true := by
    cases kind : vlog.protectionScheme with
    | ec => exact absurd kind scheme
    | none => rwa [kind] at verified
    | duplicate => rwa [kind] at verified
  rw [List.all_eq_true] at all
  exact of_decide_eq_true (all copy (List.mem_of_getElem? found))

/-- A range that verifies holds the expected bytes on every mirror alone, and on
any columns of an erasure coded row that are as many as there is data.  Bytes
that were written and that every plog reads back as they were sent to it
verify. -/
theorem verifyAll_promises_protection (code : ErasureCode UInt8) (vlog : Vlog) (offset : Nat)
    (expected : Bytes) :
    (vlog.verifyAll code.verify offset expected = true →
      (vlog.protectionScheme ≠ .ec → ∀ (client : Nat) (copy : PlogCopy),
        vlog.copies[client]? = some copy →
        LiesAt copy.content offset expected ∧ (expected ≠ [] →
          copy.read offset expected.length = some expected)) ∧
      (vlog.Coded code → vlog.length < 2 ^ 63 → ∀ events : ReadEvents,
        (∀ row, row * vlog.stripeWidth < offset + expected.length →
          offset < (row + 1) * vlog.stripeWidth →
          vlog.dataShards ≤ (vlog.survivors events row).length) →
        vlog.read code events offset expected.length = .ok expected)) ∧
    ∀ (before after : Vlog) (events : WriteEvents) (max : Option Nat),
      before.writeWithin code events expected max = (.ok offset, after) →
      vlog.protectionScheme = before.protectionScheme →
      (before.protectionScheme = .ec → before.Coded code ∧ vlog.Coded code ∧
        before.length % before.stripeWidth = 0) →
      after.length ≤ vlog.length →
      (∀ (client : Nat) (copy : PlogCopy), vlog.copies[client]? = some copy →
        ∀ piece ∈ before.writePieces code expected client,
          copy.read piece.1 piece.2.length = some piece.2) →
      vlog.verifyAll code.verify offset expected = true := by
  refine ⟨fun verified => ⟨fun scheme client copy found => ?_,
    fun coded fits => read_of_verifyAll coded fits verified⟩,
    fun before after events max ran => verifyAll_of_readBack ran⟩
  by_cases empty : expected = []
  · rw [empty]
    exact ⟨slice_zero_count _ _, fun impossible => absurd rfl impossible⟩
  · have read := read_mirror_of_verifyAll scheme verified empty found
    refine ⟨?_, fun _ => read⟩
    unfold PlogCopy.read at read
    split_ifs at read
    exact Option.some.inj read

theorem verified_oneRow :
    oneRow.verifyAll (ErasureCode.xorCode 2 Nat.two_pos).verify 1 [2, 3] = true ∧
      oneRow.read (ErasureCode.xorCode 2 Nat.two_pos) withoutFirst 1 2 = .ok [2, 3] := by
  have verified : oneRow.verifyAll (ErasureCode.xorCode 2 Nat.two_pos).verify 1 [2, 3] = true := by
    decide
  refine ⟨verified, ((verifyAll_promises_protection
    (ErasureCode.xorCode 2 Nat.two_pos) oneRow 1 [2, 3]).1 verified).2
    ⟨rfl, rfl, rfl, rfl, rfl⟩ (by decide) withoutFirst fun row before _ => ?_⟩
  have isFirst : row = 0 := by
    change row * 4 < 3 at before
    omega
  rw [isFirst]
  decide

end Vlog

end Rose
