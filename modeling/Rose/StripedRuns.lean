import Rose.RebuiltRows
import Rose.VlogAttempts

/-!
# Erasure coded vlogs over whole runs

Whole rows are written, some of them in attempts that fail, plogs come and go,
and appends that were given up are carried out late.  Through all of this the
rows that were written stay on the plogs, and every range of them is read back
exactly unless more columns are missing than there is parity.
-/

namespace Rose

open ListSplice FixedBlocks PlogCopy

namespace Vlog

variable {code : ErasureCode UInt8} {vlog after : Vlog} {events : WriteEvents}
  {written data : Bytes} {offset : Nat}

theorem mem_columnPieces {rows : List Bytes} {index : Nat} {row : Bytes}
    (found : rows[index]? = some row) (client : Nat) :
    (vlog.plogOffset (offset + index * vlog.stripeWidth), vlog.column code row client) ∈
        columnPieces code vlog client offset rows := by
  induction rows generalizing offset index with
  | nil => simp at found
  | cons first rows ih =>
    rw [columnPieces]
    cases index with
    | zero =>
      rw [List.getElem?_cons_zero, Option.some.injEq] at found
      rw [Nat.zero_mul, Nat.add_zero, found]
      exact List.mem_cons_self
    | succ index =>
      rw [List.getElem?_cons_succ] at found
      have position : offset + (index + 1) * vlog.stripeWidth =
          offset + vlog.stripeWidth + index * vlog.stripeWidth := by
        rw [Nat.succ_mul]
        omega
      rw [position]
      exact List.mem_cons_of_mem _ (ih found)

/-- Rows that went out lie on the plogs. -/
theorem writeRows_lies {rows : List Bytes}
    (ran : writeRows code events vlog offset rows = (none, after)) {client : Nat} {copy : PlogCopy}
    (found : after.copies[client]? = some copy) :
    ∀ piece ∈ columnPieces code vlog client offset rows, LiesAt copy.content piece.1 piece.2 := by
  induction rows generalizing vlog offset with
  | nil => simp [columnPieces]
  | cons row rows ih =>
    rcases writeRows_cons_cases code vlog events offset row rows with
      ⟨reason, stopped, first, all⟩ | ⟨middle, first, all⟩
    · rw [all] at ran
      cases ran
    have grown := grown_writeRow code vlog events offset row
    have later := grown_writeRows code middle events (offset + vlog.stripeWidth) rows
    rw [first] at grown
    rw [all] at ran
    rw [ran] at later
    rw [columnPieces, List.forall_mem_cons]
    constructor
    · have inside : client < vlog.copies.length := by
        rw [← grown.count_eq, ← later.count_eq]
        exact (List.getElem?_eq_some_iff.mp found).1
      obtain ⟨next, foundNext, appended⟩ := writeRow_eq_none first (List.getElem?_eq_getElem inside)
      obtain ⟨last, foundLast, more⟩ := later.copies client next foundNext
      rw [found] at foundLast
      cases foundLast
      obtain ⟨reaches, agrees, -, rfl⟩ := ensureAppend_eq_ok_iff.mp appended
      exact (liesAt_extended reaches agrees).of_isPrefix more.begins
    · have rest := ih ran
      rwa [grown.columnPieces_eq] at rest

/-- The written bytes are on the plogs, row by row. -/
structure HoldsRows (code : ErasureCode UInt8) (vlog : Vlog) (written : Bytes) : Prop where
  coded : vlog.Coded code
  length_eq : vlog.length = written.length
  aligned : written.length % vlog.stripeWidth = 0
  rows : ∀ row, (row + 1) * vlog.stripeWidth ≤ written.length → vlog.StoresRow code written row

theorem SameSettings.coded (same : vlog.SameSettings after) (coded : vlog.Coded code) :
    after.Coded code where
  scheme := same.scheme_eq.trans coded.scheme
  data_eq := same.data_eq.trans coded.data_eq
  parity_eq := same.parity_eq.trans coded.parity_eq
  column_eq := same.column_eq.trans coded.column_eq
  count_eq := same.count_eq.trans coded.count_eq

section

variable (holds : vlog.HoldsRows code written)
include holds

theorem HoldsRows.of_longer (same : vlog.SameSettings after)
    (longer : ∀ (client : Nat) (copy : PlogCopy), vlog.copies[client]? = some copy → ∃ next,
        after.copies[client]? = some next ∧ copy.content <+: next.content) :
    after.HoldsRows code written := by
  refine ⟨same.coded holds.coded, same.length_eq.trans holds.length_eq,
    by rw [same.stripeWidth_eq]; exact holds.aligned, fun row inside => ?_⟩
  rw [same.stripeWidth_eq] at inside
  refine ⟨by rw [same.stripeWidth_eq]; exact inside, fun client copy found => ?_⟩
  have isClient : client < vlog.copies.length := by
    rw [← same.count_eq]
    exact (List.getElem?_eq_some_iff.mp found).1
  have foundBefore := List.getElem?_eq_getElem isClient
  obtain ⟨next, foundNext, begins⟩ := longer client _ foundBefore
  rw [found] at foundNext
  cases foundNext
  have lies := (holds.rows row inside).columns client _ foundBefore
  rw [same.column_eq, same.column_same, rowAt, same.stripeWidth_eq]
  exact lies.of_isPrefix begins

theorem HoldsRows.grown (grown : vlog.Grown after) : after.HoldsRows code written := by
  refine holds.of_longer grown.toSameSettings fun client copy found => ?_
  obtain ⟨next, foundNext, more⟩ := grown.copies client copy found
  exact ⟨next, foundNext, more.begins⟩

theorem HoldsRows.sameStreams (same : vlog.SameStreams after) : after.HoldsRows code written := by
  refine holds.of_longer same.toSameSettings fun client copy found => ?_
  obtain ⟨next, foundNext, content_eq⟩ := same.contents client copy found
  exact ⟨next, foundNext, content_eq ▸ List.prefix_refl _⟩

end

theorem exists_block {size index : Nat} (positive : 0 < size)
    (inside : (index + 1) * size ≤ data.length) :
    (splitBlocks size data).1[index]? = some (slice data (index * size) size) := by
  have total := length_splitBlocks size data
  have short := length_splitBlocks_rest positive data
  have isBlock : index < (splitBlocks size data).1.length := by
    apply Nat.lt_of_not_le
    intro beyond
    have bound := Nat.mul_le_mul_left size beyond
    rw [Nat.succ_mul, Nat.mul_comm] at inside
    omega
  have found := List.getElem?_eq_getElem isBlock
  have part := slice_flatten (splitBlocks size data).2 (fun _ => length_of_mem_splitBlocks) found
  rw [splitBlocks_flatten, Nat.mul_comm] at part
  rw [found, part]

section

variable (holds : vlog.HoldsRows code written)
include holds

/-- Rows that went out are on the plogs behind the earlier ones. -/
theorem HoldsRows.wroteRows (whole : data.length % vlog.stripeWidth = 0)
    (ran : writeRows code events vlog vlog.length
      (splitBlocks vlog.stripeWidth data).1 = (none, after)) :
    (after.lengthened data.length).HoldsRows code (written ++ data) := by
  have grown := grown_writeRows code vlog events vlog.length (splitBlocks vlog.stripeWidth data).1
  rw [ran] at grown
  have earlier := holds.grown grown
  have positive := holds.coded.stripeWidth_pos
  have width_eq : after.stripeWidth = vlog.stripeWidth := grown.stripeWidth_eq
  have rowsBefore : written.length / vlog.stripeWidth * vlog.stripeWidth = written.length :=
    Nat.div_mul_cancel (Nat.dvd_of_mod_eq_zero holds.aligned)
  refine ⟨⟨earlier.coded.scheme, earlier.coded.data_eq,
    earlier.coded.parity_eq, earlier.coded.column_eq,
    earlier.coded.count_eq⟩, ?_, ?_, fun row inside => ?_⟩
  · change after.length + data.length = _
    rw [earlier.length_eq, List.length_append]
  · change (written ++ data).length % after.stripeWidth = 0
    rw [List.length_append, width_eq, Nat.add_mod, whole, holds.aligned]
    exact Nat.zero_mod _
  change (row + 1) * after.stripeWidth ≤ _ at inside
  refine ⟨inside, fun client copy found => ?_⟩
  change LiesAt copy.content (row * after.columnBytes) (after.column code
    (slice (written ++ data) (row * after.stripeWidth) after.stripeWidth)
    client)
  rw [width_eq] at inside ⊢
  have row_end : (row + 1) * vlog.stripeWidth =
      row * vlog.stripeWidth + vlog.stripeWidth := Nat.succ_mul _ _
  by_cases old : (row + 1) * vlog.stripeWidth ≤ written.length
  · rw [slice_append_left (by omega), ← width_eq]
    exact (earlier.rows row (by rw [width_eq]; exact old)).columns client copy found
  · -- a new row, at its index among the rows of the write
    obtain ⟨index, rfl⟩ : ∃ index, row = written.length / vlog.stripeWidth + index := by
      refine ⟨row - written.length / vlog.stripeWidth, ?_⟩
      have le : written.length / vlog.stripeWidth ≤ row :=
        Nat.lt_succ_iff.mp (Nat.div_lt_of_lt_mul (by rw [Nat.mul_comm]; exact Nat.lt_of_not_le old))
      omega
    have start : (written.length / vlog.stripeWidth + index) *
        vlog.stripeWidth = written.length + index * vlog.stripeWidth := by
      rw [Nat.add_mul, rowsBefore]
    have isWhole : (index + 1) * vlog.stripeWidth ≤ data.length := by
      rw [List.length_append] at inside
      rw [Nat.succ_mul]
      omega
    have lies := writeRows_lies ran found _
      (mem_columnPieces (exists_block positive isWhole) client)
    have place : vlog.plogOffset (vlog.length + index * vlog.stripeWidth) =
        (written.length / vlog.stripeWidth + index) * vlog.columnBytes := by
      rw [plogOffset, holds.length_eq, Nat.add_mul_div_right _ _ positive]
    rw [start, slice_append_right, grown.column_same, grown.column_eq, ← place]
    exact lies

theorem HoldsRows.ensureWrite {parts : List Bytes}
    (ran : vlog.ensureWrite code events offset parts = (.ok (), after)) :
    after.HoldsRows code (written ++ parts.flatten) := by
  rcases ensureWrite_cases code vlog events offset parts with
    ⟨-, reason, result⟩ | ⟨empty, result⟩ | ⟨-, whole, result⟩ | ⟨notEc, -⟩
  · rw [result] at ran
    cases ran
  · rw [result] at ran
    cases ran
    rw [empty, List.append_nil]
    exact holds
  · rw [result] at ran
    obtain ⟨middle, wrote, rfl⟩ := finishEnsure_eq_ok ran
    exact holds.wroteRows whole wrote
  · exact absurd holds.coded.scheme notEc

theorem HoldsRows.writeWithin {max : Option Nat}
    (ran : vlog.writeWithin code events data max = (.ok offset, after)) :
    after.HoldsRows code (written ++ data) := by
  have extended := holds.ensureWrite (ensureWrite_of_writeWithin ran).2
  rwa [List.flatten_singleton] at extended

end

/-- The runs of an erasure coded vlog from when it was new, with the bytes that
were written successfully. -/
inductive StripedRun (code : ErasureCode UInt8) : Vlog → Bytes → Prop
  | fresh {vlog : Vlog} (coded : vlog.Coded code) (empty : vlog.length = 0) :
      StripedRun code vlog []
  | write {vlog after : Vlog} {written data : Bytes} {events : WriteEvents}
      {max : Option Nat} {offset : Nat} (earlier : StripedRun code vlog written)
      (ran : vlog.writeWithin code events data max = (.ok offset, after)) :
      StripedRun code after (written ++ data)
  | ensureWrite {vlog after : Vlog} {written : Bytes} {parts : List Bytes}
      {events : WriteEvents} {offset : Nat}
      (earlier : StripedRun code vlog written)
      (ran : vlog.ensureWrite code events offset parts = (.ok (), after)) :
      StripedRun code after (written ++ parts.flatten)
  | failedWrite {vlog after : Vlog} {written data : Bytes}
      {events : WriteEvents} {max : Option Nat} {reason : WriteError}
      (earlier : StripedRun code vlog written)
      (ran : vlog.writeWithin code events data max = (.error reason, after)) :
      StripedRun code after written
  | failedEnsureWrite {vlog after : Vlog} {written : Bytes}
      {parts : List Bytes} {events : WriteEvents} {offset : Nat}
      {reason : WriteError} (earlier : StripedRun code vlog written)
      (ran : vlog.ensureWrite code events offset parts =
        (.error reason, after)) : StripedRun code after written
  /-- Appends that were given up are carried out at any later time. -/
  | late {vlog : Vlog} {written : Bytes} (events : WriteEvents)
      (clients : List Nat) (pieces : Nat → List (Nat × Bytes))
      (earlier : StripedRun code vlog written) :
      StripedRun code (vlog.appended events clients pieces) written
  | disturbed {vlog after : Vlog} {written : Bytes} (earlier : StripedRun code vlog written)
      (same : vlog.SameStreams after) : StripedRun code after written

theorem holdsRows_of_run (run : StripedRun code vlog written) : vlog.HoldsRows code written := by
  induction run with
  | fresh coded empty =>
    refine ⟨coded, empty, Nat.zero_mod _, fun row inside => ?_⟩
    rw [List.length_nil, Nat.succ_mul] at inside
    have positive := coded.stripeWidth_pos
    omega
  | write _ ran ih => exact ih.writeWithin ran
  | ensureWrite _ ran ih => exact ih.ensureWrite ran
  | failedWrite _ ran ih => exact ih.grown (grown_of_writeWithin_error ran)
  | failedEnsureWrite _ ran ih =>
    exact ih.grown (grown_of_ensureWrite_error ran)
  | late events clients pieces _ ih => exact ih.grown (grown_appended ..)
  | disturbed _ same ih => exact ih.sameStreams same

/-- What was written to an erasure coded vlog is read back exactly when no
intersecting row misses more columns than there is parity, in whatever order
its columns answer.  With more of them missing there is an error or the same
bytes. -/
theorem read_of_striped_run (run : StripedRun code vlog written) (fits : vlog.length < 2 ^ 63)
    {offset count : Nat} (inside : offset + count ≤ vlog.length) (events : ReadEvents) :
    ((∀ row, row * vlog.stripeWidth < offset + count → offset < (row + 1) * vlog.stripeWidth →
        (vlog.missing events row).length ≤ vlog.parityShards) →
      vlog.read code events offset count = .ok (slice written offset count)) ∧
    ∀ bytes, vlog.read code events offset count = .ok bytes →
      bytes = slice written offset count := by
  have holds := holdsRows_of_run run
  have positive := holds.coded.stripeWidth_pos
  have rowsBefore : written.length / vlog.stripeWidth * vlog.stripeWidth = written.length :=
    Nat.div_mul_cancel (Nat.dvd_of_mod_eq_zero holds.aligned)
  have stores : ∀ row, row * vlog.stripeWidth < offset + count →
      offset < (row + 1) * vlog.stripeWidth →
      vlog.StoresRow code written row := by
    intro row before _
    apply holds.rows
    have below : row < written.length / vlog.stripeWidth := by
      apply Nat.lt_of_mul_lt_mul_right (a := vlog.stripeWidth)
      rw [rowsBefore, ← holds.length_eq]
      omega
    rw [← rowsBefore]
    exact Nat.mul_le_mul_right _ below
  rcases read_cases holds.coded events inside fits stores with
    ran | ⟨⟨reason, failed⟩, row, before, after, many⟩
  · refine ⟨fun _ => ran, fun bytes result => ?_⟩
    rw [ran] at result
    exact (Except.ok.inj result).symm
  · constructor
    · intro few
      exact absurd (few row before after) (Nat.not_le.mpr many)
    · intro bytes result
      rw [failed] at result
      cases result

/-- Two data columns and one parity column of two bytes each, all empty. -/
def newStriped : Vlog where
  protectionScheme := .ec
  dataShards := 2
  parityShards := 1
  columnBytes := 2
  copies := List.replicate 3 ⟨[], 0, Nat.le_refl 0, true⟩
  length := 0
  writeQuorum := 3
  completeReplicas := none

/-- The same after one row. -/
def oneRow : Vlog :=
  { newStriped with
    copies := [⟨[1, 2], 0, Nat.zero_le 2, true⟩,
      ⟨[3, 4], 0, Nat.zero_le 2, true⟩, ⟨[2, 6], 0, Nat.zero_le 2, true⟩]
    length := 4 }

def inOrder : WriteEvents where
  answer _ _ := .served
  arrival _ clients := clients
  arrives _ clients := .refl clients

/-- The first column cannot be read. -/
def withoutFirst : ReadEvents where
  direct _ client := client != 0
  rebuild _ client := client != 0
  arrival _ clients := clients
  arrives _ clients := .refl clients

theorem write_oneRow :
    newStriped.writeWithin (ErasureCode.xorCode 2 Nat.two_pos) inOrder
      [1, 2, 3, 4] none = (.ok 0, oneRow) := by
  have cut : splitBlocks 4 ([[1, 2, 3, 4]].flatten ++ []) = ([[(1 : UInt8), 2, 3, 4]], []) :=
    splitBlocks_flatten_append (by decide) (by decide)
  have rows : newStriped.writeWithin (ErasureCode.xorCode 2 Nat.two_pos) inOrder [1, 2, 3, 4] none =
      finishWrite 0 4 (writeRows (ErasureCode.xorCode 2 Nat.two_pos) inOrder
        newStriped 0 (splitBlocks 4 ([[1, 2, 3, 4]].flatten ++ [])).1) := rfl
  rw [rows, cut]
  rfl

theorem read_oneRow_without_first :
    StripedRun (ErasureCode.xorCode 2 Nat.two_pos) oneRow [1, 2, 3, 4] ∧
      oneRow.read (ErasureCode.xorCode 2 Nat.two_pos) withoutFirst 1 2 = .ok [2, 3] := by
  have run : StripedRun (ErasureCode.xorCode 2 Nat.two_pos) oneRow [1, 2, 3, 4] :=
    .write (.fresh ⟨rfl, rfl, rfl, rfl, rfl⟩ rfl) write_oneRow
  refine ⟨run, (read_of_striped_run run (by decide) (by decide)
    withoutFirst).1 fun row before after => ?_⟩
  have isFirst : row = 0 := by
    change row * 4 < 3 at before
    omega
  rw [isFirst]
  decide

end Vlog

end Rose
