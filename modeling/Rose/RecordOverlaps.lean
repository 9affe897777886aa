import Rose.Catalog
import Rose.ChunkStore

/-!
# Overlapping records

The catalog checker collects the stored records of the referenced chunks of
each vlog, sorts them by where they start and passes over them once, with only
the record in mind that reaches furthest.  That is enough: it reports a vlog
exactly when two of its records share a byte.
-/

namespace Rose

section Sweeps

/-- The bytes of a record in its vlog. -/
structure RecordSpan where
  start : Int
  stop : Int
  hash : Bytes
deriving DecidableEq, Repr

/-- The order in which the records of a vlog are passed over. -/
def RecordSpan.sortsBefore (first second : RecordSpan) : Bool :=
  if first.start ≠ second.start then first.start < second.start else first.hash < second.hash

def sortRecords (records : List RecordSpan) : List RecordSpan :=
  records.mergeSort fun first second => !second.sortsBefore first

/-- The pairs that one pass finds; `previous` is the record that reaches
furthest so far. -/
def sweepRecords : Option RecordSpan → List RecordSpan → List (RecordSpan × RecordSpan)
  | _, [] => []
  | none, record :: rest => sweepRecords (some record) rest
  | some previous, record :: rest =>
    (if record.start < previous.stop then [(previous, record)] else []) ++
      sweepRecords (some (if record.stop > previous.stop then record else previous)) rest

def RecordSpan.Covers (record : RecordSpan) (byte : Int) : Prop :=
  record.start ≤ byte ∧ byte < record.stop

/-- Two records that share no byte. -/
def RecordSpan.Apart (first second : RecordSpan) : Prop :=
  ¬∃ byte, first.Covers byte ∧ second.Covers byte

variable {records : List RecordSpan}

theorem pairwise_sortRecords (records : List RecordSpan) :
    (sortRecords records).Pairwise fun first second => first.start ≤ second.start := by
  have before_iff : ∀ first second : RecordSpan, (!second.sortsBefore first) = true ↔
      first.start < second.start ∨ first.start = second.start ∧ first.hash ≤ second.hash := by
    intro first second
    unfold RecordSpan.sortsBefore
    split_ifs with differ
    · simp only [Bool.not_eq_true', decide_eq_false_iff_not, Ne.symm differ, false_and, or_false]
      omega
    · rw [not_not] at differ
      simp [differ]
  refine (List.pairwise_mergeSort ?_ ?_ records).imp fun {first second} sorted => ?_
  · intro first second third earlier later
    rw [before_iff] at earlier later ⊢
    rcases earlier with earlier | ⟨same, earlier⟩
    · left
      omega
    · rcases later with later | ⟨sameLater, later⟩
      · left
        omega
      · exact Or.inr ⟨same.trans sameLater, List.le_trans earlier later⟩
  · intro first second
    rw [Bool.or_eq_true, before_iff, before_iff]
    rcases lt_trichotomy first.start second.start with below | same | above
    · exact Or.inl (Or.inl below)
    · exact (List.le_total first.hash second.hash).imp (fun ordered => Or.inr ⟨same, ordered⟩)
        fun ordered => Or.inr ⟨same.symm, ordered⟩
    · exact Or.inr (Or.inl above)
  · rw [before_iff] at sorted
    omega

variable (occupied : ∀ record ∈ records, record.start < record.stop)
include occupied

/-- As long as nothing was found, the record in mind is the last one, so nothing
is found exactly when every record ends before the later ones start. -/
theorem sweepRecords_some_eq_nil_iff {previous : RecordSpan} :
    sweepRecords (some previous) records = [] ↔
      (previous :: records).Pairwise fun first second => first.stop ≤ second.start := by
  induction records generalizing previous with
  | nil => simp [sweepRecords]
  | cons record rest ih =>
    rw [List.forall_mem_cons] at occupied
    rw [sweepRecords, List.append_eq_nil_iff, ih occupied.2, List.pairwise_cons (a := previous),
      List.forall_mem_cons]
    by_cases overlaps : record.start < previous.stop
    · rw [if_pos overlaps]
      simp only [List.cons_ne_nil, false_and, false_iff]
      omega
    · rw [if_neg overlaps, if_pos (by omega)]
      refine ⟨fun ⟨_, ends⟩ => ⟨⟨by omega, fun other member => ?_⟩, ends⟩,
        fun ⟨_, ends⟩ => ⟨rfl, ends⟩⟩
      have later := (List.pairwise_cons.mp ends).1 other member
      omega

/-- One pass over the sorted records finds a pair exactly when two records share
a byte. -/
theorem sweepRecords_eq_nil_iff :
    sweepRecords none (sortRecords records) = [] ↔ records.Pairwise RecordSpan.Apart := by
  have perm : (sortRecords records).Perm records := List.mergeSort_perm _ _
  have symmetric : ∀ {first second : RecordSpan}, first.Apart second → second.Apart first :=
    fun apart ⟨byte, covers, also⟩ => apart ⟨byte, also, covers⟩
  have sorted := pairwise_sortRecords records
  rw [← perm.pairwise_iff symmetric]
  have allOccupied : ∀ record ∈ sortRecords records, record.start < record.stop :=
    fun record member => occupied record (perm.mem_iff.mp member)
  have ends_iff : sweepRecords none (sortRecords records) = [] ↔
      (sortRecords records).Pairwise fun first second => first.stop ≤ second.start := by
    cases listed : sortRecords records with
    | nil => simp [sweepRecords]
    | cons record rest =>
      rw [listed, List.forall_mem_cons] at allOccupied
      exact sweepRecords_some_eq_nil_iff allOccupied.2
  rw [ends_iff]
  constructor
  · refine List.Pairwise.imp fun {first second} ends => ?_
    rintro ⟨byte, ⟨-, below⟩, above, -⟩
    omega
  · intro apart
    refine (sorted.and apart).imp_of_mem fun {first second} _ secondIn ⟨ordered, disjoint⟩ => ?_
    by_contra reaches
    exact disjoint ⟨second.start, ⟨ordered, by omega⟩, le_refl _, allOccupied second secondIn⟩

end Sweeps

/-- A row of the chunk table as it is scanned. -/
structure ScannedChunk where
  hash : Bytes
  refcount : Int
  vlogID : Int
  vaddrOffset : Int
  logicalLen : Int
deriving DecidableEq, Repr

/-- What the checker reads: the extents of the file versions, the versions that
names, snapshots and retained results hold, the durable lengths of the vlogs,
and the chunk rows in any order. -/
structure CatalogScan where
  files : Int → Option Bytes
  roots : List Int
  vlogs : Int → Option Int
  chunks : List ScannedChunk

inductive CatalogIssue
  | invalidHash (hash : Bytes)
  | referenceCount (hash : Bytes) (stored : Int) (traversed : Nat)
  | extentLength (hash : Bytes) (catalog : Int) (extent : Nat)
  | missingVlog (hash : Bytes) (vlogID : Int)
  | extentBounds (hash : Bytes) (offset length durable : Int)
  | overlappingRecords (vlogID : Int) (first second : Bytes)
deriving DecidableEq, Repr

namespace CatalogScan

variable (scan : CatalogScan)

/-- The extents that the roots hold, in the order in which they are visited. -/
def extents : List Bytes :=
  scan.roots.flatMap fun id => ((scan.files id).map extentsOf).getD []

/-- How often the roots refer to a chunk. -/
def expected (hash : Bytes) : Nat := scan.extents.countP fun extent => extent.take 15 = hash

/-- The length that the last extent of a chunk gives it. -/
def lengths (hash : Bytes) : Nat :=
  match scan.extents.reverse.find? fun extent => extent.take 15 = hash with
  | none => 0
  | some extent => LittleEndian.decode (extent.drop 15)

/-- Whether a record lies outside of the durable prefix of its vlog. -/
def exceeds (row : ScannedChunk) (length : Int) : Bool :=
  row.vaddrOffset < 0 || row.logicalLen < 0 || row.vaddrOffset > length ||
    row.logicalLen > length - row.vaddrOffset - chunkHeaderSize

/-- What is wrong with a chunk row by itself. -/
def chunkIssues (row : ScannedChunk) : List CatalogIssue :=
  (if row.hash.length ≠ 15 then [.invalidHash row.hash] else []) ++
  (if row.refcount ≠ scan.expected row.hash then
    [.referenceCount row.hash row.refcount (scan.expected row.hash)] else []) ++
  (if 0 < scan.expected row.hash ∧ row.logicalLen ≠ scan.lengths row.hash then
    [.extentLength row.hash row.logicalLen (scan.lengths row.hash)] else []) ++
  match scan.vlogs row.vlogID with
  | none => [.missingVlog row.hash row.vlogID]
  | some length =>
    if exceeds row length then
      [.extentBounds row.hash row.vaddrOffset row.logicalLen length] else []

/-- The record of a chunk row, if it is referenced and in bounds. -/
def spanOf (row : ScannedChunk) : Option RecordSpan :=
  match scan.vlogs row.vlogID with
  | none => none
  | some length =>
    if exceeds row length then none
    else if 0 < scan.expected row.hash then
      some ⟨row.vaddrOffset, row.vaddrOffset + row.logicalLen + chunkHeaderSize, row.hash⟩
    else none

def spans (vlogID : Int) : List RecordSpan :=
  (scan.chunks.filter (·.vlogID = vlogID)).filterMap scan.spanOf

/-- The issues of the record scan; `order` is the order in which the vlogs with
records are visited. -/
def recordIssues (order : List Int) : List CatalogIssue :=
  scan.chunks.flatMap scan.chunkIssues ++ order.flatMap fun vlogID =>
    (sweepRecords none (sortRecords (scan.spans vlogID))).map fun pair =>
      .overlappingRecords vlogID pair.1.hash pair.2.hash

/-- A chunk row of a vlog that is referenced and has its record in bounds. -/
structure Records (vlogID : Int) (row : ScannedChunk) : Prop where
  vlogID_eq : row.vlogID = vlogID
  referenced : 0 < scan.expected row.hash
  inBounds : ∃ length, scan.vlogs vlogID = some length ∧ 0 ≤ row.vaddrOffset ∧
    0 ≤ row.logicalLen ∧ row.vaddrOffset + row.logicalLen + chunkHeaderSize ≤ length

variable {scan} {vlogID : Int}

theorem spanOf_eq_some_iff {row : ScannedChunk} {span : RecordSpan} :
    (row.vlogID = vlogID ∧ scan.spanOf row = some span) ↔ scan.Records vlogID row ∧
      span = ⟨row.vaddrOffset, row.vaddrOffset + row.logicalLen + chunkHeaderSize, row.hash⟩ := by
  constructor
  · rintro ⟨rfl, found⟩
    unfold spanOf at found
    cases durable : scan.vlogs row.vlogID with
    | none =>
      rw [durable] at found
      cases found
    | some length =>
      rw [durable] at found
      dsimp only at found
      split_ifs at found with outside referenced
      simp only [exceeds, Bool.or_eq_true, decide_eq_true_eq] at outside
      refine ⟨⟨rfl, referenced, length, durable, by omega, by omega, by omega⟩, ?_⟩
      exact (Option.some.inj found).symm
  · rintro ⟨⟨rfl, referenced, length, durable, offset, size, inside⟩, rfl⟩
    have within : exceeds row length = false := by
      have header : (0 : Int) < chunkHeaderSize := by decide
      simp only [exceeds, Bool.or_eq_false_iff, decide_eq_false_iff_not]
      omega
    refine ⟨rfl, ?_⟩
    unfold spanOf
    rw [durable]
    dsimp only
    rw [within, if_neg Bool.false_ne_true, if_pos referenced]

theorem mem_spans {span : RecordSpan} (member : span ∈ scan.spans vlogID) :
    span.start < span.stop := by
  obtain ⟨row, rowIn, found⟩ := List.mem_filterMap.mp member
  have isHere := of_decide_eq_true (List.mem_filter.mp rowIn).2
  obtain ⟨⟨-, -, length, -, -, size, -⟩, rfl⟩ := spanOf_eq_some_iff.mp ⟨isHere, found⟩
  have header : (0 : Int) < chunkHeaderSize := by decide
  dsimp only
  omega

/-- The byte of a vlog lies in the record of a chunk row. -/
def Covers (row : ScannedChunk) (byte : Int) : Prop :=
  row.vaddrOffset ≤ byte ∧ byte < row.vaddrOffset + row.logicalLen + chunkHeaderSize

theorem pairwise_spans_iff :
    (scan.spans vlogID).Pairwise RecordSpan.Apart ↔
      scan.chunks.Pairwise fun first second => scan.Records vlogID first →
        scan.Records vlogID second → ¬∃ byte, Covers first byte ∧ Covers second byte := by
  rw [spans, List.pairwise_filterMap, List.pairwise_filter]
  refine List.Pairwise.iff fun first second => ?_
  constructor
  · intro apart firstRecord secondRecord
    obtain ⟨firstHere, firstSpan⟩ := spanOf_eq_some_iff.mpr ⟨firstRecord, rfl⟩
    obtain ⟨secondHere, secondSpan⟩ := spanOf_eq_some_iff.mpr ⟨secondRecord, rfl⟩
    exact apart (decide_eq_true firstHere) (decide_eq_true secondHere) _ firstSpan _ secondSpan
  · intro apart firstHere secondHere span firstSpan other secondSpan
    obtain ⟨firstRecord, rfl⟩ :=
      spanOf_eq_some_iff.mp ⟨of_decide_eq_true firstHere, firstSpan⟩
    obtain ⟨secondRecord, rfl⟩ :=
      spanOf_eq_some_iff.mp ⟨of_decide_eq_true secondHere, secondSpan⟩
    exact apart firstRecord secondRecord

theorem overlappingRecords_notMem_chunkIssues (row : ScannedChunk) (first second : Bytes) :
    .overlappingRecords vlogID first second ∉ scan.chunkIssues row := by
  unfold chunkIssues
  cases scan.vlogs row.vlogID with
  | none => split_ifs <;> simp
  | some length => split_ifs <;> simp

theorem exists_overlap_iff_sweep {order : List Int}
    (visits : ∀ vlogID, vlogID ∈ order ↔ scan.spans vlogID ≠ []) :
    (∃ first second, .overlappingRecords vlogID first second ∈ scan.recordIssues order) ↔
      sweepRecords none (sortRecords (scan.spans vlogID)) ≠ [] := by
  unfold recordIssues
  constructor
  · rintro ⟨first, second, reported⟩
    rcases List.mem_append.mp reported with ofRow | ofSweep
    · obtain ⟨row, -, listed⟩ := List.mem_flatMap.mp ofRow
      exact absurd listed (overlappingRecords_notMem_chunkIssues row first second)
    · obtain ⟨other, -, mapped⟩ := List.mem_flatMap.mp ofSweep
      obtain ⟨pair, found, same⟩ := List.mem_map.mp mapped
      cases same
      exact List.ne_nil_of_mem found
  · intro found
    obtain ⟨pair, pairIn⟩ := List.exists_mem_of_ne_nil _ found
    have visited : vlogID ∈ order := by
      refine (visits vlogID).mpr fun empty => found ?_
      simp [empty, sortRecords, sweepRecords]
    exact ⟨pair.1.hash, pair.2.hash, List.mem_append_right _
      (List.mem_flatMap.mpr ⟨vlogID, visited, List.mem_map.mpr ⟨pair, pairIn, rfl⟩⟩)⟩

/-- The scan reports an overlap in a vlog exactly when the records of two of its
chunk rows share a byte. -/
theorem overlap_reported_iff (scan : CatalogScan) (order : List Int)
    (visits : ∀ vlogID, vlogID ∈ order ↔ scan.spans vlogID ≠ []) (vlogID : Int) :
    (∃ first second, .overlappingRecords vlogID first second ∈ scan.recordIssues order) ↔
      ∃ (i j : Nat) (first second : ScannedChunk), i < j ∧ scan.chunks[i]? = some first ∧
        scan.chunks[j]? = some second ∧ scan.Records vlogID first ∧ scan.Records vlogID second ∧
        ∃ byte, Covers first byte ∧ Covers second byte := by
  rw [exists_overlap_iff_sweep visits, Ne, sweepRecords_eq_nil_iff fun _ => mem_spans,
    pairwise_spans_iff, List.pairwise_iff_getElem]
  constructor
  · intro some
    push Not at some
    obtain ⟨i, j, iLt, jLt, ordered, firstRecord, secondRecord, shared⟩ := some
    exact ⟨i, j, _, _, ordered, List.getElem?_eq_getElem iLt, List.getElem?_eq_getElem jLt,
      firstRecord, secondRecord, shared⟩
  · rintro ⟨i, j, _, _, ordered, isFirst, isSecond, firstRecord, secondRecord, shared⟩ apart
    obtain ⟨iLt, rfl⟩ := List.getElem?_eq_some_iff.mp isFirst
    obtain ⟨jLt, rfl⟩ := List.getElem?_eq_some_iff.mp isSecond
    exact apart i j iLt jLt ordered firstRecord secondRecord shared

/-- A vlog with a record that lies inside of another one. -/
def nestedRecords : CatalogScan where
  files _ := some (List.replicate 15 1 ++ [9, 0, 0, 0] ++ List.replicate 15 2 ++ [1, 0, 0, 0])
  roots := [7]
  vlogs _ := some 200
  chunks := [⟨List.replicate 15 2, 1, 3, 4, 1⟩, ⟨List.replicate 15 1, 1, 3, 0, 9⟩]

theorem nested_records_are_reported :
    (∀ vlogID, vlogID ∈ [3] ↔ nestedRecords.spans vlogID ≠ []) ∧
      ∃ first second, .overlappingRecords 3 first second ∈ nestedRecords.recordIssues [3] := by
  have extents_eq : nestedRecords.extents =
      [List.replicate 15 1 ++ [9, 0, 0, 0], List.replicate 15 2 ++ [1, 0, 0, 0]] := by
    simp [extents, nestedRecords, extentsOf, FixedBlocks.splitBlocks]
  have firstRecord : nestedRecords.Records 3 ⟨List.replicate 15 2, 1, 3, 4, 1⟩ := by
    refine ⟨rfl, ?_, 200, rfl, by decide⟩
    rw [expected, extents_eq]
    decide
  have secondRecord : nestedRecords.Records 3 ⟨List.replicate 15 1, 1, 3, 0, 9⟩ := by
    refine ⟨rfl, ?_, 200, rfl, by decide⟩
    rw [expected, extents_eq]
    decide
  have visits : ∀ vlogID, vlogID ∈ [3] ↔ nestedRecords.spans vlogID ≠ [] := by
    intro vlogID
    by_cases here : vlogID = 3
    · subst here
      have span := (spanOf_eq_some_iff.mpr ⟨firstRecord, rfl⟩).2
      simp only [List.mem_singleton, true_iff]
      exact List.ne_nil_of_mem (List.mem_filterMap.mpr ⟨_, List.mem_cons_self, span⟩)
    · have elsewhere : (3 : Int) ≠ vlogID := Ne.symm here
      simp [here, elsewhere, spans, nestedRecords]
  exact ⟨visits, (overlap_reported_iff nestedRecords [3] visits 3).mpr ⟨0, 1, _, _, by decide, rfl,
    rfl, firstRecord, secondRecord, 4, ⟨by decide, by decide⟩, by decide, by decide⟩⟩

end CatalogScan

end Rose
