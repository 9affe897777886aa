import Rose.LabelledRuns
import Rose.WriteCacheSpill

/-!
# Runs of a write cache

A handle writes, truncates and spills in any order.  Every run keeps the cache
well formed, and every single step but one keeps the spans ordered and shows
the ideal byte array.  The exception is a truncation that cuts a settled chunk
while a dirty span starts below the cut: the settled bytes return in front of
that span.  A run shows the ideal file with ordered spans throughout exactly
when it has no such truncation.
-/

namespace Rose

open ListSplice LabelledRuns

inductive CacheOp where
  | write (off : Nat) (data : Bytes)
  | truncate (size : Nat)
  | spill (placements : List ChunkPlacement)
deriving DecidableEq, Repr

/-- The operation on an ideal byte array: last-writer-wins writes, zero-filled
extension, clipping.  Spilling is invisible. -/
def CacheOp.ideal : CacheOp → Bytes → Bytes
  | write off data, file => overwrite 0 file off data
  | truncate size, file => resize 0 size file
  | spill _, file => file

/-- One successful operation on a cache.  The chunk reads of a truncation may
be served by any sound reader, and a spill may store its bytes as any chunks
that hold them. -/
inductive CacheStep (plain : Bytes → Bytes) :
    WriteCache → CacheOp → WriteCache → Prop
  | write (cache : WriteCache) (off : Nat) (data : Bytes) :
      CacheStep plain cache (.write off data) (cache.writeAt off data)
  | truncate (cache result : WriteCache) (size : Nat) (reader : PayloadReader plain)
      (returned : cache.truncate (readChunksAt reader.read) size = (.ok (), result)) :
      CacheStep plain cache (.truncate size) result
  | spill (cache : WriteCache) (placements : List ChunkPlacement)
      (stored : AllStored plain placements)
      (spilled : cache.spillPrefix = some (chunkBytes plain placements)) :
      CacheStep plain cache (.spill placements) (cache.commitSpill placements (totalLen placements))

namespace WriteCache

/-- A truncation that cuts no settled chunk, or that finds no dirty span below
the new size. -/
def CutSafe (cache : WriteCache) : CacheOp → Prop
  | .truncate size =>
    cache.settledLen ≤ size ∨ cache.SettledBoundary size ∨ ∀ span ∈ cache.spans, size ≤ span.start
  | _ => True

end WriteCache

namespace CacheStep

variable {plain : Bytes → Bytes}

variable {cache result : WriteCache} {op : CacheOp}

variable (step : CacheStep plain cache op result) (sound : cache.WellFormed plain)
include step sound

theorem wellFormed : result.WellFormed plain := by
  cases step with
  | write off data => exact WriteCache.writeAt_wellFormed sound off data
  | truncate _ size reader returned => exact WriteCache.truncate_wellFormed sound reader returned
  | spill placements stored spilled =>
    obtain ⟨span, rest, spilledTo⟩ := WriteCache.spilledTo_of_spillPrefix stored spilled
    exact spilledTo.wellFormed sound stored

theorem ordered (ordered : SpansOrdered cache.spans) (safe : cache.CutSafe op) :
    SpansOrdered result.spans := by
  cases step with
  | write off data => exact WriteCache.writeAt_ordered ordered off data
  | truncate _ size reader returned =>
    exact WriteCache.truncate_ordered sound reader returned ordered safe
  | spill placements stored spilled =>
    obtain ⟨span, rest, spilledTo⟩ := WriteCache.spilledTo_of_spillPrefix stored spilled
    exact spilledTo.ordered ordered

theorem not_ordered (unsafeCut : ¬cache.CutSafe op) :
    ¬(result.spans.Pairwise (fun first second => first.start ≤ second.start) ∧
      result.spans.Pairwise Span.Apart) := by
  cases step with
  | write off data => exact absurd trivial unsafeCut
  | truncate _ size reader returned =>
    exact WriteCache.truncate_not_ordered sound reader returned unsafeCut
  | spill placements stored spilled => exact absurd trivial unsafeCut

theorem view (ordered : SpansOrdered cache.spans) :
    result.view plain = op.ideal (cache.view plain) := by
  cases step with
  | write off data => exact WriteCache.view_writeAt sound ordered off data
  | truncate _ size reader returned => exact WriteCache.view_truncate sound reader returned
  | spill placements stored spilled =>
    obtain ⟨span, rest, spilledTo⟩ := WriteCache.spilledTo_of_spillPrefix stored spilled
    apply List.map_congr_left
    intro index _
    exact spilledTo.visible sound stored index

end CacheStep

/-- A cache together with the byte array that the same operations leave. -/
structure TrackedCache where
  cache : WriteCache
  file : Bytes

namespace TrackedCache

variable {plain : Bytes → Bytes}

/-- A freshly opened version. -/
def opened (plain : Bytes → Bytes) (base : List ChunkPlacement) :
    TrackedCache :=
  ⟨newWriteCache base, chunkBytes plain base⟩

def Step (plain : Bytes → Bytes) (before : TrackedCache) (op : CacheOp) (after : TrackedCache) :
    Prop :=
  CacheStep plain before.cache op after.cache ∧ after.file = op.ideal before.file

/-- The spans are sorted and share no offset, and the reads show the byte
array. -/
structure ShowsFile (plain : Bytes → Bytes) (state : TrackedCache) : Prop where
  sorted : state.cache.spans.Pairwise fun first second =>
    first.start ≤ second.start
  apart : state.cache.spans.Pairwise Span.Apart
  reads : state.cache.ReadsAs plain state.file

/-- What a run without an unsafe cut keeps. -/
structure Invariant (plain : Bytes → Bytes) (state : TrackedCache) :
    Prop where
  wellFormed : state.cache.WellFormed plain
  ordered : SpansOrdered state.cache.spans
  shown : state.cache.view plain = state.file

theorem Invariant.showsFile {state : TrackedCache} (invariant : Invariant plain state) :
    ShowsFile plain state where
  sorted := invariant.ordered.ordered.imp fun {first second} before => by
    have own := first.start_le_stop
    omega
  apart := invariant.ordered.ordered.imp fun before => Or.inl before
  reads := by
    rw [← invariant.shown]
    exact WriteCache.readsAs_view invariant.wellFormed

theorem opened_invariant {base : List ChunkPlacement} (stored : AllStored plain base) :
    Invariant plain (opened plain base) where
  wellFormed := WriteCache.newWriteCache_wellFormed stored
  ordered := ⟨List.Pairwise.nil, by simp [opened, newWriteCache]⟩
  shown := WriteCache.view_newWriteCache stored

theorem Step.invariant {before after : TrackedCache} {op : CacheOp}
    (step : Step plain before op after) (invariant : Invariant plain before)
    (safe : before.cache.CutSafe op) :
    Invariant plain after where
  wellFormed := step.1.wellFormed invariant.wellFormed
  ordered := step.1.ordered invariant.wellFormed invariant.ordered safe
  shown := by
    rw [step.1.view invariant.wellFormed invariant.ordered, invariant.shown, step.2]

theorem Step.not_showsFile {before after : TrackedCache} {op : CacheOp}
    (step : Step plain before op after) (invariant : Invariant plain before)
    (unsafeCut : ¬before.cache.CutSafe op) :
    ¬ShowsFile plain after := by
  intro shows
  exact step.1.not_ordered invariant.wellFormed unsafeCut ⟨shows.sorted, shows.apart⟩

/-- A run over any base version shows the ideal file with ordered spans in all
its states exactly when no truncation cuts a settled chunk below which a dirty
span starts. -/
theorem run_showsFile_iff_cutSafe {base : List ChunkPlacement} (stored : AllStored plain base)
    {run : List (CacheOp × TrackedCache)} (isRun : IsRun (Step plain) (opened plain base) run) :
    AllStates (ShowsFile plain) (opened plain base) run ↔
      AllSteps (fun state op => state.cache.CutSafe op) (opened plain base) run :=
  isRun.allStates_iff_allSteps (fun _ invariant => invariant.showsFile)
    (fun _ _ _ invariant step safe => step.invariant invariant safe)
    (fun _ _ _ invariant step unsafeCut =>
      step.not_showsFile invariant unsafeCut)
    (opened_invariant stored)

/-- A write into a base chunk and a truncation past it show the ideal file in
every state. -/
theorem run_showsFile_of_write_truncate :
    AllStates (ShowsFile id) (opened id [⟨[7, 8], 1, 0, 2, 2⟩])
      [(CacheOp.write 1 [9], ⟨(newWriteCache [⟨[7, 8], 1, 0, 2, 2⟩]).writeAt 1 [9], [7, 9]⟩),
        (CacheOp.truncate 3,
          ⟨((newWriteCache [⟨[7, 8], 1, 0, 2, 2⟩]).writeAt 1 [9]).clipTo 3, [7, 9, 0]⟩)] := by
  apply (run_showsFile_iff_cutSafe _ _).mpr
  · exact ⟨trivial, Or.inl (Nat.zero_le _), trivial⟩
  · simp [AllStored, ChunkPlacement.Stored]
  · exact ⟨⟨CacheStep.write _ _ _, rfl⟩,
      ⟨CacheStep.truncate _ _ _ (PayloadReader.exact id) rfl, rfl⟩, trivial⟩

end TrackedCache

namespace CutScenario

variable (content : Bytes)

/-- The two chunks that the first spill of a long append stores. -/
def plain (hash : Bytes) : Bytes :=
  if hash = [0] then slice content 0 1048576 else slice content 1048576 2883585

def firstChunk : ChunkPlacement := ⟨[0], 1, 0, 1048576, 1048576⟩

def secondChunk : ChunkPlacement := ⟨[1], 1, 1048640, 2883585, 2883585⟩

/-- 4 MiB and one byte are appended. -/
def appended : WriteCache where
  base := []
  baseLen := 0
  settled := []
  settledLen := 0
  length := 4194305
  spans := [⟨0, content⟩]

/-- The append is spilled up to the carry. -/
def spilled : WriteCache where
  base := []
  baseLen := 0
  settled := [firstChunk, secondChunk]
  settledLen := 3932161
  length := 4194305
  spans := [⟨3932161, content.drop 3932161⟩]

/-- Ten bytes are written across the boundary of the two settled chunks. -/
def rewritten : WriteCache :=
  { spilled content with
    spans := [⟨1048571, List.replicate 10 2⟩, ⟨3932161, content.drop 3932161⟩] }

/-- The truncation cuts the second settled chunk. -/
def cut : WriteCache where
  base := []
  baseLen := 0
  settled := [firstChunk]
  settledLen := 1048576
  length := 1048676
  spans := [⟨1048576, slice content 1048576 100⟩, ⟨1048571, List.replicate 10 2⟩]

/-- One byte is appended. -/
def extended : WriteCache :=
  { cut content with
    length := 1048677
    spans := [⟨1048571, List.replicate 10 2⟩,
      ⟨1048576, slice content 1048576 100 ++ [3]⟩] }

variable {content}

theorem copyAt_zero {target source : Bytes} (same : target.length = source.length) :
    copyAt target 0 source = source := by
  simp [copyAt, same]

section
variable (size : content.length = 4194305)
include size

theorem append_eq : (newWriteCache []).writeAt 0 content = appended content := by
  have nonempty : content ≠ [] := by
    rintro rfl
    simp at size
  simp [WriteCache.writeAt, newWriteCache, writeSpans, writeFastPath,
    writeMerge, keepSpans, overlapSpans, mergedSpan, copyAt_zero, appended,
    size, nonempty, -List.reduceReplicate]

theorem stored : AllStored (plain content) [firstChunk, secondChunk] := by
  simp [AllStored, ChunkPlacement.Stored, plain, firstChunk, secondChunk, size]

omit size in
theorem chunkBytes_eq :
    chunkBytes (plain content) [firstChunk, secondChunk] = content.take 3932161 := by
  have first : plain content firstChunk.hash = slice content 0 1048576 := rfl
  have second : plain content secondChunk.hash = slice content (0 + 1048576) 2883585 := rfl
  rw [chunkBytes_cons, chunkBytes_cons, first, second, chunkBytes_nil,
    List.append_nil, slice_append_slice]
  rfl

theorem spillPrefix_eq :
    (appended content).spillPrefix =
      some (chunkBytes (plain content) [firstChunk, secondChunk]) := by
  rw [chunkBytes_eq]
  simp [WriteCache.spillPrefix, appended, spillThreshold, spillCarry, size]

omit size in
theorem commitSpill_eq :
    (appended content).commitSpill [firstChunk, secondChunk]
      (totalLen [firstChunk, secondChunk]) = spilled content := by
  simp [WriteCache.commitSpill, appended, spilled, firstChunk, secondChunk]

theorem rewrite_eq :
    (spilled content).writeAt 1048571 (List.replicate 10 2) = rewritten content := by
  simp [WriteCache.writeAt, spilled, rewritten, writeSpans, writeFastPath,
    writeMerge, keepSpans, overlapSpans, mergedSpan, copyAt_zero, Span.stop,
    Span.touches, List.insertionSort, List.orderedInsert, size]

theorem truncate_eq :
    (rewritten content).truncate (readChunksAt (PayloadReader.exact (plain content)).read) 1048676 =
        (.ok (), cut content) := by
  have trimmed : trimSettled 1048676 0 (rewritten content).settled = (1048576, [firstChunk]) := by
    simp [trimSettled, rewritten, spilled, firstChunk, secondChunk]
  have settledRead : readChunksAt (PayloadReader.exact (plain content)).read
      (rewritten content).settled 1048576 100 = .ok (slice content 1048576 100) := by
    have read : readChunksAt (PayloadReader.exact (plain content)).read
        (rewritten content).settled 1048576 100 = _ :=
      readChunksAt_exact [firstChunk, secondChunk] (stored size) (by decide)
    have settledSlice : slice (content.take 3932161) 1048576 100 = slice content 1048576 100 := by
      apply List.ext_getElem?
      intro index
      rw [getElem?_slice, getElem?_slice]
      split_ifs with inside
      · exact List.getElem?_take_of_lt (by omega)
      · rfl
    rw [read, chunkBytes_eq, settledSlice]
  have below : ¬(rewritten content).settledLen ≤ 1048676 := by
    simp [rewritten, spilled]
  rw [WriteCache.truncate, if_neg below, trimmed]
  simp only [Nat.reduceLT, Nat.reduceSub, ↓reduceIte, settledRead]
  simp [WriteCache.clipTo, clipSpans, rewritten, spilled, cut, Span.stop]

theorem extend_eq : (cut content).writeAt 1048676 [3] = extended content := by
  have sliceSize : (slice content 1048576 100).length = 100 := by
    simp [size]
  have whole : (slice content 1048576 100).take 101 = slice content 1048576 100 :=
    List.take_of_length_le (by omega)
  simp [whole, WriteCache.writeAt, cut, extended, writeSpans, writeFastPath,
    writeMerge, keepSpans, overlapSpans, mergedSpan, copyAt, Span.stop,
    Span.touches, List.insertionSort, nextStart, size]

end

/-- The ideal byte array after the same operations. -/
def file (content : Bytes) : Bytes := overwrite 0 (resize 0 1048676
      (overwrite 0 (overwrite 0 [] 0 content) 1048571 (List.replicate 10 2)))
    1048676 [3]

def run (content : Bytes) : List (CacheOp × TrackedCache) :=
  let first := overwrite 0 [] 0 content
  let second := overwrite 0 first 1048571 (List.replicate 10 2)
  [(.write 0 content, ⟨appended content, first⟩),
    (.spill [firstChunk, secondChunk], ⟨spilled content, first⟩),
    (.write 1048571 (List.replicate 10 2), ⟨rewritten content, second⟩),
    (.truncate 1048676, ⟨cut content, resize 0 1048676 second⟩),
    (.write 1048676 [3], ⟨extended content, file content⟩)]

theorem isRun (size : content.length = 4194305) :
    IsRun (TrackedCache.Step (plain content))
      (TrackedCache.opened (plain content) []) (run content) := by
  refine ⟨⟨?_, rfl⟩, ⟨?_, rfl⟩, ⟨?_, rfl⟩, ⟨?_, rfl⟩, ⟨?_, rfl⟩, trivial⟩
  · rw [← append_eq size]
    exact CacheStep.write _ _ _
  · rw [← commitSpill_eq]
    exact CacheStep.spill _ _ (stored size) (spillPrefix_eq size)
  · rw [← rewrite_eq size]
    exact CacheStep.write _ _ _
  · exact CacheStep.truncate _ _ _ _ (truncate_eq size)
  · rw [← extend_eq size]
    exact CacheStep.write _ _ _

theorem getElem?_file (content : Bytes) : (file content)[1048576]? = some 2 := by
  rw [file, getElem?_overwrite _ _ _ _ _ (by simp), if_neg (by omega),
    if_pos (by simp), getElem?_resize, if_pos (by omega),
    getElem?_overwrite _ _ _ _ _ (by simp), if_pos (by simp)]
  rfl

theorem extended_wellFormed (size : content.length = 4194305) :
    (extended content).WellFormed (plain content) := by
  have wellFormed : AllStates (fun state : TrackedCache => state.cache.WellFormed (plain content))
      (TrackedCache.opened (plain content) []) (run content) :=
    (isRun size).allStates (fun _ _ _ invariant step => step.1.wellFormed invariant)
      (WriteCache.newWriteCache_wellFormed allStored_nil)
  exact wellFormed.2 (.write 1048676 [3], ⟨extended content, file content⟩) (by simp [run])

theorem readAt_extended (size : content.length = 4194305) {byte : UInt8}
    (settledByte : content[1048576]? = some byte) :
    (extended content).readAt (readChunksAt (PayloadReader.exact (plain content)).read) 1048576 1 =
        .ok [byte] := by
  have shown : overlay (extended content).spans 1048576 = some byte := by
    have reinserted : (slice content 1048576 100 ++ [3])[0]? = some byte := by
      rw [List.getElem?_append_left (by simp [size]), getElem?_slice, if_pos (by omega)]
      exact settledByte
    change ((none : Option UInt8).or
      (if 1048576 ≤ 1048576 then
        (slice content 1048576 100 ++ [3])[1048576 - 1048576]?
      else none)).or _ = _
    rw [if_pos (Nat.le_refl _), Nat.sub_self, reinserted]
    rfl
  have viewed : ((extended content).view (plain content))[1048576]? = some byte := by
    rw [WriteCache.getElem?_view, if_pos (by simp [extended]), WriteCache.visible, shown]
    rfl
  rw [WriteCache.readAt_exact (extended_wellFormed size) (by decide), slice_one viewed]

end CutScenario

/-- Ten bytes written across a settled chunk boundary are acknowledged, the file
is cut inside the second chunk and extended again: five of them are gone. -/
theorem truncate_then_append_loses_write :
    ∃ (plain : Bytes → Bytes) (run : List (CacheOp × TrackedCache)),
      IsRun (TrackedCache.Step plain) (TrackedCache.opened plain []) run ∧
        (lastState (TrackedCache.opened plain []) run).cache.readAt
          (readChunksAt (PayloadReader.exact plain).read) 1048576 1 = .ok [1] ∧
        slice (lastState (TrackedCache.opened plain []) run).file 1048576 1 = [2] ∧
        ¬AllStates (TrackedCache.ShowsFile plain) (TrackedCache.opened plain []) run := by
  have size : (List.replicate 4194305 (1 : UInt8)).length = 4194305 := List.length_replicate
  have settledByte : (List.replicate 4194305 (1 : UInt8))[1048576]? = some 1 := by
    rw [List.getElem?_replicate, if_pos (by omega)]
  generalize List.replicate 4194305 (1 : UInt8) = content at size settledByte
  have read := CutScenario.readAt_extended size settledByte
  have ideal : slice (CutScenario.file content) 1048576 1 = [2] :=
    slice_one (CutScenario.getElem?_file content)
  refine ⟨CutScenario.plain content, CutScenario.run content,
    CutScenario.isRun size, read, ideal, fun shows => ?_⟩
  have shown := (shows.2 (.write 1048676 [3],
    ⟨CutScenario.extended content, CutScenario.file content⟩)
      (by simp [CutScenario.run])).reads.bounded 1048576 1 (by decide)
  dsimp only at shown
  rw [read, ideal] at shown
  exact absurd shown (by decide)

end Rose
