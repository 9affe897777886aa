import Mathlib.Data.List.Sort
import Rose.ChunkPlacements

/-!
# The write cache of an open file

A write handle keeps its pending changes in a cache over the version that was
open.  Un-spilled bytes lie in a list of dirty spans; a long dirty prefix is
spilled to durable chunks, the settled prefix; below both lies the base
version.  This file models the four mutators of the cache (`writeLocked`,
`Truncate`, `spillPrefix`, `commitSpill`) and its reader, and says which byte
each offset shows.
-/

namespace Rose

open ListSplice

/-- How large the dirty prefix may grow before it is spilled. -/
def spillThreshold : Nat := 4 * 2 ^ 20

/-- The tail of the dirty prefix that a spill leaves in memory. -/
def spillCarry : Nat := 256 * 2 ^ 10

/-- A run of pending dirty bytes at a logical offset. -/
structure Span where
  start : Nat
  data : Bytes
deriving DecidableEq, Repr

def Span.stop (span : Span) : Nat := span.start + span.data.length

structure WriteCache where
  base : List ChunkPlacement
  baseLen : Nat
  settled : List ChunkPlacement
  settledLen : Nat
  length : Nat
  spans : List Span
deriving DecidableEq, Repr

def newWriteCache (base : List ChunkPlacement) : WriteCache where
  base := base
  baseLen := totalLen base
  settled := []
  settledLen := 0
  length := totalLen base
  spans := []

/-- The bound the fast path uses when no span follows, the largest offset. -/
def maxOffset : Nat := 2 ^ 63 - 1

def nextStart : List Span → Nat
  | [] => maxOffset
  | next :: _ => next.start

/-- Mutate one span in place by a write that starts in it or at its end. -/
def Span.writeInPlace (span : Span) (off : Nat) (data : Bytes) : Span :=
  if off + data.length ≤ span.stop then
    { span with data := copyAt span.data (off - span.start) data }
  else
    let overlap := span.stop - off
    { span with
      data :=
        copyAt span.data (off - span.start) (data.take overlap) ++
          data.drop overlap }

/-- The fast path of `writeLocked`: the first span that ends at or after the
write takes it, unless it starts later or the write reaches the next span. -/
def writeFastPath (off : Nat) (data : Bytes) :
    List Span → Option (List Span)
  | [] => none
  | span :: rest =>
    if span.stop < off then
      (writeFastPath off data rest).map (span :: ·)
    else if off < span.start then
      none
    else if nextStart rest ≤ off + data.length then
      none
    else
      some (span.writeInPlace off data :: rest)

/-- A span that overlaps or touches the written range. -/
def Span.touches (span : Span) (off stop : Nat) : Bool := !(span.stop < off || stop < span.start)

/-- The span the slow path builds from the written range and every span that
overlaps or touches it; the new bytes win. -/
def mergedSpan (off : Nat) (data : Bytes) (overlap : List Span) : Span :=
  let mergeStart := overlap.foldl (fun low span => min low span.start) off
  let mergeEnd := overlap.foldl (fun high span => max high span.stop) (off + data.length)
  let zeroed : Bytes := List.replicate (mergeEnd - mergeStart) 0
  let existing := overlap.foldl
      (fun buf span => copyAt buf (span.start - mergeStart) span.data) zeroed
  { start := mergeStart
    data := copyAt existing (off - mergeStart) data }

def keepSpans (off stop : Nat) (spans : List Span) : List Span :=
  spans.filter fun span => !span.touches off stop

def overlapSpans (off stop : Nat) (spans : List Span) : List Span :=
  spans.filter fun span => span.touches off stop

/-- The merge path of `writeLocked`. -/
def writeMerge (off : Nat) (data : Bytes) (spans : List Span) : List Span :=
  let keep := keepSpans off (off + data.length) spans
  let overlap := overlapSpans off (off + data.length) spans
  (keep ++ [mergedSpan off data overlap]).insertionSort
    fun first second => first.start ≤ second.start

def writeSpans (off : Nat) (data : Bytes) (spans : List Span) : List Span :=
  (writeFastPath off data spans).getD (writeMerge off data spans)

namespace WriteCache

/-- Record a write at any offset; it only changes the overlay. -/
def writeAt (cache : WriteCache) (off : Nat) (data : Bytes) : WriteCache :=
  if data = [] then
    cache
  else
    { cache with
      spans := writeSpans off data cache.spans
      length := max cache.length (off + data.length) }

end WriteCache

/-- The committed bytes under the overlay, read through `readChunksAt`. -/
abbrev ChunkReader := List ChunkPlacement → Nat → Nat → Except String Bytes

/-- Lay the part of `span` inside `[off, stop)` over the read buffer. -/
def Span.paint (off stop : Nat) (out : Bytes) (span : Span) : Bytes :=
  let lo := max off span.start
  let hi := min stop span.stop
  if lo < hi then
    copyAt out (lo - off) (slice span.data (lo - span.start) (hi - lo))
  else
    out

namespace WriteCache

/-- Copy the chunk range `[lo, hi)` into the read buffer of `[off, …)`. -/
def paintChunks (read : ChunkReader) (chunks : List ChunkPlacement) (off lo hi : Nat)
    (out : Bytes) : Except String Bytes :=
  if lo < hi then do
    let data ← read chunks lo (hi - lo)
    .ok (copyAt out (lo - off) data)
  else
    .ok out

/-- Assemble `[off, off + count)` from the overlay, clipped at the length. -/
def readAt (read : ChunkReader) (cache : WriteCache) (off count : Nat) :
    Except String Bytes :=
  let stop := min (off + count) cache.length
  if stop ≤ off then
    .ok []
  else if maxUnaryReadBytes < stop - off then
    .error s!"read result length {stop - off} exceeds unary limit {maxUnaryReadBytes}"
  else do
    let zeroed := List.replicate (stop - off) 0
    let withSettled ← paintChunks read cache.settled off off (min stop cache.settledLen) zeroed
    let withBase ← paintChunks read cache.base off (max off cache.settledLen)
        (min stop cache.baseLen) withSettled
    .ok (cache.spans.foldl (Span.paint off stop) withBase)

end WriteCache

/-- Drop the spans at or above `size` and clip one that crosses it. -/
def clipSpans (size : Nat) (spans : List Span) : List Span := spans.filterMap fun span =>
    if size ≤ span.start then
      none
    else if size < span.stop then
      some { span with data := span.data.take (size - span.start) }
    else
      some span

/-- The whole settled chunks within `[0, size)` and their logical end, from
`passed` bytes on. -/
def trimSettled (size : Nat) : Nat → List ChunkPlacement → Nat × List ChunkPlacement
  | passed, [] => (passed, [])
  | passed, chunk :: rest =>
    if size < passed + chunk.logicalLen then
      (passed, [])
    else
      let (kept, chunks) := trimSettled size (passed + chunk.logicalLen) rest
      (kept, chunk :: chunks)

namespace WriteCache

/-- The first part of `Truncate`: set the length, clip the overlay and the
base. -/
def clipTo (cache : WriteCache) (size : Nat) : WriteCache :=
  { cache with
    length := size
    spans := clipSpans size cache.spans
    baseLen := min cache.baseLen size }

/-- Set the logical size.  The cache stays clipped when the chunk reader
fails. -/
def truncate (read : ChunkReader) (cache : WriteCache) (size : Nat) :
    Except String Unit × WriteCache :=
  if cache.settledLen ≤ size then
    (.ok (), cache.clipTo size)
  else
    let (kept, chunks) := trimSettled size 0 cache.settled
    if kept < size then
      match read cache.settled kept (size - kept) with
      | .error reason => (.error reason, cache.clipTo size)
      | .ok data =>
        (.ok (),
          { cache.clipTo size with
            spans := { start := kept, data := data } ::
              clipSpans size cache.spans
            settled := chunks
            settledLen := kept })
    else
      (.ok (), { cache.clipTo size with settled := chunks, settledLen := kept })

/-- The bytes of the dirty prefix that should be spilled now. -/
def spillPrefix (cache : WriteCache) : Option Bytes :=
  match cache.spans with
  | [] => none
  | span :: _ =>
    if span.start ≠ cache.settledLen then
      none
    else if span.data.length ≤ spillThreshold then
      none
    else
      some (span.data.take (span.data.length - spillCarry))

/-- Take `placements`, which hold the next `count` bytes, into the settled
prefix and drop those bytes from the leading span. -/
def commitSpill (cache : WriteCache) (placements : List ChunkPlacement) (count : Nat) :
    WriteCache :=
  { cache with
    settled := cache.settled ++ placements
    settledLen := cache.settledLen + count
    spans :=
      match cache.spans with
      | [] => []
      | span :: rest =>
        { start := span.start + count, data := span.data.drop count } ::
          rest }

end WriteCache

end Rose
