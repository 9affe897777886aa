import Rose.ChunkStore
import Rose.WriteCacheView

/-!
# The version a write handle publishes

`finalizeCache` starts from the settled prefix and walks to the length: a base
chunk that no span touches is reused at its boundary, and everything between
two such chunks is read through the cache and stored again in bounded batches.
The placements it returns hold the settled prefix followed by the rest of the
file the handle sees; dirty bytes below the settled length are never looked at.
-/

namespace Rose

open ListSplice FallibleActions

/-- A base chunk with its logical range. -/
structure BaseChunk where
  start : Nat
  stop : Nat
  placement : ChunkPlacement

/-- The base chunks that reach above the settled prefix and start below the
base length, from logical offset `cur` on. -/
def baseChunks (settledLen baseLen : Nat) :
    Nat → List ChunkPlacement → List BaseChunk
  | _, [] => []
  | cur, chunk :: rest =>
    let stop := cur + chunk.logicalLen
    if settledLen < stop ∧ cur < baseLen then
      ⟨cur, stop, chunk⟩ :: baseChunks settledLen baseLen stop rest
    else
      baseChunks settledLen baseLen stop rest

namespace WriteCache

/-- A base chunk that can be reused: inside the base region and touched by no
span. -/
def isClean (cache : WriteCache) (chunk : BaseChunk) : Bool :=
  decide (cache.settledLen ≤ chunk.start) &&
    decide (chunk.stop ≤ cache.baseLen) &&
    !cache.spans.any fun span =>
      decide (span.start < chunk.stop) && decide (chunk.start < span.stop)

/-- The base chunk that can be reused at `pos`. -/
def reusableAt (cache : WriteCache) (chunks : List BaseChunk) (pos : Nat) :
    Option BaseChunk :=
  chunks.find? fun chunk => chunk.start == pos && cache.isClean chunk

/-- The end of the dirty window that starts at `pos`: the next reusable base
chunk, or the length. -/
def windowEnd (cache : WriteCache) (chunks : List BaseChunk) (pos : Nat) :
    Nat :=
  match chunks.find? fun chunk =>
      decide (pos < chunk.start) && cache.isClean chunk with
  | some chunk => chunk.start
  | none => cache.length

section Splice

variable {σ : Type} (ops : StoreOps σ) (reader : σ → ChunkReader) (cache : WriteCache)

/-- Store the dirty window `[pos, stop)` in batches of at most the spill
threshold. -/
def storeWindow (stop pos : Nat) (result : List ChunkPlacement) :
    EStateM String σ (List ChunkPlacement) :=
  if pos < stop then do
    let batchEnd := min stop (pos + spillThreshold)
    let state ← get
    match cache.readAt (reader state) pos (batchEnd - pos) with
    | .error reason => throw reason
    | .ok data =>
      let placements ← ops.storeChunks data pos (placementHash64 result) result.length
          (batchEnd == cache.length)
      storeWindow stop batchEnd (result ++ placements)
  else
    pure result
termination_by stop - pos
decreasing_by
  have positive : 0 < spillThreshold := by decide
  omega

/-- The splice loop of `finalizeCache`.  It yields nothing when the fuel runs
out before the length is reached. -/
def spliceLoop (chunks : List BaseChunk) :
    Nat → Nat → List ChunkPlacement → EStateM String σ (Option (List ChunkPlacement))
  | 0, _, _ => pure none
  | fuel + 1, pos, result =>
    if pos < cache.length then
      match cache.reusableAt chunks pos with
      | some chunk =>
        spliceLoop chunks fuel chunk.stop (result ++ [chunk.placement])
      | none => do
          let stop := cache.windowEnd chunks pos
          let result ← storeWindow ops reader cache stop pos result
          spliceLoop chunks fuel stop result
    else
      pure (some result)

/-- The placement list of the new version. -/
def finalizeCache : EStateM String σ (Option (List ChunkPlacement)) := spliceLoop ops reader cache
    (baseChunks cache.settledLen cache.baseLen 0 cache.base)
    (cache.length + 1) cache.settledLen cache.settled

end Splice

end WriteCache

theorem mem_baseChunks {settledLen baseLen cur : Nat} {base : List ChunkPlacement}
    {chunk : BaseChunk} (member : chunk ∈ baseChunks settledLen baseLen cur base) :
    ∃ front back, base = front ++ chunk.placement :: back ∧ chunk.start = cur + totalLen front ∧
      chunk.stop = chunk.start + chunk.placement.logicalLen := by
  induction base generalizing cur with
  | nil => cases member
  | cons head rest ih =>
    have later : chunk ∈ baseChunks settledLen baseLen (cur + head.logicalLen) rest →
        ∃ front back, head :: rest = front ++ chunk.placement :: back ∧
          chunk.start = cur + totalLen front ∧
          chunk.stop = chunk.start + chunk.placement.logicalLen := by
      intro inRest
      obtain ⟨front, back, split, start, stop⟩ := ih inRest
      refine ⟨head :: front, back, by rw [split]; rfl, ?_, stop⟩
      rw [start, totalLen_cons]
      omega
    unfold baseChunks at member
    dsimp only at member
    split_ifs at member with reached
    · rcases List.mem_cons.mp member with rfl | inRest
      · exact ⟨[], rest, rfl, rfl, rfl⟩
      · exact later inRest
    · exact later member

namespace WriteCache

variable {plain : Bytes → Bytes}

theorem isClean_iff {cache : WriteCache} {chunk : BaseChunk} :
    cache.isClean chunk = true ↔ cache.settledLen ≤ chunk.start ∧ chunk.stop ≤ cache.baseLen ∧
        ∀ span ∈ cache.spans, chunk.stop ≤ span.start ∨ span.stop ≤ chunk.start := by
  simp only [isClean, Bool.and_eq_true, decide_eq_true_eq, Bool.not_eq_true',
    List.any_eq_false, and_assoc]
  refine and_congr_right fun _ => and_congr_right fun _ =>
    forall₂_congr fun span _ => ?_
  omega

/-- A clean base chunk holds what the handle shows over its range. -/
theorem plain_of_isClean {cache : WriteCache} (wellFormed : cache.WellFormed plain)
    {chunk : BaseChunk} (member : chunk ∈ baseChunks cache.settledLen cache.baseLen 0 cache.base)
    (clean : cache.isClean chunk = true) :
    chunk.placement.Stored plain ∧ chunk.start < chunk.stop ∧ chunk.stop ≤ cache.length ∧
      plain chunk.placement.hash =
        slice (cache.view plain) chunk.start (chunk.stop - chunk.start) := by
  obtain ⟨front, back, split, start, stop⟩ := mem_baseChunks member
  obtain ⟨aboveSettled, inBase, untouched⟩ := isClean_iff.mp clean
  have stored := wellFormed.baseStored
  rw [split, allStored_append_iff, allStored_cons_iff] at stored
  obtain ⟨frontStored, chunkStored, -⟩ := stored
  have baseLe := wellFormed.baseLe
  have positive := chunkStored.2
  refine ⟨chunkStored, by omega, by omega, ?_⟩
  apply List.ext_getElem?
  intro index
  rw [getElem?_slice, getElem?_view]
  have size := chunkStored.1
  by_cases inside : index < chunk.stop - chunk.start
  · rw [if_pos inside, if_pos (by omega)]
    have uncovered : overlay cache.spans (chunk.start + index) = none := by
      apply overlay_eq_none_of_forall
      intro span spanMem
      rcases untouched span spanMem with before | after
      · exact Span.byteAt_eq_none_of_lt (by omega)
      · exact Span.byteAt_eq_none_of_stop_le (by omega)
    have frontSize := length_chunkBytes frontStored
    have position : chunk.start + index = (chunkBytes plain front).length + index := by
      omega
    rw [visible, uncovered, committedByte, if_neg (by omega),
      if_pos (by omega), split, chunkBytes_append, position,
      List.getElem?_append_right (by omega), chunkBytes_cons,
      Nat.add_sub_cancel_left, List.getElem?_append_left (by omega),
      List.getElem?_eq_getElem (by omega)]
    rfl
  · rw [if_neg inside, List.getElem?_eq_none (by omega)]

section Publish

variable {σ : Type} {ops : StoreOps σ} {payload : σ → PayloadReader plain} {cache : WriteCache}

variable {pos : Nat} {result : List ChunkPlacement} {before after : σ}

/-- A batch read through the cache and stored names its range of the file. -/
theorem storeWindow_step {stop : Nat} {final : List ChunkPlacement} (inside : pos < stop)
    (returned : storeWindow ops (fun state => readChunksAt (payload state).read)
      cache stop pos result before = .ok final after) :
    ∃ data placements middle, cache.readAt (readChunksAt (payload before).read) pos
        (min stop (pos + spillThreshold) - pos) = .ok data ∧
      ops.storeChunks data pos (placementHash64 result) result.length
        (min stop (pos + spillThreshold) == cache.length) before = .ok placements middle ∧
      storeWindow ops (fun state => readChunksAt (payload state).read) cache
        stop (min stop (pos + spillThreshold)) (result ++ placements) middle = .ok final after := by
  unfold storeWindow at returned
  rw [if_pos inside] at returned
  obtain ⟨state, current, got, continued⟩ := run_bind_eq_ok_iff.mp returned
  cases got
  cases read : cache.readAt (readChunksAt (payload before).read) pos
      (min stop (pos + spillThreshold) - pos) with
  | error reason =>
    rw [read] at continued
    cases continued
  | ok data =>
    rw [read] at continued
    obtain ⟨placements, middle, stored, rest⟩ := run_bind_eq_ok_iff.mp continued
    exact ⟨data, placements, middle, rfl, stored, rest⟩

variable (wellFormed : cache.WellFormed plain)
include wellFormed

theorem storeWindow_names (resolves : ops.ResolvesSoundly plain)
    (named : ∀ off count, ops.Names plain (slice (cache.view plain) off count)) {stop : Nat}
    {final : List ChunkPlacement} (posLe : pos ≤ stop) (resultStored : AllStored plain result)
    (returned : storeWindow ops (fun state => readChunksAt (payload state).read)
      cache stop pos result before = .ok final after) :
    AllStored plain final ∧ chunkBytes plain final = chunkBytes plain result ++
          slice (cache.view plain) pos (stop - pos) := by
  induction remaining : stop - pos using Nat.strong_induction_on generalizing pos result before with
  | _ count ih =>
    by_cases inside : pos < stop
    · obtain ⟨data, placements, middle, read, stored, rest⟩ := storeWindow_step inside returned
      have positive : 0 < spillThreshold := by decide
      have dataEq := readAt_eq wellFormed _ read
      obtain ⟨placementsStored, content⟩ :=
        StoreOps.storeChunks_names resolves (by rw [dataEq]; exact named _ _) stored
      obtain ⟨finalStored, finalContent⟩ := ih (stop - min stop (pos + spillThreshold)) (by omega)
          (Nat.min_le_left _ _)
          (allStored_append_iff.mpr ⟨resultStored, placementsStored⟩) rest
          rfl
      refine ⟨finalStored, ?_⟩
      rw [finalContent, chunkBytes_append, content, dataEq, List.append_assoc, ← remaining,
        slice_append_slice_of_le _ (by omega) (Nat.min_le_left _ _)]
    · unfold storeWindow at returned
      rw [if_neg inside] at returned
      cases returned
      have done : count = 0 := by omega
      rw [done, slice_zero_count, List.append_nil]
      exact ⟨resultStored, rfl⟩

theorem windowEnd_bounds (inside : pos < cache.length) :
    pos < cache.windowEnd (baseChunks cache.settledLen cache.baseLen 0 cache.base) pos ∧
      cache.windowEnd (baseChunks cache.settledLen cache.baseLen 0 cache.base) pos ≤
          cache.length := by
  unfold windowEnd
  split
  · rename_i chunk chunkFound
    have selected := List.find?_some chunkFound
    rw [Bool.and_eq_true, decide_eq_true_eq] at selected
    obtain ⟨-, startLt, stopLe, -⟩ := plain_of_isClean wellFormed
      (List.mem_of_find?_eq_some chunkFound) selected.2
    omega
  · omega

theorem plain_of_reusableAt {chunk : BaseChunk}
    (found : cache.reusableAt (baseChunks cache.settledLen cache.baseLen 0 cache.base) pos =
        some chunk) :
    chunk.placement.Stored plain ∧ pos < chunk.stop ∧ chunk.stop ≤ cache.length ∧
      plain chunk.placement.hash = slice (cache.view plain) pos (chunk.stop - pos) := by
  have selected := List.find?_some found
  rw [Bool.and_eq_true, beq_iff_eq] at selected
  rw [← selected.1]
  exact plain_of_isClean wellFormed (List.mem_of_find?_eq_some found) selected.2

variable (resolves : ops.ResolvesSoundly plain)
  (named : ∀ off count, ops.Names plain (slice (cache.view plain) off count))
include resolves named

/-- From any position the splice loop appends exactly the rest of the file the
handle shows, and fuel for every remaining byte is enough. -/
theorem spliceLoop_names {fuel : Nat} {final : Option (List ChunkPlacement)}
    (posLe : pos ≤ cache.length) (enough : cache.length - pos < fuel)
    (resultStored : AllStored plain result)
    (returned : spliceLoop ops (fun state => readChunksAt (payload state).read)
      cache (baseChunks cache.settledLen cache.baseLen 0 cache.base) fuel pos
        result before = .ok final after) :
    ∃ placements, final = some placements ∧ AllStored plain placements ∧
      chunkBytes plain placements = chunkBytes plain result ++
          slice (cache.view plain) pos (cache.length - pos) := by
  induction fuel generalizing pos result before with
  | zero => omega
  | succ fuel ih =>
    unfold spliceLoop at returned
    by_cases inside : pos < cache.length
    · rw [if_pos inside] at returned
      cases found : cache.reusableAt
          (baseChunks cache.settledLen cache.baseLen 0 cache.base) pos with
      | some chunk =>
        rw [found] at returned
        obtain ⟨chunkStored, posLt, stopLe, content⟩ := plain_of_reusableAt wellFormed found
        obtain ⟨placements, finalEq, stored, finalContent⟩ := ih stopLe (by omega)
            (allStored_append_iff.mpr ⟨resultStored,
              allStored_cons_iff.mpr ⟨chunkStored, allStored_nil⟩⟩)
            returned
        refine ⟨placements, finalEq, stored, ?_⟩
        rw [finalContent, chunkBytes_append, chunkBytes_cons, content,
          chunkBytes_nil, List.append_nil, List.append_assoc,
          slice_append_slice_of_le _ (by omega) stopLe]
      | none =>
        rw [found] at returned
        obtain ⟨window, middle, windowReturned, continued⟩ := run_bind_eq_ok_iff.mp returned
        obtain ⟨posLt, stopLe⟩ := windowEnd_bounds wellFormed inside
        obtain ⟨windowStored, windowContent⟩ := storeWindow_names wellFormed resolves named
            (Nat.le_of_lt posLt) resultStored windowReturned
        obtain ⟨placements, finalEq, stored, finalContent⟩ :=
          ih stopLe (by omega) windowStored continued
        refine ⟨placements, finalEq, stored, ?_⟩
        rw [finalContent, windowContent, List.append_assoc,
          slice_append_slice_of_le _ (Nat.le_of_lt posLt) stopLe]
    · rw [if_neg inside] at returned
      cases returned
      have done : cache.length - pos = 0 := by omega
      exact ⟨result, rfl, resultStored, by
        rw [done, slice_zero_count, List.append_nil]⟩

theorem finalizeCache_names {final : Option (List ChunkPlacement)}
    (returned : finalizeCache ops (fun state => readChunksAt (payload state).read) cache before =
        .ok final after) :
    ∃ placements, final = some placements ∧ AllStored plain placements ∧
      chunkBytes plain placements = chunkBytes plain cache.settled ++
          slice (cache.view plain) cache.settledLen (cache.length - cache.settledLen) :=
  spliceLoop_names wellFormed resolves named wellFormed.settledLe (by omega)
    wellFormed.settledStored returned

end Publish

end WriteCache

end Rose
