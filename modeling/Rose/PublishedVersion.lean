import Rose.FinalizeCache
import Rose.WriteCacheRuns

/-!
# Published versions and the handle's file

After any run of a handle, the version that `finalizeCache` publishes is the
file the handle shows exactly when no dirty byte below the settled prefix
differs from it.  A write below an already spilled prefix is shown by every
read and missing from the version.
-/

namespace Rose

open ListSplice LabelledRuns FallibleActions

namespace WriteCache

variable {plain : Bytes → Bytes}

/-- A placement list that tiles the length of the cache with stored chunks and
holds what the handle reads. -/
structure Publishes (plain : Bytes → Bytes) (cache : WriteCache)
    (placements : List ChunkPlacement) : Prop where
  stored : AllStored plain placements
  tiles : totalLen placements = cache.length
  reads : cache.ReadsAs plain (chunkBytes plain placements)

/-- Every dirty byte below the settled length equals the settled byte. -/
def SettledAgrees (plain : Bytes → Bytes) (cache : WriteCache) : Prop :=
  ∀ index, index < cache.settledLen → ∀ byte, overlay cache.spans index = some byte →
      (chunkBytes plain cache.settled)[index]? = some byte

theorem settledAgrees_iff {cache : WriteCache} (wellFormed : cache.WellFormed plain) :
    cache.SettledAgrees plain ↔ chunkBytes plain cache.settled =
        slice (cache.view plain) 0 cache.settledLen := by
  have size := length_chunkBytes wellFormed.settledStored
  have total := wellFormed.settledTotal
  have settledLe := wellFormed.settledLe
  have settledAt : ∀ index, index < cache.settledLen → (chunkBytes plain cache.settled)[index]? =
        some (cache.committedByte plain index) := by
    intro index inside
    rw [committedByte, if_pos inside, List.getElem?_eq_getElem (by omega)]
    rfl
  constructor
  · intro agrees
    apply List.ext_getElem?
    intro index
    rw [getElem?_slice, getElem?_view, Nat.zero_add]
    by_cases inside : index < cache.settledLen
    · rw [if_pos inside, if_pos (by omega), visible]
      cases covered : overlay cache.spans index with
      | none => exact settledAt index inside
      | some byte => exact agrees index inside byte covered
    · rw [if_neg inside, List.getElem?_eq_none (by omega)]
  · intro same index inside byte covered
    rw [same, getElem?_slice, getElem?_view, Nat.zero_add, if_pos inside,
      if_pos (by omega), visible, covered]
    rfl

/-- A list that holds the settled prefix and then the rest of the file is what
the handle shows exactly when the settled prefix agrees with the overlay. -/
theorem publishes_iff_settledAgrees {cache : WriteCache}
    (wellFormed : cache.WellFormed plain) {placements : List ChunkPlacement}
    (stored : AllStored plain placements)
    (content : chunkBytes plain placements = chunkBytes plain cache.settled ++
        slice (cache.view plain) cache.settledLen (cache.length - cache.settledLen)) :
    cache.Publishes plain placements ↔ cache.SettledAgrees plain := by
  have size := length_chunkBytes wellFormed.settledStored
  have total := wellFormed.settledTotal
  have settledLe := wellFormed.settledLe
  have tiles : totalLen placements = cache.length := by
    rw [← length_chunkBytes stored, content, List.length_append, size, total,
      length_slice, length_view]
    omega
  have whole : slice (cache.view plain) 0 cache.settledLen ++
      slice (cache.view plain) cache.settledLen
        (cache.length - cache.settledLen) = cache.view plain := by
    have joined := slice_append_slice_of_le (cache.view plain) (Nat.zero_le _) settledLe
    rw [Nat.sub_zero, Nat.sub_zero] at joined
    rw [joined, slice, List.drop_zero, List.take_of_length_le (by rw [length_view])]
  rw [settledAgrees_iff wellFormed]
  constructor
  · intro publishes
    have shown := (readsAs_iff wellFormed).mp publishes.reads
    rw [content] at shown
    exact List.append_cancel_right (shown.trans whole.symm)
  · intro same
    refine ⟨stored, tiles, (readsAs_iff wellFormed).mpr ?_⟩
    rw [content, same, whole]

end WriteCache

theorem CacheStep.run_wellFormed {plain : Bytes → Bytes} {base : List ChunkPlacement}
    (stored : AllStored plain base) {run : List (CacheOp × WriteCache)}
    (isRun : IsRun (CacheStep plain) (newWriteCache base) run) :
    AllStates (WriteCache.WellFormed plain) (newWriteCache base) run :=
  isRun.allStates (fun _ _ _ wellFormed step => step.wellFormed wellFormed)
    (WriteCache.newWriteCache_wellFormed stored)

/-- After any run of successful writes, truncations and spills over any base
version, a successful finalization never stops short of the length, and its
placements tile the length and hold what the handle reads exactly when every
dirty byte below the settled prefix equals the settled byte. -/
theorem finalizeCache_publishes_iff {plain : Bytes → Bytes}
    {base : List ChunkPlacement} (stored : AllStored plain base)
    {run : List (CacheOp × WriteCache)}
    (isRun : IsRun (CacheStep plain) (newWriteCache base) run)
    {cache : WriteCache} (reached : cache = lastState (newWriteCache base) run)
    {σ : Type} {ops : StoreOps σ} {payload : σ → PayloadReader plain}
    (resolves : ops.ResolvesSoundly plain)
    (named : ∀ off count, ops.Names plain (slice (cache.view plain) off count))
    {final : Option (List ChunkPlacement)} {before after : σ}
    (returned : cache.finalizeCache ops (fun state => readChunksAt (payload state).read) before =
        .ok final after) :
    ∃ placements, final = some placements ∧
      (cache.Publishes plain placements ↔ cache.SettledAgrees plain) := by
  have wellFormed : cache.WellFormed plain := by
    rw [reached]
    exact (CacheStep.run_wellFormed stored isRun).lastState
  obtain ⟨placements, finalEq, allStored, content⟩ :=
    WriteCache.finalizeCache_names wellFormed resolves named returned
  exact ⟨placements, finalEq, WriteCache.publishes_iff_settledAgrees wellFormed allStored content⟩

/-- A one-piece chunker over the identity hash, for short files. -/
def shortStore : StoreOps Unit where
  chunker data := .ok [data]
  contentHash data := data
  fileID := 1
  pathHint _ _ := []
  pinAndResolveChunk _ := pure none
  leasedVlogForWriteReserved recordLen _ :=
    pure (1, fun vlog => if vlog = 1 then some recordLen else none)
  encryptChunkInPlace _ _ _ data := pure ([], data)
  sealChunks _ := pure ()

theorem shortStore_resolves (plain : Bytes → Bytes) : shortStore.ResolvesSoundly plain := by
  intro hash placement before after returned
  cases returned

theorem shortStore_names {data : Bytes} (short : data.length ≤ 15) : shortStore.Names id data := by
  intro pieces returned
  cases returned
  refine ⟨by simp, fun piece member => ?_⟩
  rw [List.mem_singleton.mp member]
  exact List.take_of_length_le short

/-- Rewriting one byte of a short base chunk. -/
def patchedShort : WriteCache := (newWriteCache [⟨[7, 8], 1, 0, 2, 2⟩]).writeAt 1 [9]

theorem finalizeCache_patchedShort :
    patchedShort.finalizeCache shortStore (fun _ => readChunksAt (PayloadReader.exact id).read) () =
        .ok (some [⟨[7, 9], 1, 0, 2, 2⟩]) () := by
  have window : WriteCache.storeWindow shortStore
      (fun _ => readChunksAt (PayloadReader.exact id).read) patchedShort 2 0
        [] () = .ok [⟨[7, 9], 1, 0, 2, 2⟩] () := by
    rw [WriteCache.storeWindow]
    change (shortStore.storeChunks [7, 9] 0 0 0 true >>= fun placements =>
      WriteCache.storeWindow shortStore _ patchedShort 2 2 ([] ++ placements)) () = _
    refine run_bind_eq_ok_iff.mpr ⟨[⟨[7, 9], 1, 0, 2, 2⟩], (), rfl, ?_⟩
    rw [WriteCache.storeWindow]
    rfl
  rw [WriteCache.finalizeCache]
  change (WriteCache.storeWindow shortStore _ patchedShort 2 0 [] >>= fun result =>
    WriteCache.spliceLoop shortStore _ patchedShort _ 2 2 result) () = _
  exact run_bind_eq_ok_iff.mpr ⟨_, _, window, rfl⟩

theorem publishes_patchedShort : patchedShort.Publishes id [⟨[7, 9], 1, 0, 2, 2⟩] := by
  have short : ∀ off count, (slice (patchedShort.view id) off count).length ≤ 15 := by
    intro off count
    have size : patchedShort.length = 2 := rfl
    rw [length_slice, WriteCache.length_view, size]
    omega
  obtain ⟨placements, finalEq, publishes⟩ := @finalizeCache_publishes_iff id [⟨[7, 8], 1, 0, 2, 2⟩]
      (by simp [AllStored, ChunkPlacement.Stored])
      [(.write 1 [9], patchedShort)] ⟨CacheStep.write _ _ _, trivial⟩
      patchedShort rfl Unit shortStore (fun _ => PayloadReader.exact id)
      (shortStore_resolves id) (fun off count => shortStore_names (short off count))
      _ _ _ finalizeCache_patchedShort
  cases finalEq
  exact publishes.mpr (fun index below => absurd below (Nat.not_lt_zero _))

namespace CutScenario

variable {content : Bytes}

/-- The spilled append is cut at the end of its settled prefix. -/
def shortened : WriteCache where
  base := []
  baseLen := 0
  settled := [firstChunk, secondChunk]
  settledLen := 3932161
  length := 3932161
  spans := []

/-- Ten bytes are written below the settled length. -/
def patched : WriteCache :=
  { shortened with spans := [⟨1048571, List.replicate 10 2⟩] }

theorem shorten_eq (reader : PayloadReader (plain content)) :
    (spilled content).truncate (readChunksAt reader.read) 3932161 = (.ok (), shortened) := by
  simp [WriteCache.truncate, WriteCache.clipTo, clipSpans, spilled, shortened]

theorem patch_eq : shortened.writeAt 1048571 (List.replicate 10 2) = patched := by
  simp [WriteCache.writeAt, shortened, patched, writeSpans, writeFastPath,
    writeMerge, keepSpans, overlapSpans, mergedSpan, copyAt_zero]

theorem isPatchRun (size : content.length = 4194305) :
    IsRun (CacheStep (plain content)) (newWriteCache [])
      [(.write 0 content, appended content), (.spill [firstChunk, secondChunk], spilled content),
        (.truncate 3932161, shortened),
        (.write 1048571 (List.replicate 10 2), patched)] := by
  refine ⟨?_, ?_, ?_, ?_, trivial⟩
  · rw [← append_eq size]
    exact CacheStep.write _ _ _
  · rw [← commitSpill_eq]
    exact CacheStep.spill _ _ (stored size) (spillPrefix_eq size)
  · exact CacheStep.truncate _ _ _ (PayloadReader.exact _) (shorten_eq _)
  · rw [← patch_eq]
    exact CacheStep.write _ _ _

theorem finalizeCache_patched {σ : Type} (ops : StoreOps σ) (reader : σ → ChunkReader) (state : σ) :
    patched.finalizeCache ops reader state = .ok (some [firstChunk, secondChunk]) state := by
  have done : ¬patched.settledLen < patched.length := by
    simp [patched, shortened]
  rw [WriteCache.finalizeCache, WriteCache.spliceLoop, if_neg done]
  rfl

theorem readAt_patched (size : content.length = 4194305) :
    patched.readAt (readChunksAt (PayloadReader.exact (plain content)).read)
      1048576 1 = .ok [2] := by
  have wellFormed : patched.WellFormed (plain content) :=
    (CacheStep.run_wellFormed allStored_nil (isPatchRun size)).lastState
  have viewed : (patched.view (plain content))[1048576]? = some 2 := by
    rw [WriteCache.getElem?_view, if_pos (by simp [patched, shortened])]
    rfl
  rw [WriteCache.readAt_exact wellFormed (by decide), slice_one viewed]

end CutScenario

/-- Bytes written below the settled prefix are shown by the handle and missing
from the published version. -/
theorem finalizeCache_drops_rewritten_prefix :
    ∃ (plain : Bytes → Bytes) (run : List (CacheOp × WriteCache))
      (ops : StoreOps Unit) (placements : List ChunkPlacement),
      IsRun (CacheStep plain) (newWriteCache []) run ∧ ops.ResolvesSoundly plain ∧
        (∀ data, ops.Names plain data) ∧
        (lastState (newWriteCache []) run).finalizeCache ops
          (fun _ => readChunksAt (PayloadReader.exact plain).read) () = .ok (some placements) () ∧
        (lastState (newWriteCache []) run).readAt
          (readChunksAt (PayloadReader.exact plain).read) 1048576 1 = .ok [2] ∧
        slice (chunkBytes plain placements) 1048576 1 = [1] ∧
        ¬(lastState (newWriteCache []) run).Publishes plain placements := by
  have size : (List.replicate 4194305 (1 : UInt8)).length = 4194305 := List.length_replicate
  have settledByte : (List.replicate 4194305 (1 : UInt8))[1048576]? = some 1 := by
    rw [List.getElem?_replicate, if_pos (by omega)]
  generalize List.replicate 4194305 (1 : UInt8) = content at size settledByte
  have read := CutScenario.readAt_patched size
  have published : slice (chunkBytes (CutScenario.plain content)
      [CutScenario.firstChunk, CutScenario.secondChunk]) 1048576 1 = [1] := by
    rw [CutScenario.chunkBytes_eq]
    apply slice_one
    rw [List.getElem?_take_of_lt (by omega), settledByte]
  refine ⟨CutScenario.plain content, _,
    { shortStore with chunker := fun _ => .error "no input" }, _,
    CutScenario.isPatchRun size, ?_, ?_,
    CutScenario.finalizeCache_patched _ _ _, read, published, ?_⟩
  · exact shortStore_resolves _
  · intro data pieces returned
    cases returned
  · intro publishes
    have shown := publishes.reads.bounded 1048576 1 (by decide)
    rw [published] at shown
    exact absurd (read.symm.trans shown) (by decide)

end Rose
