import Rose.FinalizeCache
import Rose.WriteCacheRuns

/-!
# Truncations that fail

`Truncate` clips the length, the overlay and the base before it reads the
settled bytes that it has to keep, and a failed read leaves the cache clipped.
In every state a cache reaches, failed truncations included, a failure goes
unnoticed exactly when the read is served or the length was the new size.
-/

namespace Rose

/-- The states of a cache, after truncations that returned and that failed. -/
inductive CacheReached (plain : Bytes → Bytes) : WriteCache → Prop
  | opened (base : List ChunkPlacement) (stored : AllStored plain base) :
      CacheReached plain (newWriteCache base)
  | stepped (cache result : WriteCache) (op : CacheOp) (reached : CacheReached plain cache)
      (step : CacheStep plain cache op result) : CacheReached plain result
  | failed (cache after : WriteCache) (size : Nat) (reason : String)
      (reader : PayloadReader plain) (reached : CacheReached plain cache)
      (fails : cache.truncate (readChunksAt reader.read) size = (.error reason, after)) :
      CacheReached plain after

/-- What a call makes of the cache, with the reader it meets. -/
def CacheOp.apply (read : ChunkReader) (cache : WriteCache) : CacheOp → WriteCache
  | write off data => cache.writeAt off data
  | truncate size => (cache.truncate read size).2
  | spill placements => cache.commitSpill placements (totalLen placements)

theorem clipSpans_eq_self {size : Nat} {spans : List Span}
    (inside : ∀ span ∈ spans, span.start < size ∧ span.stop ≤ size) :
    clipSpans size spans = spans := by
  induction spans with
  | nil => rfl
  | cons span rest ih =>
    rw [List.forall_mem_cons] at inside
    rw [clipSpans_cons, if_neg (Nat.not_le.mpr inside.1.1), ih inside.2, Span.clip,
      if_neg (Nat.not_lt.mpr inside.1.2)]

namespace WriteCache

variable {plain : Bytes → Bytes} {cache after : WriteCache} {size : Nat}

/-- A failed truncation met a read that failed, and clipped the cache. -/
theorem truncate_error_iff {read : ChunkReader} {reason : String} :
    cache.truncate read size = (.error reason, after) ↔
      size < cache.settledLen ∧ (trimSettled size 0 cache.settled).1 < size ∧
        read cache.settled (trimSettled size 0 cache.settled).1
          (size - (trimSettled size 0 cache.settled).1) = .error reason ∧
        after = cache.clipTo size := by
  unfold truncate
  split_ifs with above
  · simp [Nat.not_lt.mpr above]
  dsimp only
  split_ifs with cut
  · cases answer : read cache.settled (trimSettled size 0 cache.settled).1
        (size - (trimSettled size 0 cache.settled).1) with
    | ok data => simp
    | error failure => simp [Nat.lt_of_not_le above, cut, eq_comm]
  · simp [cut]

/-- The cache with a length that covers the settled prefix, which a failed
truncation leaves beyond the length. -/
def raised (cache : WriteCache) : WriteCache :=
  { cache with length := max cache.length cache.settledLen }

structure Bounded (plain : Bytes → Bytes) (cache : WriteCache) : Prop where
  raised : cache.raised.WellFormed plain
  baseLe : cache.baseLen ≤ cache.length
  spansLe : ∀ span ∈ cache.spans, span.stop ≤ cache.length

theorem raised_eq_self (settledLe : cache.settledLen ≤ cache.length) : cache.raised = cache := by
  rw [raised, Nat.max_eq_left settledLe]

theorem WellFormed.bounded (wellFormed : cache.WellFormed plain) : cache.Bounded plain where
  raised := by rwa [raised_eq_self wellFormed.settledLe]
  baseLe := wellFormed.baseLe
  spansLe := wellFormed.spansLe

namespace Bounded

variable (bounded : cache.Bounded plain)
include bounded

theorem writeAt (off : Nat) (data : Bytes) : (cache.writeAt off data).Bounded plain := by
  have raises : (cache.writeAt off data).raised = cache.raised.writeAt off data := by
    unfold WriteCache.writeAt
    split_ifs
    · rfl
    · simp only [WriteCache.raised, Nat.max_right_comm]
  refine ⟨raises ▸ writeAt_wellFormed bounded.raised off data, ?_, ?_⟩
  all_goals
    unfold WriteCache.writeAt
    split_ifs with empty
  · exact bounded.baseLe
  · exact bounded.baseLe.trans (Nat.le_max_left _ _)
  · exact bounded.spansLe
  · exact fun span member =>
      (writeSpans_bounds bounded.spansLe bounded.raised.spansNonempty empty span member).1

theorem clipTo (size : Nat) : (cache.clipTo size).Bounded plain := by
  have clipped : ∀ span ∈ clipSpans size cache.spans, span.stop ≤ size ∧ span.data ≠ [] :=
    clipSpans_bounds bounded.raised.spansNonempty
  have sizeLe : size ≤ (cache.clipTo size).raised.length := Nat.le_max_left _ _
  exact {
    raised := {
      baseStored := bounded.raised.baseStored
      settledStored := bounded.raised.settledStored
      settledTotal := bounded.raised.settledTotal
      baseWithin := (Nat.min_le_left _ _).trans bounded.raised.baseWithin
      baseLe := (Nat.min_le_right _ _).trans sizeLe
      settledLe := Nat.le_max_right _ _
      spansLe := fun span member => (clipped span member).1.trans sizeLe
      spansNonempty := fun span member => (clipped span member).2 }
    baseLe := Nat.min_le_right _ _
    spansLe := fun span member => (clipped span member).1 }

theorem clipTo_length : cache.clipTo cache.length = cache := by
  have spans_eq : clipSpans cache.length cache.spans = cache.spans :=
    clipSpans_eq_self fun span member => ⟨(Span.start_lt_stop
      (bounded.raised.spansNonempty span member)).trans_le (bounded.spansLe span member),
      bounded.spansLe span member⟩
  rw [WriteCache.clipTo, spans_eq, Nat.min_eq_left bounded.baseLe]

theorem step {op : CacheOp} (step : CacheStep plain cache op after) : after.Bounded plain := by
  cases step with
  | write off data => exact bounded.writeAt off data
  | truncate _ size reader returned =>
    -- A truncation does not look at the length.
    exact (truncate_wellFormed bounded.raised reader returned).bounded
  | spill placements stored spilled =>
    obtain ⟨span, rest, spilledTo⟩ := spilledTo_of_spillPrefix stored spilled
    have leading : span ∈ cache.spans := by
      rw [spilledTo.spans_eq]
      exact List.mem_cons_self
    have settledLe : cache.settledLen ≤ cache.length := by
      have stopLe := bounded.spansLe span leading
      rw [Span.stop, spilledTo.start_eq] at stopLe
      omega
    have wellFormed := bounded.raised
    rw [raised_eq_self settledLe] at wellFormed
    exact (spilledTo.wellFormed wellFormed stored).bounded

end Bounded

end WriteCache

theorem CacheReached.bounded {plain : Bytes → Bytes} {cache : WriteCache}
    (reached : CacheReached plain cache) : cache.Bounded plain := by
  induction reached with
  | opened base stored => exact (WriteCache.newWriteCache_wellFormed stored).bounded
  | stepped cache result op _ step ih => exact ih.step step
  | failed cache after size reason reader _ fails ih =>
    obtain ⟨-, -, -, rfl⟩ := WriteCache.truncate_error_iff.mp fails
    exact ih.clipTo size

/-- The reader that always fails. -/
def PayloadReader.lost (plain : Bytes → Bytes) : PayloadReader plain where
  read _ _ _ := .error "lost"
  sound _ _ _ _ impossible := by cases impossible

namespace WriteCache

/-- The length, every read and every finalization are the same. -/
structure AnswersAs (first second : WriteCache) : Prop where
  length_eq : first.length = second.length
  readAt_eq : ∀ (read : ChunkReader) (off count : Nat),
    first.readAt read off count = second.readAt read off count
  finalizeCache_eq : ∀ {σ : Type} (ops : StoreOps σ) (reader : σ → ChunkReader) (state : σ),
    finalizeCache ops reader first state = finalizeCache ops reader second state

/-- The answers stay the same whatever is called later. -/
def Alike (first second : WriteCache) : Prop :=
  ∀ later : List (ChunkReader × CacheOp),
    (later.foldl (fun cache call => call.2.apply call.1 cache) first).AnswersAs
      (later.foldl (fun cache call => call.2.apply call.1 cache) second)

theorem Alike.refl (cache : WriteCache) : cache.Alike cache :=
  fun _ => ⟨rfl, fun _ _ _ => rfl, fun _ _ _ => rfl⟩

/-- The bytes between the last settled chunk that ends within `size` and `size`
can be read. -/
def CutReadable (read : ChunkReader) (cache : WriteCache) (size : Nat) : Prop :=
  ∀ start < size, cache.SettledBoundary start →
    (∀ other ≤ size, cache.SettledBoundary other → other ≤ start) →
      ∃ data, read cache.settled start (size - start) = .ok data

/-- A failed truncation has no effect exactly when it cannot fail, or when the
cache has the new size already. -/
theorem failed_truncate_unnoticed_iff {plain : Bytes → Bytes} {cache : WriteCache}
    (reached : CacheReached plain cache) (reader : PayloadReader plain) (size : Nat) :
    (∀ reason after, cache.truncate (readChunksAt reader.read) size = (.error reason, after) →
        cache.Alike after) ↔
      cache.length = size ∨ cache.settledLen ≤ size ∨
        cache.CutReadable (readChunksAt reader.read) size := by
  have bounded := reached.bounded
  obtain ⟨keptLe, isBoundary, greatest⟩ := trimSettled_boundary cache size
  constructor
  · intro unnoticed
    by_contra refused
    obtain ⟨lengthNe, below, unreadable⟩ := not_or.mp refused |>.imp_right not_or.mp
    simp only [CutReadable, not_forall] at unreadable
    obtain ⟨start, startLt, startIs, startGreatest, unread⟩ := unreadable
    have start_eq : start = (trimSettled size 0 cache.settled).1 :=
      Nat.le_antisymm (greatest start startLt.le startIs) (startGreatest _ keptLe isBoundary)
    subst start_eq
    cases answer : readChunksAt reader.read cache.settled (trimSettled size 0 cache.settled).1
        (size - (trimSettled size 0 cache.settled).1) with
    | ok data => exact unread ⟨data, answer⟩
    | error reason =>
      have alike := unnoticed reason (cache.clipTo size)
        (truncate_error_iff.mpr ⟨Nat.lt_of_not_le below, startLt, answer, rfl⟩)
      exact lengthNe (alike []).length_eq
  · intro condition reason after fails
    obtain ⟨below, cut, answer, rfl⟩ := truncate_error_iff.mp fails
    rcases condition with rfl | above | readable
    · rw [bounded.clipTo_length]
      exact .refl cache
    · exact absurd below (Nat.not_lt.mpr above)
    · obtain ⟨data, served⟩ := readable _ cut isBoundary greatest
      rw [answer] at served
      cases served

end WriteCache

namespace CutScenario

variable {content : Bytes} (size : content.length = 4194305)
include size

theorem spilled_reached : CacheReached (plain content) (spilled content) := by
  have appends : CacheReached (plain content) (appended content) := by
    rw [← append_eq size]
    exact .stepped _ _ _ (.opened [] allStored_nil) (.write _ _ _)
  rw [← commitSpill_eq]
  exact .stepped _ _ _ appends (.spill _ _ (stored size) (spillPrefix_eq size))

omit size in
/-- The one byte in front of the cut is settled, so a cut to it has to read. -/
theorem truncate_fails (cache : WriteCache) (settled : cache.settled = (spilled content).settled)
    (settledLen : cache.settledLen = 3932161) :
    cache.truncate (readChunksAt (PayloadReader.lost (plain content)).read) 1 =
      (.error "lost", cache.clipTo 1) := by
  have trimmed : trimSettled 1 0 (spilled content).settled = (0, []) := rfl
  rw [WriteCache.truncate_error_iff, settled, settledLen, trimmed]
  exact ⟨by decide, by decide, rfl, rfl⟩

end CutScenario

/-- A second failed truncation to the same size changes nothing more. -/
theorem WriteCache.second_failure_unnoticed :
    ∃ (plain : Bytes → Bytes) (cache after : WriteCache), CacheReached plain cache ∧
      cache.length = 1 ∧ cache.settledLen = 3932161 ∧
      cache.truncate (readChunksAt (PayloadReader.lost plain).read) 1 = (.error "lost", after) ∧
      cache.Alike after := by
  have size : (List.replicate 4194305 (1 : UInt8)).length = 4194305 := List.length_replicate
  generalize List.replicate 4194305 (1 : UInt8) = content at size
  have first := @CutScenario.truncate_fails content (CutScenario.spilled content) rfl rfl
  have second :=
    @CutScenario.truncate_fails content ((CutScenario.spilled content).clipTo 1) rfl rfl
  have reached :
      CacheReached (CutScenario.plain content) ((CutScenario.spilled content).clipTo 1) :=
    .failed _ _ 1 _ _ (CutScenario.spilled_reached size) first
  exact ⟨_, _, _, reached, rfl, rfl, second,
    (failed_truncate_unnoticed_iff reached _ 1).mpr (Or.inl rfl) _ _ second⟩

/-- After 4 MiB and one byte were appended and spilled up to the carry, the chunks cannot be read.
A truncation to one byte is refused, and the carry is gone: the length is one and the new version
consists of the settled chunks. -/
theorem failed_truncate_loses_carry :
    ∃ (plain : Bytes → Bytes) (cache after : WriteCache), CacheReached plain cache ∧
      cache.truncate (readChunksAt (PayloadReader.lost plain).read) 1 = (.error "lost", after) ∧
      cache.length = 4194305 ∧ after.length = 1 ∧
      (∀ {σ : Type} (ops : StoreOps σ) (reader : σ → ChunkReader) (state : σ),
        WriteCache.finalizeCache ops reader after state = .ok (some after.settled) state) ∧
      totalLen after.settled = 3932161 ∧ ¬cache.Alike after := by
  have size : (List.replicate 4194305 (1 : UInt8)).length = 4194305 := List.length_replicate
  generalize List.replicate 4194305 (1 : UInt8) = content at size
  refine ⟨_, _, (CutScenario.spilled content).clipTo 1, CutScenario.spilled_reached size,
    CutScenario.truncate_fails _ rfl rfl, rfl, rfl, ?_, rfl, ?_⟩
  · intro σ ops reader state
    rfl
  · intro alike
    have impossible : 4194305 = 1 := (alike []).length_eq
    cases impossible

end Rose
