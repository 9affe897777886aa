import Rose.WriteCacheTruncate

/-!
# Spilling

A spill stores all but the carry of the leading dirty span as durable chunks
and takes them into the settled prefix.  The settled prefix then shows the
bytes the span lost, so the file the handle sees does not change.
-/

namespace Rose

namespace WriteCache

variable {plain : Bytes → Bytes}

theorem spillPrefix_cases {cache : WriteCache} {data : Bytes}
    (spilled : cache.spillPrefix = some data) :
    ∃ span rest, cache.spans = span :: rest ∧ span.start = cache.settledLen ∧
      spillThreshold < span.data.length ∧
      data = span.data.take (span.data.length - spillCarry) := by
  unfold spillPrefix at spilled
  cases spansEq : cache.spans with
  | nil =>
    rw [spansEq] at spilled
    cases spilled
  | cons span rest =>
    rw [spansEq] at spilled
    dsimp only at spilled
    split_ifs at spilled with gap short
    exact ⟨span, rest, rfl, not_not.mp gap, by omega, (Option.some.inj spilled).symm⟩

/-- The state a committed spill leaves, with the leading span shortened by the
bytes that were settled. -/
structure SpilledTo (plain : Bytes → Bytes) (cache : WriteCache) (placements : List ChunkPlacement)
    (span : Span) (rest : List Span) :
    Prop where
  spans_eq : cache.spans = span :: rest
  start_eq : span.start = cache.settledLen
  content : chunkBytes plain placements = span.data.take (totalLen placements)
  shorter : totalLen placements < span.data.length

theorem spilledTo_of_spillPrefix {cache : WriteCache} {placements : List ChunkPlacement}
    (stored : AllStored plain placements)
    (spilled : cache.spillPrefix = some (chunkBytes plain placements)) :
    ∃ span rest, SpilledTo plain cache placements span rest := by
  obtain ⟨span, rest, spansEq, startEq, long, content⟩ := spillPrefix_cases spilled
  have carry : spillCarry ≤ spillThreshold := by decide
  have positive : 0 < spillCarry := by decide
  have size := length_chunkBytes stored
  have total : totalLen placements = span.data.length - spillCarry := by
    rw [← size, content, List.length_take]
    omega
  refine ⟨span, rest, spansEq, startEq, ?_, by omega⟩
  rw [content, total]

section Spill

variable {cache : WriteCache} {placements : List ChunkPlacement} {span : Span} {rest : List Span}

variable (spilled : SpilledTo plain cache placements span rest)
include spilled

theorem SpilledTo.commitSpill_spans :
    (cache.commitSpill placements (totalLen placements)).spans =
      { start := span.start + totalLen placements
        data := span.data.drop (totalLen placements) } :: rest := by
  simp only [commitSpill, spilled.spans_eq]

theorem SpilledTo.wellFormed (wellFormed : cache.WellFormed plain)
    (stored : AllStored plain placements) :
    (cache.commitSpill placements (totalLen placements)).WellFormed plain := by
  have spansLe := wellFormed.spansLe
  have spansNonempty := wellFormed.spansNonempty
  rw [spilled.spans_eq, List.forall_mem_cons] at spansLe spansNonempty
  have startEq := spilled.start_eq
  have shorter := spilled.shorter
  have stopLe := spansLe.1
  unfold Span.stop at stopLe
  exact {
    baseStored := wellFormed.baseStored
    settledStored := allStored_append_iff.mpr
      ⟨wellFormed.settledStored, stored⟩
    settledTotal := by
      simp only [commitSpill, totalLen_append, wellFormed.settledTotal]
    baseWithin := wellFormed.baseWithin
    baseLe := wellFormed.baseLe
    settledLe := by
      simp only [commitSpill]
      omega
    spansLe := by
      rw [spilled.commitSpill_spans, List.forall_mem_cons]
      refine ⟨?_, spansLe.2⟩
      simp only [Span.stop, List.length_drop, commitSpill]
      omega
    spansNonempty := by
      rw [spilled.commitSpill_spans, List.forall_mem_cons]
      refine ⟨?_, spansNonempty.2⟩
      rw [← List.length_pos_iff, List.length_drop]
      omega }

theorem SpilledTo.ordered (ordered : SpansOrdered cache.spans) :
    SpansOrdered (cache.commitSpill placements (totalLen placements)).spans := by
  obtain ⟨pairwise, nonempty⟩ := ordered
  rw [spilled.spans_eq, List.pairwise_cons] at pairwise
  rw [spilled.spans_eq, List.forall_mem_cons] at nonempty
  have shorter := spilled.shorter
  rw [spilled.commitSpill_spans]
  constructor
  · rw [List.pairwise_cons]
    refine ⟨fun later member => ?_, pairwise.2⟩
    have separated := pairwise.1 later member
    simp only [Span.stop, List.length_drop] at *
    omega
  · rw [List.forall_mem_cons]
    refine ⟨?_, nonempty.2⟩
    rw [← List.length_pos_iff, List.length_drop]
    omega

/-- The settled chunks show the bytes the leading span lost. -/
theorem SpilledTo.visible (wellFormed : cache.WellFormed plain)
    (stored : AllStored plain placements) (index : Nat) :
    (cache.commitSpill placements (totalLen placements)).visible plain index =
      cache.visible plain index := by
  have settledSize := length_chunkBytes wellFormed.settledStored
  have total := wellFormed.settledTotal
  have size := length_chunkBytes stored
  have startEq := spilled.start_eq
  have shorter := spilled.shorter
  unfold WriteCache.visible
  rw [spilled.commitSpill_spans, spilled.spans_eq, overlay, overlay]
  unfold committedByte
  simp only [commitSpill, chunkBytes_append]
  by_cases before : index < cache.settledLen
  · rw [if_pos (by omega), if_pos before, List.getElem?_append_left (by omega),
      Span.byteAt_eq_none_of_lt (by dsimp only; omega),
      Span.byteAt_eq_none_of_lt (by omega)]
  · by_cases moved : index < cache.settledLen + totalLen placements
    · have inSpan : index - span.start < span.data.length := by omega
      rw [if_pos moved, Span.byteAt_eq_none_of_lt (by dsimp only; omega),
        Option.or_none, List.getElem?_append_right (by omega),
        spilled.content, List.getElem?_take, if_pos (by omega),
        Span.byteAt, if_pos (by omega), settledSize, total, ← startEq,
        List.getElem?_eq_getElem inSpan]
      cases overlay rest index <;> rfl
    · rw [if_neg moved, if_neg before]
      congr 2
      unfold Span.byteAt
      dsimp only
      rw [if_pos (by omega), if_pos (by omega), List.getElem?_drop]
      congr 1
      omega

end Spill

end WriteCache

end Rose
