import Rose.SpanMergeWrites

/-!
# Writes into the cache

On an ordered span list `writeLocked` leaves an ordered list, and the file the
handle sees becomes the last-writer-wins write of a byte array.  The bounds on
the spans that the cache relies on do not need the order.
-/

namespace Rose

open ListSplice

section Write

variable {off : Nat} {data : Bytes}

variable {spans : List Span}

theorem writeSpans_ordered (ordered : SpansOrdered spans) (nonempty : data ≠ []) :
    SpansOrdered (writeSpans off data spans) := by
  unfold writeSpans
  cases fast : writeFastPath off data spans with
  | none => exact writeMerge_ordered ordered nonempty
  | some result => exact writeFastPath_ordered ordered fast

theorem overlay_writeSpans (ordered : SpansOrdered spans) (nonempty : data ≠ []) (index : Nat) :
    overlay (writeSpans off data spans) index =
      if off ≤ index ∧ index < off + data.length then data[index - off]?
      else overlay spans index := by
  unfold writeSpans
  cases fast : writeFastPath off data spans with
  | none => exact writeMerge_overlay ordered nonempty index
  | some result => exact writeFastPath_overlay ordered fast index

/-- Ordered or not, every span after a write is nonempty and ends within the
new length. -/
theorem writeSpans_bounds {length : Nat} (spansLe : ∀ span ∈ spans, span.stop ≤ length)
    (spansNonempty : ∀ span ∈ spans, span.data ≠ []) (nonempty : data ≠ []) :
    ∀ span ∈ writeSpans off data spans,
      span.stop ≤ max length (off + data.length) ∧ span.data ≠ [] := by
  have old : ∀ span ∈ spans, span.stop ≤ max length (off + data.length) ∧ span.data ≠ [] :=
    fun span member =>
      ⟨(spansLe span member).trans (Nat.le_max_left _ _), spansNonempty span member⟩
  unfold writeSpans
  intro span member
  cases fast : writeFastPath off data spans with
  | none =>
    rw [fast, Option.getD_none] at member
    rcases mem_writeMerge_iff.mp member with kept | rfl
    · exact old span (mem_keepSpans_iff.mp kept).1
    · refine ⟨?_, mergedSpan_nonempty _ nonempty⟩
      rw [stop_mergedSpan]
      rcases foldl_max_attained (overlapSpans off (off + data.length) spans)
          (off + data.length) with same | ⟨touched, touchedMem, same⟩
      · omega
      · rw [same]
        exact (old touched (mem_overlapSpans_iff.mp touchedMem).1).1
  | some result =>
    rw [fast, Option.getD_some] at member
    obtain ⟨before, found, after, rfl, rfl, startLe, leStop, -⟩ := writeFastPath_cases fast
    have foundMem : found ∈ before ++ found :: after := List.mem_append_right _ List.mem_cons_self
    rcases List.mem_append.mp member with inBefore | inTail
    · exact old span (List.mem_append_left _ inBefore)
    rcases List.mem_cons.mp inTail with rfl | inAfter
    · have stopEq : (found.writeInPlace off data).stop = _ := Span.stop_writeInPlace leStop
      have foundLe := spansLe found foundMem
      refine ⟨by omega, fun empty => ?_⟩
      have positive := Span.start_lt_stop (spansNonempty found foundMem)
      rw [Span.stop, empty, Span.start_writeInPlace, List.length_nil] at stopEq
      omega
    · exact old span (List.mem_append_right _ (List.mem_cons_of_mem _ inAfter))

end Write

namespace WriteCache

variable {plain : Bytes → Bytes}

variable {cache : WriteCache}

theorem writeAt_wellFormed (wellFormed : cache.WellFormed plain) (off : Nat) (data : Bytes) :
    (cache.writeAt off data).WellFormed plain := by
  unfold writeAt
  by_cases empty : data = []
  · rwa [if_pos empty]
  rw [if_neg empty]
  have bounds : ∀ span ∈ writeSpans off data cache.spans,
      span.stop ≤ max cache.length (off + data.length) ∧ span.data ≠ [] :=
    writeSpans_bounds wellFormed.spansLe wellFormed.spansNonempty empty
  exact {
    baseStored := wellFormed.baseStored
    settledStored := wellFormed.settledStored
    settledTotal := wellFormed.settledTotal
    baseWithin := wellFormed.baseWithin
    baseLe := wellFormed.baseLe.trans (Nat.le_max_left _ _)
    settledLe := wellFormed.settledLe.trans (Nat.le_max_left _ _)
    spansLe := fun span member => (bounds span member).1
    spansNonempty := fun span member => (bounds span member).2 }

theorem writeAt_ordered (ordered : SpansOrdered cache.spans) (off : Nat) (data : Bytes) :
    SpansOrdered (cache.writeAt off data).spans := by
  unfold writeAt
  by_cases empty : data = []
  · rwa [if_pos empty]
  · rw [if_neg empty]
    exact writeSpans_ordered ordered empty

theorem WellFormed.visible_eq_zero (wellFormed : cache.WellFormed plain) {index : Nat}
    (beyond : cache.length ≤ index) :
    cache.visible plain index = 0 := by
  have uncovered : overlay cache.spans index = none := by
    apply overlay_eq_none_of_forall
    intro span member
    have within := wellFormed.spansLe span member
    exact Span.byteAt_eq_none_of_stop_le (by omega)
  have baseLe := wellFormed.baseLe
  have settledLe := wellFormed.settledLe
  rw [visible, uncovered, committedByte, if_neg (by omega), if_neg (by omega)]
  rfl

/-- On an ordered overlay a write is the last-writer-wins write of a byte
array. -/
theorem view_writeAt (wellFormed : cache.WellFormed plain) (ordered : SpansOrdered cache.spans)
    (off : Nat) (data : Bytes) :
    (cache.writeAt off data).view plain = overwrite 0 (cache.view plain) off data := by
  by_cases empty : data = []
  · simp [writeAt, overwrite, empty]
  apply List.ext_getElem?
  intro index
  rw [getElem?_view, getElem?_overwrite _ _ _ _ _ empty, length_view, getElem?_view]
  have lengthEq : (cache.writeAt off data).length = max cache.length (off + data.length) := by
    rw [writeAt, if_neg empty]
  have visibleEq : (cache.writeAt off data).visible plain index =
      (if off ≤ index ∧ index < off + data.length then data[index - off]?
        else overlay cache.spans index).getD (cache.committedByte plain index) := by
    rw [visible, ← overlay_writeSpans ordered empty, writeAt, if_neg empty]
    rfl
  rw [lengthEq, visibleEq]
  by_cases written : off ≤ index ∧ index < off + data.length
  · rw [if_pos written, if_pos (by omega), if_pos written,
      List.getElem?_eq_getElem (by omega), Option.getD_some]
  · rw [if_neg written, if_neg written]
    by_cases inside : index < cache.length
    · rw [if_pos inside]
      rfl
    · have zero := wellFormed.visible_eq_zero (not_lt.mp inside)
      rw [if_neg inside, Option.getD_none, ← zero]
      rfl

end WriteCache

end Rose
