import Rose.SpanInPlaceWrites

/-!
# Merging writes

The slow path of `writeLocked` replaces every span that the write overlaps or
touches by one merged span and sorts the list again.  On an ordered list the
result is ordered, and its overlay is the old one with the written range
replaced.
-/

namespace Rose

open ListSplice

section MergePath

variable {off : Nat} {data : Bytes}

section

variable (overlap : List Span)
include overlap

theorem foldl_min_le (low : Nat) :
    overlap.foldl (fun low span => min low span.start) low ≤ low ∧ ∀ span ∈ overlap,
        overlap.foldl (fun low span => min low span.start) low ≤ span.start := by
  induction overlap generalizing low with
  | nil => simp
  | cons span rest ih =>
    obtain ⟨leLow, leRest⟩ := ih (min low span.start)
    rw [List.foldl_cons, List.forall_mem_cons]
    exact ⟨by omega, by omega, leRest⟩

theorem foldl_min_attained (low : Nat) :
    overlap.foldl (fun low span => min low span.start) low = low ∨ ∃ span ∈ overlap,
        overlap.foldl (fun low span => min low span.start) low = span.start := by
  induction overlap generalizing low with
  | nil => simp
  | cons span rest ih =>
    rw [List.foldl_cons]
    rcases ih (min low span.start) with same | ⟨other, member, same⟩
    · rcases Nat.le_total low span.start with lowLe | startLe
      · left
        omega
      · right
        exact ⟨span, List.mem_cons_self, by omega⟩
    · exact Or.inr ⟨other, List.mem_cons_of_mem _ member, same⟩

theorem le_foldl_max (high : Nat) :
    high ≤ overlap.foldl (fun high span => max high span.stop) high ∧ ∀ span ∈ overlap, span.stop ≤
          overlap.foldl (fun high span => max high span.stop) high := by
  induction overlap generalizing high with
  | nil => simp
  | cons span rest ih =>
    obtain ⟨highLe, restLe⟩ := ih (max high span.stop)
    rw [List.foldl_cons, List.forall_mem_cons]
    exact ⟨by omega, by omega, restLe⟩

theorem foldl_max_attained (high : Nat) :
    overlap.foldl (fun high span => max high span.stop) high = high ∨ ∃ span ∈ overlap,
        overlap.foldl (fun high span => max high span.stop) high = span.stop := by
  induction overlap generalizing high with
  | nil => simp
  | cons span rest ih =>
    rw [List.foldl_cons]
    rcases ih (max high span.stop) with same | ⟨other, member, same⟩
    · rcases Nat.le_total span.stop high with stopLe | highLe
      · left
        omega
      · right
        exact ⟨span, List.mem_cons_self, by omega⟩
    · exact Or.inr ⟨other, List.mem_cons_of_mem _ member, same⟩

end

theorem start_mergedSpan (off : Nat) (data : Bytes) (overlap : List Span) :
    (mergedSpan off data overlap).start =
      overlap.foldl (fun low span => min low span.start) off := rfl

theorem length_foldl_copyAt (low : Nat) (spans : List Span) (buf : Bytes) :
    (spans.foldl (fun buf span => copyAt buf (span.start - low) span.data) buf).length =
        buf.length := by
  induction spans generalizing buf with
  | nil => rfl
  | cons span rest ih => rw [List.foldl_cons, ih, length_copyAt]

variable {spans : List Span}

theorem getElem?_foldl_copyAt {low : Nat} (above : ∀ span ∈ spans, low ≤ span.start) {buf : Bytes}
    {index : Nat} (inside : index < buf.length) :
    (spans.foldl (fun buf span => copyAt buf (span.start - low) span.data) buf)[index]? =
        (overlay spans (low + index)).or buf[index]? := by
  induction spans generalizing buf with
  | nil => simp [overlay]
  | cons span rest ih =>
    rw [List.forall_mem_cons] at above
    rw [List.foldl_cons, ih above.2 (by rwa [length_copyAt]), overlay,
      Option.or_assoc, getElem?_copyAt]
    congr 1
    unfold Span.byteAt
    by_cases after : span.start ≤ low + index
    · rw [if_pos after]
      have position : low + index - span.start = index - (span.start - low) := by
        omega
      by_cases covered : low + index < span.start + span.data.length
      · rw [if_pos (by omega), position, List.getElem?_eq_getElem (by omega), Option.some_or]
      · rw [if_neg (by omega), List.getElem?_eq_none (l := span.data) (by omega), Option.none_or]
    · rw [if_neg after, if_neg (by omega), Option.none_or]

theorem stop_mergedSpan (off : Nat) (data : Bytes) (overlap : List Span) :
    (mergedSpan off data overlap).stop = overlap.foldl (fun high span => max high span.stop)
        (off + data.length) := by
  have low := (foldl_min_le overlap off).1
  have high := (le_foldl_max overlap (off + data.length)).1
  simp only [mergedSpan, Span.stop, length_copyAt, length_foldl_copyAt, List.length_replicate]
  simp only [Span.stop] at high
  omega

theorem byteAt_mergedSpan (overlap : List Span) {index : Nat}
    (after : (mergedSpan off data overlap).start ≤ index)
    (before : index < (mergedSpan off data overlap).stop) :
    (mergedSpan off data overlap).byteAt index =
      if off ≤ index ∧ index < off + data.length then data[index - off]?
      else some ((overlay overlap index).getD 0) := by
  have startLe := (foldl_min_le overlap off).1
  have above := (foldl_min_le overlap off).2
  have stopEq := stop_mergedSpan off data overlap
  rw [stopEq] at before
  rw [← start_mergedSpan off data] at startLe above
  have highLe := (le_foldl_max overlap (off + data.length)).1
  rw [Span.byteAt, if_pos after]
  change (copyAt _ _ _)[_]? = _
  rw [← start_mergedSpan off data, getElem?_copyAt, length_foldl_copyAt, List.length_replicate]
  by_cases written : off ≤ index ∧ index < off + data.length
  · rw [if_pos written, if_pos (by omega)]
    congr 1
    omega
  · rw [if_neg written, if_neg (by omega),
      getElem?_foldl_copyAt above (by rw [List.length_replicate]; omega),
      List.getElem?_replicate, if_pos (by omega),
      Nat.add_sub_cancel' after]
    cases overlay overlap index <;> rfl

variable {span : Span}

theorem mem_keepSpans_iff {stop : Nat} :
    span ∈ keepSpans off stop spans ↔ span ∈ spans ∧ (span.stop < off ∨ stop < span.start) := by
  simp [keepSpans, Span.touches]

theorem mem_overlapSpans_iff {stop : Nat} :
    span ∈ overlapSpans off stop spans ↔ span ∈ spans ∧ off ≤ span.stop ∧ span.start ≤ stop := by
  simp [overlapSpans, Span.touches]

theorem mem_writeMerge_iff :
    span ∈ writeMerge off data spans ↔ span ∈ keepSpans off (off + data.length) spans ∨
        span = mergedSpan off data (overlapSpans off (off + data.length) spans) := by
  simp [writeMerge]

instance : Std.Symm Span.Apart where
  symm _ _ apart := Or.symm apart

theorem SpansOrdered.apart (ordered : SpansOrdered spans) {first second : Span}
    (firstMem : first ∈ spans) (secondMem : second ∈ spans) (different : first ≠ second) :
    first.Apart second := by
  have pairwise : spans.Pairwise Span.Apart := ordered.ordered.imp fun before => Or.inl before
  exact pairwise.forall firstMem secondMem different

theorem mergedSpan_nonempty (overlap : List Span) (nonempty : data ≠ []) :
    (mergedSpan off data overlap).data ≠ [] := by
  intro empty
  have positive : 0 < data.length := List.length_pos_iff.mpr nonempty
  have low := (foldl_min_le overlap off).1
  have high := (le_foldl_max overlap (off + data.length)).1
  have stopEq := stop_mergedSpan off data overlap
  rw [Span.stop, empty, start_mergedSpan, List.length_nil] at stopEq
  omega

variable (ordered : SpansOrdered spans)
include ordered

/-- A span the write neither overlaps nor touches stays apart from the merged
span. -/
theorem keepSpans_apart_mergedSpan (kept : span ∈ keepSpans off (off + data.length) spans) :
    span.Apart (mergedSpan off data (overlapSpans off (off + data.length) spans)) := by
  obtain ⟨member, untouched⟩ := mem_keepSpans_iff.mp kept
  have positive := Span.start_lt_stop (ordered.nonempty span member)
  rw [Span.Apart, start_mergedSpan, stop_mergedSpan]
  have other : ∀ touched ∈ overlapSpans off (off + data.length) spans,
      span.Apart touched ∧ off ≤ touched.stop ∧ touched.start ≤ off + data.length := by
    intro touched touchedMem
    obtain ⟨inSpans, reaches⟩ := mem_overlapSpans_iff.mp touchedMem
    refine ⟨ordered.apart member inSpans ?_, reaches⟩
    rintro rfl
    omega
  rcases untouched with before | after
  · left
    rcases foldl_min_attained (overlapSpans off (off + data.length) spans) off
      with same | ⟨touched, touchedMem, same⟩
    · omega
    · obtain ⟨apart, reaches⟩ := other touched touchedMem
      rw [same]
      rcases apart with earlier | later
      · exact earlier
      · omega
  · right
    rcases foldl_max_attained (overlapSpans off (off + data.length) spans)
      (off + data.length) with same | ⟨touched, touchedMem, same⟩
    · omega
    · obtain ⟨apart, reaches⟩ := other touched touchedMem
      rw [same]
      rcases apart with earlier | later
      · have own := touched.start_le_stop
        omega
      · exact later

theorem writeMerge_ordered (nonempty : data ≠ []) : SpansOrdered (writeMerge off data spans) := by
  have allNonempty : ∀ span ∈ writeMerge off data spans, span.data ≠ [] := by
    intro span member
    rcases mem_writeMerge_iff.mp member with kept | rfl
    · exact ordered.nonempty span (mem_keepSpans_iff.mp kept).1
    · exact mergedSpan_nonempty _ nonempty
  refine ⟨?_, allNonempty⟩
  have keptApart : (keepSpans off (off + data.length) spans).Pairwise Span.Apart :=
    (ordered.ordered.imp fun before => Or.inl before).filter _
  have unsortedApart :
      (keepSpans off (off + data.length) spans ++
        [mergedSpan off data (overlapSpans off (off + data.length) spans)]).Pairwise
            Span.Apart := by
    rw [List.pairwise_append]
    refine ⟨keptApart, List.pairwise_singleton _ _, fun span kept merged => ?_⟩
    intro isMerged
    rw [List.mem_singleton.mp isMerged]
    exact keepSpans_apart_mergedSpan ordered kept
  have sortedApart : (writeMerge off data spans).Pairwise Span.Apart :=
    ((List.perm_insertionSort _ _).pairwise_iff Or.symm).mpr unsortedApart
  have sorted : (writeMerge off data spans).Pairwise
      fun first second => first.start ≤ second.start :=
    List.pairwise_insertionSort _ _
  refine (sorted.and sortedApart).imp_of_mem ?_
  rintro first second firstMem secondMem ⟨startLe, before | after⟩
  · exact before
  · have positive := Span.start_lt_stop (allNonempty second secondMem)
    omega

/-- Outside the written range the merged span shows the spans it replaces:
these reach the written range, so they leave no gap. -/
theorem byteAt_mergedSpan_eq_some_iff {index : Nat}
    (unwritten : ¬(off ≤ index ∧ index < off + data.length)) {byte : UInt8} :
    (mergedSpan off data (overlapSpans off (off + data.length) spans)).byteAt index = some byte ↔
      ∃ span ∈ overlapSpans off (off + data.length) spans, span.byteAt index = some byte := by
  have overlapOrdered : (overlapSpans off (off + data.length) spans).Pairwise
        fun first second => first.stop ≤ second.start :=
    ordered.ordered.filter _
  have touching : ∀ span ∈ overlapSpans off (off + data.length) spans,
      off ≤ span.stop ∧ span.start ≤ off + data.length :=
    fun span member => (mem_overlapSpans_iff.mp member).2
  generalize overlapSpans off (off + data.length) spans = overlap at *
  have startEq := start_mergedSpan off data overlap
  have stopEq := stop_mergedSpan off data overlap
  rw [← overlay_eq_some_iff overlapOrdered]
  by_cases inside : (mergedSpan off data overlap).start ≤ index ∧
      index < (mergedSpan off data overlap).stop
  · rw [byteAt_mergedSpan overlap inside.1 inside.2, if_neg unwritten]
    have covered : ∃ span ∈ overlap, span.start ≤ index ∧ index < span.stop := by
      by_cases before : index < off
      · rcases foldl_min_attained overlap off with
          same | ⟨span, member, same⟩
        · omega
        · have reaches := touching span member
          exact ⟨span, member, by omega, by omega⟩
      · rcases foldl_max_attained overlap (off + data.length) with
          same | ⟨span, member, same⟩
        · omega
        · have reaches := touching span member
          exact ⟨span, member, by omega, by omega⟩
    obtain ⟨span, member, after, before⟩ := covered
    obtain ⟨shown, covers⟩ := Span.exists_byteAt after before
    rw [(overlay_eq_some_iff overlapOrdered).mpr ⟨span, member, covers⟩]
    rfl
  · have uncovered : overlay overlap index = none := by
      apply overlay_eq_none_of_forall
      intro span member
      have low := (foldl_min_le overlap off).2 span member
      have high := (le_foldl_max overlap (off + data.length)).2 span member
      exact Span.byteAt_eq_none_iff.mpr (by omega)
    rw [uncovered, Span.byteAt_eq_none_iff.mpr (by omega)]

theorem writeMerge_overlay (nonempty : data ≠ []) (index : Nat) :
    overlay (writeMerge off data spans) index =
      if off ≤ index ∧ index < off + data.length then data[index - off]?
      else overlay spans index := by
  have newOrdered : (writeMerge off data spans).Pairwise
      fun first second => first.stop ≤ second.start :=
    (writeMerge_ordered ordered nonempty).ordered
  by_cases written : off ≤ index ∧ index < off + data.length
  · rw [if_pos written, List.getElem?_eq_getElem (by omega), overlay_eq_some_iff newOrdered]
    refine ⟨_, mem_writeMerge_iff.mpr (Or.inr rfl), ?_⟩
    have low := (foldl_min_le (overlapSpans off (off + data.length) spans) off).1
    have high := (le_foldl_max (overlapSpans off (off + data.length) spans) (off + data.length)).1
    rw [byteAt_mergedSpan _ (by rw [start_mergedSpan]; omega)
      (by rw [stop_mergedSpan]; omega), if_pos written,
      List.getElem?_eq_getElem (by omega)]
  · rw [if_neg written]
    apply Option.ext
    intro byte
    rw [overlay_eq_some_iff newOrdered, overlay_eq_some_iff ordered.ordered]
    constructor
    · rintro ⟨span, member, covers⟩
      rcases mem_writeMerge_iff.mp member with kept | rfl
      · exact ⟨span, (mem_keepSpans_iff.mp kept).1, covers⟩
      · obtain ⟨old, oldMem, oldCovers⟩ := (byteAt_mergedSpan_eq_some_iff ordered written).mp covers
        exact ⟨old, (mem_overlapSpans_iff.mp oldMem).1, oldCovers⟩
    · rintro ⟨span, member, covers⟩
      by_cases untouched : span.stop < off ∨ off + data.length < span.start
      · exact ⟨span, mem_writeMerge_iff.mpr
          (Or.inl (mem_keepSpans_iff.mpr ⟨member, untouched⟩)), covers⟩
      · refine ⟨_, mem_writeMerge_iff.mpr (Or.inr rfl), ?_⟩
        rw [byteAt_mergedSpan_eq_some_iff ordered written]
        exact ⟨span, mem_overlapSpans_iff.mpr ⟨member, by omega⟩, covers⟩

end MergePath

end Rose
