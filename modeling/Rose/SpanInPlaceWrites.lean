import Mathlib.Data.List.Pairwise
import Rose.WriteCacheView

/-!
# Ordered spans and in-place writes

The cache keeps its dirty spans sorted by start and non-overlapping, so that at
most one span covers an offset.  This file states that order and follows the
fast path of `writeLocked`, which mutates one span in place.
-/

namespace Rose

open ListSplice

/-- Two spans that share no offset. -/
def Span.Apart (first second : Span) : Prop :=
  first.stop ≤ second.start ∨ second.stop ≤ first.start

/-- A list of nonempty spans, each ending at or before the next one starts. -/
structure SpansOrdered (spans : List Span) : Prop where
  ordered : spans.Pairwise fun first second => first.stop ≤ second.start
  nonempty : ∀ span ∈ spans, span.data ≠ []

theorem Span.start_lt_stop {span : Span} (nonempty : span.data ≠ []) : span.start < span.stop := by
  have positive : 0 < span.data.length := List.length_pos_iff.mpr nonempty
  unfold stop
  omega

theorem Span.start_le_stop (span : Span) : span.start ≤ span.stop := Nat.le_add_right _ _

theorem Span.byteAt_eq_some_bounds {span : Span} {index : Nat} {byte : UInt8}
    (covers : span.byteAt index = some byte) :
    span.start ≤ index ∧ index < span.stop := by
  by_contra outside
  rw [byteAt_eq_none_iff.mpr (by omega)] at covers
  cases covers

theorem Span.exists_byteAt {span : Span} {index : Nat} (after : span.start ≤ index)
    (before : index < span.stop) :
    ∃ byte, span.byteAt index = some byte := by
  rw [← Option.isSome_iff_exists, Option.isSome_iff_ne_none, ne_eq, byteAt_eq_none_iff]
  omega

theorem overlay_eq_some_iff {spans : List Span}
    (ordered : spans.Pairwise fun first second => first.stop ≤ second.start)
    {index : Nat} {byte : UInt8} :
    overlay spans index = some byte ↔ ∃ span ∈ spans, span.byteAt index = some byte := by
  induction spans with
  | nil => simp [overlay]
  | cons span rest ih =>
    rw [List.pairwise_cons] at ordered
    rw [overlay, Option.or_eq_some_iff, ih ordered.2]
    constructor
    · rintro (⟨other, member, covers⟩ | ⟨-, covers⟩)
      · exact ⟨other, List.mem_cons_of_mem _ member, covers⟩
      · exact ⟨span, List.mem_cons_self, covers⟩
    · rintro ⟨other, member, covers⟩
      rcases List.mem_cons.mp member with rfl | inRest
      · right
        refine ⟨overlay_eq_none_of_forall fun later laterMem => ?_, covers⟩
        have bounds := Span.byteAt_eq_some_bounds covers
        have separated := ordered.1 later laterMem
        exact Span.byteAt_eq_none_of_lt (by omega)
      · exact Or.inl ⟨other, inRest, covers⟩

section FastPath

variable {off : Nat} {data : Bytes}

@[simp]
theorem Span.start_writeInPlace (span : Span) :
    (span.writeInPlace off data).start = span.start := by
  unfold writeInPlace
  split <;> rfl

theorem Span.stop_writeInPlace {span : Span} (leStop : off ≤ span.stop) :
    (span.writeInPlace off data).stop = max span.stop (off + data.length) := by
  unfold writeInPlace
  by_cases inside : off + data.length ≤ span.stop
  · rw [if_pos inside]
    simp only [stop, length_copyAt] at *
    omega
  · rw [if_neg inside]
    simp only [stop, List.length_append, length_copyAt, List.length_drop] at *
    omega

theorem Span.byteAt_writeInPlace {span : Span} (startLe : span.start ≤ off)
    (leStop : off ≤ span.stop) (index : Nat) :
    (span.writeInPlace off data).byteAt index =
      if off ≤ index ∧ index < off + data.length then data[index - off]?
      else span.byteAt index := by
  by_cases after : span.start ≤ index
  swap
  · have before : index < (span.writeInPlace off data).start := by
      rw [start_writeInPlace]
      omega
    rw [if_neg (by omega), byteAt_eq_none_of_lt before, byteAt_eq_none_of_lt (by omega)]
  unfold byteAt
  rw [start_writeInPlace, if_pos after, if_pos after]
  unfold writeInPlace
  unfold stop at *
  by_cases inside : off + data.length ≤ span.start + span.data.length
  · rw [if_pos inside]
    dsimp only
    rw [getElem?_copyAt]
    by_cases written : off ≤ index ∧ index < off + data.length
    · rw [if_pos written, if_pos (by omega)]
      congr 1
      omega
    · rw [if_neg written, if_neg (by omega)]
  · rw [if_neg inside]
    dsimp only
    rw [List.getElem?_append, length_copyAt, getElem?_copyAt,
      List.length_take, List.getElem?_take, List.getElem?_drop]
    by_cases old : index - span.start < span.data.length
    · rw [if_pos old]
      by_cases written : off ≤ index
      · rw [if_pos (by omega), if_pos (by omega), if_pos (by omega)]
        congr 1
        omega
      · rw [if_neg (by omega), if_neg (by omega)]
    · rw [if_neg old]
      by_cases written : index < off + data.length
      · rw [if_pos (by omega)]
        congr 1
        omega
      · rw [if_neg (by omega), List.getElem?_eq_none (by omega), List.getElem?_eq_none (by omega)]

variable {spans result : List Span}

theorem writeFastPath_cases (returned : writeFastPath off data spans = some result) :
    ∃ before span after, spans = before ++ span :: after ∧
      result = before ++ span.writeInPlace off data :: after ∧
      span.start ≤ off ∧ off ≤ span.stop ∧
      off + data.length < nextStart after := by
  induction spans generalizing result with
  | nil => cases returned
  | cons span rest ih =>
    unfold writeFastPath at returned
    split_ifs at returned with ended later reached
    · obtain ⟨newRest, restReturned, consEq⟩ := Option.map_eq_some_iff.mp returned
      obtain ⟨before, found, after, restEq, newRestEq, bounds⟩ := ih restReturned
      refine ⟨span :: before, found, after, ?_, ?_, bounds⟩
      · rw [restEq, List.cons_append]
      · rw [← consEq, newRestEq, List.cons_append]
    · exact ⟨[], span, rest, rfl, (Option.some.inj returned).symm, by omega, by omega, by omega⟩

theorem forall_lt_start_of_lt_nextStart {bound : Nat}
    (ordered : spans.Pairwise fun first second => first.stop ≤ second.start)
    (boundLt : bound < nextStart spans) :
    ∀ span ∈ spans, bound < span.start := by
  cases spans with
  | nil => simp
  | cons first rest =>
    rw [List.pairwise_cons] at ordered
    rw [List.forall_mem_cons]
    refine ⟨boundLt, fun span member => ?_⟩
    have separated := ordered.1 span member
    have own := first.start_le_stop
    have firstLt : bound < first.start := boundLt
    omega

variable (ordered : SpansOrdered spans) (returned : writeFastPath off data spans = some result)
include ordered returned

theorem writeFastPath_ordered : SpansOrdered result := by
  obtain ⟨before, span, after, rfl, rfl, startLe, leStop, beforeNext⟩ :=
    writeFastPath_cases returned
  obtain ⟨pairwise, nonempty⟩ := ordered
  rw [List.pairwise_append, List.pairwise_cons] at pairwise
  obtain ⟨beforeOrdered, ⟨spanBefore, afterOrdered⟩, across⟩ := pairwise
  have afterLater := forall_lt_start_of_lt_nextStart afterOrdered beforeNext
  constructor
  · rw [List.pairwise_append, List.pairwise_cons]
    refine ⟨beforeOrdered, ⟨fun later member => ?_, afterOrdered⟩, ?_⟩
    · rw [Span.stop_writeInPlace leStop]
      have kept := spanBefore later member
      have beyond := afterLater later member
      omega
    · intro first firstMem second secondMem
      rcases List.mem_cons.mp secondMem with rfl | inAfter
      · rw [Span.start_writeInPlace]
        exact across first firstMem span List.mem_cons_self
      · exact across first firstMem second (List.mem_cons_of_mem _ inAfter)
  · intro other member
    rcases List.mem_append.mp member with inBefore | inTail
    · exact nonempty other (List.mem_append_left _ inBefore)
    · rcases List.mem_cons.mp inTail with rfl | inAfter
      · have positive := Span.start_lt_stop
          (nonempty span (List.mem_append_right _ List.mem_cons_self))
        intro empty
        have size : (span.writeInPlace off data).stop = span.start := by
          rw [Span.stop, empty, Span.start_writeInPlace]
          rfl
        rw [Span.stop_writeInPlace leStop] at size
        omega
      · exact nonempty other (List.mem_append_right _ (List.mem_cons_of_mem _ inAfter))

theorem writeFastPath_overlay (index : Nat) :
    overlay result index =
      if off ≤ index ∧ index < off + data.length then data[index - off]?
      else overlay spans index := by
  obtain ⟨before, span, after, rfl, rfl, startLe, leStop, beforeNext⟩ :=
    writeFastPath_cases returned
  have pairwise := ordered.ordered
  rw [List.pairwise_append, List.pairwise_cons] at pairwise
  have afterLater := forall_lt_start_of_lt_nextStart pairwise.2.1.2 beforeNext
  simp only [overlay_append, overlay, Span.byteAt_writeInPlace startLe leStop]
  by_cases written : off ≤ index ∧ index < off + data.length
  · have afterNone : overlay after index = none := by
      apply overlay_eq_none_of_forall
      intro later member
      have beyond := afterLater later member
      exact Span.byteAt_eq_none_of_lt (by omega)
    rw [if_pos written, if_pos written, afterNone, Option.none_or,
      List.getElem?_eq_getElem (by omega), Option.some_or]
  · rw [if_neg written, if_neg written]

end FastPath

end Rose
