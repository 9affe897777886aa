import Rose.WriteCacheWrites

/-!
# Truncation and spilling

Truncation clips the overlay and the base, and trims the settled prefix to
whole chunks; when the new size cuts a settled chunk, the bytes before the cut
return to the overlay as the first span.  Spilling moves bytes from the leading
span to the settled prefix.  Both keep the file the handle sees, up to the new
size, whatever the order of the spans.
-/

namespace Rose

open ListSplice

section Clip

variable {size : Nat} {spans : List Span}

/-- A span cut at `size`, as `clipSpans` keeps it. -/
def Span.clip (size : Nat) (span : Span) : Span :=
  if size < span.stop then
    { span with data := span.data.take (size - span.start) }
  else
    span

@[simp]
theorem Span.start_clip (span : Span) : (span.clip size).start = span.start := by
  unfold clip
  split <;> rfl

theorem Span.stop_clip {span : Span} (startLt : span.start < size) :
    (span.clip size).stop = min size span.stop := by
  unfold clip
  by_cases cut : size < span.stop
  · rw [if_pos cut]
    simp only [stop, List.length_take] at *
    omega
  · rw [if_neg cut]
    omega

theorem Span.byteAt_clip (span : Span) {index : Nat} (inside : index < size) :
    (span.clip size).byteAt index = span.byteAt index := by
  unfold clip
  split
  · unfold byteAt
    dsimp only
    rw [List.getElem?_take]
    by_cases after : span.start ≤ index
    · rw [if_pos after, if_pos after, if_pos (by omega)]
    · rw [if_neg after, if_neg after]
  · rfl

theorem clipSpans_cons (span : Span) (rest : List Span) :
    clipSpans size (span :: rest) =
      if size ≤ span.start then clipSpans size rest
      else span.clip size :: clipSpans size rest := by
  unfold clipSpans Span.clip
  rw [List.filterMap_cons]
  split_ifs <;> rfl

theorem mem_clipSpans_iff {clipped : Span} :
    clipped ∈ clipSpans size spans ↔
      ∃ span ∈ spans, span.start < size ∧ clipped = span.clip size := by
  induction spans with
  | nil => simp [clipSpans]
  | cons span rest ih =>
    rw [clipSpans_cons]
    by_cases dropped : size ≤ span.start
    · rw [if_pos dropped, ih, List.exists_mem_cons_iff]
      constructor
      · exact Or.inr
      · rintro (⟨startLt, -⟩ | later)
        · omega
        · exact later
    · rw [if_neg dropped, List.mem_cons, ih, List.exists_mem_cons_iff]
      have startLt : span.start < size := by omega
      simp only [startLt, true_and]

theorem clipSpans_ordered (ordered : SpansOrdered spans) : SpansOrdered (clipSpans size spans) := by
  constructor
  · have pairwise := ordered.ordered
    induction spans with
    | nil => simp [clipSpans]
    | cons span rest ih =>
      rw [List.pairwise_cons] at pairwise
      have restOrdered : SpansOrdered rest :=
        ⟨pairwise.2, fun other member =>
          ordered.nonempty other (List.mem_cons_of_mem _ member)⟩
      rw [clipSpans_cons]
      by_cases dropped : size ≤ span.start
      · rw [if_pos dropped]
        exact ih restOrdered pairwise.2
      · rw [if_neg dropped, List.pairwise_cons]
        refine ⟨fun later member => ?_, ih restOrdered pairwise.2⟩
        obtain ⟨original, inRest, -, rfl⟩ := mem_clipSpans_iff.mp member
        have separated := pairwise.1 original inRest
        rw [Span.stop_clip (by omega), Span.start_clip]
        omega
  · intro clipped member
    obtain ⟨span, inSpans, startLt, rfl⟩ := mem_clipSpans_iff.mp member
    have positive := Span.start_lt_stop (ordered.nonempty span inSpans)
    intro empty
    have stopEq := Span.stop_clip startLt
    rw [Span.stop, empty, Span.start_clip, List.length_nil] at stopEq
    omega

theorem clipSpans_bounds (spansNonempty : ∀ span ∈ spans, span.data ≠ []) :
    ∀ span ∈ clipSpans size spans, span.stop ≤ size ∧ span.data ≠ [] := by
  intro clipped member
  obtain ⟨span, inSpans, startLt, rfl⟩ := mem_clipSpans_iff.mp member
  have stopEq := Span.stop_clip startLt
  have positive := Span.start_lt_stop (spansNonempty span inSpans)
  refine ⟨by omega, fun empty => ?_⟩
  rw [Span.stop, empty, Span.start_clip, List.length_nil] at stopEq
  omega

theorem overlay_clipSpans {index : Nat} (inside : index < size) :
    overlay (clipSpans size spans) index = overlay spans index := by
  induction spans with
  | nil => rfl
  | cons span rest ih =>
    rw [clipSpans_cons, overlay]
    by_cases dropped : size ≤ span.start
    · rw [if_pos dropped, ih, Span.byteAt_eq_none_of_lt (by omega), Option.or_none]
    · rw [if_neg dropped, overlay, ih, Span.byteAt_clip span inside]

end Clip

theorem trimSettled_spec {size passed : Nat} (chunks : List ChunkPlacement)
    (passedLe : passed ≤ size) :
    ∃ rest, chunks = (trimSettled size passed chunks).2 ++ rest ∧
      (trimSettled size passed chunks).1 = passed + totalLen (trimSettled size passed chunks).2 ∧
      (trimSettled size passed chunks).1 ≤ size ∧
      ∀ next ∈ rest.head?, size < (trimSettled size passed chunks).1 + next.logicalLen := by
  induction chunks generalizing passed with
  | nil =>
    exact ⟨[], rfl, rfl, passedLe, by simp⟩
  | cons chunk rest ih =>
    unfold trimSettled
    by_cases crosses : size < passed + chunk.logicalLen
    · rw [if_pos crosses]
      exact ⟨chunk :: rest, rfl, rfl, passedLe, by simpa using crosses⟩
    · rw [if_neg crosses]
      obtain ⟨dropped, split, total, keptLe, next⟩ := @ih (passed + chunk.logicalLen) (by omega)
      refine ⟨dropped, ?_, ?_, keptLe, next⟩
      · change chunk :: rest = chunk :: (_ ++ dropped)
        rw [← split]
      · dsimp only
        rw [total, totalLen_cons]
        omega

namespace WriteCache

variable {plain : Bytes → Bytes}

/-- The size is the end of one of the settled chunks, or zero. -/
def SettledBoundary (cache : WriteCache) (size : Nat) : Prop := ∃ count ≤ cache.settled.length,
    totalLen (cache.settled.take count) = size

instance (cache : WriteCache) (size : Nat) :
    Decidable (cache.SettledBoundary size) :=
  inferInstanceAs (Decidable (∃ count ≤ cache.settled.length, _))

/-- The settled prefix is trimmed to the last chunk boundary within the new
size. -/
theorem trimSettled_boundary (cache : WriteCache) (size : Nat) :
    (trimSettled size 0 cache.settled).1 ≤ size ∧
      cache.SettledBoundary (trimSettled size 0 cache.settled).1 ∧
      ∀ other ≤ size, cache.SettledBoundary other →
        other ≤ (trimSettled size 0 cache.settled).1 := by
  obtain ⟨rest, split, total, keptLe, next⟩ := trimSettled_spec cache.settled (Nat.zero_le size)
  generalize trimSettled size 0 cache.settled = trimmed at *
  unfold SettledBoundary
  rw [split]
  refine ⟨keptLe, ⟨trimmed.2.length, by simp, ?_⟩, ?_⟩
  · rw [List.take_left]
    omega
  · rintro other otherLe ⟨count, countLe, takenTotal⟩
    rw [List.take_append, totalLen_append] at takenTotal
    by_cases inKept : count ≤ trimmed.2.length
    · have splitKept : totalLen (trimmed.2.take count) +
          totalLen (trimmed.2.drop count) = totalLen trimmed.2 := by
        rw [← totalLen_append, List.take_append_drop]
      have noRest : count - trimmed.2.length = 0 := by omega
      rw [noRest, List.take_zero, totalLen_nil] at takenTotal
      omega
    · cases rest with
      | nil =>
        rw [List.length_append, List.length_nil] at countLe
        omega
      | cons chunk more =>
        have crosses := next chunk rfl
        have positive : count - trimmed.2.length = (count - trimmed.2.length - 1) + 1 := by
          omega
        rw [List.take_of_length_le (by omega), positive,
          List.take_succ_cons, totalLen_cons] at takenTotal
        omega

theorem trimSettled_eq_iff_boundary (cache : WriteCache) (size : Nat) :
    (trimSettled size 0 cache.settled).1 = size ↔ cache.SettledBoundary size := by
  obtain ⟨keptLe, isBoundary, greatest⟩ := trimSettled_boundary cache size
  refine ⟨fun same => ?_, fun whole => Nat.le_antisymm keptLe (greatest size le_rfl whole)⟩
  rwa [same] at isBoundary

/-- What a successful truncation below the settled length leaves: a shorter
settled prefix, and the settled bytes between its end and the new size as the
first span. -/
structure TrimmedTo (plain : Bytes → Bytes) (cache : WriteCache) (size : Nat)
    (result : WriteCache) : Prop where
  base_eq : result.base = cache.base
  baseLen_eq : result.baseLen = min cache.baseLen size
  length_eq : result.length = size
  split : ∃ rest, cache.settled = result.settled ++ rest
  settledLen_eq : result.settledLen = totalLen result.settled
  settledLe : result.settledLen ≤ size
  boundary : result.settledLen = size ↔ cache.SettledBoundary size
  spans_eq : result.spans =
    if result.settledLen < size then
      { start := result.settledLen
        data := slice (chunkBytes plain cache.settled) result.settledLen
          (size - result.settledLen) } :: clipSpans size cache.spans
    else
      clipSpans size cache.spans

variable {cache result : WriteCache} {size : Nat}

/-- The two ways a truncation succeeds. -/
theorem truncate_cases (wellFormed : cache.WellFormed plain) (reader : PayloadReader plain)
    (returned : cache.truncate (readChunksAt reader.read) size = (.ok (), result)) :
    (cache.settledLen ≤ size ∧ result = cache.clipTo size) ∨
      (size < cache.settledLen ∧ TrimmedTo plain cache size result) := by
  unfold truncate at returned
  by_cases above : cache.settledLen ≤ size
  · rw [if_pos above, Prod.mk.injEq] at returned
    exact Or.inl ⟨above, returned.2.symm⟩
  rw [if_neg above] at returned
  refine Or.inr ⟨by omega, ?_⟩
  have boundary := trimSettled_eq_iff_boundary cache size
  obtain ⟨rest, split, total, keptLe, -⟩ := trimSettled_spec cache.settled (Nat.zero_le size)
  generalize trimSettled size 0 cache.settled = trimmed at *
  obtain ⟨kept, chunks⟩ := trimmed
  dsimp only at *
  rw [Nat.zero_add] at total
  by_cases cut : kept < size
  · rw [if_pos cut] at returned
    cases readData :
        readChunksAt reader.read cache.settled kept (size - kept) with
    | error reason =>
      rw [readData] at returned
      cases returned
    | ok data =>
      rw [readData, Prod.mk.injEq] at returned
      rw [← returned.2, readChunksAt_eq reader wellFormed.settledStored readData]
      exact {
        base_eq := rfl
        baseLen_eq := rfl
        length_eq := rfl
        split := ⟨rest, split⟩
        settledLen_eq := total
        settledLe := keptLe
        boundary := boundary
        spans_eq := (if_pos cut).symm }
  · rw [if_neg cut, Prod.mk.injEq] at returned
    rw [← returned.2]
    exact {
      base_eq := rfl
      baseLen_eq := rfl
      length_eq := rfl
      split := ⟨rest, split⟩
      settledLen_eq := total
      settledLe := keptLe
      boundary := boundary
      spans_eq := (if_neg cut).symm }

theorem clipTo_wellFormed (wellFormed : cache.WellFormed plain) (above : cache.settledLen ≤ size) :
    (cache.clipTo size).WellFormed plain where
  baseStored := wellFormed.baseStored
  settledStored := wellFormed.settledStored
  settledTotal := wellFormed.settledTotal
  baseWithin := (Nat.min_le_left _ _).trans wellFormed.baseWithin
  baseLe := Nat.min_le_right _ _
  settledLe := above
  spansLe := fun span member =>
    (clipSpans_bounds wellFormed.spansNonempty span member).1
  spansNonempty := fun span member =>
    (clipSpans_bounds wellFormed.spansNonempty span member).2

theorem TrimmedTo.wellFormed (trimmed : TrimmedTo plain cache size result)
    (wellFormed : cache.WellFormed plain) (below : size < cache.settledLen) :
    result.WellFormed plain := by
  obtain ⟨rest, split⟩ := trimmed.split
  have settledStored := wellFormed.settledStored
  have settledSize := length_chunkBytes settledStored
  have total := wellFormed.settledTotal
  have settledLe := trimmed.settledLe
  rw [split, allStored_append_iff] at settledStored
  have clipped : ∀ span ∈ clipSpans size cache.spans, span.stop ≤ size ∧ span.data ≠ [] :=
    clipSpans_bounds wellFormed.spansNonempty
  have bounds : ∀ span ∈ result.spans, span.stop ≤ size ∧ span.data ≠ [] := by
    rw [trimmed.spans_eq]
    split_ifs with cut
    · rw [List.forall_mem_cons]
      refine ⟨⟨?_, ?_⟩, clipped⟩
      · simp only [Span.stop, length_slice]
        omega
      · rw [← List.length_pos_iff, length_slice]
        omega
    · exact clipped
  exact {
    baseStored := by rw [trimmed.base_eq]; exact wellFormed.baseStored
    settledStored := settledStored.1
    settledTotal := trimmed.settledLen_eq.symm
    baseWithin := by
      rw [trimmed.base_eq, trimmed.baseLen_eq]
      exact (Nat.min_le_left _ _).trans wellFormed.baseWithin
    baseLe := by
      rw [trimmed.baseLen_eq, trimmed.length_eq]
      exact Nat.min_le_right _ _
    settledLe := by rw [trimmed.length_eq]; exact trimmed.settledLe
    spansLe := by
      rw [trimmed.length_eq]
      exact fun span member => (bounds span member).1
    spansNonempty := fun span member => (bounds span member).2 }

theorem visible_clipTo (cache : WriteCache) {index : Nat} (inside : index < size) :
    (cache.clipTo size).visible plain index = cache.visible plain index := by
  unfold visible
  have sameOverlay : overlay (cache.clipTo size).spans index = overlay cache.spans index :=
    overlay_clipSpans inside
  have sameCommitted : (cache.clipTo size).committedByte plain index =
      cache.committedByte plain index := by
    unfold committedByte clipTo
    dsimp only
    by_cases inBase : index < cache.baseLen
    · rw [if_pos (by omega : index < min cache.baseLen size), if_pos inBase]
    · rw [if_neg (by omega : ¬index < min cache.baseLen size), if_neg inBase]
  rw [sameOverlay, sameCommitted]

/-- The bytes that leave the settled prefix are those the new first span
shows. -/
theorem TrimmedTo.visible {index : Nat} (trimmed : TrimmedTo plain cache size result)
    (wellFormed : cache.WellFormed plain) (below : size < cache.settledLen)
    (inside : index < size) : result.visible plain index = cache.visible plain index := by
  obtain ⟨rest, split⟩ := trimmed.split
  have stored := wellFormed.settledStored
  have settledSize := length_chunkBytes stored
  have total := wellFormed.settledTotal
  have trimmedTotal := trimmed.settledLen_eq
  have inSettled : index < (chunkBytes plain cache.settled).length := by omega
  have committed : cache.committedByte plain index =
      (chunkBytes plain cache.settled)[index]?.getD 0 :=
    if_pos (by omega)
  unfold WriteCache.visible
  rw [trimmed.spans_eq, committed]
  by_cases kept : index < result.settledLen
  · have newCommitted : result.committedByte plain index =
        (chunkBytes plain cache.settled)[index]?.getD 0 := by
      rw [split, allStored_append_iff] at stored
      rw [committedByte, if_pos kept, split, chunkBytes_append, List.getElem?_append_left
          (by rw [length_chunkBytes stored.1]; omega)]
    rw [newCommitted]
    split_ifs with cut
    · rw [overlay, overlay_clipSpans inside, Span.byteAt_eq_none_of_lt kept, Option.or_none]
    · rw [overlay_clipSpans inside]
  · have cut : result.settledLen < size := by omega
    have reinserted :
        ({ start := result.settledLen
           data := slice (chunkBytes plain cache.settled) result.settledLen
            (size - result.settledLen) } : Span).byteAt index =
          (chunkBytes plain cache.settled)[index]? := by
      unfold Span.byteAt
      dsimp only
      rw [if_pos (by omega), getElem?_slice, if_pos (by omega)]
      congr 1
      omega
    rw [if_pos cut, overlay, overlay_clipSpans inside, reinserted,
      List.getElem?_eq_getElem inSettled]
    cases overlay cache.spans index <;> rfl

variable (wellFormed : cache.WellFormed plain) (reader : PayloadReader plain)
  (returned : cache.truncate (readChunksAt reader.read) size = (.ok (), result))
include wellFormed reader returned

theorem truncate_wellFormed : result.WellFormed plain := by
  rcases truncate_cases wellFormed reader returned with
    ⟨above, rfl⟩ | ⟨below, trimmed⟩
  · exact clipTo_wellFormed wellFormed above
  · exact trimmed.wellFormed wellFormed below

theorem view_truncate : result.view plain = resize 0 size (cache.view plain) := by
  have resized : result.length = size ∧ ∀ index, index < size →
      result.visible plain index = cache.visible plain index := by
    rcases truncate_cases wellFormed reader returned with
      ⟨above, rfl⟩ | ⟨below, trimmed⟩
    · exact ⟨rfl, fun index inside => visible_clipTo cache inside⟩
    · exact ⟨trimmed.length_eq, fun index inside => trimmed.visible wellFormed below inside⟩
  apply List.ext_getElem?
  intro index
  rw [getElem?_view, getElem?_resize, getElem?_view, resized.1]
  by_cases inside : index < size
  · rw [if_pos inside, if_pos inside, resized.2 index inside]
    by_cases old : index < cache.length
    · rw [if_pos old]
      rfl
    · rw [if_neg old, wellFormed.visible_eq_zero (not_lt.mp old)]
      rfl
  · rw [if_neg inside, if_neg inside]

/-- Truncation keeps the spans ordered when it does not cut a settled chunk, or
when no dirty span starts below the new size. -/
theorem truncate_ordered (ordered : SpansOrdered cache.spans)
    (safe : cache.settledLen ≤ size ∨ cache.SettledBoundary size ∨
      ∀ span ∈ cache.spans, size ≤ span.start) : SpansOrdered result.spans := by
  have clipped : SpansOrdered (clipSpans size cache.spans) := clipSpans_ordered ordered
  rcases truncate_cases wellFormed reader returned with
    ⟨above, rfl⟩ | ⟨below, trimmed⟩
  · exact clipped
  have nonempty := (trimmed.wellFormed wellFormed below).spansNonempty
  refine ⟨?_, nonempty⟩
  rw [trimmed.spans_eq]
  split_ifs with cut
  · rcases safe with above | boundary | empty
    · omega
    · have same := trimmed.boundary.mpr boundary
      omega
    · have noSpans : clipSpans size cache.spans = [] := by
        rw [List.eq_nil_iff_forall_not_mem]
        intro span member
        obtain ⟨original, inSpans, startLt, -⟩ := mem_clipSpans_iff.mp member
        have beyond := empty original inSpans
        omega
      rw [noSpans]
      exact List.pairwise_singleton _ _
  · exact clipped.ordered

/-- Otherwise the reinserted settled bytes precede a span they overlap or one
that starts below them. -/
theorem truncate_not_ordered
    (unsafeCut : ¬(cache.settledLen ≤ size ∨ cache.SettledBoundary size ∨
      ∀ span ∈ cache.spans, size ≤ span.start)) :
    ¬(result.spans.Pairwise (fun first second => first.start ≤ second.start) ∧
      result.spans.Pairwise Span.Apart) := by
  push Not at unsafeCut
  obtain ⟨below, notBoundary, span, inSpans, startLt⟩ := unsafeCut
  rcases truncate_cases wellFormed reader returned with
    ⟨above, -⟩ | ⟨-, trimmed⟩
  · omega
  have settledLe := trimmed.settledLe
  have notSame : result.settledLen ≠ size := fun same => notBoundary (trimmed.boundary.mp same)
  have cut : result.settledLen < size := by omega
  have clippedMem : span.clip size ∈ clipSpans size cache.spans :=
    mem_clipSpans_iff.mpr ⟨span, inSpans, startLt, rfl⟩
  have positive := Span.start_lt_stop (clipSpans_bounds wellFormed.spansNonempty _ clippedMem).2
  have sliceSize : (slice (chunkBytes plain cache.settled) result.settledLen
      (size - result.settledLen)).length = size - result.settledLen := by
    have settledSize := length_chunkBytes wellFormed.settledStored
    have total := wellFormed.settledTotal
    rw [length_slice]
    omega
  rintro ⟨sorted, apart⟩
  rw [trimmed.spans_eq, if_pos cut, List.pairwise_cons] at sorted apart
  have startLe := sorted.1 _ clippedMem
  rw [Span.start_clip] at startLe positive
  rcases apart.1 _ clippedMem with before | after
  · rw [Span.stop, sliceSize, Span.start_clip] at before
    dsimp only at before
    omega
  · dsimp only at after startLe
    omega

end WriteCache

end Rose
