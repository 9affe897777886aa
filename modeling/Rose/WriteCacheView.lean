import Rose.WriteCache

/-!
# The file a write cache shows

Each offset of the cache shows the byte of the last dirty span that covers it,
otherwise the settled prefix, otherwise the base version, otherwise zero.  The
list of these bytes is the file the handle sees, and a successful read returns
its range of that file.
-/

namespace Rose

open ListSplice FallibleActions

/-- The byte a span holds at a logical offset. -/
def Span.byteAt (span : Span) (index : Nat) : Option UInt8 :=
  if span.start ≤ index then span.data[index - span.start]? else none

/-- The byte of the last span in the list that covers an offset. -/
def overlay : List Span → Nat → Option UInt8
  | [], _ => none
  | span :: rest, index => (overlay rest index).or (span.byteAt index)

variable {index : Nat}

theorem Span.byteAt_eq_none_iff {span : Span} :
    span.byteAt index = none ↔ index < span.start ∨ span.stop ≤ index := by
  unfold byteAt stop
  by_cases after : span.start ≤ index
  · rw [if_pos after, List.getElem?_eq_none_iff]
    omega
  · rw [if_neg after]
    simp
    omega

theorem Span.byteAt_eq_none_of_lt {span : Span} (before : index < span.start) :
    span.byteAt index = none :=
  byteAt_eq_none_iff.mpr (Or.inl before)

theorem Span.byteAt_eq_none_of_stop_le {span : Span} (after : span.stop ≤ index) :
    span.byteAt index = none :=
  byteAt_eq_none_iff.mpr (Or.inr after)

theorem overlay_eq_none_of_forall {spans : List Span}
    (uncovered : ∀ span ∈ spans, span.byteAt index = none) :
    overlay spans index = none := by
  induction spans with
  | nil => rfl
  | cons span rest ih =>
    rw [List.forall_mem_cons] at uncovered
    rw [overlay, uncovered.1, ih uncovered.2, Option.or_none]

theorem overlay_append (front back : List Span) (index : Nat) :
    overlay (front ++ back) index = (overlay back index).or (overlay front index) := by
  induction front with
  | nil => simp [overlay]
  | cons span rest ih =>
    rw [List.cons_append, overlay, ih, overlay, Option.or_assoc]

section Painting

variable {off stop : Nat}

@[simp]
theorem Span.length_paint (out : Bytes) (span : Span) :
    (span.paint off stop out).length = out.length := by
  unfold paint
  dsimp only
  split
  · exact length_copyAt _ _ _
  · rfl

theorem Span.getElem?_paint {out : Bytes} (size : out.length = stop - off) (span : Span)
    {index : Nat} (inside : index < stop - off) :
    (span.paint off stop out)[index]? = (span.byteAt (off + index)).or out[index]? := by
  unfold paint
  by_cases covered : span.start ≤ off + index ∧ off + index < span.stop
  · have crosses : max off span.start < min stop span.stop := by omega
    have sliceSize :
        (slice span.data (max off span.start - span.start)
          (min stop span.stop - max off span.start)).length =
            min stop span.stop - max off span.start := by
      rw [length_slice]
      unfold Span.stop
      omega
    rw [if_pos crosses, getElem?_copyAt, sliceSize, size, if_pos (by omega),
      getElem?_slice, if_pos (by omega)]
    have position :
        max off span.start - span.start + (index - (max off span.start - off)) =
          off + index - span.start := by
      omega
    have inData : off + index - span.start < span.data.length := by
      unfold Span.stop at covered
      omega
    rw [position, byteAt, if_pos covered.1, List.getElem?_eq_getElem inData, Option.some_or]
  · have outside : span.byteAt (off + index) = none := byteAt_eq_none_iff.mpr (by omega)
    rw [outside, Option.none_or]
    dsimp only
    split
    · rw [getElem?_copyAt, if_neg]
      rw [length_slice]
      omega
    · rfl

theorem length_foldl_paint (spans : List Span) (out : Bytes) :
    (spans.foldl (Span.paint off stop) out).length = out.length := by
  induction spans generalizing out with
  | nil => rfl
  | cons span rest ih => rw [List.foldl_cons, ih, Span.length_paint]

theorem getElem?_foldl_paint (spans : List Span) {out : Bytes} (size : out.length = stop - off)
    {index : Nat} (inside : index < stop - off) :
    (spans.foldl (Span.paint off stop) out)[index]? =
      (overlay spans (off + index)).or out[index]? := by
  induction spans generalizing out with
  | nil => simp [overlay]
  | cons span rest ih =>
    rw [List.foldl_cons, ih (by rw [Span.length_paint, size]),
      Span.getElem?_paint size span inside, overlay, Option.or_assoc]

end Painting

namespace WriteCache

/-- The committed byte under the overlay. -/
def committedByte (plain : Bytes → Bytes) (cache : WriteCache) (index : Nat) : UInt8 :=
  if index < cache.settledLen then
    (chunkBytes plain cache.settled)[index]?.getD 0
  else if index < cache.baseLen then
    (chunkBytes plain cache.base)[index]?.getD 0
  else
    0

def visible (plain : Bytes → Bytes) (cache : WriteCache) (index : Nat) :
    UInt8 :=
  (overlay cache.spans index).getD (cache.committedByte plain index)

/-- The file the handle sees. -/
def view (plain : Bytes → Bytes) (cache : WriteCache) : Bytes :=
  (List.range cache.length).map (cache.visible plain)

/-- What the fields of a cache promise each other in every reachable state. -/
structure WellFormed (plain : Bytes → Bytes) (cache : WriteCache) : Prop where
  baseStored : AllStored plain cache.base
  settledStored : AllStored plain cache.settled
  settledTotal : totalLen cache.settled = cache.settledLen
  baseWithin : cache.baseLen ≤ totalLen cache.base
  baseLe : cache.baseLen ≤ cache.length
  settledLe : cache.settledLen ≤ cache.length
  spansLe : ∀ span ∈ cache.spans, span.stop ≤ cache.length
  spansNonempty : ∀ span ∈ cache.spans, span.data ≠ []

section Reads

variable {plain : Bytes → Bytes}

@[simp]
theorem length_view (cache : WriteCache) : (cache.view plain).length = cache.length := by
  simp [view]

theorem getElem?_view (cache : WriteCache) (index : Nat) :
    (cache.view plain)[index]? =
      if index < cache.length then some (cache.visible plain index)
      else none := by
  unfold view
  rw [List.getElem?_map]
  by_cases inside : index < cache.length
  · rw [if_pos inside, List.getElem?_range inside]
    rfl
  · rw [if_neg inside, List.getElem?_eq_none (by simpa using inside)]
    rfl

theorem newWriteCache_wellFormed {base : List ChunkPlacement} (stored : AllStored plain base) :
    (newWriteCache base).WellFormed plain where
  baseStored := stored
  settledStored := allStored_nil
  settledTotal := rfl
  baseWithin := Nat.le_refl _
  baseLe := Nat.le_refl _
  settledLe := Nat.zero_le _
  spansLe := by simp [newWriteCache]
  spansNonempty := by simp [newWriteCache]

theorem view_newWriteCache {base : List ChunkPlacement} (stored : AllStored plain base) :
    (newWriteCache base).view plain = chunkBytes plain base := by
  apply List.ext_getElem?
  intro index
  rw [getElem?_view]
  have size := length_chunkBytes stored
  by_cases inside : index < totalLen base
  · have bound : index < (chunkBytes plain base).length := by omega
    simp [newWriteCache, visible, committedByte, overlay, inside, List.getElem?_eq_getElem bound]
  · rw [if_neg (by simpa [newWriteCache] using inside), List.getElem?_eq_none (by omega)]

variable {off : Nat}

/-- A chunk range laid over the read buffer. -/
theorem paintChunks_eq (reader : PayloadReader plain) {chunks : List ChunkPlacement}
    (stored : AllStored plain chunks) {lo hi : Nat} {out painted : Bytes} (offLe : off ≤ lo)
    (hiLe : hi ≤ totalLen chunks) (fits : hi ≤ off + out.length)
    (returned : paintChunks (readChunksAt reader.read) chunks off lo hi out = .ok painted) :
    painted.length = out.length ∧ ∀ index, painted[index]? =
        if lo ≤ off + index ∧ off + index < hi then
          (chunkBytes plain chunks)[off + index]?
        else
          out[index]? := by
  unfold paintChunks at returned
  by_cases nonempty : lo < hi
  · rw [if_pos nonempty] at returned
    obtain ⟨data, readData, copied⟩ := bind_eq_ok_iff.mp returned
    have dataEq := readChunksAt_eq reader stored readData
    have dataSize : data.length = hi - lo := by
      rw [dataEq, length_slice, length_chunkBytes stored]
      omega
    rw [Except.ok.injEq] at copied
    rw [← copied]
    refine ⟨length_copyAt _ _ _, fun index => ?_⟩
    rw [getElem?_copyAt, dataSize]
    by_cases covered : lo ≤ off + index ∧ off + index < hi
    · rw [if_pos covered, if_pos (by omega), dataEq, getElem?_slice, if_pos (by omega)]
      congr 1
      omega
    · rw [if_neg covered, if_neg (by omega)]
  · rw [if_neg nonempty, Except.ok.injEq] at returned
    rw [← returned]
    refine ⟨rfl, fun index => ?_⟩
    rw [if_neg (by omega)]

theorem paintChunks_exact {chunks : List ChunkPlacement} (stored : AllStored plain chunks)
    (off lo hi : Nat) (out : Bytes) (bounded : hi - lo ≤ maxUnaryReadBytes) :
    ∃ painted, paintChunks (readChunksAt (PayloadReader.exact plain).read) chunks off
        lo hi out = .ok painted := by
  unfold paintChunks
  by_cases nonempty : lo < hi
  · rw [if_pos nonempty, readChunksAt_exact chunks stored bounded]
    exact ⟨_, rfl⟩
  · rw [if_neg nonempty]
    exact ⟨_, rfl⟩

variable {cache : WriteCache}

section

variable (wellFormed : cache.WellFormed plain)
include wellFormed

/-- The committed part of the read buffer, before the spans are laid over. -/
theorem committedBuffer_getElem? {stop : Nat} (reader : PayloadReader plain)
    {withSettled withBase : Bytes}
    (readSettled : paintChunks (readChunksAt reader.read) cache.settled off
      off (min stop cache.settledLen) (List.replicate (stop - off) 0) = .ok withSettled)
    (readBase : paintChunks (readChunksAt reader.read) cache.base off
      (max off cache.settledLen) (min stop cache.baseLen) withSettled = .ok withBase) :
    withBase.length = stop - off ∧ ∀ index, index < stop - off →
        withBase[index]? = some (cache.committedByte plain (off + index)) := by
  obtain ⟨settledSize, settledAt⟩ := paintChunks_eq reader
    wellFormed.settledStored (Nat.le_refl off)
    (by rw [wellFormed.settledTotal]; omega) (by simp; omega) readSettled
  rw [List.length_replicate] at settledSize
  obtain ⟨baseSize, baseAt⟩ := paintChunks_eq reader wellFormed.baseStored
    (Nat.le_max_left _ _) (by have := wellFormed.baseWithin; omega)
    (by omega) readBase
  refine ⟨by omega, fun index inside => ?_⟩
  have settledLength := length_chunkBytes wellFormed.settledStored
  have baseLength := length_chunkBytes wellFormed.baseStored
  have total := wellFormed.settledTotal
  have within := wellFormed.baseWithin
  rw [baseAt, settledAt, committedByte]
  by_cases inSettled : off + index < cache.settledLen
  · rw [if_neg (by omega), if_pos (by omega), if_pos inSettled, List.getElem?_eq_getElem (by omega)]
    rfl
  · rw [if_neg inSettled]
    by_cases inBase : off + index < cache.baseLen
    · rw [if_pos (by omega), if_pos inBase, List.getElem?_eq_getElem (by omega)]
      rfl
    · rw [if_neg (by omega), if_neg (by omega), if_neg inBase,
        List.getElem?_replicate, if_pos inside]

/-- A successful read returns its range of the file the handle sees. -/
theorem readAt_eq (reader : PayloadReader plain) {count : Nat} {out : Bytes}
    (returned : cache.readAt (readChunksAt reader.read) off count = .ok out) :
    out = slice (cache.view plain) off count := by
  unfold readAt at returned
  dsimp only at returned
  by_cases empty : min (off + count) cache.length ≤ off
  · rw [if_pos empty, Except.ok.injEq] at returned
    rw [← returned]
    apply List.ext_getElem?
    intro index
    rw [getElem?_slice, getElem?_view]
    split
    · rw [if_neg (by omega)]
      rfl
    · rfl
  rw [if_neg empty] at returned
  by_cases tooLong : maxUnaryReadBytes < min (off + count) cache.length - off
  · rw [if_pos tooLong] at returned
    cases returned
  rw [if_neg tooLong] at returned
  obtain ⟨withSettled, readSettled, rest⟩ := bind_eq_ok_iff.mp returned
  obtain ⟨withBase, readBase, painted⟩ := bind_eq_ok_iff.mp rest
  obtain ⟨size, committed⟩ := committedBuffer_getElem? wellFormed reader readSettled readBase
  rw [Except.ok.injEq] at painted
  rw [← painted]
  apply List.ext_getElem?
  intro index
  rw [getElem?_slice, getElem?_view]
  by_cases inside : index < min (off + count) cache.length - off
  · rw [getElem?_foldl_paint _ size inside, committed index inside,
      if_pos (by omega), if_pos (by omega), visible]
    cases overlay cache.spans (off + index) <;> rfl
  · rw [List.getElem?_eq_none (by rw [length_foldl_paint]; omega)]
    split
    · rw [if_neg (by omega)]
    · rfl

theorem readAt_exact {count : Nat} (bounded : count ≤ maxUnaryReadBytes) :
    cache.readAt (readChunksAt (PayloadReader.exact plain).read) off count =
      .ok (slice (cache.view plain) off count) := by
  have succeeds : ∃ out, cache.readAt (readChunksAt (PayloadReader.exact plain).read) off count =
        .ok out := by
    unfold readAt
    dsimp only
    split_ifs with empty tooLong
    · exact ⟨_, rfl⟩
    · omega
    · obtain ⟨withSettled, readSettled⟩ := paintChunks_exact wellFormed.settledStored off off
          (min (min (off + count) cache.length) cache.settledLen)
          (List.replicate (min (off + count) cache.length - off) 0) (by omega)
      obtain ⟨withBase, readBase⟩ :=
        paintChunks_exact wellFormed.baseStored off (max off cache.settledLen)
          (min (min (off + count) cache.length) cache.baseLen) withSettled
          (by omega)
      exact ⟨_, bind_eq_ok_iff.mpr ⟨withSettled, readSettled,
        bind_eq_ok_iff.mpr ⟨withBase, readBase, rfl⟩⟩⟩
  obtain ⟨out, returned⟩ := succeeds
  rw [returned, readAt_eq wellFormed _ returned]

end

/-- What the reads of a handle show of a file: every successful read returns
its range of the file, and without read failures every read of at most the
unary limit succeeds. -/
structure ReadsAs (plain : Bytes → Bytes) (cache : WriteCache) (file : Bytes) : Prop where
  returned : ∀ (reader : PayloadReader plain) (off count : Nat) (out : Bytes),
    cache.readAt (readChunksAt reader.read) off count = .ok out → out = slice file off count
  bounded : ∀ off count, count ≤ maxUnaryReadBytes →
    cache.readAt (readChunksAt (PayloadReader.exact plain).read) off count =
      .ok (slice file off count)

theorem readsAs_view (wellFormed : cache.WellFormed plain) :
    cache.ReadsAs plain (cache.view plain) where
  returned := fun reader _ _ _ returned =>
    readAt_eq wellFormed reader returned
  bounded := fun _ _ bounded => readAt_exact wellFormed bounded

theorem readsAs_iff (wellFormed : cache.WellFormed plain) {file : Bytes} :
    cache.ReadsAs plain file ↔ file = cache.view plain := by
  constructor
  · intro reads
    apply List.ext_getElem?
    intro index
    have fromFile := reads.bounded index 1 (by decide)
    rw [readAt_exact wellFormed (by decide), Except.ok.injEq] at fromFile
    have first := congrArg (·[0]?) fromFile
    simpa [getElem?_slice] using first.symm
  · rintro rfl
    exact readsAs_view wellFormed

end Reads

end WriteCache

end Rose
