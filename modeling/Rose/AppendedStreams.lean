import Rose.VlogWrites

/-!
# What appends at reserved offsets leave on a plog

A plog only ever grows.  As long as everything sent to it lies at its place in
one stream, what it holds stays a beginning of that stream, however often and
in whatever portions it is sent, and whichever of the appends fail.
-/

namespace Rose

open ListSplice

/-- The bytes lie at the offset of the stream. -/
def LiesAt (stream : Bytes) (offset : Nat) (data : Bytes) : Prop :=
  slice stream offset data.length = data

section Streams

variable {content stream data : Bytes} {offset : Nat}

theorem LiesAt.slice_of_isPrefix (lies : LiesAt stream offset data) (begins : content <+: stream) :
    slice content offset data.length = data.take (content.length - offset) := by
  have front : content = stream.take content.length := List.prefix_iff_eq_take.mp begins
  rw [LiesAt, slice] at lies
  nth_rewrite 1 [front]
  rw [slice, List.drop_take, List.take_take, Nat.min_comm, ← List.take_take, lies]

theorem LiesAt.extended_isPrefix (lies : LiesAt stream offset data) (begins : content <+: stream)
    (reaches : offset ≤ content.length) :
    content ++ data.drop (content.length - offset) <+: stream := by
  obtain ⟨rest, rfl⟩ := begins
  rw [List.prefix_append_right_inj, ← lies, slice, List.drop_take,
    List.drop_drop, Nat.add_sub_cancel' reaches, List.drop_left]
  exact List.take_prefix _ _

theorem LiesAt.of_append {first second : Bytes} (lies : LiesAt stream offset (first ++ second)) :
    LiesAt stream offset first ∧ LiesAt stream (offset + first.length) second := by
  rw [LiesAt, List.length_append, ← slice_append_slice] at lies
  have long := congrArg List.length lies
  rw [List.length_append, List.length_append, length_slice, length_slice] at long
  exact List.append_inj lies (by rw [length_slice]; omega)

theorem LiesAt.of_isPrefix {longer : Bytes} (lies : LiesAt stream offset data)
    (begins : stream <+: longer) : LiesAt longer offset data := by
  obtain ⟨rest, rfl⟩ := begins
  by_cases empty : data = []
  · rw [empty]
    exact slice_zero_count _ _
  · have long := congrArg List.length lies
    have positive := List.length_pos_iff.mpr empty
    rw [length_slice] at long
    rw [LiesAt, slice_append_left (by omega)]
    exact lies

theorem liesAt_take_iff :
    LiesAt content offset (data.take (content.length - offset)) ↔ slice content offset data.length =
        data.take (content.length - offset) := by
  have same : slice content offset (data.take (content.length - offset)).length =
      slice content offset data.length := by
    rw [slice, slice, List.length_take, Nat.min_comm, ← List.length_drop, ← List.take_eq_take_min]
  rw [LiesAt, same]

theorem liesAt_extended (reaches : offset ≤ content.length)
    (agrees : slice content offset data.length = data.take (content.length - offset)) :
    LiesAt (content ++ data.drop (content.length - offset)) offset data := by
  have front : content.take offset ++ content.drop offset = content :=
    List.take_append_drop offset content
  by_cases covered : data.length ≤ content.length - offset
  · rw [List.take_of_length_le covered] at agrees
    rw [List.drop_eq_nil_of_le covered, List.append_nil]
    exact agrees
  · have all : content.drop offset = data.take (content.length - offset) := by
      rw [← agrees, slice, List.take_of_length_le]
      rw [List.length_drop]
      omega
    have joined : content ++ data.drop (content.length - offset) =
        content.take offset ++ (data ++ []) := by
      nth_rewrite 1 [← front]
      rw [all, List.append_nil, List.append_assoc, List.take_append_drop]
    exact slice_eq_field joined (by rw [List.length_take, Nat.min_eq_left reaches]) rfl

end Streams

namespace PlogCopy

variable {copy after : PlogCopy} {offset : Nat} {data stream : Bytes}

theorem extend_nil : copy.extend [] = copy := by
  simp [extend]

theorem checkOverlap_eq_ok_iff {held : Bytes} :
    copy.checkOverlap offset held = .ok () ↔
      held = [] ∨ copy.readable = true ∧ LiesAt copy.content offset held := by
  unfold checkOverlap
  by_cases empty : held = []
  · simp [empty]
  rw [if_neg empty]
  simp only [empty, false_or]
  unfold read LiesAt
  have positive := List.length_pos_iff.mpr empty
  by_cases present : copy.readable = true ∧ offset + held.length ≤ copy.content.length
  · simp [present]
  · rw [if_neg present]
    simp only [reduceCtorEq, false_iff]
    rintro ⟨readable, lies⟩
    have long := congrArg List.length lies
    rw [length_slice] at long
    exact present ⟨readable, by omega⟩

/-- When an append succeeds, and what it leaves. -/
theorem ensureAppend_eq_ok_iff :
    copy.ensureAppend offset data = .ok after ↔ offset ≤ copy.content.length ∧
      slice copy.content offset data.length = data.take (copy.content.length - offset) ∧
      (data.take (copy.content.length - offset) = [] ∨ copy.readable = true) ∧
      after = copy.extend (data.drop (copy.content.length - offset)) := by
  unfold ensureAppend
  by_cases beyond : copy.content.length < offset
  · simp [beyond, Nat.not_le.mpr beyond]
  have reaches : offset ≤ copy.content.length := Nat.le_of_not_lt beyond
  rw [if_neg beyond]
  dsimp only
  have sameTake : data.take (min (copy.content.length - offset) data.length) =
      data.take (copy.content.length - offset) := List.take_eq_take_min.symm
  have sameResult :
      (if min (copy.content.length - offset) data.length = data.length then
        (Except.ok copy : Except AppendError PlogCopy)
      else .ok (copy.extend (data.drop (min (copy.content.length - offset) data.length)))) =
        .ok (copy.extend (data.drop (copy.content.length - offset))) := by
    by_cases covered : data.length ≤ copy.content.length - offset
    · rw [if_pos (Nat.min_eq_right covered), List.drop_eq_nil_of_le covered, extend_nil]
    · rw [Nat.min_eq_left (by omega), if_neg (by omega)]
  rw [sameTake, sameResult]
  have checked := @checkOverlap_eq_ok_iff copy offset (data.take (copy.content.length - offset))
  rw [liesAt_take_iff] at checked
  cases held : copy.checkOverlap offset (data.take (copy.content.length - offset)) with
  | error reason =>
    rw [held] at checked
    simp only [reduceCtorEq, false_iff, not_or, not_and] at checked
    simp only [reduceCtorEq, false_iff, not_and]
    rintro - agrees (empty | readable)
    · exact absurd empty checked.1
    · exact absurd agrees (checked.2 readable)
  | ok checkedHeld =>
    rw [held] at checked
    have holds := checked.mp rfl
    have agrees : slice copy.content offset data.length =
        data.take (copy.content.length - offset) := by
      rcases holds with empty | ⟨-, agrees⟩
      · exact liesAt_take_iff.mp (by rw [empty]; exact slice_zero_count _ _)
      · exact agrees
    have allowed : data.take (copy.content.length - offset) = [] ∨
        copy.readable = true := holds.imp_right fun both => both.1
    simp only [reaches, agrees, allowed, true_and, Except.ok.injEq]
    exact eq_comm

theorem ensureAppend_isPrefix (lies : LiesAt stream offset data) (begins : copy.content <+: stream)
    (ran : copy.ensureAppend offset data = .ok after) :
    after.content <+: stream := by
  obtain ⟨reaches, -, -, rfl⟩ := ensureAppend_eq_ok_iff.mp ran
  exact lies.extended_isPrefix begins reaches

theorem ensureAppend_of_liesAt (lies : LiesAt stream offset data) (begins : copy.content <+: stream)
    (reaches : offset ≤ copy.content.length) (readable : copy.readable = true) :
    copy.ensureAppend offset data = .ok (copy.extend (data.drop (copy.content.length - offset))) :=
  ensureAppend_eq_ok_iff.mpr ⟨reaches, lies.slice_of_isPrefix begins, Or.inr readable, rfl⟩

/-- How a plog may differ after appends. -/
structure Grown (before after : PlogCopy) : Prop where
  begins : before.content <+: after.content
  durable_eq : after.durable = before.durable
  readable_eq : after.readable = before.readable

theorem Grown.refl (copy : PlogCopy) : Grown copy copy := ⟨List.prefix_refl _, rfl, rfl⟩

theorem Grown.trans {middle : PlogCopy} (first : Grown copy middle) (second : Grown middle after) :
    Grown copy after :=
  ⟨first.begins.trans second.begins, second.durable_eq.trans first.durable_eq,
    second.readable_eq.trans first.readable_eq⟩

theorem grown_of_ensureAppend (ran : copy.ensureAppend offset data = .ok after) :
    Grown copy after := by
  obtain ⟨-, -, -, rfl⟩ := ensureAppend_eq_ok_iff.mp ran
  exact ⟨List.prefix_append _ _, rfl, rfl⟩

theorem answerAppend_cases (answer : AppendAnswer) (copy : PlogCopy) (offset : Nat) (data : Bytes) :
    (∃ reason, copy.answerAppend answer offset data = (some reason, copy)) ∨
      ∃ failure after, copy.answerAppend answer offset data =
        (failure, after) ∧ copy.ensureAppend offset data = .ok after := by
  unfold answerAppend
  cases ran : copy.ensureAppend offset data with
  | error reason => rcases answer with _ | ⟨reason, _ | _⟩ <;> simp
  | ok after => rcases answer with _ | ⟨reason, _ | _⟩ <;> simp

theorem answerAppend_served (ran : copy.ensureAppend offset data = .ok after) :
    copy.answerAppend .served offset data = (none, after) := by
  simp only [answerAppend, ran]

variable {answer : Nat → AppendAnswer} {pieces : List (Nat × Bytes)}

theorem appendPieces_keeps {holds : PlogCopy → Prop}
    (step : ∀ piece ∈ pieces, ∀ before after : PlogCopy, holds before →
      before.ensureAppend piece.1 piece.2 = .ok after → holds after)
    (start : holds copy) : holds (copy.appendPieces answer pieces).2 := by
  induction pieces generalizing copy with
  | nil => exact start
  | cons piece pieces ih =>
    rw [List.forall_mem_cons] at step
    rw [appendPieces]
    rcases answerAppend_cases (answer piece.1) copy piece.1 piece.2 with
      ⟨reason, failed⟩ | ⟨failure, after, answered, ran⟩
    · rw [failed]
      exact start
    · have next := step.1 copy after start ran
      rw [answered]
      cases failure with
      | none => exact ih step.2 next
      | some reason => exact next

theorem appendPieces_grown (answer : Nat → AppendAnswer) (copy : PlogCopy)
    (pieces : List (Nat × Bytes)) :
    Grown copy (copy.appendPieces answer pieces).2 :=
  appendPieces_keeps (fun _ _ _ _ grown ran => grown.trans (grown_of_ensureAppend ran))
    (Grown.refl copy)

theorem appendPieces_isPrefix (lie : ∀ piece ∈ pieces, LiesAt stream piece.1 piece.2)
    (begins : copy.content <+: stream) :
    (copy.appendPieces answer pieces).2.content <+: stream := by
  have step : ∀ piece ∈ pieces, ∀ before after : PlogCopy, before.content <+: stream →
      before.ensureAppend piece.1 piece.2 = .ok after →
      after.content <+: stream :=
    fun piece member _ _ => ensureAppend_isPrefix (lie piece member)
  exact appendPieces_keeps step begins

/-- The stream after all pieces were appended. -/
def ensured (content : Bytes) (pieces : List (Nat × Bytes)) : Bytes := pieces.foldl
    (fun held piece => held ++ piece.2.drop (held.length - piece.1)) content

theorem content_of_appendPieces (none_failed : (copy.appendPieces answer pieces).1 = none) :
    (copy.appendPieces answer pieces).2.content = ensured copy.content pieces := by
  induction pieces generalizing copy with
  | nil => rfl
  | cons piece pieces ih =>
    rw [appendPieces] at none_failed ⊢
    rcases answerAppend_cases (answer piece.1) copy piece.1 piece.2 with
      ⟨reason, failed⟩ | ⟨failure, after, answered, ran⟩
    · rw [failed] at none_failed
      cases none_failed
    · obtain ⟨-, -, -, rfl⟩ := ensureAppend_eq_ok_iff.mp ran
      rw [answered] at none_failed ⊢
      cases failure with
      | some reason => cases none_failed
      | none => exact ih none_failed

theorem length_ensured_piece {content : Bytes} (reaches : offset ≤ content.length) :
    (content ++ data.drop (content.length - offset)).length =
      max content.length (offset + data.length) := by
  rw [List.length_append, List.length_drop]
  omega

/-- Each piece starts inside what the earlier ones reach. -/
def Follows : Nat → List (Nat × Bytes) → Prop
  | _, [] => True
  | reached, piece :: pieces =>
    piece.1 ≤ reached ∧ Follows (max reached (piece.1 + piece.2.length)) pieces

theorem appendPieces_of_served (served : ∀ piece ∈ pieces, answer piece.1 = .served)
    (lie : ∀ piece ∈ pieces, LiesAt stream piece.1 piece.2) (begins : copy.content <+: stream)
    (readable : copy.readable = true) (follow : Follows copy.content.length pieces) :
    (copy.appendPieces answer pieces).1 = none := by
  induction pieces generalizing copy with
  | nil => rfl
  | cons piece pieces ih =>
    rw [List.forall_mem_cons] at served lie
    have ran := ensureAppend_of_liesAt lie.1 begins follow.1 readable
    rw [appendPieces, served.1, answerAppend_served ran]
    refine ih served.2 lie.2 (ensureAppend_isPrefix lie.1 begins ran) readable ?_
    rw [extend, length_ensured_piece follow.1]
    exact follow.2

theorem Follows.mono {reached further : Nat} (follow : Follows reached pieces)
    (le : reached ≤ further) : Follows further pieces := by
  induction pieces generalizing reached further with
  | nil => exact trivial
  | cons piece pieces ih =>
    exact ⟨Nat.le_trans follow.1 le, ih follow.2 (by omega)⟩

/-- How far the pieces reach. -/
def reach (reached : Nat) (pieces : List (Nat × Bytes)) : Nat :=
  pieces.foldl (fun far piece => max far (piece.1 + piece.2.length)) reached

theorem reach_mono {reached further : Nat} (le : reached ≤ further) :
    reach reached pieces ≤ reach further pieces := by
  induction pieces generalizing reached further with
  | nil => exact le
  | cons piece pieces ih =>
    have next : max reached (piece.1 + piece.2.length) ≤
        max further (piece.1 + piece.2.length) := by omega
    exact ih next

theorem length_ensured {content : Bytes} (follow : Follows content.length pieces) :
    (ensured content pieces).length = reach content.length pieces := by
  induction pieces generalizing content with
  | nil => rfl
  | cons piece pieces ih =>
    have first : (content ++ piece.2.drop (content.length - piece.1)).length = _ :=
      length_ensured_piece follow.1
    have rest := ih (by rw [first]; exact follow.2)
    rw [first] at rest
    exact rest

theorem isPrefix_ensured (content : Bytes) (pieces : List (Nat × Bytes)) :
    content <+: ensured content pieces := by
  induction pieces generalizing content with
  | nil => exact List.prefix_refl _
  | cons piece pieces ih => exact (List.prefix_append _ _).trans (ih _)

theorem ensured_isPrefix {content : Bytes} (lie : ∀ piece ∈ pieces, LiesAt stream piece.1 piece.2)
    (follow : Follows content.length pieces) (begins : content <+: stream) :
    ensured content pieces <+: stream := by
  induction pieces generalizing content with
  | nil => exact begins
  | cons piece pieces ih =>
    rw [List.forall_mem_cons] at lie
    refine ih lie.2 ?_ (lie.1.extended_isPrefix begins follow.1)
    rw [length_ensured_piece follow.1]
    exact follow.2

theorem ensured_of_between {content held : Bytes} (follow : Follows content.length pieces)
    (lie : ∀ piece ∈ pieces, LiesAt (ensured content pieces) piece.1 piece.2)
    (longer : content <+: held) (begins : held <+: ensured content pieces) :
    ensured held pieces = ensured content pieces := by
  have follows := follow.mono longer.length_le
  apply (ensured_isPrefix lie follows begins).eq_of_length_le
  rw [length_ensured follow, length_ensured follows]
  exact reach_mono longer.length_le

theorem follows_and_lie_of_appendPieces (none_failed : (copy.appendPieces answer pieces).1 = none) :
    Follows copy.content.length pieces ∧ ∀ piece ∈ pieces,
      LiesAt (ensured copy.content pieces) piece.1 piece.2 := by
  induction pieces generalizing copy with
  | nil => exact ⟨trivial, by simp⟩
  | cons piece pieces ih =>
    rw [appendPieces] at none_failed
    rcases answerAppend_cases (answer piece.1) copy piece.1 piece.2 with
      ⟨reason, failed⟩ | ⟨failure, after, answered, ran⟩
    · rw [failed] at none_failed
      cases none_failed
    obtain ⟨reaches, agrees, -, rfl⟩ := ensureAppend_eq_ok_iff.mp ran
    rw [answered] at none_failed
    cases failure with
    | some reason => cases none_failed
    | none =>
      obtain ⟨follow, lie⟩ := ih none_failed
      rw [extend, length_ensured_piece reaches] at follow
      refine ⟨⟨reaches, follow⟩, List.forall_mem_cons.mpr ⟨?_, lie⟩⟩
      exact (liesAt_extended reaches agrees).of_isPrefix (isPrefix_ensured _ pieces)

end PlogCopy

section Parts

open PlogCopy

variable {content stream : Bytes} {offset : Nat} {parts : List Bytes}

theorem ensured_partPieces (reaches : offset ≤ content.length) :
    ensured content (partPieces offset parts) =
      content ++ parts.flatten.drop (content.length - offset) := by
  induction parts generalizing content offset with
  | nil => simp [ensured, partPieces]
  | cons part parts ih =>
    rw [partPieces, List.flatten_cons]
    by_cases empty : part = []
    · rw [if_pos empty, ih reaches, empty, List.nil_append]
    · rw [if_neg empty]
      have longer : offset + part.length ≤
          (content ++ part.drop (content.length - offset)).length := by
        rw [List.length_append, List.length_drop]
        omega
      have rest := ih longer
      have left : (content ++ part.drop (content.length - offset)).length -
          (offset + part.length) = content.length - offset - part.length := by
        rw [List.length_append, List.length_drop]
        omega
      rw [left] at rest
      rw [List.drop_append, ← List.append_assoc]
      exact rest

theorem liesAt_of_mem_partPieces (lies : LiesAt stream offset parts.flatten) :
    ∀ piece ∈ partPieces offset parts, LiesAt stream piece.1 piece.2 := by
  induction parts generalizing offset with
  | nil => simp [partPieces]
  | cons part parts ih =>
    rw [List.flatten_cons] at lies
    rw [partPieces]
    split_ifs with empty
    · rw [empty, List.nil_append] at lies
      exact ih lies
    · rw [List.forall_mem_cons]
      exact ⟨lies.of_append.1, ih lies.of_append.2⟩

theorem follows_partPieces {reached : Nat} (reaches : offset ≤ reached) :
    Follows reached (partPieces offset parts) := by
  induction parts generalizing offset reached with
  | nil => exact trivial
  | cons part parts ih =>
    rw [partPieces]
    split_ifs with empty
    · exact ih reaches
    · exact ⟨reaches, ih (Nat.le_max_right _ _)⟩

end Parts

end Rose
