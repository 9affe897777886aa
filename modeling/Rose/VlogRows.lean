import Rose.AppendedStreams

/-!
# Rows and parts of a write

A write to mirrors is one fan-out, a write to an erasure coded vlog one fan-out
for every row.  Parts that are copied into rows go out as the rows of their
concatenation.  Apart from the plogs' contents, which only grow, a row changes
nothing.
-/

namespace Rose

open ListSplice FixedBlocks PlogCopy

theorem collectQuorum_of_succeeds {quorum slack failed : Nat} {succeeds : Nat → Bool}
    {order successful : List Nat} (all : ∀ client ∈ order, succeeds client = true)
    (below : successful.length < quorum) (enough : quorum ≤ successful.length + order.length) :
    ∃ chosen, collectQuorum quorum slack succeeds order successful failed = some chosen := by
  induction order generalizing successful with
  | nil =>
    rw [List.length_nil] at enough
    omega
  | cons client later ih =>
    rw [List.forall_mem_cons] at all
    rw [List.length_cons] at enough
    rw [collectQuorum, if_pos all.1]
    by_cases last : quorum ≤ successful.length + 1
    · rw [if_pos last]
      exact ⟨_, rfl⟩
    · rw [if_neg last]
      apply ih all.2
      · rw [List.length_cons]
        omega
      · rw [List.length_cons]
        omega

namespace Vlog

variable {code : ErasureCode UInt8} {vlog after : Vlog} {events : WriteEvents} {offset quorum : Nat}
  {clients chosen : List Nat} {pieces : Nat → List (Nat × Bytes)}

theorem getElem?_appended (client : Nat) :
    (vlog.appended events clients pieces).copies[client]? = vlog.copies[client]?.map fun copy =>
        if client ∈ clients then
          (copy.appendPieces (events.answer client) (pieces client)).2
        else copy :=
  List.getElem?_mapIdx

theorem fanOut_cases (vlog : Vlog) (events : WriteEvents) (offset : Nat) (clients : List Nat)
    (quorum : Nat) (pieces : Nat → List (Nat × Bytes)) :
    (∃ reason, vlog.fanOut events offset clients quorum pieces = (.error reason, vlog)) ∨
    (∃ reason, vlog.fanOut events offset clients quorum pieces =
      (.error reason, vlog.appended events clients pieces)) ∨
    ∃ chosen, vlog.fanOut events offset clients quorum pieces =
        (.ok chosen, vlog.appended events clients pieces) ∧
      fanoutQuorum quorum (vlog.appendResults events offset clients pieces) = some chosen := by
  unfold fanOut
  by_cases few : clients.length < quorum
  · rw [if_pos few]
    exact Or.inl ⟨_, rfl⟩
  rw [if_neg few]
  cases fanoutQuorum quorum (vlog.appendResults events offset clients pieces) with
  | none => exact Or.inr (Or.inl ⟨_, rfl⟩)
  | some chosen => exact Or.inr (Or.inr ⟨chosen, rfl, rfl⟩)

theorem fanOut_eq_ok (distinct : clients.Nodup)
    (ran : vlog.fanOut events offset clients quorum pieces = (.ok chosen, after)) :
    after = vlog.appended events clients pieces ∧ chosen.Nodup ∧
      quorum ≤ chosen.length ∧ ∀ client ∈ chosen, client ∈ clients ∧
        vlog.appendFailure events pieces client = none := by
  rcases fanOut_cases vlog events offset clients quorum pieces with
    ⟨reason, failed⟩ | ⟨reason, failed⟩ | ⟨formed, succeeded, quorate⟩
  · rw [failed] at ran
    cases ran
  · rw [failed] at ran
    cases ran
  · rw [succeeded] at ran
    cases ran
    obtain ⟨nodup, enough, all⟩ := fanoutQuorum_eq_some distinct quorate
    refine ⟨rfl, nodup, enough, fun client member => ?_⟩
    obtain ⟨asked, success⟩ := all client member
    exact ⟨asked, Option.isNone_iff_eq_none.mp success⟩

theorem fanOut_of_succeeds (positive : 0 < quorum) (enough : quorum ≤ clients.length)
    (succeed : ∀ client ∈ clients, vlog.appendFailure events pieces client = none) :
    ∃ chosen, vlog.fanOut events offset clients quorum pieces =
      (.ok chosen, vlog.appended events clients pieces) := by
  have order := events.arrives offset clients
  have all : ∀ client ∈ events.arrival offset clients,
      (vlog.appendResults events offset clients pieces).succeeds client =
        true := fun client member =>
    Option.isNone_iff_eq_none.mpr (succeed client (order.subset member))
  obtain ⟨chosen, quorate⟩ := @collectQuorum_of_succeeds quorum
    (clients.length - quorum) 0 _ _ [] all positive
    (by rw [order.length_eq, List.length_nil]; omega)
  refine ⟨chosen, ?_⟩
  have formed : fanoutQuorum quorum
      (vlog.appendResults events offset clients pieces) = some chosen := by
    rw [fanoutQuorum, if_neg (by omega)]
    exact quorate
  rw [fanOut, if_neg (by omega), formed]

/-- Nothing but what the plogs hold may have changed. -/
structure SameSettings (before after : Vlog) : Prop where
  scheme_eq : after.protectionScheme = before.protectionScheme
  data_eq : after.dataShards = before.dataShards
  parity_eq : after.parityShards = before.parityShards
  column_eq : after.columnBytes = before.columnBytes
  length_eq : after.length = before.length
  quorum_eq : after.writeQuorum = before.writeQuorum
  complete_eq : after.completeReplicas = before.completeReplicas
  count_eq : after.copies.length = before.copies.length

theorem SameSettings.refl (vlog : Vlog) : vlog.SameSettings vlog :=
  ⟨rfl, rfl, rfl, rfl, rfl, rfl, rfl, rfl⟩

theorem SameSettings.trans {middle : Vlog} (first : vlog.SameSettings middle)
    (second : middle.SameSettings after) : vlog.SameSettings after where
  scheme_eq := second.scheme_eq.trans first.scheme_eq
  data_eq := second.data_eq.trans first.data_eq
  parity_eq := second.parity_eq.trans first.parity_eq
  column_eq := second.column_eq.trans first.column_eq
  length_eq := second.length_eq.trans first.length_eq
  quorum_eq := second.quorum_eq.trans first.quorum_eq
  complete_eq := second.complete_eq.trans first.complete_eq
  count_eq := second.count_eq.trans first.count_eq

section

variable (same : vlog.SameSettings after)
include same

theorem SameSettings.candidates_eq : after.candidates = vlog.candidates := by
  rw [candidates, candidates, same.scheme_eq, same.complete_eq, same.count_eq]

theorem SameSettings.stripeWidth_eq : after.stripeWidth = vlog.stripeWidth := by
  rw [stripeWidth, stripeWidth, same.column_eq, same.data_eq]

theorem SameSettings.plogOffset_eq (offset : Nat) :
    after.plogOffset offset = vlog.plogOffset offset := by
  rw [plogOffset, plogOffset, same.stripeWidth_eq, same.column_eq]

theorem SameSettings.column_same (rowData : Bytes) (client : Nat) :
    after.column code rowData client = vlog.column code rowData client := by
  rw [column, column, encodeRow, encodeRow, same.column_eq, same.data_eq]

end

/-- Nothing but the plogs' contents may have changed, and these have grown. -/
structure Grown (before after : Vlog) : Prop
    extends SameSettings before after where
  copies : ∀ (client : Nat) (copy : PlogCopy), before.copies[client]? = some copy →
      ∃ grown, after.copies[client]? = some grown ∧ copy.Grown grown

theorem Grown.refl (vlog : Vlog) : vlog.Grown vlog :=
  ⟨.refl vlog, fun _ copy found => ⟨copy, found, .refl copy⟩⟩

theorem Grown.trans {middle : Vlog} (first : vlog.Grown middle) (second : middle.Grown after) :
    vlog.Grown after := by
  refine ⟨first.toSameSettings.trans second.toSameSettings, ?_⟩
  intro client copy found
  obtain ⟨between, foundBetween, early⟩ := first.copies client copy found
  obtain ⟨grown, foundGrown, late⟩ := second.copies client between foundBetween
  exact ⟨grown, foundGrown, early.trans late⟩

theorem grown_appended (vlog : Vlog) (events : WriteEvents) (clients : List Nat)
    (pieces : Nat → List (Nat × Bytes)) :
    vlog.Grown (vlog.appended events clients pieces) where
  scheme_eq := rfl
  data_eq := rfl
  parity_eq := rfl
  column_eq := rfl
  length_eq := rfl
  quorum_eq := rfl
  complete_eq := rfl
  count_eq := List.length_mapIdx
  copies client copy found := by
    refine ⟨_, (getElem?_appended client).trans (congrArg _ found), ?_⟩
    dsimp only
    split_ifs
    · exact appendPieces_grown _ _ _
    · exact .refl copy

theorem grown_fanOut (vlog : Vlog) (events : WriteEvents) (offset : Nat) (clients : List Nat)
    (quorum : Nat) (pieces : Nat → List (Nat × Bytes)) :
    vlog.Grown (vlog.fanOut events offset clients quorum pieces).2 := by
  rcases fanOut_cases vlog events offset clients quorum pieces with
    ⟨reason, failed⟩ | ⟨reason, failed⟩ | ⟨chosen, succeeded, -⟩
  · rw [failed]
    exact .refl vlog
  · rw [failed]
    exact grown_appended ..
  · rw [succeeded]
    exact grown_appended ..

section Rows

variable {row rowData : Bytes} {rows : List Bytes}

theorem grown_writeRow (code : ErasureCode UInt8) (vlog : Vlog) (events : WriteEvents)
    (offset : Nat) (rowData : Bytes) :
    vlog.Grown (writeRow code vlog events offset rowData).2 := by
  have grown := grown_fanOut vlog events (vlog.plogOffset offset)
    (List.range vlog.copies.length) vlog.copies.length
    fun client => [(vlog.plogOffset offset, vlog.column code rowData client)]
  unfold writeRow
  revert grown
  generalize vlog.fanOut events (vlog.plogOffset offset)
    (List.range vlog.copies.length) vlog.copies.length _ = result
  intro grown
  rcases result with ⟨_ | _, next⟩ <;> exact grown

variable {client : Nat} {copy : PlogCopy}

theorem appendFailure_single {position : Nat} {data : Nat → Bytes}
    (found : vlog.copies[client]? = some copy)
    (none_failed : vlog.appendFailure events
      (fun client => [(position, data client)]) client = none) :
    copy.ensureAppend position (data client) =
      .ok (copy.appendPieces (events.answer client) [(position, data client)]).2 := by
  rw [appendFailure, found] at none_failed
  dsimp only at none_failed
  rw [appendPieces] at none_failed ⊢
  rcases answerAppend_cases (events.answer client position) copy position
    (data client) with ⟨reason, failed⟩ | ⟨failure, next, answered, ran⟩
  · rw [failed] at none_failed
    cases none_failed
  · rw [answered] at none_failed ⊢
    cases failure with
    | some reason => cases none_failed
    | none => exact ran

theorem mem_of_full_quorum {count : Nat} (distinct : chosen.Nodup)
    (inside : ∀ client ∈ chosen, client ∈ List.range count) (full : count ≤ chosen.length)
    (isClient : client < count) :
    client ∈ chosen := by
  have all := (List.subperm_of_subset distinct inside).perm_of_length_le
    (by rwa [List.length_range])
  exact all.mem_iff.mpr (List.mem_range.mpr isClient)

theorem writeRow_eq_none (ran : writeRow code vlog events offset rowData = (none, after))
    (found : vlog.copies[client]? = some copy) :
    ∃ next, after.copies[client]? = some next ∧ copy.ensureAppend (vlog.plogOffset offset)
        (vlog.column code rowData client) = .ok next := by
  unfold writeRow at ran
  cases sent : vlog.fanOut events (vlog.plogOffset offset)
    (List.range vlog.copies.length) vlog.copies.length
    (fun client =>
      [(vlog.plogOffset offset, vlog.column code rowData client)]) with
  | mk result next =>
    rw [sent] at ran
    cases result with
    | error reason => cases ran
    | ok chosen =>
      cases ran
      obtain ⟨rfl, distinct, full, succeeded⟩ := fanOut_eq_ok List.nodup_range sent
      have inside := (List.getElem?_eq_some_iff.mp found).1
      have member := mem_of_full_quorum distinct
        (fun client member => (succeeded client member).1) full inside
      refine ⟨_, ?_, appendFailure_single found (succeeded client member).2⟩
      rw [getElem?_appended, found, Option.map_some, if_pos (List.mem_range.mpr inside)]

theorem writeRow_of_served (clients : 0 < vlog.copies.length)
    (served : ∀ (client : Nat) (copy : PlogCopy), vlog.copies[client]? = some copy →
      (copy.appendPieces (events.answer client)
        [(vlog.plogOffset offset, vlog.column code rowData client)]).1 = none) :
    ∃ after, writeRow code vlog events offset rowData = (none, after) := by
  have succeed : ∀ client ∈ List.range vlog.copies.length,
      vlog.appendFailure events (fun client =>
        [(vlog.plogOffset offset, vlog.column code rowData client)]) client = none := by
    intro client member
    have found := List.getElem?_eq_getElem (List.mem_range.mp member)
    rw [appendFailure, found]
    exact served client _ found
  obtain ⟨chosen, sent⟩ := @fanOut_of_succeeds vlog events (vlog.plogOffset offset) _ _ _ clients
    (Nat.le_of_eq List.length_range.symm) succeed
  rw [writeRow, sent]
  exact ⟨_, rfl⟩

/-- What the rows of a write are to a client. -/
def columnPieces (code : ErasureCode UInt8) (vlog : Vlog) (client : Nat) :
    Nat → List Bytes → List (Nat × Bytes)
  | _, [] => []
  | offset, row :: rows =>
    (vlog.plogOffset offset, vlog.column code row client) ::
      columnPieces code vlog client (offset + vlog.stripeWidth) rows

theorem SameSettings.columnPieces_eq (same : vlog.SameSettings after) (client : Nat) :
    columnPieces code after client offset rows = columnPieces code vlog client offset rows := by
  induction rows generalizing offset with
  | nil => rfl
  | cons row rows ih =>
    rw [columnPieces, columnPieces, same.plogOffset_eq, same.column_same, same.stripeWidth_eq, ih]

section

variable (code) (vlog) (events) (offset)

theorem writeRows_cons_cases (row : Bytes) (rows : List Bytes) :
    (∃ reason after, writeRow code vlog events offset row = (some reason, after) ∧
      writeRows code events vlog offset (row :: rows) = (some reason, after)) ∨
    ∃ after, writeRow code vlog events offset row = (none, after) ∧
      writeRows code events vlog offset (row :: rows) =
        writeRows code events after (offset + vlog.stripeWidth) rows := by
  rw [writeRows]
  rcases writeRow code vlog events offset row with ⟨_ | reason, after⟩
  · exact Or.inr ⟨after, rfl, rfl⟩
  · exact Or.inl ⟨reason, after, rfl, rfl⟩

theorem grown_writeRows (rows : List Bytes) :
    vlog.Grown (writeRows code events vlog offset rows).2 := by
  induction rows generalizing vlog offset with
  | nil => exact .refl vlog
  | cons row rows ih =>
    have grown := grown_writeRow code vlog events offset row
    rcases writeRows_cons_cases code vlog events offset row rows with
      ⟨reason, after, first, all⟩ | ⟨after, first, all⟩
    · rw [first] at grown
      rw [all]
      exact grown
    · rw [first] at grown
      rw [all]
      exact grown.trans (ih after _)

end

theorem writeRows_eq_none (ran : writeRows code events vlog offset rows = (none, after))
    (found : vlog.copies[client]? = some copy) :
    ∃ next, after.copies[client]? = some next ∧ next.content =
        ensured copy.content (columnPieces code vlog client offset rows) := by
  induction rows generalizing vlog offset copy with
  | nil =>
    cases ran
    exact ⟨copy, found, rfl⟩
  | cons row rows ih =>
    rcases writeRows_cons_cases code vlog events offset row rows with
      ⟨reason, stopped, first, all⟩ | ⟨middle, first, all⟩
    · rw [all] at ran
      cases ran
    · have grown := grown_writeRow code vlog events offset row
      rw [first] at grown
      rw [all] at ran
      obtain ⟨between, foundBetween, appended⟩ := writeRow_eq_none first found
      obtain ⟨next, foundNext, content_eq⟩ := ih ran foundBetween
      obtain ⟨-, -, -, rfl⟩ := ensureAppend_eq_ok_iff.mp appended
      refine ⟨next, foundNext, ?_⟩
      rw [content_eq, grown.columnPieces_eq]
      rfl

theorem writeRows_append (code : ErasureCode UInt8) (vlog : Vlog) (events : WriteEvents)
    (offset : Nat) (rows more : List Bytes) :
    writeRows code events vlog offset (rows ++ more) =
      match writeRows code events vlog offset rows with
      | (some reason, after) => (some reason, after)
      | (none, after) => writeRows code events after
          (offset + rows.length * vlog.stripeWidth) more := by
  induction rows generalizing vlog offset with
  | nil =>
    rw [List.nil_append, List.length_nil, Nat.zero_mul]
    rfl
  | cons row rows ih =>
    have grown := grown_writeRow code vlog events offset row
    rw [List.cons_append, writeRows, writeRows]
    revert grown
    rcases writeRow code vlog events offset row with ⟨_ | reason, after⟩ <;>
      intro grown
    · have position : offset + vlog.stripeWidth + rows.length * vlog.stripeWidth =
          offset + (row :: rows).length * vlog.stripeWidth := by
        rw [List.length_cons, Nat.add_one_mul]
        omega
      dsimp only at grown ⊢
      rw [ih, grown.stripeWidth_eq, position]
    · rfl

end Rows

section Filling

variable {rowFill : Bytes}

/-- Filling rows from bytes is writing the full rows of all the bytes so far,
and ends with the same error or with the rest in the buffer. -/
def FillsAs (code : ErasureCode UInt8) (events : WriteEvents) (vlog : Vlog) (offset : Nat)
    (bytes : Bytes) (result : Option WriteError × Bytes × Nat × Vlog) : Prop :=
  let cut := splitBlocks vlog.stripeWidth bytes
  (∃ reason after, writeRows code events vlog offset cut.1 =
      (some reason, after) ∧ result.1 = some reason ∧ result.2.2.2 = after) ∨
    ∃ after, writeRows code events vlog offset cut.1 = (none, after) ∧
      result = (none, cut.2, offset + cut.1.length * vlog.stripeWidth, after)

variable (positive : 0 < vlog.stripeWidth) (short : rowFill.length < vlog.stripeWidth)
include positive short

theorem fillsAs_fillRow (part : Bytes) :
    FillsAs code events vlog offset (rowFill ++ part)
      (fillRow code events vlog rowFill offset part) := by
  induction vlog, rowFill, offset, part using fillRow.induct code events with
  | case1 vlog rowFill offset part done =>
    rw [fillRow.eq_def, dif_pos done]
    have empty : part = [] := done.resolve_right (by omega)
    rw [empty, List.append_nil, FillsAs, splitBlocks_of_lt short]
    refine Or.inr ⟨vlog, rfl, ?_⟩
    rw [List.length_nil, Nat.zero_mul, Nat.add_zero]
  | case2 vlog rowFill offset part more count filled notFull ih =>
    rw [fillRow.eq_def, dif_neg more]
    dsimp only
    rw [if_pos notFull]
    have filled_length : filled.length ≤ vlog.stripeWidth := by
      rw [List.length_append, List.length_take]
      omega
    have joined : filled ++ part.drop count = rowFill ++ part := by
      rw [List.append_assoc, List.take_append_drop]
    rw [← joined]
    exact ih positive (by omega)
  | case3 vlog rowFill offset part more count filled full reason after failed =>
    rw [fillRow.eq_def, dif_neg more]
    dsimp only
    rw [if_neg full, failed]
    have joined : filled ++ part.drop count = rowFill ++ part := by
      rw [List.append_assoc, List.take_append_drop]
    rw [← joined, FillsAs, splitBlocks_block_append positive (not_not.mp full)]
    refine Or.inl ⟨reason, after, ?_, rfl, rfl⟩
    rw [writeRows, failed]
  | case4 vlog rowFill offset part more count filled full after sent ih =>
    rw [fillRow.eq_def, dif_neg more]
    dsimp only
    rw [if_neg full, sent]
    have grown := grown_writeRow code vlog events offset filled
    rw [sent] at grown
    have width_eq : after.stripeWidth = vlog.stripeWidth := grown.stripeWidth_eq
    have joined : filled ++ part.drop count = rowFill ++ part := by
      rw [List.append_assoc, List.take_append_drop]
    have later := ih (by rw [width_eq]; exact positive) (by rw [width_eq]; exact positive)
    rw [List.nil_append, FillsAs, width_eq] at later
    rw [← joined, FillsAs, splitBlocks_block_append positive (not_not.mp full)]
    dsimp only at later ⊢
    rw [writeRows, sent]
    rcases later with stopped | ⟨final, wrote, result_eq⟩
    · exact Or.inl stopped
    · refine Or.inr ⟨final, wrote, result_eq.trans ?_⟩
      rw [List.length_cons, Nat.add_one_mul, Nat.add_assoc, Nat.add_comm vlog.stripeWidth]

/-- Parts fill rows as their concatenation does. -/
theorem fillsAs_fillRows (parts : List Bytes) :
    FillsAs code events vlog offset (rowFill ++ parts.flatten)
      (fillRows code events vlog rowFill offset parts) := by
  induction parts generalizing vlog rowFill offset with
  | nil =>
    rw [List.flatten_nil, List.append_nil, FillsAs, splitBlocks_of_lt short]
    refine Or.inr ⟨vlog, rfl, ?_⟩
    rw [fillRows, List.length_nil, Nat.zero_mul, Nat.add_zero]
  | cons part parts ih =>
    rw [fillRows, List.flatten_cons, ← List.append_assoc, FillsAs, splitBlocks_append positive]
    dsimp only
    rw [writeRows_append]
    rcases fillsAs_fillRow positive short part with
      ⟨reason, after, wrote, failed, after_eq⟩ | ⟨after, wrote, filled⟩
    · rw [wrote]
      refine Or.inl ⟨reason, after, rfl, ?_⟩
      revert failed after_eq
      rcases fillRow code events vlog rowFill offset part with
        ⟨_ | other, rest⟩
      · intro impossible
        cases impossible
      · intro failed after_eq
        exact ⟨failed, after_eq⟩
    · have grown := grown_writeRows code vlog events offset
        (splitBlocks vlog.stripeWidth (rowFill ++ part)).1
      rw [wrote] at grown
      have width_eq : after.stripeWidth = vlog.stripeWidth := grown.stripeWidth_eq
      rw [wrote, filled]
      generalize cut_eq : splitBlocks vlog.stripeWidth (rowFill ++ part) = cut
      have next_short : cut.2.length < vlog.stripeWidth := by
        rw [← cut_eq]
        exact length_splitBlocks_rest positive _
      have later : FillsAs code events after (offset + cut.1.length * vlog.stripeWidth)
          (cut.2 ++ parts.flatten) (fillRows code events after cut.2
            (offset + cut.1.length * vlog.stripeWidth) parts) :=
        ih (by rw [width_eq]; exact positive) (by rw [width_eq]; exact next_short)
      rw [FillsAs, width_eq] at later
      dsimp only at later ⊢
      rcases later with stopped | ⟨final, sent, result_eq⟩
      · exact Or.inl stopped
      · refine Or.inr ⟨final, sent, result_eq.trans ?_⟩
        rw [List.length_append, Nat.add_mul, Nat.add_assoc]

end Filling

end Vlog

end Rose
