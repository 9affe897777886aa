import Rose.VlogRows

/-!
# The streams behind a vlog

A successful write has extended the stream of every plog that counts from then
on by its share of the bytes, whether the bytes came in one piece or in parts.
A failed write has only added to what the plogs hold.
-/

namespace Rose

open ListSplice FixedBlocks PlogCopy

namespace Vlog

/-- What a write of the bytes sends to a client. -/
def writePieces (code : ErasureCode UInt8) (vlog : Vlog) (data : Bytes) (client : Nat) :
    List (Nat × Bytes) :=
  match vlog.protectionScheme with
  | .ec => columnPieces code vlog client vlog.length (splitBlocks vlog.stripeWidth data).1
  | _ => [(vlog.length, data)]

variable {code : ErasureCode UInt8} {vlog after : Vlog} {events : WriteEvents} {data : Bytes}
  {offset : Nat} {max : Option Nat} {parts : List Bytes} {reason : WriteError}

theorem writePieces_ec (scheme : vlog.protectionScheme = .ec) (client : Nat) :
    writePieces code vlog data client = columnPieces code vlog client
      vlog.length (splitBlocks vlog.stripeWidth data).1 := by
  rw [writePieces, scheme]

theorem writePieces_mirrored (scheme : vlog.protectionScheme ≠ .ec) (client : Nat) :
    writePieces code vlog data client = [(vlog.length, data)] := by
  unfold writePieces
  split
  · contradiction
  · rfl

theorem candidates_ec (scheme : vlog.protectionScheme = .ec) :
    vlog.candidates = List.range vlog.copies.length := by
  rw [candidates, scheme]

/-- An erasure coded vlog with the encoder that it was mounted with. -/
structure Coded (code : ErasureCode UInt8) (vlog : Vlog) : Prop where
  scheme : vlog.protectionScheme = .ec
  data_eq : vlog.dataShards = code.data
  parity_eq : vlog.parityShards = code.parity
  column_eq : vlog.columnBytes = code.width
  count_eq : vlog.copies.length = code.data + code.parity

section Coded

variable (coded : vlog.Coded code)

include coded

theorem Coded.stripeWidth_eq : vlog.stripeWidth = code.rowWidth := by
  rw [stripeWidth, coded.column_eq, coded.data_eq]
  rfl

theorem Coded.stripeWidth_pos : 0 < vlog.stripeWidth := by
  rw [coded.stripeWidth_eq]
  exact code.rowWidth_pos

theorem Coded.encodeRow_eq (rowData : Bytes) :
    vlog.encodeRow code rowData = code.encodeRow rowData := by
  rw [encodeRow, coded.data_eq, coded.column_eq]
  rfl

theorem Coded.getElem?_encodeRow {rowData : Bytes} (whole : rowData.length = vlog.stripeWidth)
    {client : Nat} (inside : client < vlog.copies.length) :
    (code.encodeRow rowData)[client]? = some (vlog.column code rowData client) ∧
      (vlog.column code rowData client).length = code.width := by
  rw [coded.stripeWidth_eq] at whole
  rw [coded.count_eq] at inside
  obtain ⟨part, found, width⟩ := ErasureCode.getElem?_encodeRow whole inside
  rw [column, coded.encodeRow_eq, found]
  exact ⟨rfl, width⟩

end Coded

theorem mem_of_mem_candidates {complete : List Nat} {client : Nat}
    (scheme : vlog.protectionScheme ≠ .ec) (complete_eq : vlog.completeReplicas = some complete)
    (member : client ∈ vlog.candidates) : client ∈ complete := by
  unfold candidates at member
  rw [complete_eq] at member
  cases kind : vlog.protectionScheme with
  | ec => exact absurd kind scheme
  | none =>
    rw [kind] at member
    exact List.contains_iff_mem.mp (List.mem_filter.mp member).2
  | duplicate =>
    rw [kind] at member
    exact List.contains_iff_mem.mp (List.mem_filter.mp member).2

/-- A successful write. -/
structure Wrote (code : ErasureCode UInt8) (vlog : Vlog) (data : Bytes) (after : Vlog) : Prop where
  length_eq : after.length = vlog.length + data.length
  candidates_le : ∀ client ∈ after.candidates, client ∈ vlog.candidates
  streams : ∀ client ∈ after.candidates, ∀ copy, vlog.copies[client]? = some copy → ∃ next,
      after.copies[client]? = some next ∧
      next.content = ensured copy.content (vlog.writePieces code data client)

theorem wrote_nil (code : ErasureCode UInt8) (vlog : Vlog) : vlog.Wrote code [] vlog := by
  refine ⟨by simp, fun _ => id, fun client _ copy found => ⟨copy, found, ?_⟩⟩
  by_cases scheme : vlog.protectionScheme = .ec
  · have none_cut : (splitBlocks vlog.stripeWidth ([] : Bytes)).1 = [] := by
      rw [splitBlocks]
      split_ifs with full
      · exact absurd full.2 (Nat.not_le.mpr full.1)
      · rfl
    rw [writePieces_ec scheme, none_cut]
    rfl
  · rw [writePieces_mirrored scheme]
    simp [ensured]

theorem writeMirrors_eq_none (scheme : vlog.protectionScheme ≠ .ec) {pieces : List (Nat × Bytes)}
    (ran : vlog.writeMirrors events offset pieces = (none, after)) :
    ∃ chosen, after =
        { vlog.appended events vlog.candidates (fun _ => pieces) with
          completeReplicas := some chosen } ∧
      (∀ client ∈ chosen, client ∈ vlog.candidates ∧
        vlog.appendFailure events (fun _ => pieces) client = none) ∧
      ∀ client, client ∈ after.candidates → client ∈ chosen := by
  unfold writeMirrors at ran
  cases sent : vlog.fanOut events offset vlog.candidates vlog.writeQuorum (fun _ => pieces) with
  | mk result next =>
    rw [sent] at ran
    cases result with
    | error reason => cases ran
    | ok chosen =>
      cases ran
      obtain ⟨rfl, -, -, succeeded⟩ := fanOut_eq_ok vlog.candidates_nodup sent
      refine ⟨chosen, rfl, succeeded, fun client member => ?_⟩
      apply mem_of_mem_candidates _ _ member
      · exact scheme
      · rfl

theorem content_of_appendFailure {pieces : Nat → List (Nat × Bytes)} {clients : List Nat}
    {client : Nat} {copy : PlogCopy} (found : vlog.copies[client]? = some copy)
    (asked : client ∈ clients) (none_failed : vlog.appendFailure events pieces client = none) :
    ∃ next, (vlog.appended events clients pieces).copies[client]? = some next ∧
      next.content = ensured copy.content (pieces client) := by
  rw [appendFailure, found] at none_failed
  refine ⟨_, (getElem?_appended client).trans (congrArg _ found), ?_⟩
  dsimp only
  rw [if_pos asked]
  exact content_of_appendPieces none_failed

theorem reaches_of_appendPieces {answer : Nat → AppendAnswer} {copy : PlogCopy}
    {piece : Nat × Bytes} {pieces : List (Nat × Bytes)}
    (none_failed : (copy.appendPieces answer (piece :: pieces)).1 = none) :
    piece.1 ≤ copy.content.length := by
  rw [appendPieces] at none_failed
  rcases answerAppend_cases (answer piece.1) copy piece.1 piece.2 with
    ⟨reason, failed⟩ | ⟨failure, after, -, ran⟩
  · rw [failed] at none_failed
    cases none_failed
  · exact (ensureAppend_eq_ok_iff.mp ran).1

theorem exists_partPieces (nonempty : parts.flatten ≠ []) :
    ∃ part rest, partPieces offset parts = (offset, part) :: rest := by
  induction parts with
  | nil => exact absurd rfl nonempty
  | cons part parts ih =>
    rw [partPieces]
    by_cases empty : part = []
    · rw [if_pos empty]
      apply ih
      rwa [List.flatten_cons, empty] at nonempty
    · rw [if_neg empty]
      exact ⟨part, _, rfl⟩

theorem ensured_parts_eq {answer : Nat → AppendAnswer} {copy : PlogCopy}
    (nonempty : parts.flatten ≠ [])
    (none_failed : (copy.appendPieces answer (partPieces offset parts)).1 = none) :
    ensured copy.content (partPieces offset parts) =
      ensured copy.content [(offset, parts.flatten)] := by
  obtain ⟨part, rest, pieces_eq⟩ := @exists_partPieces offset parts nonempty
  have reaches : offset ≤ copy.content.length := by
    rw [pieces_eq] at none_failed
    exact reaches_of_appendPieces none_failed
  exact ensured_partPieces reaches

theorem wrote_of_writeMirrors (scheme : vlog.protectionScheme ≠ .ec) (nonempty : parts.flatten ≠ [])
    (ran : vlog.writeMirrors events vlog.length (partPieces vlog.length parts) = (none, after)) :
    vlog.Wrote code parts.flatten (after.lengthened parts.flatten.length) := by
  obtain ⟨chosen, rfl, succeeded, counted⟩ := writeMirrors_eq_none scheme ran
  refine ⟨rfl, fun client member => (succeeded client (counted client member)).1,
    fun client member copy found => ?_⟩
  obtain ⟨asked, none_failed⟩ := succeeded client (counted client member)
  obtain ⟨next, foundNext, content_eq⟩ := content_of_appendFailure found asked none_failed
  refine ⟨next, foundNext, ?_⟩
  rw [appendFailure, found] at none_failed
  rw [content_eq, writePieces_mirrored scheme, ensured_parts_eq nonempty none_failed]

theorem wrote_of_writeRows (scheme : vlog.protectionScheme = .ec)
    (ran : writeRows code events vlog vlog.length
      (splitBlocks vlog.stripeWidth data).1 = (none, after)) :
    vlog.Wrote code data (after.lengthened data.length) := by
  have grown := grown_writeRows code vlog events vlog.length (splitBlocks vlog.stripeWidth data).1
  rw [ran] at grown
  refine ⟨congrArg (· + data.length) grown.length_eq, fun client member => ?_,
    fun client _ copy found => ?_⟩
  · rw [← grown.candidates_eq]
    exact member
  · obtain ⟨next, foundNext, content_eq⟩ := writeRows_eq_none ran found
    refine ⟨next, foundNext, ?_⟩
    rw [content_eq, writePieces_ec scheme]

section Outcomes

variable {added : Nat} {result : Option WriteError × Vlog}

theorem finishEnsure_eq_ok (ran : finishEnsure added result = (.ok (), after)) :
    ∃ middle, result = (none, middle) ∧ after = middle.lengthened added := by
  rcases result with ⟨_ | reason, middle⟩
  · cases ran
    exact ⟨middle, rfl, rfl⟩
  · cases ran

theorem finishEnsure_eq_error (ran : finishEnsure added result = (.error reason, after)) :
    result = (some reason, after) := by
  rcases result with ⟨_ | reason, middle⟩ <;> cases ran
  rfl

end Outcomes

theorem splitBlocks_rest_of_whole {size : Nat} (positive : 0 < size)
    (whole : data.length % size = 0) : (splitBlocks size data).2 = [] := by
  apply List.eq_nil_of_length_eq_zero
  have total := length_splitBlocks size data
  have short := length_splitBlocks_rest positive data
  rw [← total, Nat.mul_add_mod, Nat.mod_eq_of_lt short] at whole
  exact whole

theorem stripeWidth_pos_of_whole (nonempty : data.length ≠ 0)
    (whole : data.length % vlog.stripeWidth = 0) : 0 < vlog.stripeWidth := by
  apply Nat.pos_of_ne_zero
  intro zero
  rw [zero, Nat.mod_zero] at whole
  exact nonempty whole

theorem fillRows_whole (positive : 0 < vlog.stripeWidth)
    (whole : parts.flatten.length % vlog.stripeWidth = 0) :
    (match fillRows code events vlog [] offset parts with
      | (some reason, _, _, after) => (.error reason, after)
      | (none, rowFill, _, after) =>
        if rowFill ≠ [] then
          (.error (.shortTrailingRow rowFill.length), after)
        else (.ok (), after.lengthened parts.flatten.length)) =
      finishEnsure parts.flatten.length (writeRows code events vlog offset
        (splitBlocks vlog.stripeWidth parts.flatten).1) := by
  have fills := @fillsAs_fillRows code vlog events offset [] positive positive parts
  rw [List.nil_append, FillsAs] at fills
  rcases fills with ⟨reason, after, wrote, failed, after_eq⟩ | ⟨after, wrote, filled⟩
  · rw [wrote]
    revert failed after_eq
    rcases fillRows code events vlog [] offset parts with
      ⟨_ | other, rowFill, next, final⟩
    · intro impossible
      cases impossible
    · intro failed after_eq
      cases failed
      cases after_eq
      rfl
  · rw [wrote, filled, splitBlocks_rest_of_whole positive whole]
    exact if_neg (not_not.mpr rfl)

/-- What a write at a reserved offset can do. -/
theorem ensureWrite_cases (code : ErasureCode UInt8) (vlog : Vlog) (events : WriteEvents)
    (offset : Nat) (parts : List Bytes) :
    ((offset ≠ vlog.length ∨ vlog.protectionScheme = .ec ∧
        parts.flatten.length % vlog.stripeWidth ≠ 0) ∧
      ∃ reason, vlog.ensureWrite code events offset parts = (.error reason, vlog)) ∨
    (parts.flatten = [] ∧ vlog.ensureWrite code events offset parts = (.ok (), vlog)) ∨
    (vlog.protectionScheme = .ec ∧ parts.flatten.length % vlog.stripeWidth = 0 ∧
      vlog.ensureWrite code events offset parts =
        finishEnsure parts.flatten.length (writeRows code events vlog
          vlog.length (splitBlocks vlog.stripeWidth parts.flatten).1)) ∨
    (vlog.protectionScheme ≠ .ec ∧ parts.flatten ≠ [] ∧ vlog.ensureWrite code events offset parts =
        finishEnsure parts.flatten.length (vlog.writeMirrors events
          vlog.length (partPieces vlog.length parts))) := by
  unfold ensureWrite
  rw [← List.length_flatten]
  dsimp only
  by_cases empty : parts.flatten.length = 0
  · rw [if_pos empty]
    exact Or.inr (Or.inl ⟨List.eq_nil_of_length_eq_zero empty, rfl⟩)
  rw [if_neg empty]
  by_cases elsewhere : offset ≠ vlog.length
  · rw [if_pos elsewhere]
    exact Or.inl ⟨Or.inl elsewhere, _, rfl⟩
  rw [if_neg elsewhere, not_not.mp elsewhere]
  have nonempty : parts.flatten ≠ [] := fun isEmpty =>
    empty (congrArg List.length isEmpty)
  cases vlog.protectionScheme with
  | ec =>
    by_cases whole : parts.flatten.length % vlog.stripeWidth ≠ 0
    · exact Or.inl ⟨Or.inr ⟨rfl, whole⟩, _, if_pos whole⟩
    · exact Or.inr (Or.inr (Or.inl ⟨rfl, not_not.mp whole, (if_neg whole).trans
        (fillRows_whole (stripeWidth_pos_of_whole empty (not_not.mp whole)) (not_not.mp whole))⟩))
  | none => exact Or.inr (Or.inr (Or.inr ⟨by decide, nonempty, rfl⟩))
  | duplicate => exact Or.inr (Or.inr (Or.inr ⟨by decide, nonempty, rfl⟩))

theorem wrote_of_ensureWrite (ran : vlog.ensureWrite code events offset parts = (.ok (), after)) :
    vlog.Wrote code parts.flatten after := by
  rcases ensureWrite_cases code vlog events offset parts with
    ⟨-, reason, result⟩ | ⟨empty, result⟩ | ⟨scheme, -, result⟩ | ⟨scheme, nonempty, result⟩
  · rw [result] at ran
    cases ran
  · rw [result] at ran
    cases ran
    rw [empty]
    exact wrote_nil code vlog
  · rw [result] at ran
    obtain ⟨middle, wrote, rfl⟩ := finishEnsure_eq_ok ran
    exact wrote_of_writeRows scheme wrote
  · rw [result] at ran
    obtain ⟨middle, wrote, rfl⟩ := finishEnsure_eq_ok ran
    exact wrote_of_writeMirrors scheme nonempty wrote

theorem grown_of_writeMirrors_error {pieces : List (Nat × Bytes)}
    (ran : vlog.writeMirrors events offset pieces = (some reason, after)) :
    vlog.Grown after := by
  have grown := grown_fanOut vlog events offset vlog.candidates vlog.writeQuorum fun _ => pieces
  unfold writeMirrors at ran
  revert ran grown
  rcases vlog.fanOut events offset vlog.candidates vlog.writeQuorum
    (fun _ => pieces) with ⟨_ | _, next⟩
  · intro ran grown
    cases ran
    exact grown
  · intro ran
    cases ran

theorem grown_of_writeRows_error {rows : List Bytes}
    (ran : writeRows code events vlog offset rows = (some reason, after)) :
    vlog.Grown after := by
  have grown := grown_writeRows code vlog events offset rows
  rwa [ran] at grown

theorem grown_of_ensureWrite_error
    (ran : vlog.ensureWrite code events offset parts = (.error reason, after)) :
    vlog.Grown after := by
  rcases ensureWrite_cases code vlog events offset parts with
    ⟨-, other, result⟩ | ⟨-, result⟩ | ⟨-, -, result⟩ | ⟨-, -, result⟩
  · rw [result] at ran
    cases ran
    exact .refl vlog
  · rw [result] at ran
    cases ran
  · rw [result] at ran
    exact grown_of_writeRows_error (finishEnsure_eq_error ran)
  · rw [result] at ran
    exact grown_of_writeMirrors_error (finishEnsure_eq_error ran)

/-! ### Bytes written whole -/

/-- Bytes written whole are written in one part. -/
theorem writeWithin_eq (code : ErasureCode UInt8) (vlog : Vlog) (events : WriteEvents)
    (data : Bytes) (max : Option Nat) :
    vlog.writeWithin code events data max =
      if max.any (· < vlog.length + data.length) then (.error (.exceedsMax (max.getD 0)), vlog)
      else
        match vlog.ensureWrite code events vlog.length [data] with
        | (.error reason, after) => (.error reason, after)
        | (.ok (), after) => (.ok vlog.length, after) := by
  have finished : ∀ result, finishWrite vlog.length data.length result =
      match finishEnsure data.length result with
      | (.error reason, after) => (.error reason, after)
      | (.ok (), after) => (.ok vlog.length, after) := by
    rintro ⟨_ | reason, after⟩ <;> rfl
  have flat : [data].flatten = data := List.flatten_singleton
  unfold writeWithin ensureWrite
  rw [← List.length_flatten, flat]
  refine if_congr Iff.rfl rfl ?_
  by_cases empty : data = []
  · simp [empty]
  have positive : data.length ≠ 0 := fun none => empty (List.eq_nil_of_length_eq_zero none)
  have pieces : partPieces vlog.length [data] = [(vlog.length, data)] := by
    simp [partPieces, empty]
  dsimp only
  rw [if_neg empty, if_neg positive, if_neg (not_not.mpr rfl), pieces]
  cases vlog.protectionScheme with
  | ec =>
    dsimp only
    split_ifs with ragged
    · rfl
    · have rows := @fillRows_whole code vlog events vlog.length [data]
      rw [flat] at rows
      have filled := rows (stripeWidth_pos_of_whole positive (not_not.mp ragged))
        (not_not.mp ragged)
      refine (finished _).trans ?_
      exact filled ▸ rfl
  | none => exact finished _
  | duplicate => exact finished _

section

variable (ran : vlog.writeWithin code events data max = (.ok offset, after))
include ran

theorem ensureWrite_of_writeWithin :
    offset = vlog.length ∧ vlog.ensureWrite code events vlog.length [data] = (.ok (), after) := by
  rw [writeWithin_eq] at ran
  split_ifs at ran
  · cases ran
  · split at ran <;> cases ran
    exact ⟨rfl, by assumption⟩

theorem wrote_of_writeWithin : offset = vlog.length ∧ vlog.Wrote code data after := by
  obtain ⟨offset_eq, inOne⟩ := ensureWrite_of_writeWithin ran
  have wrote := wrote_of_ensureWrite inOne
  rw [List.flatten_singleton] at wrote
  exact ⟨offset_eq, wrote⟩

end

variable (ran : vlog.writeWithin code events data max = (.error reason, after))
include ran

theorem writeWithin_eq_error :
    after = vlog ∨ vlog.ensureWrite code events vlog.length [data] = (.error reason, after) := by
  rw [writeWithin_eq] at ran
  split_ifs at ran
  · cases ran
    exact Or.inl rfl
  · split at ran <;> cases ran
    exact Or.inr (by assumption)

theorem grown_of_writeWithin_error : vlog.Grown after := by
  rcases writeWithin_eq_error ran with rfl | inOne
  · exact .refl after
  · exact grown_of_ensureWrite_error inOne

end Vlog

end Rose
