import Rose.VlogStreams

/-!
# Attempts to write the same bytes

Attempts to write the same bytes, whole or in parts, keep every plog inside
the stream that a success would leave, whichever of the appends fail and
however late the abandoned ones are carried out.
-/

namespace Rose

open ListSplice FixedBlocks PlogCopy

namespace Vlog

variable {code : ErasureCode UInt8} {vlog tried after : Vlog} {events : WriteEvents} {data : Bytes}
  {offset : Nat} {max : Option Nat} {parts : List Bytes} {reason : WriteError}
  {streams : Nat → Bytes}

/-- Every plog holds a beginning of its stream. -/
def Within (streams : Nat → Bytes) (vlog : Vlog) : Prop :=
  ∀ (client : Nat) (copy : PlogCopy), vlog.copies[client]? = some copy →
    copy.content <+: streams client

section

variable {clients : List Nat} {pieces : Nat → List (Nat × Bytes)} (within : vlog.Within streams)
  (lie : ∀ client ∈ clients, ∀ piece ∈ pieces client, LiesAt (streams client) piece.1 piece.2)
include within lie

theorem Within.appended : (vlog.appended events clients pieces).Within streams := by
  intro client copy found
  rw [getElem?_appended, Option.map_eq_some_iff] at found
  obtain ⟨before, foundBefore, rfl⟩ := found
  have begins := within client before foundBefore
  split_ifs with asked
  · exact appendPieces_isPrefix (lie client asked) begins
  · exact begins

theorem Within.fanOut {quorum : Nat} :
    (vlog.fanOut events offset clients quorum pieces).2.Within streams := by
  rcases fanOut_cases vlog events offset clients quorum pieces with
    ⟨reason, failed⟩ | ⟨reason, failed⟩ | ⟨chosen, succeeded, -⟩
  · rw [failed]
    exact within
  · rw [failed]
    exact within.appended lie
  · rw [succeeded]
    exact within.appended lie

end

section

variable (within : vlog.Within streams)
include within

theorem Within.writeMirrors {pieces : List (Nat × Bytes)}
    (lie : ∀ client ∈ vlog.candidates, ∀ piece ∈ pieces, LiesAt (streams client) piece.1 piece.2) :
    (vlog.writeMirrors events offset pieces).2.Within streams := by
  have sent : (vlog.fanOut events offset vlog.candidates vlog.writeQuorum
    fun _ => pieces).2.Within streams := within.fanOut lie
  unfold Vlog.writeMirrors
  revert sent
  rcases vlog.fanOut events offset vlog.candidates vlog.writeQuorum
    (fun _ => pieces) with ⟨_ | chosen, next⟩ <;> exact id

theorem Within.writeRow {rowData : Bytes}
    (lie : ∀ client ∈ List.range vlog.copies.length,
      LiesAt (streams client) (vlog.plogOffset offset) (vlog.column code rowData client)) :
    (writeRow code vlog events offset rowData).2.Within streams := by
  have sent : (vlog.fanOut events (vlog.plogOffset offset)
      (List.range vlog.copies.length) vlog.copies.length fun client =>
        [(vlog.plogOffset offset, vlog.column code rowData client)]).2.Within
      streams := by
    refine within.fanOut fun client asked piece member => ?_
    rw [List.mem_singleton.mp member]
    exact lie client asked
  unfold Vlog.writeRow
  revert sent
  rcases vlog.fanOut events (vlog.plogOffset offset)
    (List.range vlog.copies.length) vlog.copies.length _ with
    ⟨_ | chosen, next⟩ <;> exact id

theorem Within.writeRows {rows : List Bytes}
    (lie : ∀ client ∈ List.range vlog.copies.length,
      ∀ piece ∈ columnPieces code vlog client offset rows,
        LiesAt (streams client) piece.1 piece.2) :
    (writeRows code events vlog offset rows).2.Within streams := by
  induction rows generalizing vlog offset with
  | nil => exact within
  | cons row rows ih =>
    have first : (Vlog.writeRow code vlog events offset row).2.Within
        streams :=
      within.writeRow fun client asked =>
        lie client asked _ List.mem_cons_self
    have grown := grown_writeRow code vlog events offset row
    rcases writeRows_cons_cases code vlog events offset row rows with
      ⟨reason, next, sent, all⟩ | ⟨next, sent, all⟩
    · rw [sent] at first
      rw [all]
      exact first
    · rw [sent] at first grown
      rw [all]
      apply ih first
      intro client asked piece member
      rw [grown.count_eq] at asked
      rw [grown.columnPieces_eq] at member
      exact lie client asked piece (List.mem_cons_of_mem _ member)

end

theorem finishEnsure_snd_copies (added : Nat) (result : Option WriteError × Vlog) :
    (finishEnsure added result).2.copies = result.2.copies := by
  rcases result with ⟨_ | reason, next⟩ <;> rfl

/-- Everything a write of the bytes sends lies in the streams. -/
def SendsInto (code : ErasureCode UInt8) (vlog : Vlog) (data : Bytes) (streams : Nat → Bytes) :
    Prop :=
  ∀ client ∈ vlog.candidates, ∀ piece ∈ vlog.writePieces code data client,
    LiesAt (streams client) piece.1 piece.2

theorem SendsInto.rows (sends : vlog.SendsInto code data streams)
    (scheme : vlog.protectionScheme = .ec) :
    ∀ client ∈ List.range vlog.copies.length, ∀ piece ∈ columnPieces code vlog client vlog.length
        (splitBlocks vlog.stripeWidth data).1,
        LiesAt (streams client) piece.1 piece.2 := by
  intro client asked
  rw [← candidates_ec scheme] at asked
  rw [← writePieces_ec scheme]
  exact sends client asked

variable {client : Nat}

theorem SendsInto.whole (sends : vlog.SendsInto code data streams)
    (scheme : vlog.protectionScheme ≠ .ec) (asked : client ∈ vlog.candidates) :
    LiesAt (streams client) vlog.length data := by
  have pieces := sends client asked
  rw [writePieces_mirrored scheme] at pieces
  exact pieces _ List.mem_cons_self

theorem Within.ensureWrite (within : vlog.Within streams)
    (sends : vlog.SendsInto code parts.flatten streams) :
    (vlog.ensureWrite code events offset parts).2.Within streams := by
  rcases ensureWrite_cases code vlog events offset parts with
    ⟨-, reason, result⟩ | ⟨-, result⟩ | ⟨scheme, -, result⟩ | ⟨scheme, -, result⟩
  · rw [result]
    exact within
  · rw [result]
    exact within
  · rw [result, Within, finishEnsure_snd_copies]
    exact within.writeRows (sends.rows scheme)
  · rw [result, Within, finishEnsure_snd_copies]
    exact within.writeMirrors fun client asked =>
      liesAt_of_mem_partPieces (sends.whole scheme asked)

/-! ### Attempts that failed -/

/-- The plogs hold the same bytes, readable or not, durable or not. -/
structure SameStreams (before after : Vlog) : Prop
    extends SameSettings before after where
  contents : ∀ (client : Nat) (copy : PlogCopy), before.copies[client]? = some copy → ∃ other,
      after.copies[client]? = some other ∧ other.content = copy.content

/-- What an attempt may have left unsent to a client when it was abandoned: the
parts from one on, or the column of a row. -/
def MaySend (code : ErasureCode UInt8) (vlog : Vlog) (data : Bytes) (client : Nat)
    (pieces : List (Nat × Bytes)) : Prop :=
  match vlog.protectionScheme with
  | .ec => ∃ piece ∈ vlog.writePieces code data client, pieces = [piece]
  | _ => ∃ parts : List Bytes, parts.flatten = data ∧ pieces <:+ partPieces vlog.length parts

/-- The states that attempts to write the same bytes can lead to, none of them
successful.  Meanwhile plogs may come and go, and appends of an abandoned
attempt may be carried out late. -/
inductive FailedAttempts (code : ErasureCode UInt8) (vlog : Vlog) (data : Bytes) : Vlog → Prop
  | start : FailedAttempts code vlog data vlog
  | write {tried after : Vlog} {events : WriteEvents} {max : Option Nat}
      {reason : WriteError} (earlier : FailedAttempts code vlog data tried)
      (failed : tried.writeWithin code events data max =
        (.error reason, after)) : FailedAttempts code vlog data after
  | ensureWrite {tried after : Vlog} {events : WriteEvents} {offset : Nat}
      {parts : List Bytes} {reason : WriteError}
      (earlier : FailedAttempts code vlog data tried)
      (same : parts.flatten = data)
      (failed : tried.ensureWrite code events offset parts =
        (.error reason, after)) : FailedAttempts code vlog data after
  | late {tried : Vlog} {events : WriteEvents} {client : Nat}
      {pieces : List (Nat × Bytes)}
      (earlier : FailedAttempts code vlog data tried)
      (asked : client ∈ vlog.candidates)
      (sent : vlog.MaySend code data client pieces) :
      FailedAttempts code vlog data (tried.appended events [client] fun _ => pieces)
  | disturbed {tried after : Vlog} (earlier : FailedAttempts code vlog data tried)
      (same : tried.SameStreams after) : FailedAttempts code vlog data after

/-- The stream that a write leaves on each plog that takes part in it. -/
def target (code : ErasureCode UInt8) (vlog : Vlog) (data : Bytes) (client : Nat) : Bytes :=
  match vlog.copies[client]? with
  | none => []
  | some copy =>
    if client ∈ vlog.candidates then
      ensured copy.content (vlog.writePieces code data client)
    else copy.content

theorem target_of_found {copy : PlogCopy} (found : vlog.copies[client]? = some copy) :
    vlog.target code data client =
      if client ∈ vlog.candidates then
        ensured copy.content (vlog.writePieces code data client)
      else copy.content := by
  rw [target, found]

/-- With every plog at work, the bytes can be written to all that count. -/
structure Takes (code : ErasureCode UInt8) (vlog : Vlog) (data : Bytes) :
    Prop where
  quorate : vlog.protectionScheme ≠ .ec →
    0 < vlog.writeQuorum ∧ vlog.writeQuorum ≤ vlog.candidates.length
  whole_rows : vlog.protectionScheme = .ec →
    0 < vlog.copies.length ∧ data.length % vlog.stripeWidth = 0
  taken : ∀ client ∈ vlog.candidates, ∀ copy : PlogCopy, vlog.copies[client]? = some copy →
      (PlogCopy.appendPieces (fun _ => .served) { copy with readable := true }
        (vlog.writePieces code data client)).1 = none

theorem Takes.follows_and_lie (takes : vlog.Takes code data) (asked : client ∈ vlog.candidates)
    {copy : PlogCopy} (found : vlog.copies[client]? = some copy) :
    Follows copy.content.length (vlog.writePieces code data client) ∧
      ∀ piece ∈ vlog.writePieces code data client,
        LiesAt (vlog.target code data client) piece.1 piece.2 := by
  rw [target_of_found found, if_pos asked]
  have taken := takes.taken client asked copy found
  exact ⟨(follows_and_lie_of_appendPieces taken).1, (follows_and_lie_of_appendPieces taken).2⟩

theorem mem_candidates_lt (asked : client ∈ vlog.candidates) : client < vlog.copies.length := by
  unfold candidates at asked
  split at asked
  · exact List.mem_range.mp asked
  · exact List.mem_range.mp asked
  · exact List.mem_range.mp (List.mem_filter.mp asked).1

theorem Takes.sendsInto (takes : vlog.Takes code data) :
    vlog.SendsInto code data (vlog.target code data) := fun _ asked =>
  (takes.follows_and_lie asked (List.getElem?_eq_getElem (mem_candidates_lt asked))).2

/-- What attempts leave of a vlog. -/
structure Tried (code : ErasureCode UInt8) (vlog : Vlog) (data : Bytes) (tried : Vlog) :
    Prop extends SameSettings vlog tried where
  begun : ∀ (client : Nat) (copy : PlogCopy), vlog.copies[client]? = some copy → ∃ held,
      tried.copies[client]? = some held ∧ copy.content <+: held.content
  within : tried.Within (vlog.target code data)

theorem SameSettings.writePieces_eq (same : vlog.SameSettings tried) (client : Nat) :
    tried.writePieces code data client = vlog.writePieces code data client := by
  rw [writePieces, writePieces, same.scheme_eq, same.length_eq,
    same.stripeWidth_eq, same.columnPieces_eq]

theorem SameSettings.sendsInto (same : vlog.SameSettings tried)
    (sends : vlog.SendsInto code data streams) :
    tried.SendsInto code data streams := by
  intro client asked
  rw [same.candidates_eq] at asked
  rw [same.writePieces_eq]
  exact sends client asked

theorem tried_self (code : ErasureCode UInt8) (vlog : Vlog) (data : Bytes) :
    vlog.Tried code data vlog := by
  refine ⟨.refl vlog, fun _ copy found => ⟨copy, found, List.prefix_refl _⟩,
    fun client copy found => ?_⟩
  rw [target_of_found found]
  split_ifs
  · exact isPrefix_ensured _ _
  · exact List.prefix_refl _

theorem Tried.grown (earlier : vlog.Tried code data tried) (grown : tried.Grown after)
    (within : after.Within (vlog.target code data)) :
    vlog.Tried code data after := by
  refine ⟨earlier.toSameSettings.trans grown.toSameSettings, ?_, within⟩
  intro client copy found
  obtain ⟨held, foundHeld, begins⟩ := earlier.begun client copy found
  obtain ⟨next, foundNext, more⟩ := grown.copies client held foundHeld
  exact ⟨next, foundNext, begins.trans more.begins⟩

theorem MaySend.lie (takes : vlog.Takes code data) (asked : client ∈ vlog.candidates)
    {pieces : List (Nat × Bytes)} (sent : vlog.MaySend code data client pieces) :
    ∀ piece ∈ pieces, LiesAt (vlog.target code data client) piece.1 piece.2 := by
  have sends := takes.sendsInto
  by_cases scheme : vlog.protectionScheme = .ec
  · rw [MaySend, scheme] at sent
    obtain ⟨piece, member, rfl⟩ := sent
    intro other isOther
    rw [List.mem_singleton.mp isOther]
    exact sends client asked piece member
  · have parted : ∃ parts : List Bytes, parts.flatten = data ∧
        pieces <:+ partPieces vlog.length parts := by
      unfold MaySend at sent
      split at sent
      · contradiction
      · exact sent
    obtain ⟨parts, rfl, isSuffix⟩ := parted
    exact fun piece member => liesAt_of_mem_partPieces
      (sends.whole scheme asked) piece (isSuffix.subset member)

theorem Tried.ensureWrite (earlier : vlog.Tried code data tried) (takes : vlog.Takes code data)
    (same : parts.flatten = data)
    (failed : tried.ensureWrite code events offset parts = (.error reason, after)) :
    vlog.Tried code data after := by
  apply earlier.grown (grown_of_ensureWrite_error failed)
  have within : (tried.ensureWrite code events offset parts).2.Within
      (vlog.target code data) := by
    apply earlier.within.ensureWrite
    rw [same]
    exact earlier.sendsInto takes.sendsInto
  rwa [failed] at within

/-- The step lemmas put together over any number of attempts. -/
theorem tried_of_failedAttempts (takes : vlog.Takes code data)
    (attempts : FailedAttempts code vlog data tried) :
    vlog.Tried code data tried := by
  induction attempts with
  | start => exact tried_self code vlog data
  | @write tried after events max reason earlier failed ih =>
    rcases writeWithin_eq_error failed with rfl | inOne
    · exact ih
    · exact ih.ensureWrite takes List.flatten_singleton inOne
  | @ensureWrite tried after events offset parts reason earlier same failed ih =>
    exact ih.ensureWrite takes same failed
  | @late tried events client pieces earlier asked sent ih =>
    apply ih.grown (grown_appended ..)
    refine ih.within.appended fun other isOther => ?_
    rw [List.mem_singleton.mp isOther]
    exact sent.lie takes asked
  | @disturbed tried after earlier same ih =>
    refine ⟨ih.toSameSettings.trans same.toSameSettings, ?_, ?_⟩
    · intro client copy found
      obtain ⟨held, foundHeld, begins⟩ := ih.begun client copy found
      obtain ⟨other, foundOther, content_eq⟩ := same.contents client held foundHeld
      exact ⟨other, foundOther, content_eq ▸ begins⟩
    · intro client copy found
      have inside : client < tried.copies.length := by
        rw [← same.count_eq]
        exact (List.getElem?_eq_some_iff.mp found).1
      have foundHeld := List.getElem?_eq_getElem inside
      obtain ⟨other, foundOther, content_eq⟩ := same.contents client _ foundHeld
      rw [found] at foundOther
      cases foundOther
      rw [content_eq]
      exact ih.within client _ foundHeld

end Vlog

end Rose
