import Rose.VlogAttempts

/-!
# Writing the same bytes again

However many attempts to write some bytes have failed, and on whichever plogs,
the next attempt that finds the plogs at work succeeds.  It leaves the streams
that a first attempt would have left, had it succeeded.
-/

namespace Rose

open ListSplice FixedBlocks PlogCopy

namespace Vlog

variable {code : ErasureCode UInt8} {vlog tried after : Vlog} {events : WriteEvents} {data : Bytes}
  {offset : Nat} {parts : List Bytes} {streams : Nat → Bytes}

/-- The plogs that count answer, and their bytes can be read. -/
def Working (events : WriteEvents) (vlog : Vlog) : Prop := ∀ client ∈ vlog.candidates,
    (∀ position, events.answer client position = .served) ∧
    ∀ copy : PlogCopy, vlog.copies[client]? = some copy → copy.readable = true

theorem writeMirrors_of_served {pieces : List (Nat × Bytes)} (positive : 0 < vlog.writeQuorum)
    (enough : vlog.writeQuorum ≤ vlog.candidates.length)
    (served : ∀ client ∈ vlog.candidates,
      vlog.appendFailure events (fun _ => pieces) client = none) :
    ∃ after, vlog.writeMirrors events offset pieces = (none, after) ∧ after.length = vlog.length ∧
      after.copies = (vlog.appended events vlog.candidates fun _ => pieces).copies := by
  obtain ⟨chosen, sent⟩ := @fanOut_of_succeeds vlog events offset _ _ _ positive enough served
  rw [writeMirrors, sent]
  exact ⟨_, rfl, rfl, rfl⟩

theorem writeRows_of_served {rows : List Bytes}
    (clients : 0 < vlog.copies.length) (within : vlog.Within streams)
    (lie : ∀ client ∈ List.range vlog.copies.length,
      ∀ piece ∈ columnPieces code vlog client offset rows, LiesAt (streams client) piece.1 piece.2)
    (working : ∀ (client : Nat) (copy : PlogCopy),
      vlog.copies[client]? = some copy → copy.readable = true ∧
        (∀ position, events.answer client position = .served) ∧
        Follows copy.content.length (columnPieces code vlog client offset rows)) :
    ∃ after, writeRows code events vlog offset rows = (none, after) := by
  induction rows generalizing vlog offset with
  | nil => exact ⟨vlog, rfl⟩
  | cons row rows ih =>
    have here : ∀ client ∈ List.range vlog.copies.length,
        LiesAt (streams client) (vlog.plogOffset offset)
          (vlog.column code row client) := fun client asked =>
      lie client asked _ List.mem_cons_self
    obtain ⟨middle, sent⟩ := @writeRow_of_served code vlog events offset row
      clients fun client copy found => by
        obtain ⟨readable, served, follow⟩ := working client copy found
        have asked := List.mem_range.mpr (List.getElem?_eq_some_iff.mp found).1
        apply appendPieces_of_served _ _ (within client copy found) readable
        · exact ⟨follow.1, trivial⟩
        · exact fun piece _ => served piece.1
        · intro piece member
          rw [List.mem_singleton.mp member]
          exact here client asked
    have grown := grown_writeRow code vlog events offset row
    have inside : (Vlog.writeRow code vlog events offset row).2.Within
        streams := within.writeRow here
    rw [sent] at grown inside
    have rest : ∃ after, writeRows code events middle
        (offset + vlog.stripeWidth) rows = (none, after) := by
      apply ih (by rw [grown.count_eq]; exact clients) inside
      · intro client asked piece member
        rw [grown.count_eq] at asked
        rw [grown.columnPieces_eq] at member
        exact lie client asked piece (List.mem_cons_of_mem _ member)
      · intro client held foundHeld
        have isClient : client < vlog.copies.length := by
          rw [← grown.count_eq]
          exact (List.getElem?_eq_some_iff.mp foundHeld).1
        have found := List.getElem?_eq_getElem isClient
        obtain ⟨readable, served, follow⟩ := working client _ found
        obtain ⟨next, foundNext, appended⟩ := writeRow_eq_none sent found
        rw [foundHeld] at foundNext
        cases foundNext
        obtain ⟨reaches, -, -, rfl⟩ := ensureAppend_eq_ok_iff.mp appended
        refine ⟨readable, served, ?_⟩
        rw [grown.columnPieces_eq, extend, length_ensured_piece reaches]
        exact follow.2
    rw [writeRows, sent]
    exact rest

/-- The streams are what a success leaves. -/
structure Completed (code : ErasureCode UInt8) (vlog : Vlog) (data : Bytes) (after : Vlog) :
    Prop where
  length_eq : after.length = vlog.length + data.length
  streams : ∀ (client : Nat) (copy : PlogCopy), vlog.copies[client]? = some copy → ∃ next,
      after.copies[client]? = some next ∧
      next.content = vlog.target code data client

theorem Tried.content_eq (attempts : vlog.Tried code data tried) {client : Nat}
    (passed : client ∉ vlog.candidates) {copy held : PlogCopy}
    (found : vlog.copies[client]? = some copy) (foundHeld : tried.copies[client]? = some held) :
    held.content = copy.content := by
  obtain ⟨other, foundOther, longer⟩ := attempts.begun client copy found
  rw [foundHeld] at foundOther
  cases foundOther
  have shorter := attempts.within client held foundHeld
  rw [target_of_found found, if_neg passed] at shorter
  exact shorter.eq_of_length_le longer.length_le

theorem Tried.ensured_eq (attempts : vlog.Tried code data tried) (takes : vlog.Takes code data)
    {client : Nat} (asked : client ∈ vlog.candidates) {copy held : PlogCopy}
    (found : vlog.copies[client]? = some copy) (foundHeld : tried.copies[client]? = some held) :
    ensured held.content (vlog.writePieces code data client) = vlog.target code data client := by
  obtain ⟨other, foundOther, longer⟩ := attempts.begun client copy found
  rw [foundHeld] at foundOther
  cases foundOther
  have shorter := attempts.within client held foundHeld
  obtain ⟨follow, lie⟩ := takes.follows_and_lie asked found
  rw [target_of_found found, if_pos asked] at lie shorter ⊢
  exact ensured_of_between follow lie longer shorter

section

variable (attempts : vlog.Tried code parts.flatten tried) (takes : vlog.Takes code parts.flatten)
  (working : tried.Working events) (scheme : vlog.protectionScheme ≠ .ec)
include attempts takes working scheme

theorem Tried.served :
    ∀ client ∈ tried.candidates,
      tried.appendFailure events (fun _ => partPieces vlog.length parts) client = none := by
  intro client asked
  have inside := mem_candidates_lt asked
  have foundHeld := List.getElem?_eq_getElem inside
  obtain ⟨served, readable⟩ := working client asked
  rw [attempts.candidates_eq] at asked
  rw [attempts.count_eq] at inside
  have found := List.getElem?_eq_getElem inside
  have reaches : vlog.length ≤ vlog.copies[client].content.length := by
    have first := (takes.follows_and_lie asked found).1
    rw [writePieces_mirrored scheme] at first
    exact first.1
  obtain ⟨other, foundOther, longer⟩ := attempts.begun client _ found
  rw [foundHeld] at foundOther
  cases foundOther
  rw [appendFailure, foundHeld]
  exact appendPieces_of_served (fun piece _ => served piece.1)
    (liesAt_of_mem_partPieces (takes.sendsInto.whole scheme asked))
    (attempts.within client _ foundHeld) (readable _ foundHeld)
    (follows_partPieces (Nat.le_trans reaches longer.length_le))

/-- Mirrors that work take another attempt, in whatever parts it comes. -/
theorem Tried.completes_mirrored (nonempty : parts.flatten ≠ []) :
    ∃ after, tried.writeMirrors events offset (partPieces vlog.length parts) = (none, after) ∧
      vlog.Completed code parts.flatten (after.lengthened parts.flatten.length) := by
  have served := attempts.served takes working scheme
  obtain ⟨positive, enough⟩ := takes.quorate scheme
  rw [← attempts.quorum_eq] at positive enough
  rw [← attempts.candidates_eq] at enough
  obtain ⟨after, sent, length_eq, copies_eq⟩ :=
    @writeMirrors_of_served tried events offset _ positive enough served
  refine ⟨after, sent, congrArg (· + parts.flatten.length)
    (length_eq.trans attempts.length_eq), fun client copy found => ?_⟩
  change ∃ next, after.copies[client]? = some next ∧ _
  rw [copies_eq]
  obtain ⟨held, foundHeld, -⟩ := attempts.begun client copy found
  by_cases asked : client ∈ vlog.candidates
  · have askedNow : client ∈ tried.candidates := by
      rw [attempts.candidates_eq]
      exact asked
    have none_failed := served client askedNow
    obtain ⟨next, foundNext, content_eq⟩ := content_of_appendFailure foundHeld askedNow none_failed
    rw [appendFailure, foundHeld] at none_failed
    have whole := attempts.ensured_eq takes asked found foundHeld
    rw [writePieces_mirrored scheme] at whole
    exact ⟨next, foundNext, content_eq.trans ((ensured_parts_eq nonempty none_failed).trans whole)⟩
  · refine ⟨held, ?_, ?_⟩
    · rw [getElem?_appended, foundHeld, attempts.candidates_eq, Option.map_some, if_neg asked]
    · rw [attempts.content_eq asked found foundHeld, target_of_found found, if_neg asked]

end

/-- Plogs that work take all rows of another attempt. -/
theorem Tried.completes_rows (attempts : vlog.Tried code data tried) (takes : vlog.Takes code data)
    (working : tried.Working events) (scheme : vlog.protectionScheme = .ec) :
    ∃ after, writeRows code events tried tried.length
        (splitBlocks tried.stripeWidth data).1 = (none, after) ∧
      vlog.Completed code data (after.lengthened data.length) := by
  have triedScheme : tried.protectionScheme = .ec := attempts.scheme_eq.trans scheme
  have sends := attempts.sendsInto takes.sendsInto
  have clients : 0 < tried.copies.length := by
    rw [attempts.count_eq]
    exact (takes.whole_rows scheme).1
  have ready : ∀ (client : Nat) (copy : PlogCopy),
      tried.copies[client]? = some copy → copy.readable = true ∧
        (∀ position, events.answer client position = .served) ∧
        Follows copy.content.length (columnPieces code tried client
          tried.length (splitBlocks tried.stripeWidth data).1) := by
    intro client held foundHeld
    have inside := (List.getElem?_eq_some_iff.mp foundHeld).1
    have asked : client ∈ tried.candidates := by
      rw [candidates_ec triedScheme]
      exact List.mem_range.mpr inside
    obtain ⟨served, readable⟩ := working client asked
    refine ⟨readable held foundHeld, served, ?_⟩
    rw [attempts.candidates_eq] at asked
    rw [attempts.count_eq] at inside
    have found := List.getElem?_eq_getElem inside
    obtain ⟨other, foundOther, longer⟩ := attempts.begun client _ found
    rw [foundHeld] at foundOther
    cases foundOther
    rw [← writePieces_ec triedScheme, attempts.writePieces_eq]
    exact (takes.follows_and_lie asked found).1.mono longer.length_le
  obtain ⟨after, sent⟩ := writeRows_of_served clients attempts.within (sends.rows triedScheme) ready
  have grown := grown_writeRows code tried events tried.length
    (splitBlocks tried.stripeWidth data).1
  rw [sent] at grown
  refine ⟨after, sent, congrArg (· + data.length)
    (grown.length_eq.trans attempts.length_eq), fun client copy found => ?_⟩
  obtain ⟨held, foundHeld, -⟩ := attempts.begun client copy found
  obtain ⟨next, foundNext, content_eq⟩ := writeRows_eq_none sent foundHeld
  have asked : client ∈ vlog.candidates := by
    rw [candidates_ec scheme]
    exact List.mem_range.mpr (List.getElem?_eq_some_iff.mp found).1
  refine ⟨next, foundNext, content_eq.trans ?_⟩
  rw [← writePieces_ec triedScheme, attempts.writePieces_eq]
  exact attempts.ensured_eq takes asked found foundHeld

theorem Tried.completed_nil (attempts : vlog.Tried code [] tried) :
    vlog.Completed code [] tried := by
  have nothing := wrote_nil code vlog
  refine ⟨attempts.length_eq, fun client copy found => ?_⟩
  obtain ⟨held, foundHeld, longer⟩ := attempts.begun client copy found
  refine ⟨held, foundHeld, ?_⟩
  have shorter := attempts.within client held foundHeld
  have target_eq : vlog.target code [] client = copy.content := by
    rw [target_of_found found]
    split_ifs with asked
    · obtain ⟨next, foundNext, content_eq⟩ := nothing.streams client asked copy found
      rw [found] at foundNext
      cases foundNext
      exact content_eq.symm
    · rfl
  rw [target_eq] at shorter ⊢
  exact shorter.eq_of_length_le longer.length_le

/-- Once the plogs work, another attempt succeeds. -/
theorem Tried.completes_ensureWrite (attempts : vlog.Tried code parts.flatten tried)
    (takes : vlog.Takes code parts.flatten) (working : tried.Working events) :
    ∃ after, tried.ensureWrite code events vlog.length parts = (.ok (), after) ∧
      vlog.Completed code parts.flatten after := by
  have length_eq := attempts.length_eq
  rcases ensureWrite_cases code tried events vlog.length parts with
    ⟨excluded, -⟩ | ⟨empty, result⟩ | ⟨scheme, -, result⟩ | ⟨scheme, nonempty, result⟩
  · rcases excluded with elsewhere | ⟨scheme, ragged⟩
    · exact absurd length_eq.symm elsewhere
    · rw [attempts.scheme_eq] at scheme
      rw [attempts.stripeWidth_eq] at ragged
      exact absurd (takes.whole_rows scheme).2 ragged
  · rw [result]
    rw [empty] at attempts ⊢
    exact ⟨tried, rfl, attempts.completed_nil⟩
  · rw [attempts.scheme_eq] at scheme
    obtain ⟨after, sent, completed⟩ := attempts.completes_rows takes working scheme
    rw [result, sent]
    exact ⟨_, rfl, completed⟩
  · rw [attempts.scheme_eq] at scheme
    obtain ⟨after, sent, completed⟩ := @completes_mirrored code vlog tried
      events vlog.length parts attempts takes working scheme nonempty
    rw [result, length_eq, sent]
    exact ⟨_, rfl, completed⟩

theorem Tried.completes_write (attempts : vlog.Tried code data tried) (takes : vlog.Takes code data)
    (working : tried.Working events) :
    ∃ after, tried.write code events data = (.ok vlog.length, after) ∧
      vlog.Completed code data after := by
  rw [← @List.flatten_singleton _ data] at attempts takes
  obtain ⟨after, ran, completed⟩ := attempts.completes_ensureWrite takes working
  rw [List.flatten_singleton] at completed
  refine ⟨after, ?_, completed⟩
  rw [write, writeWithin_eq, attempts.length_eq, ran]
  rfl

/-! ### Plogs that end where the vlog ends -/

theorem appendPieces_at_end {copy : PlogCopy} {pieces : List (Nat × Bytes)}
    (at_end : copy.content.length = offset) :
    copy.appendPieces (fun _ => .served) ((offset, data) :: pieces) =
      (copy.extend data).appendPieces (fun _ => .served) pieces := by
  have ran : copy.ensureAppend offset data = .ok (copy.extend data) := by
    apply ensureAppend_eq_ok_iff.mpr
    rw [at_end, Nat.sub_self, List.take_zero, List.drop_zero]
    exact ⟨Nat.le_refl _, slice_eq_nil_of_length_le (Nat.le_of_eq at_end), Or.inl rfl, rfl⟩
  rw [appendPieces, answerAppend_served ran]

theorem Coded.appendPieces_settled (coded : vlog.Coded code) {rows : List Bytes}
    (whole : ∀ row ∈ rows, row.length = vlog.stripeWidth) {client : Nat}
    (inside : client < vlog.copies.length) {copy : PlogCopy}
    (at_end : copy.content.length = vlog.plogOffset offset) :
    (copy.appendPieces (fun _ => .served)
      (columnPieces code vlog client offset rows)).1 = none := by
  induction rows generalizing copy offset with
  | nil => rfl
  | cons row rows ih =>
    rw [List.forall_mem_cons] at whole
    rw [columnPieces, appendPieces_at_end at_end]
    refine ih whole.2 ?_
    rw [extend, List.length_append, at_end, (coded.getElem?_encodeRow whole.1 inside).2, plogOffset,
      plogOffset, Nat.add_div_right _ coded.stripeWidth_pos, coded.column_eq, Nat.succ_mul]

/-- Where the plogs of a vlog end if all writes reached them. -/
def shardEnd (vlog : Vlog) : Nat :=
  match vlog.protectionScheme with
  | .ec => vlog.plogOffset vlog.length
  | _ => vlog.length

theorem takes_of_settled
    (quorate : vlog.protectionScheme ≠ .ec →
      0 < vlog.writeQuorum ∧ vlog.writeQuorum ≤ vlog.candidates.length)
    (coded : vlog.protectionScheme = .ec →
      vlog.Coded code ∧ data.length % vlog.stripeWidth = 0)
    (settled : ∀ client ∈ vlog.candidates, ∀ copy : PlogCopy, vlog.copies[client]? = some copy →
        copy.content.length = vlog.shardEnd) :
    vlog.Takes code data := by
  refine ⟨quorate, fun scheme => ⟨?_, (coded scheme).2⟩, fun client asked copy found => ?_⟩
  · rw [(coded scheme).1.count_eq]
    exact Nat.add_pos_left code.data_pos _
  have ends := settled client asked copy found
  by_cases scheme : vlog.protectionScheme = .ec
  · rw [shardEnd, scheme] at ends
    rw [writePieces_ec scheme]
    exact (coded scheme).1.appendPieces_settled (fun _ => length_of_mem_splitBlocks)
      (mem_candidates_lt asked) ends
  · have at_end : ({ copy with readable := true } : PlogCopy).content.length = vlog.length := by
      rw [shardEnd] at ends
      split at ends
      · contradiction
      · exact ends
    rw [writePieces_mirrored scheme, appendPieces_at_end at_end]
    rfl

/-- The bytes that a plog holds. -/
def stream (vlog : Vlog) (client : Nat) : Option Bytes := vlog.copies[client]?.map PlogCopy.content

/-- A write of the bytes, whole or in parts, that succeeded. -/
def Succeeds (code : ErasureCode UInt8) (vlog : Vlog) (data : Bytes) (after : Vlog) : Prop :=
  (∃ events offset, vlog.write code events data = (.ok offset, after)) ∨
    ∃ events parts, parts.flatten = data ∧
      vlog.ensureWrite code events vlog.length parts = (.ok (), after)

theorem Succeeds.wrote (succeeds : vlog.Succeeds code data after) : vlog.Wrote code data after := by
  rcases succeeds with ⟨events, offset, ran⟩ | ⟨events, parts, rfl, ran⟩
  · exact (wrote_of_writeWithin ran).2
  · exact wrote_of_ensureWrite ran

theorem Wrote.stream_eq (wrote : vlog.Wrote code data after) {client : Nat}
    (counted : client ∈ after.candidates) :
    after.stream client = some (vlog.target code data client) := by
  have asked := wrote.candidates_le client counted
  have found := List.getElem?_eq_getElem (mem_candidates_lt asked)
  obtain ⟨next, foundNext, content_eq⟩ := wrote.streams client counted _ found
  rw [stream, foundNext, Option.map_some, content_eq, target_of_found found, if_pos asked]

/-- The same length and the same streams on the plogs that count. -/
def AgreesWith (vlog other : Vlog) : Prop := vlog.length = other.length ∧
    ∀ client ∈ other.candidates, vlog.stream client = other.stream client

theorem Completed.agreesWith (completed : vlog.Completed code data tried)
    (succeeds : vlog.Succeeds code data after) : tried.AgreesWith after := by
  have wrote := succeeds.wrote
  refine ⟨completed.length_eq.trans wrote.length_eq.symm, fun client counted => ?_⟩
  have found := List.getElem?_eq_getElem (mem_candidates_lt (wrote.candidates_le client counted))
  obtain ⟨next, foundNext, content_eq⟩ := completed.streams client _ found
  rw [wrote.stream_eq counted, stream, foundNext, Option.map_some, content_eq]

/-- Bytes written in parts and bytes written whole leave the same on every plog
that took part.  After any failed attempts to write them, the next one that
finds the plogs at work succeeds, and leaves what a successful first attempt
would have left. -/
theorem ensureWrite_agrees_and_retries (code : ErasureCode UInt8) (vlog : Vlog)
    (parts : List Bytes) :
    (∀ (events other : WriteEvents) (offset : Nat) (first second : Vlog),
      vlog.ensureWrite code events vlog.length parts = (.ok (), first) →
      vlog.write code other parts.flatten = (.ok offset, second) →
      first.length = second.length ∧ ∀ client ∈ first.candidates, client ∈ second.candidates →
          first.stream client = second.stream client) ∧
    (vlog.Takes code parts.flatten → ∀ tried, FailedAttempts code vlog parts.flatten tried →
      ∀ events, tried.Working events →
        (∃ after, tried.write code events parts.flatten = (.ok vlog.length, after) ∧
          vlog.Completed code parts.flatten after ∧
          ∀ first, vlog.Succeeds code parts.flatten first → after.AgreesWith first) ∧
        ∃ after, tried.ensureWrite code events vlog.length parts = (.ok (), after) ∧
          vlog.Completed code parts.flatten after ∧
          ∀ first, vlog.Succeeds code parts.flatten first → after.AgreesWith first) := by
  constructor
  · intro events other offset first second inParts whole
    have wroteParts := wrote_of_ensureWrite inParts
    have wroteWhole := (wrote_of_writeWithin whole).2
    refine ⟨wroteParts.length_eq.trans wroteWhole.length_eq.symm, ?_⟩
    intro client early late
    rw [wroteParts.stream_eq early, wroteWhole.stream_eq late]
  · intro takes tried attempts events working
    have within := tried_of_failedAttempts takes attempts
    obtain ⟨after, ran, completed⟩ := within.completes_write takes working
    obtain ⟨ensured, ensuredRan, ensuredCompleted⟩ := within.completes_ensureWrite takes working
    exact ⟨⟨after, ran, completed, fun _ => completed.agreesWith⟩,
      ensured, ensuredRan, ensuredCompleted,
      fun _ => ensuredCompleted.agreesWith⟩

theorem nothing_open : 0 ≤ ([] : Bytes).length :=
  Nat.le_refl 0

/-- Two empty mirrors, both of which have to take a write. -/
def twoMirrors : Vlog where
  protectionScheme := .duplicate
  dataShards := 0
  parityShards := 0
  columnBytes := 4096
  copies := List.replicate 2 ⟨[], 0, nothing_open, true⟩
  length := 0
  writeQuorum := 2
  completeReplicas := none

/-- Answers in order, from all clients but one. -/
def eventsWithout (missing : Option Nat) : WriteEvents where
  answer client _ :=
    if some client = missing then .failed "unreachable" false else .served
  arrival _ clients := clients
  arrives _ clients := .refl clients

/-- The second mirror missed the byte. -/
def halfWritten : Vlog :=
  { twoMirrors with
    copies := [⟨[7], 0, Nat.zero_le 1, true⟩, ⟨[], 0, nothing_open, true⟩] }

theorem twoMirrors_retried :
    ∃ after, twoMirrors.write (ErasureCode.xorCode 1 Nat.one_pos) (eventsWithout (some 1)) [7] =
        (.error (.client (.device "unreachable")), halfWritten) ∧
      halfWritten.ensureWrite (ErasureCode.xorCode 1 Nat.one_pos)
        (eventsWithout none) 0 [[], [7]] = (.ok (), after) ∧
      after.stream 0 = some [7] ∧ after.stream 1 = some [7] := by
  have takes : twoMirrors.Takes (ErasureCode.xorCode 1 Nat.one_pos) [[], [7]].flatten :=
    takes_of_settled (fun _ => by decide) (fun striped => by cases striped) (by decide)
  have failed : twoMirrors.write (ErasureCode.xorCode 1 Nat.one_pos) (eventsWithout (some 1)) [7] =
      (.error (.client (.device "unreachable")), halfWritten) := rfl
  have readable : ∀ copy ∈ halfWritten.copies, copy.readable = true := by
    decide
  have working : halfWritten.Working (eventsWithout none) :=
    fun _ _ => ⟨fun _ => rfl, fun copy found =>
      readable copy (List.mem_of_getElem? found)⟩
  obtain ⟨-, after, ran, completed, -⟩ :=
    (ensureWrite_agrees_and_retries (ErasureCode.xorCode 1 Nat.one_pos)
      twoMirrors [[], [7]]).2 takes _ (.write .start failed) _ working
  obtain ⟨zeroth, foundZeroth, zeroth_eq⟩ := completed.streams 0 _ rfl
  obtain ⟨first, foundFirst, first_eq⟩ := completed.streams 1 _ rfl
  refine ⟨after, failed, ran, ?_, ?_⟩
  · rw [stream, foundZeroth, Option.map_some, zeroth_eq]
    rfl
  · rw [stream, foundFirst, Option.map_some, first_eq]
    rfl

end Vlog

end Rose
