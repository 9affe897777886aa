import Rose.ErasureCodes
import Rose.VlogShards

/-!
# Writing to a vlog

A write goes to every plog behind the vlog as appends at reserved offsets.
Mirrors receive the bytes themselves, erasure coded plogs one column of every
row.  An append whose bytes are there already only compares them, so that a
write may be repeated after it reached some of the plogs.  A plog may fail
before or after the bytes reached it, and the answers may arrive in any order.
-/

namespace Rose

open ListSplice

/-- Why a plog did not append. -/
inductive AppendError
  | beyondLength (offset length : Nat)
  | unreadable
  | bytesDiffer (offset : Nat)
  /-- The error of a disk or of the way to it. -/
  | device (reason : String)
deriving DecidableEq, Repr

namespace PlogCopy

variable (copy : PlogCopy)

def extend (more : Bytes) : PlogCopy :=
  { copy with
    content := copy.content ++ more
    durable_le := by
      rw [List.length_append]
      exact Nat.le_add_right_of_le copy.durable_le }

/-- The bytes that an append finds already there must be its own. -/
def checkOverlap (offset : Nat) (held : Bytes) : Except AppendError Unit :=
  if held = [] then .ok ()
  else
    match copy.read offset held.length with
    | none => .error .unreadable
    | some existing =>
      if existing = held then .ok () else .error (.bytesDiffer offset)

/-- Appends at a reserved offset what is not there yet. -/
def ensureAppend (offset : Nat) (data : Bytes) :
    Except AppendError PlogCopy :=
  if copy.content.length < offset then
    .error (.beyondLength offset copy.content.length)
  else
    let overlap := min (copy.content.length - offset) data.length
    match copy.checkOverlap offset (data.take overlap) with
    | .error reason => .error reason
    | .ok _ =>
      if overlap = data.length then .ok copy
      else .ok (copy.extend (data.drop overlap))

end PlogCopy

/-- How the plog behind a client answers an append. -/
inductive AppendAnswer
  | served
  /-- An error is reported, yet the bytes may have reached the plog. -/
  | failed (reason : String) (reached : Bool)
deriving DecidableEq, Repr

namespace PlogCopy

/-- One append: the error it reports, if any, and what the plog then holds. -/
def answerAppend (answer : AppendAnswer) (copy : PlogCopy) (offset : Nat) (data : Bytes) :
    Option AppendError × PlogCopy :=
  match answer, copy.ensureAppend offset data with
  | .served, .ok after => (none, after)
  | .served, .error reason => (some reason, copy)
  | .failed reason true, .ok after => (some (.device reason), after)
  | .failed reason _, _ => (some (.device reason), copy)

/-- Appends in order, up to the first error. -/
def appendPieces (answer : Nat → AppendAnswer) :
    PlogCopy → List (Nat × Bytes) → Option AppendError × PlogCopy
  | copy, [] => (none, copy)
  | copy, piece :: pieces =>
    match copy.answerAppend (answer piece.1) piece.1 piece.2 with
    | (none, after) => appendPieces answer after pieces
    | (some reason, after) => (some reason, after)

end PlogCopy

/-- What happens while a write is under way: how each client answers the append
at each offset, and in which order the answers arrive. -/
structure WriteEvents where
  answer : Nat → Nat → AppendAnswer
  arrival : Nat → List Nat → List Nat
  arrives : ∀ (offset : Nat) (clients : List Nat), (arrival offset clients).Perm clients

inductive WriteError
  | exceedsMax (max : Nat)
  | fewReplicas (eligible quorum : Nat)
  | client (reason : AppendError)
  | quorumNotMet (quorum : Nat)
  | notWholeRows (length stripeWidth : Nat)
  | offsetMismatch (offset length : Nat)
  | shortTrailingRow (rowFill : Nat)
deriving DecidableEq, Repr

/-- The nonempty parts at the offsets where they follow one another. -/
def partPieces : Nat → List Bytes → List (Nat × Bytes)
  | _, [] => []
  | offset, part :: parts =>
    if part = [] then partPieces offset parts
    else (offset, part) :: partPieces (offset + part.length) parts

namespace Vlog

variable (code : ErasureCode UInt8) (vlog : Vlog) (events : WriteEvents)

/-- The logical span of one complete row. -/
def stripeWidth : Nat := vlog.columnBytes * vlog.dataShards

def encodeRow (rowData : Bytes) : List Bytes :=
  code.encode ((List.range vlog.dataShards).map fun index =>
    slice rowData (index * vlog.columnBytes) vlog.columnBytes)

/-- What each of the clients makes of the pieces it is sent. -/
def appended (clients : List Nat) (pieces : Nat → List (Nat × Bytes)) : Vlog :=
  { vlog with
    copies := vlog.copies.mapIdx fun client copy =>
      if client ∈ clients then
        (copy.appendPieces (events.answer client) (pieces client)).2
      else copy }

/-- The error a client reports. -/
def appendFailure (pieces : Nat → List (Nat × Bytes)) (client : Nat) :
    Option AppendError :=
  match vlog.copies[client]? with
  | none => none
  | some copy =>
    (copy.appendPieces (events.answer client) (pieces client)).1

/-- The answers to one fan-out of appends. -/
def appendResults (offset : Nat) (clients : List Nat) (pieces : Nat → List (Nat × Bytes)) :
    FanoutResults clients where
  order := events.arrival offset clients
  answers := events.arrives offset clients
  succeeds client := (vlog.appendFailure events pieces client).isNone

/-- Sends every client its pieces and reports the clients that formed the
quorum, or the first error. -/
def fanOut (offset : Nat) (clients : List Nat) (quorum : Nat) (pieces : Nat → List (Nat × Bytes)) :
    Except WriteError (List Nat) × Vlog :=
  if clients.length < quorum then
    (.error (.fewReplicas clients.length quorum), vlog)
  else
    match fanoutQuorum quorum (vlog.appendResults events offset clients pieces) with
    | some chosen => (.ok chosen, vlog.appended events clients pieces)
    | none =>
      (.error
        (match (events.arrival offset clients).findSome? (vlog.appendFailure events pieces) with
        | some reason => .client reason
        | none => .quorumNotMet quorum),
        vlog.appended events clients pieces)

/-- An append to the mirrors that hold the whole stream.  Those that missed it
are left out from then on. -/
def writeMirrors (offset : Nat) (pieces : List (Nat × Bytes)) : Option WriteError × Vlog :=
  match vlog.fanOut events offset vlog.candidates vlog.writeQuorum fun _ => pieces with
  | (.error reason, after) => (some reason, after)
  | (.ok chosen, after) => (none, { after with completeReplicas := some chosen })

/-- The column of a row that goes to a client. -/
def column (rowData : Bytes) (client : Nat) : Bytes :=
  ((vlog.encodeRow code rowData)[client]?).getD []

/-- Where on the plogs the row at a logical offset is kept. -/
def plogOffset (offset : Nat) : Nat := offset / vlog.stripeWidth * vlog.columnBytes

/-- One row goes out as one column to every plog. -/
def writeRow (offset : Nat) (rowData : Bytes) : Option WriteError × Vlog :=
  match vlog.fanOut events (vlog.plogOffset offset)
    (List.range vlog.copies.length) vlog.copies.length
    (fun client =>
      [(vlog.plogOffset offset, vlog.column code rowData client)]) with
  | (.error reason, after) => (some reason, after)
  | (.ok _, after) => (none, after)

/-- Rows one after another, up to the first error. -/
def writeRows : Vlog → Nat → List Bytes → Option WriteError × Vlog
  | vlog, _, [] => (none, vlog)
  | vlog, offset, row :: rows =>
    match writeRow code vlog events offset row with
    | (some reason, after) => (some reason, after)
    | (none, after) => writeRows after (offset + vlog.stripeWidth) rows

def lengthened (added : Nat) : Vlog := { vlog with length := vlog.length + added }

/-- The offset that the bytes were given, or the error. -/
def finishWrite (offset added : Nat) :
    Option WriteError × Vlog → Except WriteError Nat × Vlog
  | (some reason, after) => (.error reason, after)
  | (none, after) => (.ok offset, after.lengthened added)

def writeWithin (data : Bytes) (max : Option Nat) : Except WriteError Nat × Vlog :=
  if max.any (· < vlog.length + data.length) then
    (.error (.exceedsMax (max.getD 0)), vlog)
  else if data = [] then (.ok vlog.length, vlog)
  else
    match vlog.protectionScheme with
    | .ec =>
      if data.length % vlog.stripeWidth ≠ 0 then
        (.error (.notWholeRows data.length vlog.stripeWidth), vlog)
      else
        finishWrite vlog.length data.length
          (writeRows code events vlog vlog.length (FixedBlocks.splitBlocks vlog.stripeWidth data).1)
    | _ =>
      finishWrite vlog.length data.length
        (vlog.writeMirrors events vlog.length [(vlog.length, data)])

def write (data : Bytes) : Except WriteError Nat × Vlog := vlog.writeWithin code events data none

/-- The bytes of the row being filled, the offset it goes to, and the rows
written so far, after one more part. -/
def fillRow (vlog : Vlog) (rowFill : Bytes) (offset : Nat) (part : Bytes) :
    Option WriteError × Bytes × Nat × Vlog :=
  if _done : part = [] ∨ vlog.stripeWidth ≤ rowFill.length then
    (none, rowFill, offset, vlog)
  else
    let count := min (vlog.stripeWidth - rowFill.length) part.length
    let filled := rowFill ++ part.take count
    if filled.length ≠ vlog.stripeWidth then
      fillRow vlog filled offset (part.drop count)
    else
      match writeRow code vlog events offset filled with
      | (some reason, after) => (some reason, [], offset, after)
      | (none, after) =>
        fillRow after [] (offset + vlog.stripeWidth) (part.drop count)
termination_by part.length
decreasing_by
  all_goals
    rw [not_or] at _done
    have := List.length_pos_iff.mpr _done.1
    rw [List.length_drop]
    omega

/-- The parts are copied into rows, and each row goes out when it is full. -/
def fillRows : Vlog → Bytes → Nat → List Bytes → Option WriteError × Bytes × Nat × Vlog
  | vlog, rowFill, offset, [] => (none, rowFill, offset, vlog)
  | vlog, rowFill, offset, part :: parts =>
    match fillRow code events vlog rowFill offset part with
    | (some reason, rest) => (some reason, rest)
    | (none, filled, next, after) => fillRows after filled next parts

def finishEnsure (added : Nat) :
    Option WriteError × Vlog → Except WriteError Unit × Vlog
  | (some reason, after) => (.error reason, after)
  | (none, after) => (.ok (), after.lengthened added)

def ensureWrite (offset : Nat) (parts : List Bytes) : Except WriteError Unit × Vlog :=
  let total := (parts.map List.length).sum
  if total = 0 then (.ok (), vlog)
  else if offset ≠ vlog.length then
    (.error (.offsetMismatch offset vlog.length), vlog)
  else
    match vlog.protectionScheme with
    | .ec =>
      if total % vlog.stripeWidth ≠ 0 then
        (.error (.notWholeRows total vlog.stripeWidth), vlog)
      else
        match fillRows code events vlog [] offset parts with
        | (some reason, _, _, after) => (.error reason, after)
        | (none, rowFill, _, after) =>
          if rowFill ≠ [] then
            (.error (.shortTrailingRow rowFill.length), after)
          else (.ok (), after.lengthened total)
    | _ =>
      finishEnsure total (vlog.writeMirrors events offset (partPieces offset parts))

end Vlog

end Rose
