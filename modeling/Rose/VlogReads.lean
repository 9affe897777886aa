import Rose.VlogStreams

/-!
# Reading from a vlog

Mirrors are read all at once, and the first answer counts.  An erasure coded
range is read row by row from the data columns it meets.  The first column of
a row that cannot be read has the whole row rebuilt from as many columns as
there is data, and the rest of the row is taken from there.
-/

namespace Rose

open ListSplice FixedBlocks

/-- What happens while a range is read: which of the reads of a row's columns
are served, directly or to rebuild the row, and in which order the latter
answer. -/
structure ReadEvents where
  direct : Nat → Nat → Bool
  rebuild : Nat → Nat → Bool
  arrival : Nat → List Nat → List Nat
  arrives : ∀ (row : Nat) (clients : List Nat), (arrival row clients).Perm clients

inductive ReadError
  | invalid (offset length : Int)
  | overflows
  | pastEnd (stop length : Nat)
  | allFailed
  | shardsMissing (row failed parity : Nat)
  | reconstruct (row : Nat)
deriving DecidableEq, Repr

namespace Vlog

variable (code : ErasureCode UInt8) (vlog : Vlog) (events : ReadEvents)

def readShard (served : Bool) (client offset count : Nat) : Option Bytes :=
  if served then vlog.copies[client]?.bind (·.read offset count) else none

/-- The read of a whole column when a row is rebuilt. -/
def rebuildRead (row client : Nat) : Option Bytes :=
  vlog.readShard (events.rebuild row client) client (row * vlog.columnBytes) vlog.columnBytes

/-- Columns are taken as they arrive, until there are enough of them or too
many are missing. -/
def collectColumns (row : Nat) :
    List Nat → List (Option Bytes) → Nat → Nat → Except ReadError (List (Option Bytes))
  | [], shards, _, _ => .ok shards
  | client :: later, shards, available, failed =>
    match vlog.rebuildRead events row client with
    | none =>
      if vlog.parityShards < failed + 1 then
        .error (.shardsMissing row (failed + 1) vlog.parityShards)
      else collectColumns row later shards available (failed + 1)
    | some column =>
      if vlog.dataShards ≤ available + 1 then
        .ok (shards.set client (some column))
      else collectColumns row later (shards.set client (some column)) (available + 1) failed

def reconstructRow (row : Nat) : Except ReadError (List Bytes) :=
  match vlog.collectColumns events row (events.arrival row (List.range vlog.copies.length))
    (List.replicate vlog.copies.length none) 0 0 with
  | .error reason => .error reason
  | .ok shards =>
    match code.reconstruct shards with
    | none => .error (.reconstruct row)
    | some columns => .ok columns

/-- The part of one column, and the rebuilt columns if there are any by then. -/
def readColumn (row position count : Nat) (column : Nat) :
    Option (List Bytes) → Except ReadError (Bytes × Option (List Bytes))
  | some columns =>
    .ok (slice (columns[column]?.getD []) position count, some columns)
  | none =>
    match vlog.readShard (events.direct row column) column
      (row * vlog.columnBytes + position) count with
    | some data => .ok (data, none)
    | none =>
      match vlog.reconstructRow code events row with
      | .error reason => .error reason
      | .ok columns =>
        .ok (slice (columns[column]?.getD []) position count, some columns)

/-- The bytes of a row from one position up to another. -/
def readRowRange (row stop current : Nat) (columns : Option (List Bytes)) :
    Except ReadError Bytes :=
  if _more : current < stop ∧ 0 < vlog.columnBytes then
    let position := current % vlog.columnBytes
    let count := min (vlog.columnBytes - position) (stop - current)
    match vlog.readColumn code events row position count (current / vlog.columnBytes) columns with
    | .error reason => .error reason
    | .ok (data, columns) =>
      match readRowRange row stop (current + count) columns with
      | .error reason => .error reason
      | .ok rest => .ok (data ++ rest)
  else .ok []
termination_by stop - current
decreasing_by
  have := Nat.mod_lt current _more.2
  omega

/-- The rows of a range one after another. -/
def readRows (stop current : Nat) : Except ReadError Bytes :=
  if _more : current < stop ∧ 0 < vlog.stripeWidth then
    let row := current / vlog.stripeWidth
    let rowEnd := min ((row + 1) * vlog.stripeWidth) stop
    match vlog.readRowRange code events row (rowEnd - row * vlog.stripeWidth)
      (current - row * vlog.stripeWidth) none with
    | .error reason => .error reason
    | .ok data =>
      match readRows stop rowEnd with
      | .error reason => .error reason
      | .ok rest => .ok (data ++ rest)
  else .ok []
termination_by stop - current
decreasing_by
  have := Nat.lt_mul_div_succ current _more.2
  rw [Nat.mul_comm] at this
  omega

/-- The first mirror that answers is believed. -/
def readMirrors (offset count : Nat) : Except ReadError Bytes :=
  match (events.arrival 0 vlog.candidates).findSome? fun client =>
    vlog.readShard (events.direct 0 client) client offset count with
  | some data => .ok data
  | none => .error .allFailed

def read (offset length : Int) : Except ReadError Bytes :=
  if offset < 0 ∨ length < 0 then .error (.invalid offset length)
  else if 2 ^ 63 - 1 - offset < length then .error .overflows
  else if vlog.length < offset + length then
    .error (.pastEnd (offset + length).toNat vlog.length)
  else
    match vlog.protectionScheme with
    | .ec =>
      vlog.readRows code events (offset + length).toNat offset.toNat
    | _ => vlog.readMirrors events offset.toNat length.toNat

end Vlog

end Rose
