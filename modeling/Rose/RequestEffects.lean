import Rose.FileServer
import Rose.ReferenceRuns
import Rose.WriteOpStates

/-!
# The effects of requests

Whatever a request does to the catalog, and wherever it fails, it does by
catalog transactions.  Only finishing a handle publishes a version.  What every
transaction keeps is therefore kept by every request.  Most requests leave
handles only where there were some, with their paths, operations and written
bytes.
-/

namespace Rose

open FallibleActions

namespace CatalogAction

/-- The transactions of opening and writing a handle. -/
def Opens : CatalogAction → Prop
  | .expireWriteResults _ => True
  | .createWriteOp .. => True
  | .setWriteOpTail .. => True
  | _ => False

/-- The transactions of removing a name. -/
def Removes : CatalogAction → Prop
  | .unlinkFile _ => True
  | .rmdir _ => True
  | .cancelWriteOp _ => True
  | _ => False

/-- The transactions of moving a name. -/
def Moves : CatalogAction → Prop
  | .renameFile .. => True
  | .retargetPreparedWriteOp .. => True
  | .cancelWriteOp _ => True
  | _ => False

/-- The transactions of finishing a handle. -/
def Finishes : CatalogAction → Prop
  | .expireWriteResults _ => True
  | .cancelWriteOp _ => True
  | .commitWriteOpVersion _ _ _ placements => HashesFit placements
  | .commitWriteOpVersionWithRetention _ _ _ placements _ =>
    HashesFit placements
  | _ => False

theorem Quiet.placementsFit {action : CatalogAction} (quiet : action.Quiet) :
    action.PlacementsFit := by
  cases action <;> first | exact quiet.elim | trivial

end CatalogAction

/-- Some allowed transactions lead from one catalog to another. -/
def Transacts (allowed : CatalogAction → Prop) : Catalog → Catalog → Prop :=
  Relation.ReflTransGen fun before after =>
    ∃ action, allowed action ∧ before.apply action = .ok after

namespace Transacts

variable {allowed : CatalogAction → Prop} {before after : Catalog}

theorem refl (catalog : Catalog) : Transacts allowed catalog catalog := Relation.ReflTransGen.refl

theorem of_apply {action : CatalogAction} (permitted : allowed action)
    (applied : before.apply action = .ok after) :
    Transacts allowed before after :=
  Relation.ReflTransGen.single ⟨action, permitted, applied⟩

theorem keeps {property : Catalog → Prop} (transacts : Transacts allowed before after)
    (step : ∀ first action second, allowed action →
      first.apply action = .ok second → property first → property second)
    (holds : property before) : property after := by
  induction transacts with
  | refl => exact holds
  | tail _ stepped ih =>
    obtain ⟨action, permitted, applied⟩ := stepped
    exact step _ action _ permitted applied ih

end Transacts

/-- The bytes that a handle would publish: its base with what was written over
it. -/
def FileHandle.staged (handle : FileHandle) (plain : Bytes → Bytes) : Bytes :=
  (handle.cache.getD (newWriteCache handle.chunks)).view plain

/-- The same handle with the same operation, written bytes and asked
modification time. -/
structure FileHandle.SameStaging (new old : FileHandle) : Prop where
  handle : new.handle = old.handle
  writeOpID : new.writeOpID = old.writeOpID
  writeKey : new.writeKey = old.writeKey
  writeTouched : new.writeTouched = old.writeTouched
  mtime : new.mtime = old.mtime
  staged : ∀ plain, new.staged plain = old.staged plain

theorem FileHandle.SameStaging.refl (handle : FileHandle) : handle.SameStaging handle :=
  ⟨rfl, rfl, rfl, rfl, rfl, fun _ => rfl⟩

theorem FileHandle.SameStaging.trans {first second third : FileHandle}
    (later : third.SameStaging second) (earlier : second.SameStaging first) :
    third.SameStaging first :=
  ⟨later.handle.trans earlier.handle, later.writeOpID.trans earlier.writeOpID,
    later.writeKey.trans earlier.writeKey,
    later.writeTouched.trans earlier.writeTouched,
    later.mtime.trans earlier.mtime,
    fun plain => (later.staged plain).trans (earlier.staged plain)⟩

/-- A handle keeps the path of another one and, if it has an operation, what
was written for it. -/
def FileHandle.Stays (new old : FileHandle) : Prop :=
  new.path = old.path ∧ (new.unlinked = false → old.unlinked = false) ∧
    (new.writeOpID = 0 ∨ new.SameStaging old)

theorem FileHandle.Stays.refl (handle : FileHandle) : handle.Stays handle :=
  ⟨rfl, id, Or.inr (.refl handle)⟩

theorem FileHandle.Stays.trans {first second third : FileHandle} (later : third.Stays second)
    (earlier : second.Stays first) :
    third.Stays first := by
  obtain ⟨path, linked, later⟩ := later
  obtain ⟨earlierPath, earlierLinked, earlier⟩ := earlier
  refine ⟨path.trans earlierPath, fun open_ => earlierLinked (linked open_), ?_⟩
  rcases later with none | same
  · exact Or.inl none
  · rcases earlier with none | sameEarlier
    · exact Or.inl (same.writeOpID.trans none)
    · exact Or.inr (same.trans sameEarlier)

/-- A handle stays as one of `sources`, or has a clean path and no
operation. -/
def FileHandle.StaysFrom (new : FileHandle) (sources : FileHandle → Prop) :
    Prop :=
  (∃ old, sources old ∧ new.Stays old) ∨ (new.writeOpID = 0 ∧ cleanPath new.path = new.path)

theorem FileHandle.Stays.staysFrom {new old : FileHandle} {sources : FileHandle → Prop}
    (stays : new.Stays old) (from_ : old.StaysFrom sources) : new.StaysFrom sources := by
  rcases from_ with ⟨oldest, source, earlier⟩ | ⟨none, clean⟩
  · exact Or.inl ⟨oldest, source, stays.trans earlier⟩
  · refine Or.inr ⟨?_, by rw [stays.1]; exact clean⟩
    rcases stays.2.2 with done | same
    · exact done
    · exact same.writeOpID.trans none

/-- Allowed transactions lead from one state of the server to another, and its
handles stay as those before or some extra ones. -/
def ServerMoves (allowed : CatalogAction → Prop) (extra : FileHandle → Prop)
    (before after : FileServer) : Prop :=
  Transacts allowed before.catalog after.catalog ∧ ∀ new ∈ after.handles.rows,
      new.StaysFrom fun old => old ∈ before.handles.rows ∨ extra old

namespace ServerMoves

variable {allowed : CatalogAction → Prop} {extra : FileHandle → Prop} {before after : FileServer}

theorem of_transacts (transacts : Transacts allowed before.catalog after.catalog)
    (handles : after.handles = before.handles) :
    ServerMoves allowed extra before after := by
  refine ⟨transacts, fun new newIn => ?_⟩
  rw [handles] at newIn
  exact Or.inl ⟨new, Or.inl newIn, .refl new⟩

theorem refl (server : FileServer) : ServerMoves allowed extra server server :=
  of_transacts (.refl _) rfl

end ServerMoves

/-- No condition on the handles a request leaves. -/
def AnyHandle (_ : FileHandle) : Prop := True

/-- The key of the operation that a write to a handle is for. -/
def FileHandle.mutationKey (handle : FileHandle) : String :=
  if handle.writeOpID ≠ 0 then handle.writeKey
  else FileServer.legacyKey handle.handle handle.writeSeq

/-- A handle that was just opened on listed chunks. -/
structure FileHandle.Opened (opened : FileHandle) (number : Nat)
    (reads : List ChunkPlacement → Prop) : Prop where
  handle : opened.handle = number
  writeTouched : opened.writeTouched = false
  mtime : opened.mtime = none
  unlinked : opened.unlinked = false
  chunks : reads opened.chunks
  cache : ∀ cache, opened.cache = some cache → cache = newWriteCache opened.chunks

/-- A handle as it was but for its operation. -/
structure FileHandle.Joins (new old : FileHandle) : Prop where
  handle : new.handle = old.handle
  chunks : new.chunks = old.chunks
  mtime : new.mtime = old.mtime
  cache : new.cache = old.cache
  writeTouched : new.writeTouched = old.writeTouched
  unlinked : new.unlinked = old.unlinked
  writeKey : old.writeOpID ≠ 0 → new.writeKey = old.writeKey

/-- A handle that took a write into its cache, with an operation. -/
def FileHandle.Writes {plain : Bytes → Bytes} (new old : FileHandle) (offset : Nat) (data : Bytes)
    (spiller : CacheSpiller plain) : Prop :=
  ∃ writing touched, FileHandle.Joins writing old ∧ (old.writeTouched = true → touched = true) ∧
    new = { writing with
      cache := some (spiller.spill ((writing.cache.getD
        (newWriteCache writing.chunks)).writeAt offset data)).2
      writeTouched := touched }

/-- A handle that is being finished: with its cache, or on listed chunks without
an operation. -/
def FileHandle.Settles (new old : FileHandle) (reads : List ChunkPlacement → Prop) : Prop :=
  new = { old with cache := some (old.cache.getD (newWriteCache old.chunks)) } ∨
    (new.path = old.path ∧ new.unlinked = old.unlinked ∧ new.writeOpID = 0 ∧ new.cache = none ∧
      reads new.chunks)

namespace Request

variable {plain : Bytes → Bytes}

/-- The handles that a request puts, but for those that a rename takes along. -/
def Puts (before : FileServer) (reads : List ChunkPlacement → Prop) :
    Request plain → FileHandle → Prop
  | .openHandle .., new => new.Opened before.handleCounter reads
  | .openSnapshot .., new =>
    (∃ number, new.Opened number reads) ∧ new.writeOpID = 0 ∧ cleanPath new.path = new.path
  | .write handle offset data _ _ spiller, new => ∃ found,
    before.handles.find? handle = some found ∧
      (new.Joins found ∨ new.Writes found offset data spiller)
  | .setHandleMtime handle mtime _, new => ∃ found openedMtime,
    before.handles.find? handle = some found ∧
      (found.writeOpID ≠ 0 → openedMtime = found.openedMtime) ∧
      new = { found with openedMtime, mtime := some mtime }
  | .flush handle _, new | .close handle _ _, new => ∃ found,
    before.handles.find? handle = some found ∧ new.Settles found reads
  | _, _ => False

end Request

namespace FileServer

variable {plain : Bytes → Bytes} {α : Type}

section Primitives

variable {allowed : CatalogAction → Prop} {extra : FileHandle → Prop}

variable {server : FileServer} {failed : FileServer → Prop}

theorem transaction_ends {run : Catalog → Except CatalogError (α × Catalog)}
    {returned : α → FileServer → Prop}
    (onReturn : ∀ value catalog, run server.catalog = .ok (value, catalog) →
      returned value { server with catalog })
    (onFailure : failed server) :
    Ends (transaction run) server returned failed := by
  unfold Ends transaction
  cases outcome : run server.catalog with
  | error reason => exact onFailure
  | ok result => exact onReturn result.1 result.2 outcome

theorem query_ends {read : Catalog → Except CatalogError α} {returned : α → FileServer → Prop}
    (onReturn : ∀ value, read server.catalog = .ok value → returned value server)
    (onFailure : failed server) :
    Ends (query read) server returned failed := by
  unfold Ends query
  cases outcome : read server.catalog with
  | error reason => exact onFailure
  | ok value => exact onReturn value outcome

variable {β : Type} {returned : β → FileServer → Prop}

theorem query_bind {read : Catalog → Except CatalogError α} {next : α → ServerM β}
    (rest : ∀ value, read server.catalog = .ok value → Ends (next value) server returned failed)
    (onFailure : failed server) :
    Ends (query read >>= next) server returned failed := by
  have reading : Ends (query read) server
      (fun value after => after = server ∧ read server.catalog = .ok value)
      failed :=
    query_ends (fun value outcome => ⟨rfl, outcome⟩) onFailure
  refine reading.bind fun value after ⟨same, outcome⟩ => ?_
  subst same
  exact rest value outcome

theorem putHandle_bind {handle : FileHandle} {next : Unit → ServerM β}
    (rest : Ends (next ()) { server with handles := server.handles.put handle } returned failed) :
    Ends (putHandle handle >>= next) server returned failed :=
  rest

theorem nextHandle_bind {next : Nat → ServerM β}
    (rest : Ends (next server.handleCounter)
      { server with handleCounter := server.handleCounter + 1 } returned failed) :
    Ends (nextHandle >>= next) server returned failed :=
  rest

theorem attempt_bind {run : Catalog → Except CatalogError Catalog}
    {next : Except CatalogError Unit → ServerM β}
    (onFailure : ∀ reason, run server.catalog = .error reason →
      Ends (next (.error reason)) server returned failed)
    (onSuccess : ∀ catalog, run server.catalog = .ok catalog →
      Ends (next (.ok ())) { server with catalog } returned failed) :
    Ends (attempt run >>= next) server returned failed := by
  have trying : Ends (attempt run) server
      (fun result after => Ends (next result) after returned failed)
      failed := by
    unfold Ends attempt
    cases outcome : run server.catalog with
    | error reason => exact onFailure reason outcome
    | ok catalog => exact onSuccess catalog outcome
  exact trying.bind fun _ _ rest => rest

theorem findHandle_bind {handle : Nat} {next : FileHandle → ServerM β}
    (rest : ∀ found, server.handles.find? handle = some found →
      Ends (next found) server returned failed)
    (onFailure : failed server) :
    Ends (findHandle handle >>= next) server returned failed := by
  have finding : Ends (findHandle handle) server
      (fun found after =>
        after = server ∧ server.handles.find? handle = some found)
      failed := by
    unfold findHandle
    refine .bind_get ?_
    cases found : server.handles.find? handle with
    | none => exact .throw onFailure
    | some row => exact .pure ⟨rfl, rfl⟩
  refine finding.bind fun found middle ⟨same, isFound⟩ => ?_
  subst same
  exact rest found isFound

theorem findWriteOp_bind {key : String} {next : WriteOp → ServerM β}
    (rest : ∀ op, server.catalog.writeOpByKey key = some op → Ends (next op) server returned failed)
    (onFailure : failed server) :
    Ends (findWriteOp key >>= next) server returned failed := by
  refine query_bind (fun op read => rest op ?_) onFailure
  cases found : server.catalog.writeOpByKey key with
  | none =>
    rw [found] at read
    cases read
  | some other =>
    rw [found] at read
    cases read
    rfl

theorem writeOpForMutation_bind {key : String} {now : Int} {next : WriteOp → ServerM β}
    (rest : ∀ op, server.catalog.writeOpByKey key = some op →
      op.state = .prepared ∨ op.state = .committed → Ends (next op) server returned failed)
    (onFailure : failed server) :
    Ends (writeOpForMutation key now >>= next) server returned failed := by
  have admitted : Ends (writeOpForMutation key now) server
      (fun op after => after = server ∧ server.catalog.writeOpByKey key = some op ∧
        (op.state = .prepared ∨ op.state = .committed)) failed := by
    refine findWriteOp_bind (fun op known => .bind_get ?_) onFailure
    dsimp only
    split_ifs with expired finished
    · exact .throw onFailure
    · exact .throw onFailure
    · refine .pure ⟨rfl, known, ?_⟩
      by_contra other
      exact finished (not_or.mp other)
  refine admitted.bind fun op middle ⟨same, known, writable⟩ => ?_
  subst same
  exact rest op known writable

end Primitives

section Still

theorem query_still {read : Catalog → Except CatalogError α} : Along Eq (query read) :=
  fun _ => query_ends (fun _ _ => rfl) rfl

theorem fromStorage_still (result : Except String α) : Along Eq (fromStorage result) := by
  cases result with
  | error reason => exact .throw _
  | ok value => exact .pure value

theorem compareBatches_still {key : String} {retried committed : Nat → Nat → Except String Bytes}
    {total : Nat} (offset : Nat) :
    Along Eq (compareBatches key retried committed total offset) := by
  induction remaining : total - offset using Nat.strong_induction_on generalizing offset with
  | _ count ih =>
    unfold compareBatches
    split_ifs with inside
    · refine .bind (fromStorage_still _) fun _ =>
        .bind (fromStorage_still _) fun _ => ?_
      split_ifs
      · have positive : 0 < compareBatch := by decide
        exact ih _ (by omega) _ rfl
      · exact .throw _
    · exact .pure _

theorem validateTouched_still (found : FileHandle) (op : WriteOp) (placements : List ChunkPlacement)
    (payload : PayloadReader plain) :
    Along Eq (validateTouched found op placements payload) := by
  unfold validateTouched validateCommittedRetry
  split_ifs
  · cases found.cache with
    | none => exact .throw _
    | some cache =>
      dsimp only
      split_ifs
      · exact .throw _
      · exact compareBatches_still 0
  · exact .pure _

theorem writeOpForMutation_still (key : String) (now : Int) :
    Along Eq (writeOpForMutation key now) := by
  refine .bind query_still fun op => .bind .get fun server => ?_
  dsimp only
  split_ifs
  · exact .throw _
  · exact .throw _
  · exact .pure _

theorem validateCommittedWriteRetry_still (op : WriteOp) (offset : Nat) (data : Bytes)
    (payload : PayloadReader plain) :
    Along Eq (validateCommittedWriteRetry op offset data payload) := by
  unfold validateCommittedWriteRetry
  split_ifs
  · exact .throw _
  · exact .pure _
  · refine .bind query_still fun _ => .bind (fromStorage_still _) fun _ => ?_
    split_ifs
    · exact .pure _
    · exact .throw _

theorem validateFileAncestors_still (path : Path) : Along Eq (validateFileAncestors path) := by
  refine .bind .get fun current => ?_
  cases ancestorsOf path with
  | nil => exact .pure ()
  | cons parent above =>
    dsimp only
    split_ifs
    · exact .throw _
    · cases (parent :: above).find? current.namesFile with
      | none => exact .pure ()
      | some ancestor => exact .throw _

theorem openResponse_still (handle : FileHandle) : Along Eq (openResponse handle) := by
  unfold openResponse
  split_ifs
  · exact .pure _
  · exact .bind query_still fun _ => .bind .get fun _ => .pure _

theorem finishWithoutHandle_still (key : String) : Along Eq (finishWithoutHandle key) := by
  unfold finishWithoutHandle
  split_ifs
  · exact .throw _
  · refine .bind query_still fun op => ?_
    split
    · exact .bind .get fun _ => .pure _
    · exact .pure _
    · exact .throw _

end Still

section Frames

variable {allowed : CatalogAction → Prop} {wanted : FileHandle → Prop}
  {reads : List ChunkPlacement → Prop} {kept : FileServer → Prop}

/-- What every part of a request keeps, as long as it runs allowed transactions
and puts wanted handles; `reads` holds of the chunks that the catalog lists
meanwhile. -/
structure Frame (allowed : CatalogAction → Prop) (wanted : FileHandle → Prop)
    (reads : List ChunkPlacement → Prop) (kept : FileServer → Prop) : Prop where
  acts : ∀ {server : FileServer} {action : CatalogAction} {catalog : Catalog}, allowed action →
    server.catalog.apply action = .ok catalog → kept server → kept { server with catalog }
  puts : ∀ {server : FileServer} {handle : FileHandle}, wanted handle → kept server →
    kept { server with handles := server.handles.put handle }
  drops : ∀ {server : FileServer} {handles : KeyedTable FileHandle.handle},
    (∀ row ∈ handles.rows, row ∈ server.handles.rows) → kept server → kept { server with handles }
  counts : ∀ {server : FileServer} (handleCounter : Nat), kept server →
    kept { server with handleCounter }
  chunks : ∀ {server : FileServer} {fileID : Nat} {placements : List ChunkPlacement},
    kept server → server.catalog.fileVersionChunks fileID = .ok placements → reads placements

section Parts

variable (frame : Frame allowed wanted reads kept)

include frame

section

variable (action : CatalogAction) (permitted : allowed action)
include action permitted

theorem Frame.transaction_keeps {run : Catalog → Except CatalogError (α × Catalog)}
    (runs : ∀ catalog : Catalog, catalog.apply action = (run catalog).map Prod.snd) :
    Keeps kept (transaction run) fun _ => True := by
  intro server holds
  refine transaction_ends (fun value catalog outcome => ⟨frame.acts permitted ?_ holds, trivial⟩)
    holds
  rw [runs, outcome]
  rfl

theorem Frame.plain_keeps {run : Catalog → Except CatalogError Catalog}
    (runs : ∀ catalog : Catalog, catalog.apply action = run catalog) :
    Keeps kept (transaction fun catalog => (run catalog).map ((), ·)) fun _ => True := by
  refine frame.transaction_keeps action permitted fun catalog => ?_
  rw [runs]
  cases run catalog with
  | error reason => rfl
  | ok after => rfl

theorem Frame.execute_keeps {run : Catalog → Catalog}
    (runs : ∀ catalog : Catalog, catalog.apply action = .ok (run catalog)) :
    Keeps kept (execute run) fun _ => True :=
  .of_modify fun server holds => frame.acts permitted (runs server.catalog) holds

theorem Frame.attempt_keeps {run : Catalog → Except CatalogError Catalog}
    (runs : ∀ catalog : Catalog, catalog.apply action = run catalog) :
    Keeps kept (attempt run) fun _ => True := by
  intro server holds
  unfold Ends attempt
  cases outcome : run server.catalog with
  | error reason => exact ⟨holds, trivial⟩
  | ok catalog => exact ⟨frame.acts permitted ((runs _).trans outcome) holds, trivial⟩

end

theorem Frame.putHandle_keeps {handle : FileHandle} (isWanted : wanted handle) :
    Keeps kept (putHandle handle) fun _ => True :=
  .of_modify fun _ holds => frame.puts isWanted holds

theorem Frame.deleteHandle_keeps (handle : Nat) : Keeps kept (deleteHandle handle) fun _ => True :=
  .of_modify fun _ holds => frame.drops
    (fun _ rowIn => ((KeyedTable.mem_keep _ _ _).mp rowIn).1) holds

theorem Frame.nextHandle_keeps : Keeps kept nextHandle fun _ => True :=
  fun _ holds => ⟨frame.counts _ holds, trivial⟩

theorem Frame.queryChunks_keeps (fileID : Nat) :
    Keeps kept (query fun catalog => catalog.fileVersionChunks fileID) reads :=
  fun _ holds => query_ends (fun _ read => ⟨holds, frame.chunks holds read⟩) holds

theorem Frame.cancels (permitted : ∀ id, allowed (.cancelWriteOp id)) (ids : List Nat)
    {server : FileServer} (holds : kept server) :
    kept { server with catalog := ids.foldl Catalog.cancelWriteOp server.catalog } := by
  induction ids generalizing server with
  | nil => exact holds
  | cons id ids ih =>
    have cancelled : server.catalog.apply (.cancelWriteOp id) =
        .ok (server.catalog.cancelWriteOp id) := rfl
    exact ih (frame.acts (permitted id) cancelled holds)

end Parts

/-- Handles of which some lost their name. -/
def Unlinks (before after : KeyedTable FileHandle.handle) : Prop :=
  ∀ new ∈ after.rows, ∃ old ∈ before.rows, new = old ∨ new = { old with unlinked := true }

theorem Frame.markOpenHandlesUnlinked_keeps (frame : Frame allowed wanted reads kept)
    (permitted : ∀ id, allowed (.cancelWriteOp id))
    (unlinks : ∀ {server : FileServer} {handles : KeyedTable FileHandle.handle},
      Unlinks server.handles handles → kept server → kept { server with handles })
    (path : Path) (descendants : Bool) :
    Keeps kept (markOpenHandlesUnlinked path descendants) fun _ => True := by
  refine .of_modify fun server holds => ?_
  refine @unlinks { server with
    catalog := (server.markedOps path descendants).foldl Catalog.cancelWriteOp server.catalog } _
    (fun new newIn => ?_) (frame.cancels permitted _ holds)
  obtain ⟨old, oldIn, rfl⟩ := List.mem_map.mp newIn
  refine ⟨old, oldIn, ?_⟩
  split_ifs
  · exact Or.inr rfl
  · exact Or.inl rfl

end Frames

section Requests

variable {allowed : CatalogAction → Prop} {wanted : FileHandle → Prop}
  {reads : List ChunkPlacement → Prop} {kept : FileServer → Prop} {server : FileServer}
  (frame : Frame allowed wanted reads kept)

include frame

section Opening

variable (opens : ∀ action, CatalogAction.Opens action → allowed action)

include opens

theorem Frame.ensureRecoveryFileID_keeps (handle : FileHandle) (op : WriteOp) (env : RequestEnv) :
    Keeps kept (ensureRecoveryFileID handle op env)
      fun named => ∃ fileID64, named = { handle with fileID64 } := by
  unfold ensureRecoveryFileID
  dsimp only
  split_ifs
  · exact .pure ⟨handle.fileID64, rfl⟩
  · exact .pure ⟨_, rfl⟩
  · exact .bind (frame.execute_keeps (.setWriteOpTail op.id _) (opens _ trivial) fun _ => rfl)
      fun _ _ => .pure ⟨_, rfl⟩

theorem Frame.joinOperation_keeps {handle : FileHandle} {number : Nat}
    (opened : handle.Opened number reads) (noCache : handle.cache = none) (key : String)
    (env : RequestEnv) :
    Keeps kept (joinOperation handle key env) fun joined => joined.Opened number reads := by
  unfold joinOperation
  split_ifs
  · exact .pure opened
  refine .bind (frame.transaction_keeps (.createWriteOp key handle.path env.clock)
    (opens _ trivial) fun _ => rfl) fun op _ => ?_
  split_ifs
  · exact .throw _
  · exact .throw _
  have basing : ∀ start : FileHandle, start.Opened number reads → start.cache = none →
      Keeps kept (resultBase start op) fun based => based.Opened number reads := by
    intro start fresh uncached
    unfold resultBase
    split_ifs
    · refine .bind (frame.queryChunks_keeps op.fileID) fun chunks listed =>
        .bind (.of_still query_still) fun mtime _ => .pure ⟨fresh.handle, fresh.writeTouched,
          fresh.mtime, fresh.unlinked, listed, fun cache held => ?_⟩
      rw [uncached] at held
      cases held
    · exact .pure fresh
  refine .bind (basing _ ⟨opened.handle, opened.writeTouched, opened.mtime, opened.unlinked,
    opened.chunks, opened.cache⟩ noCache) fun based fresh =>
      .bind (frame.ensureRecoveryFileID_keeps opens based op env) ?_
  rintro named ⟨fileID64, rfl⟩
  refine .pure ⟨fresh.handle, fresh.writeTouched, fresh.mtime, fresh.unlinked, fresh.chunks, ?_⟩
  rintro cache ⟨⟩
  rfl

theorem Frame.openHandle_ends (path : Path) (key : String) (env : RequestEnv)
    (puts : ∀ new, Request.Puts server reads (.openHandle path key env : Request plain) new →
      wanted new) (holds : kept server) :
    Ends (openHandle path key env) server (fun _ after => kept after) kept := by
  have expiring : Ends (transaction fun catalog => catalog.expireWriteResults env.now) server
      (fun _ after => kept after ∧ after.handleCounter = server.handleCounter) kept :=
    transaction_ends (fun value catalog expired => ⟨frame.acts
      (opens (.expireWriteResults env.now) trivial) (map_snd_eq_ok_iff.mpr ⟨value, expired⟩) holds,
      rfl⟩) holds
  refine expiring.bind fun _ start ⟨startHolds, counter⟩ => ?_
  dsimp only
  split_ifs
  · exact .throw startHolds
  refine .bind_get ?_
  split_ifs
  · exact .throw startHolds
  refine ((validateFileAncestors_still _ start).mono (fun _ _ same => same.symm)
    fun _ same => same ▸ startHolds).bind ?_
  rintro _ _ rfl
  refine query_bind (fun chunks read => nextHandle_bind ?_) startHolds
  refine Keeps.ends (.bind (frame.joinOperation_keeps opens ⟨counter, rfl, rfl, rfl,
    frame.chunks startHolds read, fun _ held => by cases held⟩ rfl key env)
    fun opened isOpened => ?_) (frame.counts _ startHolds)
  exact .bind (.of_still (openResponse_still opened)) fun _ _ =>
    .bind (frame.putHandle_keeps (puts opened isOpened)) fun _ _ => .pure trivial

theorem Frame.ensureWriteOperation_keeps {handle : FileHandle} (env : RequestEnv)
    (joined : ∀ new : FileHandle, new.Joins handle → wanted new) :
    Keeps kept (ensureWriteOperation handle env)
      fun writing => writing.Joins handle ∧ writing.writeKey = handle.mutationKey := by
  unfold ensureWriteOperation FileHandle.mutationKey
  split_ifs with writes
  · exact .pure ⟨⟨rfl, rfl, rfl, rfl, rfl, rfl, fun _ => rfl⟩, rfl⟩
  · have puts : ∀ new : FileHandle, new.Joins handle → Keeps kept (putHandle new) fun _ => True :=
      fun new joins => frame.putHandle_keeps (joined new joins)
    have unwritten : ∀ {claim : Prop}, handle.writeOpID ≠ 0 → claim :=
      fun impossible => absurd impossible writes
    refine .bind (puts _ ⟨rfl, rfl, rfl, rfl, rfl, rfl, unwritten⟩) fun _ _ =>
      .bind (frame.transaction_keeps (.createWriteOp _ handle.path env.clock) (opens _ trivial)
        fun _ => rfl) fun op _ =>
        .bind (puts _ ⟨rfl, rfl, rfl, rfl, rfl, rfl, unwritten⟩) fun _ _ =>
          .bind (frame.ensureRecoveryFileID_keeps opens _ op env) ?_
    rintro named ⟨fileID64, rfl⟩
    exact .bind (puts _ ⟨rfl, rfl, rfl, rfl, rfl, rfl, unwritten⟩) fun _ _ =>
      .pure ⟨⟨rfl, rfl, rfl, rfl, rfl, rfl, unwritten⟩, rfl⟩

theorem Frame.write_ends (handle offset : Nat) (data : Bytes) (env : RequestEnv)
    (payload : PayloadReader plain) (spiller : CacheSpiller plain)
    (puts : ∀ new, Request.Puts server reads (.write handle offset data env payload spiller) new →
      wanted new) (holds : kept server) :
    Ends (write handle offset data env payload spiller) server (fun _ after => kept after)
      kept := by
  refine findHandle_bind (fun found isFound => ?_) holds
  split_ifs
  · exact .throw holds
  refine Keeps.ends (.bind (frame.ensureWriteOperation_keeps opens env fun new joins =>
    puts new ⟨found, isFound, Or.inl joins⟩) ?_) holds
  rintro writing ⟨joins, -⟩
  refine .bind (.of_still (writeOpForMutation_still _ _)) fun op _ => ?_
  split
  · exact .bind (.of_still (validateCommittedWriteRetry_still _ _ _ _)) fun _ _ => .pure trivial
  · have takes := fun touched keeps => frame.putHandle_keeps
      (puts _ ⟨found, isFound, Or.inr ⟨writing, touched, joins, keeps, rfl⟩⟩)
    unfold writeCached
    dsimp only
    split
    · exact .bind (takes writing.writeTouched fun touched =>
        joins.writeTouched.trans touched) fun _ _ => .throw _
    · exact .bind (takes true fun _ => rfl) fun _ _ => .pure trivial
  · exact .throw _

end Opening

theorem Frame.openSnapshot_keeps (snapshotID : Nat) (path : Path)
    (puts : ∀ new, Request.Puts server reads (.openSnapshot snapshotID path : Request plain) new →
      wanted new) :
    Keeps kept (openSnapshot snapshotID path) fun _ => True := by
  unfold openSnapshot
  split_ifs
  · exact .throw _
  refine .bind_get fun start _ => ?_
  split
  · exact .throw _
  · exact .bind (frame.queryChunks_keeps _) fun chunks listed =>
      .bind frame.nextHandle_keeps fun handle _ => .bind (frame.putHandle_keeps (puts _
        ⟨⟨handle, rfl, rfl, rfl, rfl, listed, fun _ held => by cases held⟩, rfl,
          cleanPath_cleanPath path⟩)) fun _ _ => .pure trivial

theorem Frame.setHandleMtime_ends {mtime : Int} (permitted : ∀ path, allowed (.setMtime path mtime))
    (handle : Nat) (env : RequestEnv)
    (puts : ∀ new,
      Request.Puts server reads (.setHandleMtime handle mtime env : Request plain) new → wanted new)
    (holds : kept server) :
    Ends (setHandleMtime handle mtime env) server (fun _ after => kept after) kept := by
  refine findHandle_bind (fun found isFound => ?_) holds
  split_ifs with snapshot unlinked writes
  · exact .throw holds
  · exact .throw holds
  · refine Keeps.ends (.bind (.of_still (writeOpForMutation_still _ _)) fun _ _ => ?_) holds
    exact frame.putHandle_keeps (puts _ ⟨found, _, isFound, fun _ => rfl, rfl⟩)
  · refine Keeps.ends (.bind (frame.transaction_keeps (.setMtime found.path mtime) (permitted _)
      fun _ => rfl) fun known _ => ?_) holds
    split_ifs
    · exact frame.putHandle_keeps
        (puts _ ⟨found, _, isFound, fun impossible => absurd impossible writes, rfl⟩)
    · exact .throw _

theorem Frame.finishHandle_ends (handle : Nat) (remove : Bool) (key : String)
    (env : FinishEnv plain) (expires : allowed (.expireWriteResults env.now))
    (cancels : ∀ id, allowed (.cancelWriteOp id))
    (commits : ∀ found opID mtime (chunks : PreparedChunks plain),
      Keeps kept (commitVersion found opID mtime chunks env) fun _ => reads chunks.placements)
    (puts : ∀ found new, server.handles.find? handle = some found → new.Settles found reads →
      wanted new) (holds : kept server) :
    Ends (finishHandle handle remove key env) server (fun _ after => kept after) kept := by
  have expiring : Ends (transaction fun catalog => catalog.expireWriteResults env.now) server
      (fun _ after => kept after ∧ after.handles = server.handles) kept :=
    transaction_ends (fun value catalog expired => ⟨frame.acts expires
      (map_snd_eq_ok_iff.mpr ⟨value, expired⟩) holds, rfl⟩) holds
  refine expiring.bind ?_
  rintro _ start ⟨startHolds, handles⟩
  refine .bind_get ?_
  rw [handles]
  cases present : server.handles.find? handle with
  | none => exact Keeps.ends (.of_still (finishWithoutHandle_still key)) startHolds
  | some found =>
    refine Keeps.ends ?_ startHolds
    dsimp only
    split_ifs
    · exact .throw _
    · unfold finishUnlinked
      split_ifs
      · exact .bind (frame.execute_keeps (.cancelWriteOp found.writeOpID) (cancels _) fun _ => rfl)
          fun _ _ => .bind (frame.deleteHandle_keeps _) fun _ _ => .pure trivial
      · exact .pure trivial
    · unfold finishReader
      split_ifs
      · exact .bind (frame.deleteHandle_keeps _) fun _ _ => .pure trivial
      · exact .pure trivial
    · refine .bind (.of_still query_still) fun op _ => ?_
      split_ifs
      · exact .throw _
      have finishing : Keeps kept (finishOperation found op env)
          fun finished => reads finished.placements := by
        unfold finishOperation
        split_ifs
        · refine .bind (frame.queryChunks_keeps op.fileID) fun placements listed =>
            .bind (.of_still (validateTouched_still _ _ _ _)) fun _ _ =>
              .bind (.of_still query_still) fun mtime _ => ?_
          split_ifs
          · exact .throw _
          · exact .pure listed
        · refine .bind (frame.putHandle_keeps (puts found _ present (Or.inl rfl))) fun _ _ =>
            .bind (.of_still (fromStorage_still _)) fun chunks _ =>
              .bind (commits _ op.id _ chunks) fun fileID listed => ?_
          split_ifs
          · exact .throw _
          · exact .pure listed
      have settling : ∀ finished : Finished, reads finished.placements →
          Keeps kept (settleHandle found remove finished) fun _ => True := by
        intro finished listed
        unfold settleHandle
        split_ifs
        · exact frame.deleteHandle_keeps _
        · exact frame.putHandle_keeps
            (puts found _ present (Or.inr ⟨rfl, rfl, rfl, rfl, listed⟩))
      exact .bind finishing fun finished listed => .bind_get fun _ _ =>
        .bind (settling finished listed) fun _ _ => .pure trivial

theorem Frame.mkdir_keeps {path : Path} {env : RequestEnv}
    (permitted : allowed (.mkdir (cleanPath path) env.clock)) :
    Keeps kept (mkdir path env) fun _ => True := by
  unfold mkdir
  split_ifs
  · exact .throw _
  · refine .bind_get fun _ _ => ?_
    split_ifs
    · exact .throw _
    · exact frame.plain_keeps (.mkdir _ env.clock) permitted fun _ => rfl

section Names

variable (unlinks : ∀ {server : FileServer} {handles : KeyedTable FileHandle.handle},
  Unlinks server.handles handles → kept server → kept { server with handles })

include unlinks

section

variable (removes : ∀ action, CatalogAction.Removes action → allowed action) (path : Path)
include removes path

theorem Frame.unlink_keeps : Keeps kept (unlink path) fun _ => True := by
  unfold unlink
  split_ifs
  · exact .throw _
  · refine .bind_get fun _ _ => ?_
    split_ifs
    · exact .throw _
    · exact .bind (frame.plain_keeps (.unlinkFile _) (removes _ trivial) fun _ => rfl) fun _ _ =>
        frame.markOpenHandlesUnlinked_keeps (fun _ => removes _ trivial) unlinks _ _

theorem Frame.rmdir_keeps : Keeps kept (rmdir path) fun _ => True := by
  unfold rmdir
  split_ifs
  · exact .throw _
  · refine .bind_get fun _ _ => ?_
    split_ifs
    · exact .throw _
    · exact .bind (frame.plain_keeps (.rmdir _) (removes _ trivial) fun _ => rfl) fun _ _ =>
        frame.markOpenHandlesUnlinked_keeps (fun _ => removes _ trivial) unlinks _ _

end

theorem Frame.rename_keeps (moves : ∀ action, CatalogAction.Moves action → allowed action)
    (takes : ∀ {server : FileServer} {handle : FileHandle} (path : Path), kept server →
      handle ∈ server.handles.rows → wanted { handle with path })
    (oldPath newPath : Path) (env : RequestEnv) :
    Keeps kept (rename oldPath newPath env) fun _ => True := by
  have moving : ∀ oldPath newPath, Keeps kept (moveHandles oldPath newPath) fun _ => True := by
    intro oldPath newPath
    have replacing : Keeps kept (unlinkReplaced oldPath newPath) fun _ => True := by
      unfold unlinkReplaced
      split_ifs
      · exact .pure trivial
      · exact frame.markOpenHandlesUnlinked_keeps (fun _ => moves _ trivial) unlinks newPath false
    refine .bind replacing fun _ _ => .bind_get fun server holds =>
      .foldlM (fun found handle handleIn => ?_) false
    refine .bind ?_ fun _ (_ : True) => .pure trivial
    unfold retargetHandle
    split_ifs
    · exact .pure trivial
    split
    · exact .pure trivial
    rename_i target _
    have retargeting : Keeps kept (retargetOp handle target) fun _ => True := by
      unfold retargetOp
      split_ifs
      · exact .pure trivial
      · exact frame.plain_keeps (.retargetPreparedWriteOp _ target) (moves _ trivial) fun _ => rfl
    exact .bind retargeting fun _ _ =>
      .bind (frame.putHandle_keeps (takes target holds handleIn)) fun _ _ => .pure trivial
  unfold rename
  split_ifs
  · exact .throw _
  refine .bind (.of_still (validateFileAncestors_still _)) fun _ _ =>
    .bind (frame.attempt_keeps (.renameFile _ _ env.clock) (moves _ trivial) fun _ => rfl)
      fun renamed _ => ?_
  split
  · refine .bind_get fun _ _ => ?_
    split_ifs
    · exact .throw _
    · exact .throw _
    · refine .bind (moving _ _) fun found _ => ?_
      split_ifs
      · exact .pure trivial
      · exact .throw _
  · exact .throw _
  · exact .bind (moving _ _) fun _ _ => .pure trivial

end Names

end Requests

theorem answer_ends {action : ServerM α} {server : FileServer} {returned : α → FileServer → Prop}
    {failed : FileServer → Prop} (reply : α → Reply) (ends : Ends action server returned failed) :
    (∃ value after, answer reply action server = (reply value, after) ∧ returned value after) ∨
    ∃ reason after, answer reply action server = (.failed reason, after) ∧ failed after := by
  unfold Ends at ends
  unfold answer
  cases outcome : action server with
  | ok value after =>
    rw [outcome] at ends
    exact Or.inl ⟨value, after, rfl, ends⟩
  | error reason after =>
    rw [outcome] at ends
    exact Or.inr ⟨reason, after, rfl, ends⟩

theorem answer_kept {kept : FileServer → Prop} {server : FileServer} {reply : α → Reply}
    {action : ServerM α} (ends : Ends action server (fun _ after => kept after) kept) :
    kept (answer reply action server).2 := by
  rcases answer_ends reply ends with
    ⟨value, after, answered, reached⟩ | ⟨reason, after, answered, reached⟩
  · rw [answered]
    exact reached
  · rw [answered]
    exact reached

end FileServer

theorem Housekeeping.quiet (work : Housekeeping) : work.action.Quiet := by
  obtain ⟨action, -, sparesHeads⟩ := work
  cases action <;>
    first
    | exact sparesHeads (by simp [CatalogAction.writes])
    | trivial

namespace Request

variable {plain : Bytes → Bytes}

/-- The transactions that a request may run. -/
def issues : Request plain → CatalogAction → Prop
  | .openHandle .. => CatalogAction.Opens
  | .openSnapshot .. => fun _ => False
  | .write .. => CatalogAction.Opens
  | .setHandleMtime _ mtime _ => fun action =>
    ∃ path, action = .setMtime path mtime
  | .flush .. => CatalogAction.Finishes
  | .close .. => CatalogAction.Finishes
  | .unlink _ => CatalogAction.Removes
  | .rmdir _ => CatalogAction.Removes
  | .mkdir path env => (· = .mkdir (cleanPath path) env.clock)
  | .rename .. => CatalogAction.Moves
  | .expireWriteResults now => (· = .expireWriteResults now)
  | .housekeeping work => (· = work.action)
  | .restart _ => fun _ => False

/-- The handles a request leaves beside those that were open. -/
def leaves : Request plain → FileHandle → Prop
  | .openHandle .. => AnyHandle
  | .write .. => AnyHandle
  | .setHandleMtime .. => AnyHandle
  | .rename .. => AnyHandle
  | _ => fun _ => False

/-- Whether a request may publish a version. -/
def Finishes : Request plain → Prop
  | .flush .. => True
  | .close .. => True
  | _ => False

/-- A request that takes no name away. -/
def KeepsNames : Request plain → Prop
  | .unlink .. | .rmdir .. | .rename .. => False
  | _ => True

/-- A request that takes handles to other names. -/
def MovesNames : Request plain → Prop
  | .rename .. => True
  | _ => False

theorem quiet_of_issues {request : Request plain} (other : ¬request.Finishes)
    {action : CatalogAction} (issued : request.issues action) :
    action.Quiet := by
  cases request with
  | flush handle env => exact absurd trivial other
  | close handle key env => exact absurd trivial other
  | setHandleMtime handle mtime env =>
    obtain ⟨path, rfl⟩ := issued
    trivial
  | mkdir path env =>
    cases issued
    trivial
  | expireWriteResults now =>
    cases issued
    trivial
  | housekeeping work =>
    cases issued
    exact work.quiet
  | _ => cases action <;> first | exact issued.elim | trivial

theorem placementsFit_of_issues {request : Request plain} {action : CatalogAction}
    (issued : request.issues action) :
    action.PlacementsFit := by
  by_cases finishes : request.Finishes
  · have finishing : action.Finishes := by
      cases request <;> first | exact issued | exact finishes.elim
    cases action <;> first | exact finishing | trivial
  · exact (quiet_of_issues finishes issued).placementsFit

end Request

namespace FileServer

variable {plain : Bytes → Bytes} {before after : FileServer} {exchange : Request plain × Reply}

/-- A request keeps what the quiet transactions of its kind, its publication and
the handles that it puts, marks and moves keep. -/
theorem Serves.keeps {wanted : FileHandle → Prop} {reads : List ChunkPlacement → Prop}
    {kept : FileServer → Prop} (served : before.Serves exchange after)
    (frame : Frame (fun action => exchange.1.issues action ∧ action.Quiet) wanted reads kept)
    (puts : ∀ new, exchange.1.Puts before reads new → wanted new)
    (commits : exchange.1.Finishes → ∀ found opID mtime (chunks : PreparedChunks plain) env,
      Keeps kept (commitVersion found opID mtime chunks env) fun _ => reads chunks.placements)
    (unlinks : ¬exchange.1.KeepsNames → ∀ {server : FileServer}
      {handles : KeyedTable FileHandle.handle},
      Unlinks server.handles handles → kept server → kept { server with handles })
    (takes : exchange.1.MovesNames → ∀ {server : FileServer} {handle : FileHandle} (path : Path),
      kept server → handle ∈ server.handles.rows → wanted { handle with path })
    (holds : kept before) : kept after := by
  obtain ⟨request, reply⟩ := exchange
  have state : (before.serve request).2 = after := congrArg Prod.snd served
  rw [← state]
  have answers : ∀ {α : Type} {tell : α → Reply} {action : ServerM α},
      Keeps kept action (fun _ => True) → kept (answer tell action before).2 :=
    fun keeps => answer_kept (keeps.ends holds)
  have quiet : ∀ {action}, ¬request.Finishes → request.issues action →
      request.issues action ∧ action.Quiet :=
    fun others issued => ⟨issued, Request.quiet_of_issues others issued⟩
  cases request with
  | openHandle path key env =>
    exact answer_kept (frame.openHandle_ends (fun _ => quiet id) path key env puts holds)
  | openSnapshot id path => exact answers (frame.openSnapshot_keeps id path puts)
  | write handle offset data env payload spiller =>
    exact answer_kept (frame.write_ends (fun _ => quiet id) handle offset data env payload spiller
      puts holds)
  | setHandleMtime handle mtime env =>
    exact answer_kept (frame.setHandleMtime_ends (fun path => quiet id ⟨path, rfl⟩) handle env puts
      holds)
  | flush handle env =>
    exact answer_kept (frame.finishHandle_ends handle false "" env ⟨trivial, trivial⟩
      (fun _ => ⟨trivial, trivial⟩) (fun found opID mtime chunks =>
        commits trivial found opID mtime chunks env)
      (fun found new isFound settles => puts new ⟨found, isFound, settles⟩) holds)
  | close handle key env =>
    exact answer_kept (frame.finishHandle_ends handle true key env ⟨trivial, trivial⟩
      (fun _ => ⟨trivial, trivial⟩) (fun found opID mtime chunks =>
        commits trivial found opID mtime chunks env)
      (fun found new isFound settles => puts new ⟨found, isFound, settles⟩) holds)
  | unlink path => exact answers (frame.unlink_keeps (unlinks id) (fun _ => quiet id) path)
  | rmdir path => exact answers (frame.rmdir_keeps (unlinks id) (fun _ => quiet id) path)
  | mkdir path env => exact answers (frame.mkdir_keeps (quiet id rfl))
  | rename oldPath newPath env =>
    exact answers (frame.rename_keeps (unlinks id) (fun _ => quiet id) (takes trivial) oldPath
      newPath env)
  | expireWriteResults now =>
    exact answers (frame.transaction_keeps (.expireWriteResults now) (quiet id rfl) fun _ => rfl)
  | housekeeping work =>
    exact answers (frame.plain_keeps work.action (quiet id rfl) fun _ => rfl)
  | restart counter =>
    exact frame.counts counter
      (@frame.drops before .empty (fun _ impossible => by cases impossible) holds)

theorem commitVersion_applies {kept : FileServer → Prop} {found : FileHandle} {opID : Nat}
    {mtime : Int} {chunks : PreparedChunks plain} {env : FinishEnv plain} {result : Prop}
    (acts : ∀ {action : CatalogAction}, action.Finishes → ∀ {server : FileServer}
      {catalog : Catalog}, server.catalog.apply action = .ok catalog → kept server →
        kept { server with catalog }) (holds : result) :
    Keeps kept (commitVersion found opID mtime chunks env) fun _ => result := by
  intro server isKept
  unfold commitVersion
  refine transaction_ends (fun fileID catalog committed => ⟨?_, holds⟩) isKept
  split_ifs at committed
  · exact @acts (.commitWriteOpVersionWithRetention opID found.path mtime
      chunks.placements (env.now + env.retryRetention)) chunks.hashesFit _ _
      (map_snd_eq_ok_iff.mpr ⟨fileID, committed⟩) isKept
  · exact @acts (.commitWriteOpVersion opID found.path mtime chunks.placements) chunks.hashesFit
      _ _ (map_snd_eq_ok_iff.mpr ⟨fileID, committed⟩) isKept

theorem ServerMoves.frame (allowed : CatalogAction → Prop) (extra : FileHandle → Prop)
    (start : FileServer) :
    Frame allowed (·.StaysFrom fun old => old ∈ start.handles.rows ∨ extra old) (fun _ => True)
      (ServerMoves allowed extra start) where
  acts permitted applied moves := ⟨moves.1.trans (Transacts.of_apply permitted applied), moves.2⟩
  puts stays moves := by
    refine ⟨moves.1, fun new newIn => ?_⟩
    rcases (KeyedTable.mem_put _ _ _).mp newIn with ⟨oldIn, -⟩ | rfl
    · exact moves.2 new oldIn
    · exact stays
  drops subset moves := ⟨moves.1, fun new newIn => moves.2 new (subset new newIn)⟩
  counts _ moves := moves
  chunks _ _ := trivial

/-- Every request acts on the catalog by transactions of its kind. -/
theorem Serves.moves (served : before.Serves exchange after) :
    ServerMoves exchange.1.issues exchange.1.leaves before after := by
  obtain ⟨request, reply⟩ := exchange
  have frame := ServerMoves.frame request.issues request.leaves before
  have finishing : request.Finishes → ∀ action, CatalogAction.Finishes action →
      request.issues action := by
    intro finishes action permitted
    cases request <;> first | exact permitted | exact finishes.elim
  refine served.keeps ⟨fun permitted => frame.acts permitted.1, frame.puts, frame.drops,
    frame.counts, frame.chunks⟩ (fun new put => ?_)
    (fun finishes _ _ _ _ _ => commitVersion_applies
      (fun permitted => frame.acts (finishing finishes _ permitted)) trivial)
    (fun _ _ _ unlinked moves => ⟨moves.1, fun new newIn => ?_⟩)
    (fun moving _ _ path _ _ => ?_) (.refl before)
  · cases request with
    | openHandle | write | setHandleMtime => exact Or.inl ⟨new, Or.inr trivial, .refl new⟩
    | openSnapshot => exact Or.inr put.2
    | flush | close =>
      obtain ⟨found, isFound, settles⟩ := put
      refine Or.inl ⟨found, Or.inl (KeyedTable.mem_of_find? isFound), ?_⟩
      rcases settles with rfl | ⟨path, linked, none, -⟩
      · exact ⟨rfl, id, Or.inr ⟨rfl, rfl, rfl, rfl, rfl, fun _ => rfl⟩⟩
      · exact ⟨path, fun open_ => linked.symm.trans open_, Or.inl none⟩
    | _ => exact put.elim
  · obtain ⟨old, oldIn, rfl | rfl⟩ := unlinked new newIn
    · exact moves.2 new oldIn
    · exact @FileHandle.Stays.staysFrom _ old _ ⟨rfl, fun open_ => (by cases open_),
        Or.inr ⟨rfl, rfl, rfl, rfl, rfl, fun _ => rfl⟩⟩ (moves.2 old oldIn)
  · cases request <;> first
      | exact moving.elim
      | exact Or.inl ⟨_, Or.inr trivial, .refl _⟩

end FileServer

end Rose
