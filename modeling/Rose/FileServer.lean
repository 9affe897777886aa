import Rose.PublishedVersion
import Rose.SnapshotReads

/-!
# Open files and requests

The server keeps a table of open handles in memory over the catalog.  A handle
that writes owns a write operation of the catalog, either one that its client
named by a key or one that the server makes for it.  This file models the
requests that open, write and finish handles and those that change names, with
the state that each of them leaves when it fails.  The bytes themselves are
reached through the chunk reader and the chunk store of the earlier files.
-/

namespace Rose

open FallibleActions

/-- Why a request is refused. -/
inductive ServerError
  | emptyPath
  | pathsRequired
  | isDirectory (path : Path)
  | notDirectory (path : Path)
  | fileAsParent (path : Path)
  | directoryReplaced (path : Path)
  | occupied (path : Path)
  | pathNotFound (path : Path)
  | snapshotPathRequired
  | snapshotPathNotFound
  | keyBound (path : Path)
  | keyFinished (state : WriteOpState)
  | keyExpired
  | keyMismatch
  | noActiveHandle (key : String)
  | invalidHandle
  | snapshotReadOnly
  | unlinkedFile
  | conflictingRetry (key : String)
  | conflictingMtime (key : String)
  | storage (reason : String)
  | catalog (reason : CatalogError)
deriving DecidableEq, Repr

/-- An open file.  Operation zero stands for none; the modification time is set
when the client asked for one. -/
structure FileHandle where
  handle : Nat
  path : Path
  snapshotID : Nat
  fileID : Nat
  chunks : List ChunkPlacement
  openedMtime : Int
  writeOpID : Nat
  writeKey : String
  retainResult : Bool
  mtime : Option Int
  cache : Option WriteCache
  fileID64 : Nat
  writeSeq : Nat
  unlinked : Bool
  writeTouched : Bool

structure FileServer where
  catalog : Catalog
  handles : KeyedTable FileHandle.handle
  handleCounter : Nat

/-- The server of a fresh database. -/
def FileServer.initial (counter : Nat) : FileServer := ⟨.empty, .empty, counter⟩

/-- The clocks and the random numbers a request reads. -/
structure RequestEnv where
  now : Int
  clock : Int
  random : Nat

/-- The extents of a version that publication has checked: each names stored
bytes by a full hash, and its length fits its field. -/
structure PreparedChunks (plain : Bytes → Bytes) where
  placements : List ChunkPlacement
  hashesFit : HashesFit placements
  stored : AllStored plain placements
  sizesFit : ∀ placement ∈ placements, placement.logicalLen < 2 ^ 32

/-- The spilling of a cache, which may fail. -/
structure CacheSpiller (plain : Bytes → Bytes) where
  spill : WriteCache → Except String Unit × WriteCache
  sound : ∀ cache, (spill cache).2 = cache ∨
    ∃ placements, CacheStep plain cache (.spill placements) (spill cache).2

/-- What finishing a handle meets: the bytes of committed chunks, the outcome
of preparing the new version, how long results are retained, and whether the
answer of the publishing transaction is lost. -/
structure FinishEnv (plain : Bytes → Bytes) extends RequestEnv where
  payload : PayloadReader plain
  prepared : Except String (PreparedChunks plain)
  retryRetention : Int
  replyLost : Bool

structure OpenResponse where
  handle : Nat
  acknowledgedOffset : Nat
  retryExpiresAt : Int
deriving DecidableEq, Repr

namespace Catalog

variable (catalog : Catalog)

/-- The version a path names; zero when there is none. -/
def openFile (path : Path) : Nat :=
  match catalog.heads.find? path with
  | none => 0
  | some head => head.fileID

def fileVersionMtime (fileID : Nat) : Except CatalogError Int :=
  match catalog.files.find? fileID with
  | none => .error .noRows
  | some version => .ok version.mtime

end Catalog

namespace FileServer

abbrev ServerM := EStateM ServerError FileServer

section Access

/-- A catalog transaction; a failed one is rolled back. -/
def transaction {α : Type} (run : Catalog → Except CatalogError (α × Catalog)) : ServerM α :=
  fun server =>
    match run server.catalog with
    | .error reason => .error (.catalog reason) server
    | .ok (value, catalog) => .ok value { server with catalog }

/-- A catalog statement that cannot fail. -/
def execute (run : Catalog → Catalog) : ServerM Unit :=
  modify fun server => { server with catalog := run server.catalog }

/-- A catalog transaction whose failure the request looks at. -/
def attempt (run : Catalog → Except CatalogError Catalog) : ServerM (Except CatalogError Unit) :=
  fun server =>
    match run server.catalog with
    | .error reason => .ok (.error reason) server
    | .ok catalog => .ok (.ok ()) { server with catalog }

/-- A catalog read. -/
def query {α : Type} (read : Catalog → Except CatalogError α) : ServerM α := fun server =>
    match read server.catalog with
    | .error reason => .error (.catalog reason) server
    | .ok value => .ok value server

def putHandle (handle : FileHandle) : ServerM Unit :=
  modify fun server => { server with handles := server.handles.put handle }

def deleteHandle (handle : Nat) : ServerM Unit := modify fun server =>
    { server with
      handles := server.handles.keep fun other => decide (other.handle ≠ handle) }

def findHandle (handle : Nat) : ServerM FileHandle := do
  let server ← get
  match server.handles.find? handle with
  | none => throw .invalidHandle
  | some found => pure found

def findWriteOp (key : String) : ServerM WriteOp := query fun catalog =>
    match catalog.writeOpByKey key with
    | none => .error .noRows
    | some op => .ok op

def nextHandle : ServerM Nat := do
  let server ← get
  set { server with handleCounter := server.handleCounter + 1 }
  pure server.handleCounter

end Access

section Names

variable (server : FileServer)

def hasOpenHandleAtOrBelow (path : Path) : Bool := server.handles.rows.any fun handle =>
    !handle.unlinked && decide (handle.snapshotID = 0) &&
      decide (AtOrBelow path handle.path)

def hasOpenHandleAtOrAbove (path : Path) : Bool := server.handles.rows.any fun handle =>
    !handle.unlinked && decide (handle.snapshotID = 0) &&
      decide (AtOrBelow handle.path path)

/-- Whether a path names a file. -/
def namesFile (path : Path) : Bool :=
  match server.catalog.statPath path with
  | none => false
  | some entry => !entry.isDir

def namesDirectory (path : Path) : Bool :=
  match server.catalog.statPath path with
  | none => false
  | some entry => entry.isDir

/-- No open or committed file may lie above a file. -/
def validateFileAncestors (path : Path) : ServerM Unit := do
  let server ← get
  match ancestorsOf path with
  | [] => pure ()
  | parent :: above =>
    if server.hasOpenHandleAtOrAbove parent then throw (.fileAsParent path)
    else
      match (parent :: above).find? server.namesFile with
      | some ancestor => throw (.fileAsParent ancestor)
      | none => pure ()

/-- Whether a removal of a name reaches a handle. -/
def marks (path : Path) (descendants : Bool) (handle : FileHandle) : Bool :=
  decide (handle.snapshotID = 0) &&
    (decide (handle.path = path) || (descendants && decide (Below path handle.path)))

/-- The operations of the handles a removal reaches. -/
def markedOps (path : Path) (descendants : Bool) : List Nat :=
  ((server.handles.rows.filter (marks path descendants)).map FileHandle.writeOpID).filter (· ≠ 0)

/-- The handles of a removed name lose it and their operations are
cancelled. -/
def markOpenHandlesUnlinked (path : Path) (descendants : Bool) :
    ServerM Unit :=
  modify fun server =>
    { server with
      handles := server.handles.change
        (fun handle =>
          if marks path descendants handle then { handle with unlinked := true }
          else handle)
        (fun handle => by split_ifs <;> rfl)
      catalog := (server.markedOps path descendants).foldl
        Catalog.cancelWriteOp server.catalog }

/-- Where a rename takes a path at or below the old one. -/
def retargetedPath (oldPath newPath path : Path) : Option Path :=
  if path = oldPath then some newPath
  else if Below oldPath path then some (movedPath oldPath newPath path)
  else none

/-- The prepared operation of a handle follows it. -/
def retargetOp (handle : FileHandle) (target : Path) : ServerM Unit :=
  if handle.writeOpID = 0 then pure ()
  else
    transaction fun catalog =>
      (catalog.retargetPreparedWriteOp handle.writeOpID target).map ((), ·)

def retargetHandle (oldPath newPath : Path) (handle : FileHandle) :
    ServerM Bool :=
  if handle.unlinked then pure false
  else
    match retargetedPath oldPath newPath handle.path with
    | none => pure false
    | some target => do
        retargetOp handle target
        putHandle { handle with path := target }
        pure true

/-- Open handles follow a rename; the result tells whether there were any. -/
def retargetOpenHandles (oldPath newPath : Path) : ServerM Bool := do
  let server ← get
  server.handles.rows.foldlM
    (fun found handle => do
      let moved ← retargetHandle oldPath newPath handle
      pure (found || moved))
    false

end Names

section Operations

/-- A new identity for recovery records, never zero. -/
def drawnFileID (env : RequestEnv) : Nat :=
  if env.random = 0 then env.clock.toNat else env.random

/-- The identity that recovery records carry, from the operation or drawn for
it. -/
def ensureRecoveryFileID (handle : FileHandle) (op : WriteOp) (env : RequestEnv) :
    ServerM FileHandle :=
  let stored := LittleEndian.decode (op.tail.take 8)
  if handle.fileID64 ≠ 0 then pure handle
  else if 8 ≤ op.tail.length ∧ stored ≠ 0 then
    pure { handle with fileID64 := stored }
  else do
    execute fun catalog =>
      catalog.setWriteOpTail op.id (LittleEndian.encode 8 (drawnFileID env))
    pure { handle with fileID64 := drawnFileID env }

/-- A retry of a committed operation starts from its result. -/
def resultBase (handle : FileHandle) (op : WriteOp) : ServerM FileHandle :=
  if op.state = .committed then do
    let chunks ← query fun catalog => catalog.fileVersionChunks op.fileID
    let openedMtime ← query fun catalog => catalog.fileVersionMtime op.fileID
    pure { handle with fileID := op.fileID, chunks, openedMtime }
  else pure handle

/-- The operation of a client's key is joined to a new handle. -/
def openOperation (handle : FileHandle) (key : String) (env : RequestEnv) :
    ServerM FileHandle := do
  let op ← transaction fun catalog =>
    catalog.createWriteOp key handle.path env.clock
  if op.path ≠ handle.path ∧ ¬(op.state = .committed ∧ op.fileID = handle.fileID) then
    throw (.keyBound op.path)
  else if op.state = .cancelled ∨ op.state = .abandoned ∨ op.state = .expired then
    throw (.keyFinished op.state)
  else do
    let based ← resultBase
      { handle with
        writeOpID := op.id
        writeKey := op.idempotencyKey
        retainResult := true }
      op
    let named ← ensureRecoveryFileID based op env
    pure { named with cache := some (newWriteCache named.chunks) }

/-- What `Open` answers about an operation. -/
def openResponse (handle : FileHandle) : ServerM OpenResponse :=
  if handle.writeOpID = 0 then pure ⟨handle.handle, 0, 0⟩
  else do
    let op ← findWriteOp handle.writeKey
    let server ← get
    pure ⟨handle.handle, op.acknowledgedOffset, server.catalog.writeResultDeadline op.id⟩

def joinOperation (handle : FileHandle) (key : String) (env : RequestEnv) :
    ServerM FileHandle :=
  if key = "" then pure handle else openOperation handle key env

def openHandle (path : Path) (key : String) (env : RequestEnv) :
    ServerM OpenResponse := do
  let _ ← transaction fun catalog => catalog.expireWriteResults env.now
  let path := cleanPath path
  if path = [] then throw .emptyPath
  else do
    let server ← get
    if server.namesDirectory path then throw (.isDirectory path)
    else do
      let openedMtime := match server.catalog.statPath path with
        | none => 0
        | some entry => entry.mtime
      validateFileAncestors path
      let fileID := server.catalog.openFile path
      let chunks ← query fun catalog => catalog.fileVersionChunks fileID
      let handle ← nextHandle
      let opened ← joinOperation
        { handle, path, fileID, chunks, openedMtime
          snapshotID := 0
          writeOpID := 0
          writeKey := ""
          retainResult := false
          mtime := none
          cache := none
          fileID64 := 0
          writeSeq := 0
          unlinked := false
          writeTouched := false }
        key env
      let response ← openResponse opened
      putHandle opened
      pure response

def openSnapshot (snapshotID : Nat) (path : Path) : ServerM OpenResponse := do
  if path = [] ∨ snapshotID = 0 then throw .snapshotPathRequired
  else do
    let path := cleanPath path
    let server ← get
    match server.catalog.snapshotFiles.find? (snapshotID, path) with
    | none => throw .snapshotPathNotFound
    | some row => do
        let chunks ← query fun catalog => catalog.fileVersionChunks row.fileID
        let handle ← nextHandle
        putHandle
          { handle, path, snapshotID, chunks
            fileID := row.fileID
            openedMtime := row.mtime
            writeOpID := 0
            writeKey := ""
            retainResult := false
            mtime := none
            cache := none
            fileID64 := 0
            writeSeq := 0
            unlinked := false
            writeTouched := false }
        pure ⟨handle, 0, 0⟩

end Operations

section Writes

/-- The key the server makes for a handle that writes without one. -/
def legacyKey (handle writeSeq : Nat) : String :=
  "legacy-handle-" ++ toString handle ++ "-" ++ toString writeSeq

/-- A handle that was opened without a key gets an operation of its own. -/
def ensureWriteOperation (handle : FileHandle) (env : RequestEnv) :
    ServerM FileHandle :=
  if handle.writeOpID ≠ 0 then pure handle
  else do
    let key := legacyKey handle.handle handle.writeSeq
    let counted := { handle with writeSeq := handle.writeSeq + 1 }
    putHandle counted
    let op ← transaction fun catalog =>
      catalog.createWriteOp key handle.path env.clock
    let keyed :=
      { counted with
        writeOpID := op.id, writeKey := key, retainResult := false }
    putHandle keyed
    let named ← ensureRecoveryFileID keyed op env
    putHandle named
    pure named

/-- An operation that may still be written: prepared, or committed with a
result that is still retained. -/
def writeOpForMutation (key : String) (now : Int) : ServerM WriteOp := do
  let op ← findWriteOp key
  let server ← get
  let deadline := server.catalog.writeResultDeadline op.id
  if op.state = .expired ∨ (0 < deadline ∧ deadline ≤ now) then
    throw .keyExpired
  else if op.state ≠ .prepared ∧ op.state ≠ .committed then
    throw (.keyFinished op.state)
  else pure op

/-- A storage result; its error fails the request. -/
def fromStorage {α : Type} : Except String α → ServerM α
  | .error reason => throw (.storage reason)
  | .ok value => pure value

/-- A write to a committed operation must repeat its bytes. -/
def validateCommittedWriteRetry {plain : Bytes → Bytes} (op : WriteOp) (offset : Nat) (data : Bytes)
    (payload : PayloadReader plain) :
    ServerM Unit :=
  if op.acknowledgedOffset < offset + data.length then
    throw (.conflictingRetry op.idempotencyKey)
  else if data = [] then pure ()
  else do
    let placements ← query fun catalog => catalog.fileVersionChunks op.fileID
    let committed ← fromStorage (readChunksAt payload.read placements offset data.length)
    if committed = data then pure ()
    else throw (.conflictingRetry op.idempotencyKey)

/-- The cache takes a write and is spilled; the answer is its length. -/
def writeCached {plain : Bytes → Bytes} (handle : FileHandle) (offset : Nat) (data : Bytes)
    (spiller : CacheSpiller plain) : ServerM Nat :=
  let cache := handle.cache.getD (newWriteCache handle.chunks)
  let written := spiller.spill (cache.writeAt offset data)
  match written.1 with
  | .error reason => do
      putHandle { handle with cache := some written.2 }
      throw (.storage reason)
  | .ok () => do
      putHandle { handle with cache := some written.2, writeTouched := true }
      pure written.2.length

def write {plain : Bytes → Bytes} (handle : Nat) (offset : Nat) (data : Bytes) (env : RequestEnv)
    (payload : PayloadReader plain) (spiller : CacheSpiller plain) : ServerM Nat := do
  let found ← findHandle handle
  if found.snapshotID ≠ 0 then throw .snapshotReadOnly
  else do
    let writing ← ensureWriteOperation found env
    let op ← writeOpForMutation writing.writeKey env.now
    match op.state with
    | .committed => do
        validateCommittedWriteRetry op offset data payload
        pure op.acknowledgedOffset
    | .prepared => writeCached writing offset data spiller
    | state => throw (.keyFinished state)

/-- A modification time for an open file: kept for its publication, or given
to the live entry when nothing is being written. -/
def setHandleMtime (handle : Nat) (mtime : Int) (env : RequestEnv) :
    ServerM Unit := do
  let found ← findHandle handle
  if found.snapshotID ≠ 0 then throw .snapshotReadOnly
  else if found.unlinked then throw .unlinkedFile
  else if found.writeOpID ≠ 0 then do
    let _ ← writeOpForMutation found.writeKey env.now
    putHandle { found with mtime := some mtime }
  else do
    let known ← transaction fun catalog =>
      .ok (catalog.setMtime found.path mtime)
    if known then
      putHandle { found with openedMtime := mtime, mtime := some mtime }
    else throw (.pathNotFound found.path)

end Writes

section Finishing

/-- The size of one comparison of a retry with its result. -/
def compareBatch : Nat := 2 ^ 20

/-- The retried bytes are read and compared with the committed ones, batch by
batch. -/
def compareBatches (key : String) (retried committed : Nat → Nat → Except String Bytes)
    (total : Nat) (offset : Nat) : ServerM Unit :=
  if offset < total then do
    let length := min compareBatch (total - offset)
    let retriedBytes ← fromStorage (retried offset length)
    let committedBytes ← fromStorage (committed offset length)
    if retriedBytes = committedBytes then
      compareBatches key retried committed total (offset + compareBatch)
    else throw (.conflictingRetry key)
  else pure ()
termination_by total - offset
decreasing_by
  have positive : 0 < compareBatch := by decide
  omega

/-- The cache of a retry must hold the committed bytes. -/
def validateCommittedRetry {plain : Bytes → Bytes} (handle : FileHandle) (op : WriteOp)
    (placements : List ChunkPlacement) (payload : PayloadReader plain) : ServerM Unit :=
  match handle.cache with
  | none => throw (.conflictingRetry handle.writeKey)
  | some cache =>
    if cache.length ≠ op.acknowledgedOffset then
      throw (.conflictingRetry handle.writeKey)
    else
      compareBatches handle.writeKey (cache.readAt (readChunksAt payload.read))
        (readChunksAt payload.read placements) op.acknowledgedOffset 0

/-- A handle without acknowledged writes has nothing to compare. -/
def validateTouched {plain : Bytes → Bytes} (handle : FileHandle) (op : WriteOp)
    (placements : List ChunkPlacement) (payload : PayloadReader plain) : ServerM Unit :=
  if handle.writeTouched then
    validateCommittedRetry handle op placements payload
  else pure ()

/-- What a finished operation left: its version, extents and modification
time. -/
structure Finished where
  fileID : Nat
  placements : List ChunkPlacement
  mtime : Int

/-- The publishing transaction with the retention a client's key asks for. -/
def commitVersion {plain : Bytes → Bytes} (handle : FileHandle) (opID : Nat) (mtime : Int)
    (chunks : PreparedChunks plain) (env : FinishEnv plain) :
    ServerM Nat :=
  transaction fun catalog =>
    if handle.retainResult then
      catalog.commitWriteOpVersionWithRetention opID handle.path mtime
        chunks.placements (env.now + env.retryRetention)
    else
      catalog.commitWriteOpVersion opID handle.path mtime chunks.placements 0

/-- The pending bytes of a handle are published.  A lost answer fails the
request after the transaction took effect. -/
def publishHandle {plain : Bytes → Bytes} (handle : FileHandle) (op : WriteOp)
    (env : FinishEnv plain) : ServerM Finished := do
  let cached :=
    { handle with
      cache := some (handle.cache.getD (newWriteCache handle.chunks)) }
  putHandle cached
  let chunks ← fromStorage env.prepared
  let mtime := handle.mtime.getD env.clock
  let fileID ← commitVersion cached op.id mtime chunks env
  if env.replyLost then throw (.storage "publish write operation")
  else pure ⟨fileID, chunks.placements, mtime⟩

/-- The result of a committed operation is confirmed for a retry. -/
def confirmResult {plain : Bytes → Bytes} (handle : FileHandle) (op : WriteOp)
    (env : FinishEnv plain) : ServerM Finished := do
  let placements ← query fun catalog => catalog.fileVersionChunks op.fileID
  validateTouched handle op placements env.payload
  let mtime ← query fun catalog => catalog.fileVersionMtime op.fileID
  if handle.mtime.any fun asked => asked != mtime then
    throw (.conflictingMtime handle.writeKey)
  else pure ⟨op.fileID, placements, mtime⟩

def finishOperation {plain : Bytes → Bytes} (handle : FileHandle) (op : WriteOp)
    (env : FinishEnv plain) : ServerM Finished :=
  if op.state = .committed then confirmResult handle op env
  else publishHandle handle op env

/-- A finished handle goes, or starts over on the finished version. -/
def settleHandle (handle : FileHandle) (remove : Bool) (finished : Finished) :
    ServerM Unit :=
  if remove then deleteHandle handle.handle
  else putHandle
    { handle with
      fileID := finished.fileID
      chunks := finished.placements
      openedMtime := finished.mtime
      cache := none
      writeTouched := false
      writeOpID := 0
      writeKey := ""
      retainResult := false
      fileID64 := 0
      mtime := none }

/-- A close without a handle asks for the outcome of its key. -/
def finishWithoutHandle (key : String) : ServerM Int :=
  if key = "" then throw .invalidHandle
  else do
    let op ← findWriteOp key
    match op.state with
    | .committed => do
        let server ← get
        pure (server.catalog.writeResultDeadline op.id)
    | .cancelled => pure 0
    | _ => throw (.noActiveHandle key)

/-- An unlinked handle gives its operation up at the last close. -/
def finishUnlinked (handle : FileHandle) (remove : Bool) : ServerM Int :=
  if remove then do
    execute fun catalog => catalog.cancelWriteOp handle.writeOpID
    deleteHandle handle.handle
    pure 0
  else pure 0

def finishReader (handle : FileHandle) (remove : Bool) : ServerM Int :=
  if remove then do
    deleteHandle handle.handle
    pure 0
  else pure 0

def finishWriter {plain : Bytes → Bytes} (handle : FileHandle) (remove : Bool)
    (env : FinishEnv plain) : ServerM Int := do
  let op ← findWriteOp handle.writeKey
  if op.state = .expired then throw .keyExpired
  else do
    let finished ← finishOperation handle op env
    let server ← get
    settleHandle handle remove finished
    pure (server.catalog.writeResultDeadline op.id)

/-- The shared body of closing and flushing; the result is the deadline of the
retained result. -/
def finishHandle {plain : Bytes → Bytes} (handle : Nat) (remove : Bool) (key : String)
    (env : FinishEnv plain) : ServerM Int := do
  let _ ← transaction fun catalog => catalog.expireWriteResults env.now
  let server ← get
  match server.handles.find? handle with
  | none => finishWithoutHandle key
  | some found =>
    if found.writeOpID ≠ 0 ∧ key ≠ "" ∧ key ≠ found.writeKey then
      throw .keyMismatch
    else if found.unlinked ∧ found.writeOpID ≠ 0 then
      finishUnlinked found remove
    else if found.writeOpID = 0 then finishReader found remove
    else finishWriter found remove env

end Finishing

section Namespace

def unlink (path : Path) : ServerM Unit := do
  if path = [] then throw .emptyPath
  else do
    let path := cleanPath path
    let server ← get
    if server.namesDirectory path then throw (.isDirectory path)
    else do
      transaction fun catalog => (catalog.unlinkFile path).map ((), ·)
      markOpenHandlesUnlinked path false

def rmdir (path : Path) : ServerM Unit := do
  if path = [] then throw .emptyPath
  else do
    let path := cleanPath path
    let server ← get
    if server.namesFile path then throw (.notDirectory path)
    else do
      transaction fun catalog => (catalog.rmdir path).map ((), ·)
      markOpenHandlesUnlinked path true

def mkdir (path : Path) (env : RequestEnv) : ServerM Unit := do
  if path = [] then throw .emptyPath
  else do
    let path := cleanPath path
    let server ← get
    if server.hasOpenHandleAtOrAbove path then throw (.occupied path)
    else
      transaction fun catalog => (catalog.mkdir path env.clock).map ((), ·)

/-- The handles of a replaced name lose it. -/
def unlinkReplaced (oldPath newPath : Path) : ServerM Unit :=
  if oldPath = newPath then pure ()
  else markOpenHandlesUnlinked newPath false

/-- The handles of the replaced name lose it; those of the old name follow. -/
def moveHandles (oldPath newPath : Path) : ServerM Bool := do
  unlinkReplaced oldPath newPath
  retargetOpenHandles oldPath newPath

/-- The source has no committed entry but may be open for writing. -/
def renameUnpublished (oldPath newPath : Path) : ServerM Unit := do
  let server ← get
  if !server.hasOpenHandleAtOrBelow oldPath then throw (.catalog .noRows)
  else if server.namesDirectory newPath then
    throw (.directoryReplaced newPath)
  else do
    let found ← moveHandles oldPath newPath
    if found then pure () else throw (.catalog .noRows)

def rename (oldPath newPath : Path) (env : RequestEnv) : ServerM Unit := do
  if oldPath = [] ∨ newPath = [] then throw .pathsRequired
  else do
    let oldPath := cleanPath oldPath
    let newPath := cleanPath newPath
    validateFileAncestors newPath
    let renamed ← attempt fun catalog =>
      catalog.renameFile oldPath newPath env.clock
    match renamed with
    | .error .noRows => renameUnpublished oldPath newPath
    | .error reason => throw (.catalog reason)
    | .ok () => do
        let _ ← moveHandles oldPath newPath
        pure ()

end Namespace

end FileServer

/-- A catalog transaction that neither names files nor moves operations. -/
structure Housekeeping where
  action : CatalogAction
  sparesOps : CatalogTable.writeOps ∉ action.writes
  sparesHeads : CatalogTable.heads ∉ action.writes

/-- A request of a client, a step of the server's own or its restart. -/
inductive Request (plain : Bytes → Bytes)
  | openHandle (path : Path) (key : String) (env : RequestEnv)
  | openSnapshot (snapshotID : Nat) (path : Path)
  | write (handle offset : Nat) (data : Bytes) (env : RequestEnv)
      (payload : PayloadReader plain) (spiller : CacheSpiller plain)
  | setHandleMtime (handle : Nat) (mtime : Int) (env : RequestEnv)
  | flush (handle : Nat) (env : FinishEnv plain)
  | close (handle : Nat) (key : String) (env : FinishEnv plain)
  | unlink (path : Path)
  | rmdir (path : Path)
  | mkdir (path : Path) (env : RequestEnv)
  | rename (oldPath newPath : Path) (env : RequestEnv)
  | expireWriteResults (now : Int)
  | housekeeping (work : Housekeeping)
  | restart (counter : Nat)

inductive Reply
  | opened (response : OpenResponse)
  | acknowledged (offset : Nat)
  | finished (deadline : Int)
  | done
  | failed (reason : ServerError)
deriving DecidableEq, Repr

/-- The reply to a request and the state it leaves. -/
def answer {α : Type} (reply : α → Reply) (action : FileServer.ServerM α) (server : FileServer) :
    Reply × FileServer :=
  match action server with
  | .ok value after => (reply value, after)
  | .error reason after => (.failed reason, after)

namespace FileServer

variable {plain : Bytes → Bytes}

def serve (server : FileServer) : Request plain → Reply × FileServer
  | .openHandle path key env => answer .opened (openHandle path key env) server
  | .openSnapshot id path => answer .opened (openSnapshot id path) server
  | .write handle offset data env payload spiller =>
    answer .acknowledged (write handle offset data env payload spiller) server
  | .setHandleMtime handle mtime env =>
    answer (fun _ => .done) (setHandleMtime handle mtime env) server
  | .flush handle env =>
    answer .finished (finishHandle handle false "" env) server
  | .close handle key env =>
    answer .finished (finishHandle handle true key env) server
  | .unlink path => answer (fun _ => .done) (unlink path) server
  | .rmdir path => answer (fun _ => .done) (rmdir path) server
  | .mkdir path env => answer (fun _ => .done) (mkdir path env) server
  | .rename oldPath newPath env =>
    answer (fun _ => .done) (rename oldPath newPath env) server
  | .expireWriteResults now =>
    answer (fun _ => .done) (transaction fun catalog => catalog.expireWriteResults now) server
  | .housekeeping work =>
    answer (fun _ => .done) (transaction fun catalog => (catalog.apply work.action).map ((), ·))
      server
  | .restart counter => (.done, ⟨server.catalog, .empty, counter⟩)

/-- One request with its reply. -/
def Serves (before : FileServer) (exchange : Request plain × Reply) (after : FileServer) : Prop :=
  before.serve exchange.1 = (exchange.2, after)

end FileServer

end Rose
