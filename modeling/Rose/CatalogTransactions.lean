import Rose.Catalog

/-!
# Catalog transactions

Each transaction of the metadata database as a function of the catalog it runs
on.  An error rolls the transaction back, so only a successful one has a new
catalog.  Times that the database reads from the clock are arguments.
-/

namespace Rose

open FallibleActions

section Statements

/-- `UPDATE chunk SET refcount = refcount + ? WHERE hash = ?` -/
def addChunkRefs (delta : Int) (chunks : KeyedTable ChunkRow.hash) (hash : Bytes) :
    KeyedTable ChunkRow.hash :=
  chunks.change
    (fun row =>
      if row.hash = hash then { row with refcount := row.refcount + delta }
      else row)
    (fun row => by split_ifs <;> rfl)

/-- One reference is added or released for each extent of a blob. -/
def adjustChunkRefs (chunks : KeyedTable ChunkRow.hash) (blob : Bytes) (delta : Int) :
    KeyedTable ChunkRow.hash :=
  (chunkHashes blob).foldl (addChunkRefs delta) chunks

/-- A placement's row takes a reference.  A missing row is inserted; a row
without references is repointed at the placement. -/
def upsertChunkRef (chunks : KeyedTable ChunkRow.hash) (placement : ChunkPlacement) :
    KeyedTable ChunkRow.hash :=
  match chunks.find? placement.hash with
  | none =>
    chunks.put
      { hash := placement.hash
        refcount := 1
        vlogID := placement.vlogID
        vaddrOffset := placement.vaddrOffset
        logicalLen := placement.logicalLen
        compressedLen := placement.compressedLen }
  | some row =>
    if row.refcount = 0 then
      chunks.put
        { hash := placement.hash
          refcount := row.refcount + 1
          vlogID := placement.vlogID
          vaddrOffset := placement.vaddrOffset
          logicalLen := placement.logicalLen
          compressedLen := placement.compressedLen }
    else
      chunks.put { row with refcount := row.refcount + 1 }

def upsertChunkRefs (chunks : KeyedTable ChunkRow.hash) (placements : List ChunkPlacement) :
    KeyedTable ChunkRow.hash :=
  placements.foldl upsertChunkRef chunks

def dirRow (path : Path) (mtime : Int) : DirRow where
  path := path
  parent := (splitPath path).1
  name := (splitPath path).2
  mtime := mtime

def fileHead (path : Path) (fileID : Nat) (mtime : Int) : FileHead where
  path := path
  fileID := fileID
  parent := (splitPath path).1
  name := (splitPath path).2
  mtime := mtime

/-- The error of a refused insertion. -/
def orConflict {α : Type} : Option α → Except CatalogError α
  | none => .error .uniqueViolation
  | some value => .ok value

/-- The path of a row that moves with the directory above it. -/
def movedPath (oldPath newPath path : Path) : Path := newPath ++ path.drop oldPath.length

def movedHead (oldPath newPath : Path) (head : FileHead) : FileHead :=
  fileHead (movedPath oldPath newPath head.path) head.fileID head.mtime

def movedDir (oldPath newPath : Path) (dir : DirRow) : DirRow :=
  dirRow (movedPath oldPath newPath dir.path) dir.mtime

/-- Every row the subtree condition selects is rewritten, one by one.  A selected
path that is shorter than the directory's is sliced out of range: the panic ends
the process and with it the transaction. -/
def rewriteSubtreePaths {Row : Type} {path : Row → Path} (table : KeyedTable path)
    (move : Row → Row) (oldPath : Path) :
    Except CatalogError (KeyedTable path) :=
  let selected := (table.rows.map path).filter (inSubtree oldPath)
  if ∀ name ∈ selected, oldPath.length ≤ name.length then
    orConflict (table.rekeyAll? move selected)
  else .error .sliceOutOfRange

/-- What a listing or a stat shows of an entry. -/
structure DirEntry where
  name : Path
  isDir : Bool
  size : Nat
  mtime : Int
deriving DecidableEq, Repr

def fileEntry (head : FileHead) (version : FileVersion) : DirEntry :=
  ⟨head.name, false, chunksLogicalSize version.chunks, head.mtime⟩

/-- The order of a listing. -/
def nameOrder (first second : DirEntry) : Bool :=
  decide (¬second.name < first.name)

/-- The fixed interval of a time, counted from the epoch. -/
def retentionBucket (time width : Int) : Int :=
  if time < 0 ∧ time.tmod width ≠ 0 then time.tdiv width - 1
  else time.tdiv width

/-- How long before `now` a time lies, as a duration: a difference beyond the
largest duration counts as the largest. -/
def snapshotAge (now created : Int) : Int := min (now - created) (2 ^ 63 - 1)

/-- Newest snapshots first, the greater id first among equal times. -/
def newestFirst (first second : SnapshotRow) : Bool :=
  decide (second.createdAt < first.createdAt ∨
    (second.createdAt = first.createdAt ∧ second.id ≤ first.id))

/-- The days and weeks that already have a newer snapshot, and the snapshots to
delete. -/
structure ExpiryScan where
  days : List Int
  weeks : List Int
  expired : List Nat

def scanSnapshot (windows : SnapshotRetention) (now : Int) (scan : ExpiryScan) (row : SnapshotRow) :
    ExpiryScan :=
  if now < row.createdAt then scan
  else
    let age := snapshotAge now row.createdAt
    let day := retentionBucket row.createdAt (24 * 3600 * 10 ^ 9)
    let week := retentionBucket row.createdAt (7 * 24 * 3600 * 10 ^ 9)
    let kept := decide (age ≤ windows.continuous) ||
      (decide (age ≤ windows.daily) && !scan.days.contains day) ||
      (decide (age ≤ windows.weekly) && !scan.weeks.contains week)
    { days := day :: scan.days
      weeks := week :: scan.weeks
      expired := if kept then scan.expired else scan.expired ++ [row.id] }

end Statements

namespace Catalog

variable (catalog : Catalog)

def fileChunks (fileID : Nat) : Except CatalogError Bytes :=
  match catalog.files.find? fileID with
  | none => .error .noRows
  | some version => .ok version.chunks

/-- The references of a version's extents change by `delta`. -/
def adjustVersionRefs (fileID : Nat) (delta : Int) :
    Except CatalogError Catalog := do
  let blob ← catalog.fileChunks fileID
  pure { catalog with chunks := adjustChunkRefs catalog.chunks blob delta }

/-- The version a path names, if any, loses that reference. -/
def releaseHead (path : Path) : Except CatalogError Catalog :=
  match catalog.heads.find? path with
  | none => .ok catalog
  | some head => catalog.adjustVersionRefs head.fileID (-1)

/-- Prepared operations on the selected paths are cancelled and lose their
leases. -/
def cancelPrepared (selects : Path → Bool) : Catalog :=
  let cancelled (op : WriteOp) : Bool :=
    decide (op.state = .prepared) && selects op.path
  { catalog with
    leases := catalog.leases.keep fun lease =>
      !catalog.writeOps.rows.any fun op =>
        decide (op.id = lease.writeOpID) && cancelled op
    writeOps := catalog.writeOps.change
      (fun op => if cancelled op then { op with state := .cancelled } else op)
      (fun op => by split_ifs <;> rfl) }

def ensureDir (mtime : Int) (dir : Path) : Except CatalogError Catalog :=
  if catalog.heads.has dir then .error (.fileAsParent dir)
  else .ok { catalog with dirs := catalog.dirs.addIfAbsent (dirRow dir mtime) }

/-- Directory rows for every directory above a path. -/
def ensureDirs (path : Path) (mtime : Int) : Except CatalogError Catalog :=
  (ancestorsOf path).foldlM (fun catalog dir => catalog.ensureDir mtime dir) catalog

/-- A new version becomes the head of a path. -/
def publishFileVersion (path : Path) (mtime : Int) (placements : List ChunkPlacement) :
    Except CatalogError (Nat × Catalog) :=
  let path := cleanPath path
  if path = [] then .error .namespaceRoot
  else if catalog.dirs.has path then .error (.directoryAt path)
  else do
    let released ← catalog.releaseHead path
    let id := released.files.last + 1
    let published ← ensureDirs
      { released with
        chunks := upsertChunkRefs released.chunks placements
        files := released.files.append
          (fun id => ⟨id, path, mtime, packExtents placements⟩)
          (fun _ => rfl)
        heads := released.heads.put (fileHead path id mtime) }
      path mtime
    pure (id, published)

section Namespace

def unlinkFile (path : Path) : Except CatalogError Catalog := do
  let path := cleanPath path
  let cancelled := catalog.cancelPrepared (· == path)
  let released ← cancelled.releaseHead path
  pure { released with
    heads := released.heads.keep fun head => decide (head.path ≠ path) }

def mkdir (path : Path) (mtime : Int) : Except CatalogError Catalog :=
  let path := cleanPath path
  if path = [] then .ok catalog
  else if catalog.heads.has path then .error (.fileAt path)
  else do
    let ensured ← catalog.ensureDirs path mtime
    pure { ensured with dirs := ensured.dirs.addIfAbsent (dirRow path mtime) }

/-- Whether a directory has entries. -/
def hasChildren (path : Path) : Bool :=
  catalog.heads.rows.any (fun head => decide (head.parent = path)) ||
    catalog.dirs.rows.any (fun dir => decide (dir.parent = path))

def rmdir (path : Path) : Except CatalogError Catalog :=
  let path := cleanPath path
  if path = [] then .error .namespaceRoot
  else
    let cancelled := catalog.cancelPrepared (inSubtree path)
    if cancelled.hasChildren path then .error (.notEmpty path)
    else .ok { cancelled with
      dirs := cancelled.dirs.keep fun dir => decide (dir.path ≠ path) }

/-- The live modification time of a path; the result tells whether it exists. -/
def setMtime (path : Path) (mtime : Int) : Bool × Catalog :=
  let path := cleanPath path
  if path = [] then (true, catalog)
  else if catalog.heads.has path then
    (true, { catalog with
      heads := catalog.heads.change
        (fun head => if head.path = path then { head with mtime } else head)
        (fun head => by split_ifs <;> rfl) })
  else
    (catalog.dirs.has path, { catalog with
      dirs := catalog.dirs.change
        (fun dir => if dir.path = path then { dir with mtime } else dir)
        (fun dir => by split_ifs <;> rfl) })

end Namespace

section Renaming

def renameDirSubtree (oldPath newPath : Path) (now : Int) :
    Except CatalogError Catalog := do
  let ensured ← catalog.ensureDirs newPath now
  let dirs ← rewriteSubtreePaths ensured.dirs (movedDir oldPath newPath) oldPath
  let heads ← rewriteSubtreePaths ensured.heads (movedHead oldPath newPath) oldPath
  pure { ensured with dirs, heads }

/-- The case of a source that is not a file. -/
def renameDir (oldPath newPath : Path) (now : Int) :
    Except CatalogError Catalog :=
  if !catalog.dirs.has oldPath then .error .noRows
  else if catalog.heads.has newPath then .error (.fileAt newPath)
  else if catalog.dirs.has newPath then
    if catalog.hasChildren newPath then .error (.notEmpty newPath)
    else
      renameDirSubtree
        { catalog with
          dirs := catalog.dirs.keep fun dir => decide (dir.path ≠ newPath) }
        oldPath newPath now
  else catalog.renameDirSubtree oldPath newPath now

/-- The case of a source that is a file. -/
def renameHead (head : FileHead) (newPath : Path) (now : Int) :
    Except CatalogError Catalog :=
  if catalog.dirs.has newPath then .error (.directoryAt newPath)
  else do
    let released ← catalog.releaseHead newPath
    let moved := released.heads.put (fileHead newPath head.fileID head.mtime)
    ensureDirs
      { released with
        heads := moved.keep fun other => decide (other.path ≠ head.path) }
      newPath now

/-- Prepared operations on a path follow it to another one. -/
def retargetPrepared (oldPath newPath : Path) : Catalog :=
  { catalog with
    writeOps := catalog.writeOps.change
      (fun op =>
        if op.path = oldPath ∧ op.state = .prepared then
          { op with path := newPath }
        else op)
      (fun op => by split_ifs <;> rfl) }

def statPath (path : Path) : Option DirEntry :=
  let path := cleanPath path
  if path = [] then some ⟨[], true, 0, 0⟩
  else
    let file := do
      let head ← catalog.heads.find? path
      let version ← catalog.files.find? head.fileID
      pure ⟨(splitPath path).2, false, chunksLogicalSize version.chunks, head.mtime⟩
    let dir := (catalog.dirs.find? path).map fun dir =>
      ⟨(splitPath path).2, true, 0, dir.mtime⟩
    file <|> dir

/-- A file or a directory with everything below it moves to another path. -/
def renameFile (oldPath newPath : Path) (now : Int) :
    Except CatalogError Catalog :=
  let oldPath := cleanPath oldPath
  let newPath := cleanPath newPath
  if oldPath = [] ∨ newPath = [] then .error .namespaceRoot
  else if oldPath = newPath then
    if (catalog.statPath oldPath).isSome then .ok catalog else .error .noRows
  else if Below oldPath newPath then .error (.ownSubtree oldPath newPath)
  else
    let rebound := (catalog.cancelPrepared (· == newPath)).retargetPrepared oldPath newPath
    match rebound.heads.find? oldPath with
    | none => rebound.renameDir oldPath newPath now
    | some head => rebound.renameHead head newPath now

/-- The immediate children of a directory, directories first. -/
def listDir (dir : Path) : Except CatalogError (List DirEntry) :=
  let dir := cleanPath dir
  let entries :=
    ((catalog.dirs.rows.filter (fun row => decide (row.parent = dir))).map
        fun row => DirEntry.mk row.name true 0 row.mtime).mergeSort nameOrder ++
      ((catalog.heads.rows.filter (fun row => decide (row.parent = dir))).filterMap
        fun row => (catalog.files.find? row.fileID).map (fileEntry row)).mergeSort nameOrder
  if dir = [] then .ok entries
  else
    match catalog.statPath dir with
    | none => .error .noRows
    | some entry => if entry.isDir then .ok entries else .error (.fileAt dir)

end Renaming

section Snapshots

/-- One head enters a snapshot and its extents gain a reference. -/
def snapshotHead (snapshotID : Nat) (head : FileHead) :
    Except CatalogError Catalog := do
  let snapshotFiles ← orConflict (catalog.snapshotFiles.add?
    ⟨snapshotID, head.path, (splitPath head.path).1, (splitPath head.path).2,
      head.fileID, head.mtime⟩)
  adjustVersionRefs { catalog with snapshotFiles } head.fileID 1

def snapshotDir (snapshotID : Nat) (dir : DirRow) :
    Except CatalogError Catalog := do
  let snapshotDirs ← orConflict (catalog.snapshotDirs.add?
    ⟨snapshotID, dir.path, dir.parent, dir.name, dir.mtime⟩)
  pure { catalog with snapshotDirs }

/-- The namespace is copied under a new snapshot; a taken name returns the
snapshot that has it. -/
def createSnapshot (name : String) (createdAt : Int) : Except CatalogError (Nat × Catalog) :=
  match catalog.snapshots.rows.find? (fun row => row.name == name) with
  | some existing => .ok (existing.id, catalog)
  | none => do
      let id := catalog.snapshots.last + 1
      let recorded : Catalog :=
        { catalog with
          snapshots := catalog.snapshots.append (fun id => ⟨id, name, createdAt⟩)
            (fun _ => rfl) }
      let files ← recorded.heads.rows.foldlM
        (fun catalog head => catalog.snapshotHead id head) recorded
      let dirs ← files.dirs.rows.foldlM (fun catalog dir => catalog.snapshotDir id dir) files
      pure (id, dirs)

/-- The extents of a snapshot lose a reference and its rows are deleted with
it. -/
def deleteSnapshot (snapshotID : Nat) : Except CatalogError Catalog := do
  let held := catalog.snapshotFiles.rows.filter fun row => decide (row.snapshotID = snapshotID)
  let released ← held.foldlM (fun catalog row => catalog.adjustVersionRefs row.fileID (-1)) catalog
  pure { released with
    snapshots := released.snapshots.keep fun row => decide (row.id ≠ snapshotID)
    snapshotFiles := released.snapshotFiles.keep
      fun row => decide (row.snapshotID ≠ snapshotID)
    snapshotDirs := released.snapshotDirs.keep
      fun row => decide (row.snapshotID ≠ snapshotID) }

def setSnapshotRetention (policy : Option SnapshotRetention) :
    Except CatalogError Catalog :=
  match policy with
  | none => .ok { catalog with snapshotRetention := none }
  | some windows =>
    if windows.continuous < 0 ∨ windows.daily < windows.continuous ∨
        windows.weekly < windows.daily then .error .invalidRetention
    else .ok { catalog with snapshotRetention := some windows }

/-- The snapshots that the retention policy gives up. -/
def expiredSnapshots (windows : SnapshotRetention) (now : Int) : List Nat :=
  ((catalog.snapshots.rows.mergeSort newestFirst).foldl
    (scanSnapshot windows now) ⟨[], [], []⟩).expired

def expireSnapshots (now : Int) : Except CatalogError (List Nat × Catalog) :=
  match catalog.snapshotRetention with
  | none => .ok ([], catalog)
  | some windows => do
      let expired := catalog.expiredSnapshots windows now
      let remaining ← expired.foldlM (fun catalog id => catalog.deleteSnapshot id) catalog
      pure (expired, remaining)

end Snapshots

section Collection

/-- Chunk rows without references are deleted unless they are pinned. -/
def gcChunks (pinned : List Bytes) : Catalog :=
  { catalog with
    chunks := catalog.chunks.keep fun row =>
      !decide (row.refcount ≤ 0) || pinned.contains row.hash }

/-- Whether something durable still names a version. -/
def ownsVersion (fileID : Nat) : Bool :=
  catalog.heads.rows.any (fun row => decide (row.fileID = fileID)) ||
    catalog.snapshotFiles.rows.any (fun row => decide (row.fileID = fileID)) ||
    catalog.resultRoots.rows.any (fun row => decide (row.fileID = fileID)) ||
    catalog.writeOps.rows.any fun op =>
      decide (op.fileID = fileID) &&
        (decide (op.state = .prepared) || decide (op.state = .committed))

/-- At most `limit` versions that nothing owns are deleted, oldest first. -/
def gcFileVersions (limit : Nat) : Except CatalogError Catalog :=
  if limit = 0 then .error .limitNotPositive
  else
    let unowned := (catalog.files.rows.map FileVersion.id).filter fun id => !catalog.ownsVersion id
    let doomed := (unowned.mergeSort (fun first second => decide (first ≤ second))).take limit
    .ok { catalog with
      files := catalog.files.keep fun row => !doomed.contains row.id }

end Collection

end Catalog

end Rose
