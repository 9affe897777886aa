import Rose.ChunkPlacements
import Rose.FixedBlocks
import Rose.KeyedTables
import Rose.LittleEndian
import Rose.NamespacePaths

/-!
# The catalog

The tables of the metadata database and the statements its transactions are
made of.  File versions are immutable rows whose extents are packed into a
blob; the namespace, the snapshots and the retained write results hold them by
id.  Chunk rows count these holders and say where the bytes lie.
-/

namespace Rose

open FallibleActions FixedBlocks

/-- An immutable file version. -/
structure FileVersion where
  id : Nat
  path : Path
  mtime : Int
  chunks : Bytes
deriving DecidableEq, Repr

/-- The current version of a path. -/
structure FileHead where
  path : Path
  fileID : Nat
  parent : Path
  name : Path
  mtime : Int
deriving DecidableEq, Repr

structure DirRow where
  path : Path
  parent : Path
  name : Path
  mtime : Int
deriving DecidableEq, Repr

structure SnapshotRow where
  id : Nat
  name : String
  createdAt : Int
deriving DecidableEq, Repr

structure SnapshotFile where
  snapshotID : Nat
  path : Path
  parent : Path
  name : Path
  fileID : Nat
  mtime : Int
deriving DecidableEq, Repr

structure SnapshotDir where
  snapshotID : Nat
  path : Path
  parent : Path
  name : Path
  mtime : Int
deriving DecidableEq, Repr

/-- The windows of the automatic snapshot expiry, in nanoseconds. -/
structure SnapshotRetention where
  continuous : Int
  daily : Int
  weekly : Int
deriving DecidableEq, Repr

structure ChunkRow where
  hash : Bytes
  refcount : Int
  vlogID : Nat
  vaddrOffset : Nat
  logicalLen : Nat
  compressedLen : Nat
deriving DecidableEq, Repr

inductive WriteOpState
  | prepared
  | committed
  | abandoned
  | cancelled
  | expired
deriving DecidableEq, Repr

structure WriteOp where
  id : Nat
  idempotencyKey : String
  path : Path
  state : WriteOpState
  createdAt : Int
  fileID : Nat
  acknowledgedOffset : Nat
  tail : Bytes
deriving DecidableEq, Repr

/-- A retained result of a committed operation. -/
structure WriteResultRoot where
  writeOpID : Nat
  fileID : Nat
  expiresAt : Int
deriving DecidableEq, Repr

structure VlogLease where
  vlogID : Nat
  writeOpID : Nat
  ordinal : Nat
deriving DecidableEq, Repr

inductive ProtectionScheme
  | none
  | duplicate
  | ec
deriving DecidableEq, Repr

/-- A vlog.  Target shards are nonzero on a staging vlog only. -/
structure VlogRow where
  id : Nat
  length : Nat
  protectionScheme : ProtectionScheme
  dataShards : Nat
  parityShards : Nat
  targetDataShards : Nat
  targetParityShards : Nat
  dedupDomain : Bytes
  requiredShards : Nat
  maintenanceOwned : Bool
deriving DecidableEq, Repr

inductive JobKind
  | compact
  | promote
  | scrubRepair
deriving DecidableEq, Repr

inductive JobState
  | running
  | done
  | cancelled
deriving DecidableEq, Repr

/-- A maintenance job on a vlog; destination zero stands for none. -/
structure Job where
  id : Nat
  kind : JobKind
  state : JobState
  targetVlog : Nat
  destVlog : Nat
deriving DecidableEq, Repr

structure Catalog where
  files : SequencedTable FileVersion.id
  heads : KeyedTable FileHead.path
  dirs : KeyedTable DirRow.path
  snapshots : SequencedTable SnapshotRow.id
  snapshotFiles : KeyedTable fun row : SnapshotFile => (row.snapshotID, row.path)
  snapshotDirs : KeyedTable fun row : SnapshotDir => (row.snapshotID, row.path)
  snapshotRetention : Option SnapshotRetention
  chunks : KeyedTable ChunkRow.hash
  writeOps : SequencedTable WriteOp.id
  resultRoots : KeyedTable WriteResultRoot.writeOpID
  leases : KeyedTable VlogLease.vlogID
  vlogs : SequencedTable VlogRow.id
  jobs : SequencedTable Job.id

/-- Why a transaction was rolled back. -/
inductive CatalogError
  | noRows
  | namespaceRoot
  | directoryAt (path : Path)
  | fileAt (path : Path)
  | fileAsParent (path : Path)
  | notEmpty (path : Path)
  | ownSubtree (oldPath newPath : Path)
  | sliceOutOfRange
  | uniqueViolation
  | foreignKeyViolation
  | missingKeyOrPath
  | notPrepared (id : Nat) (state : WriteOpState)
  | deadlineNotPositive
  | rootNotOwned (id : Nat)
  | limitNotPositive
  | invalidRetention
  | destinationHeld (vlogID : Nat)
  | liveChunks (vlogID : Nat)
  | vlogNotEmpty (vlogID : Nat)
  | destinationRefused (jobID vlogID : Nat)
  | snapshotNotFound (id : Nat)
  | snapshotDirNotFound (path : Path)
  | placementNotFound (hash : Bytes)
deriving DecidableEq, Repr

/-- The catalog of a fresh database. -/
def Catalog.empty : Catalog where
  files := .empty
  heads := .empty
  dirs := .empty
  snapshots := .empty
  snapshotFiles := .empty
  snapshotDirs := .empty
  snapshotRetention := none
  chunks := .empty
  writeOps := .empty
  resultRoots := .empty
  leases := .empty
  vlogs := .empty
  jobs := .empty

section Blobs

/-- The packed extent of a placement: its hash and its length in four bytes. -/
def extentBytes (placement : ChunkPlacement) : Bytes :=
  placement.hash ++ LittleEndian.encode 4 placement.logicalLen

def packExtents (placements : List ChunkPlacement) : Bytes := placements.flatMap extentBytes

/-- The 19-byte extents of a blob. -/
def extentsOf (chunks : Bytes) : List Bytes := (splitBlocks 19 chunks).1

def chunkHashes (chunks : Bytes) : List Bytes := (extentsOf chunks).map (·.take 15)

/-- The sizes recorded in a blob. -/
def extentLengths (chunks : Bytes) : List Nat :=
  (extentsOf chunks).map fun extent => LittleEndian.decode (extent.drop 15)

def chunksLogicalSize (chunks : Bytes) : Nat := (extentLengths chunks).sum

/-- Content hashes have fifteen bytes. -/
def HashesFit (placements : List ChunkPlacement) : Prop :=
  ∀ placement ∈ placements, placement.hash.length = 15

variable {placements : List ChunkPlacement} (fit : HashesFit placements)
include fit

theorem extentsOf_packExtents :
    extentsOf (packExtents placements) = placements.map extentBytes := by
  have sizes : ∀ extent ∈ placements.map extentBytes, extent.length = 19 := by
    intro extent member
    obtain ⟨placement, present, rfl⟩ := List.mem_map.mp member
    simp [extentBytes, fit placement present]
  have cut : splitBlocks 19 ((placements.map extentBytes).flatten ++ []) =
      (placements.map extentBytes, []) :=
    splitBlocks_flatten_append sizes (by simp)
  rw [List.append_nil] at cut
  unfold extentsOf packExtents
  rw [List.flatMap_def, cut]

theorem chunkHashes_packExtents :
    chunkHashes (packExtents placements) = placements.map ChunkPlacement.hash := by
  unfold chunkHashes
  rw [extentsOf_packExtents fit, List.map_map]
  refine List.map_congr_left fun placement member => ?_
  have fifteen := fit placement member
  simp [extentBytes, ← fifteen]

end Blobs

end Rose
