import Rose.CatalogFrames
import Rose.ChunkStore
import Rose.RecordedPrefixes
import Rose.VlogShards

/-!
# The publication of a prepared version

The server's adapter to the publication coordinator.  It admits the vlogs that
the operation has leased, commits each of them and records the prefix, resolves
every planned extent to one canonical placement that it checks on all shards,
and publishes those placements in one catalog transaction.  The caller keeps the
topology and the pins fixed meanwhile.
-/

namespace Rose

inductive PublicationFailure
  | catalog (reason : CatalogError)
  | notMounted (vlogID : Nat)
  | quorumNotMet (vlogID : Nat)
  | negativeLength
  | noRequirement (vlogID : Nat)
  | mappingCount (vlogID mappings required : Nat)
  | shardUnavailable (vlogID plogID : Nat)
  | otherDomain (hash : Bytes)
  | beyondPrefix (hash : Bytes) (vlogID : Nat)
  | notProtected (hash : Bytes)
  | notVerified (hash : Bytes)
  | injected (point : PublicationPoint)

/-- A mapped shard and the disk of its plog. -/
structure ShardDisk where
  plogID : Nat
  diskID : Nat
deriving DecidableEq, Repr

/-- The placement of the shards and what the server knows of its disks. -/
structure Topology where
  shardDisks : Nat → List ShardDisk
  offlinePlogs : Nat → Bool
  diskReachable : Nat → Bool
  minCopies : Nat

namespace Topology

variable (topology : Topology)

/-- The shards are online and on different disks. -/
def shardsReady (vlogID : Nat) :
    List ShardDisk → List Nat → Except PublicationFailure Unit
  | [], _ => .ok ()
  | shard :: shards, disks =>
    if shard.diskID ∈ disks ∨ topology.offlinePlogs shard.plogID = true ∨
        topology.diskReachable shard.diskID = false then
      .error (.shardUnavailable vlogID shard.plogID)
    else shardsReady vlogID shards (shard.diskID :: disks)

def requiredPlacementReady (info : VlogRow) : Except PublicationFailure Unit :=
  let shards := topology.shardDisks info.id
  if info.requiredShards = 0 then .error (.noRequirement info.id)
  else if shards.length ≠ info.requiredShards then
    .error (.mappingCount info.id shards.length info.requiredShards)
  else topology.shardsReady info.id shards []

/-- The live shards that a commit needs. -/
def commitThreshold (info : VlogRow) (total : Nat) : Nat :=
  match info.protectionScheme with
  | .ec => info.dataShards + info.parityShards
  | .duplicate => min topology.minCopies total
  | .none => 1

def commitReady (info : VlogRow) : Bool :=
  let shards := topology.shardDisks info.id
  let live := shards.countP fun shard =>
    !topology.offlinePlogs shard.plogID && topology.diskReachable shard.diskID
  decide (topology.commitThreshold info shards.length ≤ live)

/-- Every vlog with referenced file data has its required shards. -/
def publishedTopologyReady (catalog : Catalog) : Except PublicationFailure Unit :=
  catalog.vlogs.rows.forM fun info =>
    if info.dedupDomain = [] then .ok ()
    else if catalog.chunks.rows.any fun row =>
        decide (row.vlogID = info.id ∧ 0 < row.refcount) then
      topology.requiredPlacementReady info
    else .ok ()

end Topology

namespace Catalog

/-- The vlogs that an operation has leased, in the order of their use. -/
def writeOpLeases (catalog : Catalog) (opID : Nat) : List Nat :=
  ((catalog.leases.rows.filter fun lease => decide (lease.writeOpID = opID)).mergeSort
    fun first second => decide (first.ordinal ≤ second.ordinal)).map VlogLease.vlogID

theorem nodup_writeOpLeases (catalog : Catalog) (opID : Nat) :
    (catalog.writeOpLeases opID).Nodup := by
  have sorted := List.mergeSort_perm
    (catalog.leases.rows.filter fun lease => decide (lease.writeOpID = opID))
    (fun first second => decide (first.ordinal ≤ second.ordinal))
  refine ((sorted.map VlogLease.vlogID).nodup_iff).mpr ?_
  exact catalog.leases.distinct.sublist (List.filter_sublist.map _)

end Catalog

/-- Where a chunk row says that its bytes lie. -/
def ChunkRow.placement (row : ChunkRow) : ChunkPlacement where
  hash := row.hash
  vlogID := row.vlogID
  vaddrOffset := row.vaddrOffset
  logicalLen := row.logicalLen
  compressedLen := row.compressedLen

/-- The placement of a referenced chunk. -/
def liveChunkByHash (chunks : KeyedTable ChunkRow.hash) (hash : Bytes) :
    Option ChunkPlacement :=
  match chunks.find? hash with
  | none => none
  | some row => if 0 < row.refcount then some row.placement else none

/-- The state that a publication acts on: the catalog, the mounted vlogs and
what the adapter has found out so far. -/
structure PublicationWorld where
  catalog : Catalog
  vlogs : Nat → Option MountedVlog
  placements : List ChunkPlacement
  fileID : Nat

/-- A version to publish and the answers of the storage below. -/
structure PreparedPublication where
  opID : Nat
  path : Path
  mtime : Int
  planned : List ChunkPlacement
  /-- Until when the result is retained, if it is. -/
  retainUntil : Option Int
  /-- The content domain of the path's bucket. -/
  dedupDomain : Bytes
  topology : Topology
  /-- How the copies of a vlog answer a commit. -/
  answers : (vlogID : Nat) → (mounted : MountedVlog) → FanoutResults mounted.vlog.candidates
  /-- The record of a chunk as its vlog should hold it, when the bytes read back
  have the chunk's hash. -/
  protectedRecord : Vlog → ChunkPlacement → Option Bytes
  /-- Whether the columns of an erasure coded row are a codeword. -/
  validRow : List Bytes → Bool

namespace PreparedPublication

variable (prepared : PreparedPublication)

def admitVlogs (world : PublicationWorld) :
    Except PublicationFailure (List Nat) × PublicationWorld :=
  match prepared.topology.publishedTopologyReady world.catalog with
  | .error reason => (.error reason, world)
  | .ok () => (.ok (world.catalog.writeOpLeases prepared.opID), world)

/-- The mounted vlog after a commit. -/
def committedVlog (vlogID : Nat) (mounted : MountedVlog) : MountedVlog where
  vlog := mounted.vlog.committed (prepared.answers vlogID mounted)
  complete := mounted.complete.committed _

def sync (vlogID : Nat) (world : PublicationWorld) :
    Except PublicationFailure Int × PublicationWorld :=
  match world.vlogs vlogID with
  | none => (.error (.notMounted vlogID), world)
  | some mounted =>
    let synced : PublicationWorld :=
      { world with
        vlogs := fun other =>
          if other = vlogID then
            some (prepared.committedVlog vlogID mounted)
          else world.vlogs other }
    match (mounted.vlog.commitPrefix (prepared.answers vlogID mounted)).1 with
    | none => (.error (.quorumNotMet vlogID), synced)
    | some length => (.ok length, synced)

def recordPrefix (vlogID : Nat) (length : Int) (world : PublicationWorld) :
    Except PublicationFailure Unit × PublicationWorld :=
  if length < 0 then (.error .negativeLength, world)
  else (.ok (),
    { world with catalog := world.catalog.setVlogLength vlogID length.toNat })

/-- The chunk's bytes are read back and compared on every shard. -/
def verifyProtectedChunk (vlog : Vlog) (placement : ChunkPlacement) : Bool :=
  match prepared.protectedRecord vlog placement with
  | none => false
  | some record =>
    vlog.verifyAll prepared.validRow placement.vaddrOffset record

/-- The row that the upsert will keep, or the planned placement of a chunk
without references. -/
def canonical (world : PublicationWorld) (planned : ChunkPlacement) :
    ChunkPlacement :=
  (liveChunkByHash world.catalog.chunks planned.hash).getD planned

/-- One placement is checked for publication. -/
def verifyPlacement (world : PublicationWorld) (placement : ChunkPlacement) :
    Except PublicationFailure Unit :=
  match world.catalog.vlogs.find? placement.vlogID with
  | none => .error (.catalog .noRows)
  | some info =>
    if info.dedupDomain ≠ prepared.dedupDomain then
      .error (.otherDomain placement.hash)
    else if info.length < placement.vaddrOffset + (placement.logicalLen + chunkHeaderSize) then
      .error (.beyondPrefix placement.hash placement.vlogID)
    else do
      prepared.topology.requiredPlacementReady info
      match world.vlogs placement.vlogID with
      | none => .error (.notProtected placement.hash)
      | some mounted =>
        if prepared.topology.commitReady info = false then
          .error (.notProtected placement.hash)
        else if prepared.verifyProtectedChunk mounted.vlog placement then
          .ok ()
        else .error (.notVerified placement.hash)

/-- The planned extents in order, each hash resolved and checked once. -/
def verifyPlacements (world : PublicationWorld) :
    List ChunkPlacement → List ChunkPlacement → Except PublicationFailure (List ChunkPlacement)
  | [], _ => .ok []
  | planned :: later, checked =>
    match checked.find? fun placement =>
      decide (placement.hash = planned.hash) with
    | some previous => do
        let rest ← verifyPlacements world later checked
        pure (previous :: rest)
    | none => do
        let placement := canonical world planned
        prepared.verifyPlacement world placement
        let rest ← verifyPlacements world later (placement :: checked)
        pure (placement :: rest)

def verify (world : PublicationWorld) : Except PublicationFailure Unit × PublicationWorld :=
  match prepared.verifyPlacements world prepared.planned [] with
  | .error reason => (.error reason, world)
  | .ok placements => (.ok (), { world with placements })

/-- The transaction that publishes the checked placements. -/
def commitVersion (world : PublicationWorld) : Except CatalogError (Nat × Catalog) :=
  match prepared.retainUntil with
  | some expiresAt =>
    world.catalog.commitWriteOpVersionWithRetention prepared.opID
      prepared.path prepared.mtime world.placements expiresAt
  | none =>
    world.catalog.commitWriteOpVersion prepared.opID prepared.path prepared.mtime world.placements 0

def publish (world : PublicationWorld) : Except PublicationFailure Unit × PublicationWorld :=
  match prepared.commitVersion world with
  | .error reason => (.error (.catalog reason), world)
  | .ok (fileID, catalog) => (.ok (), { world with catalog, fileID })

def publication : Publication PublicationWorld PublicationFailure where
  admitVlogs := prepared.admitVlogs
  sync := prepared.sync
  recordPrefix := recordPrefix
  verify := prepared.verify
  publish := prepared.publish

/-- The coordinator of the publication, with failures injected at some points. -/
def coordinator (faults : PublicationPoint → Bool) :
    Coordinator PublicationWorld PublicationFailure where
  publication := prepared.publication
  hook := some fun point world =>
    (if faults point then .error (.injected point) else .ok (), world)

end PreparedPublication

end Rose
