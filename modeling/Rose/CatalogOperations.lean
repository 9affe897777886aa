import Rose.CatalogTransactions
import Rose.LabelledRuns

/-!
# Write operations, vlogs and the steps of the catalog

The transactions on write operations and their leases, on the retained results
and on vlog rows and maintenance jobs, and all transactions together as the
steps of one transition relation.  A transaction that fails, or whose commit
fails, leaves the catalog as it was.
-/

namespace Rose

open FallibleActions

namespace Catalog

variable (catalog : Catalog)

section WriteOps

def writeOpByKey (key : String) : Option WriteOp :=
  catalog.writeOps.rows.find? fun op => op.idempotencyKey == key

/-- A write intent is recorded; a known key returns the operation that has it. -/
def createWriteOp (key : String) (path : Path) (now : Int) :
    Except CatalogError (WriteOp × Catalog) :=
  let path := cleanPath path
  if key = "" ∨ path = [] then .error .missingKeyOrPath
  else
    match catalog.writeOpByKey key with
    | some op => .ok (op, catalog)
    | none =>
      .ok (⟨catalog.writeOps.last + 1, key, path, .prepared, now, 0, 0, []⟩,
        { catalog with
          writeOps := catalog.writeOps.append
            (fun id => ⟨id, key, path, .prepared, now, 0, 0, []⟩)
            (fun _ => rfl) })

/-- The prepared operation with an id is updated. -/
def changePrepared (id : Nat) (update : WriteOp → WriteOp)
    (keepsID : ∀ op, (update op).id = op.id) : Catalog :=
  { catalog with
    writeOps := catalog.writeOps.change
      (fun op => if op.id = id ∧ op.state = .prepared then update op else op)
      (fun op => by split_ifs <;> simp [keepsID]) }

def setWriteOpTail (id : Nat) (tail : Bytes) : Catalog :=
  catalog.changePrepared id (fun op => { op with tail }) (fun _ => rfl)

def retargetPreparedWriteOp (id : Nat) (path : Path) :
    Except CatalogError Catalog :=
  let path := cleanPath path
  if path = [] then .error .missingKeyOrPath
  else .ok (catalog.changePrepared id (fun op => { op with path }) (fun _ => rfl))

def claimVlogLease (vlogID opID ordinal : Nat) :
    Except CatalogError Catalog :=
  match catalog.writeOps.find? opID with
  | none => .error .noRows
  | some op =>
    if op.state ≠ .prepared then .error (.notPrepared opID op.state)
    else if !catalog.vlogs.has vlogID then .error .foreignKeyViolation
    else if catalog.leases.rows.any fun lease =>
        decide (lease.writeOpID = opID) && decide (lease.ordinal = ordinal)
      then .error .uniqueViolation
    else do
      let leases ← orConflict (catalog.leases.add? ⟨vlogID, opID, ordinal⟩)
      pure { catalog with leases }

def releaseWriteOpLeases (opID : Nat) : Catalog :=
  { catalog with
    leases := catalog.leases.keep fun lease => decide (lease.writeOpID ≠ opID) }

/-- The shared body of abandoning and cancelling an operation. -/
def finishPreparedWriteOp (id : Nat) (state : WriteOpState) : Catalog :=
  (catalog.changePrepared id (fun op => { op with state }) (fun _ => rfl) ).releaseWriteOpLeases id

def abandonWriteOp (id : Nat) : Catalog := catalog.finishPreparedWriteOp id .abandoned

def cancelWriteOp (id : Nat) : Catalog := catalog.finishPreparedWriteOp id .cancelled

/-- A retained result holds the extents of its version. -/
def retainResult (opID fileID : Nat) (expiresAt : Int) :
    Except CatalogError Catalog := do
  let counted ← catalog.adjustVersionRefs fileID 1
  let resultRoots ← orConflict (counted.resultRoots.add? ⟨opID, fileID, expiresAt⟩)
  pure { counted with resultRoots }

/-- A deadline of zero retains nothing. -/
def retainUntil (opID fileID : Nat) (expiresAt : Int) :
    Except CatalogError Catalog :=
  if expiresAt = 0 then .ok catalog
  else catalog.retainResult opID fileID expiresAt

/-- The operation takes its result and loses its leases. -/
def finishCommitted (opID fileID acknowledged : Nat) : Catalog := releaseWriteOpLeases
    { catalog with
      writeOps := catalog.writeOps.change
        (fun op =>
          if op.id = opID then
            { op with
              state := .committed
              fileID
              acknowledgedOffset := acknowledged
              tail := [] }
          else op)
        (fun op => by split_ifs <;> rfl) }
    opID

/-- The operation's version is published and becomes its result.  Repeating it
returns the published version. -/
def commitWriteOpVersion (opID : Nat) (path : Path) (mtime : Int) (placements : List ChunkPlacement)
    (expiresAt : Int) :
    Except CatalogError (Nat × Catalog) :=
  match catalog.writeOps.find? opID with
  | none => .error .noRows
  | some op =>
    match op.state with
    | .committed => .ok (op.fileID, catalog)
    | .prepared => do
        let (fileID, published) ← catalog.publishFileVersion path mtime placements
        let retained ← published.retainUntil opID fileID expiresAt
        pure (fileID, retained.finishCommitted opID fileID (totalLen placements))
    | state => .error (.notPrepared opID state)

def commitWriteOpVersionWithRetention (opID : Nat) (path : Path) (mtime : Int)
    (placements : List ChunkPlacement) (expiresAt : Int) :
    Except CatalogError (Nat × Catalog) :=
  if expiresAt ≤ 0 then .error .deadlineNotPositive
  else catalog.commitWriteOpVersion opID path mtime placements expiresAt

/-- One elapsed result is released and its key fenced. -/
def expireRoot (root : WriteResultRoot) : Except CatalogError Catalog :=
  if catalog.writeOps.rows.any fun op =>
      decide (op.id = root.writeOpID) && decide (op.fileID = root.fileID) &&
        decide (op.state = .committed) then do
    let expired : Catalog :=
      { catalog with
        writeOps := catalog.writeOps.change
          (fun op =>
            if op.id = root.writeOpID ∧ op.fileID = root.fileID ∧
                op.state = .committed then { op with state := .expired }
            else op)
          (fun op => by split_ifs <;> rfl) }
    let released ← expired.adjustVersionRefs root.fileID (-1)
    pure { released with
      resultRoots := released.resultRoots.keep
        fun other => decide (other.writeOpID ≠ root.writeOpID) }
  else .error (.rootNotOwned root.writeOpID)

def expireWriteResults (now : Int) : Except CatalogError (Nat × Catalog) := do
  let elapsed := (catalog.resultRoots.rows.filter
    fun root => decide (root.expiresAt ≤ now)).mergeSort
      fun first second => decide (first.writeOpID ≤ second.writeOpID)
  let released ← elapsed.foldlM (fun catalog root => catalog.expireRoot root) catalog
  pure (elapsed.length, released)

def writeResultDeadline (opID : Nat) : Int :=
  match catalog.resultRoots.find? opID with
  | none => 0
  | some root => root.expiresAt

end WriteOps

section Vlogs

/-- A vlog row with no committed bytes. -/
def makeVlog (build : VlogRow) : Nat × Catalog := (catalog.vlogs.last + 1,
    { catalog with
      vlogs := catalog.vlogs.append (fun id => { build with id, length := 0 })
        (fun _ => rfl) })

/-- The recorded length never goes back. -/
def setVlogLength (vlogID length : Nat) : Catalog :=
  { catalog with
    vlogs := catalog.vlogs.change
      (fun row =>
        if row.id = vlogID then { row with length := max row.length length }
        else row)
      (fun row => by split_ifs <;> rfl) }

/-- The vlog row and, by cascade, its lease are deleted. -/
def dropVlog (vlogID : Nat) : Catalog :=
  { catalog with
    vlogs := catalog.vlogs.keep fun row => decide (row.id ≠ vlogID)
    leases := catalog.leases.keep fun lease => decide (lease.vlogID ≠ vlogID) }

def discardEmptyVlog (vlogID : Nat) : Except CatalogError Catalog :=
  if catalog.vlogs.has vlogID &&
      !catalog.chunks.rows.any fun row => decide (row.vlogID = vlogID) then
    .ok (catalog.dropVlog vlogID)
  else .error (.vlogNotEmpty vlogID)

def relocateChunk (hash : Bytes) (destVlog newOffset : Nat) : Catalog :=
  { catalog with
    chunks := catalog.chunks.change
      (fun row =>
        if row.hash = hash then
          { row with vlogID := destVlog, vaddrOffset := newOffset }
        else row)
      (fun row => by split_ifs <;> rfl) }

/-- A drained vlog is dropped with its remaining chunk rows. -/
def retireVlog (vlogID : Nat) : Except CatalogError Catalog :=
  if catalog.jobs.rows.any fun job =>
      decide (job.state = .running) && decide (job.destVlog = vlogID) then
    .error (.destinationHeld vlogID)
  else if catalog.chunks.rows.any fun row =>
      decide (row.vlogID = vlogID) && decide (0 < row.refcount) then
    .error (.liveChunks vlogID)
  else
    .ok { catalog.dropVlog vlogID with
      chunks := catalog.chunks.keep fun row => decide (row.vlogID ≠ vlogID)
      jobs := catalog.jobs.change
        (fun job =>
          if job.kind = .scrubRepair ∧ job.state = .running ∧
              job.targetVlog = vlogID then { job with state := .cancelled }
          else job)
        (fun job => by split_ifs <;> rfl) }

end Vlogs

section Jobs

/-- The running job of a kind on a vlog, created when there is none. -/
def getOrCreateVlogJob (kind : JobKind) (targetVlog : Nat) : Job × Catalog :=
  match catalog.jobs.rows.find? fun job =>
      decide (job.kind = kind) && decide (job.state = .running) &&
        decide (job.targetVlog = targetVlog) with
  | some job => (job, catalog)
  | none =>
    (⟨catalog.jobs.last + 1, kind, .running, targetVlog, 0⟩,
      { catalog with
        jobs := catalog.jobs.append (fun id => ⟨id, kind, .running, targetVlog, 0⟩)
          (fun _ => rfl) })

/-- Whether a job may claim a destination. -/
def mayClaim (job : Job) (destVlog : Nat) : Bool :=
  decide (job.state = .running) && decide (job.targetVlog ≠ destVlog) &&
    (decide (job.destVlog = 0) || decide (job.destVlog = destVlog)) &&
    !catalog.jobs.rows.any fun owner =>
      decide (owner.destVlog = destVlog) && decide (owner.id ≠ job.id)

/-- A job claims its destination once. -/
def setJobDest (jobID destVlog : Nat) : Except CatalogError Catalog :=
  if destVlog = 0 ∨ !catalog.vlogs.has destVlog then
    .error (.destinationRefused jobID destVlog)
  else
    match catalog.jobs.find? jobID with
    | none => .error (.destinationRefused jobID destVlog)
    | some job =>
      if catalog.mayClaim job destVlog then
        .ok { catalog with
          vlogs := catalog.vlogs.change
            (fun row =>
              if row.id = destVlog then { row with maintenanceOwned := true }
              else row)
            (fun row => by split_ifs <;> rfl)
          jobs := catalog.jobs.change
            (fun other =>
              if other.id = jobID then { other with destVlog } else other)
            (fun other => by split_ifs <;> rfl) }
      else .error (.destinationRefused jobID destVlog)

def markJobDone (jobID : Nat) : Catalog :=
  { catalog with
    jobs := catalog.jobs.change
      (fun job => if job.id = jobID then { job with state := .done } else job)
      (fun job => by split_ifs <;> rfl) }

/-- The running jobs of a kind on a vlog are closed. -/
def finishRunningJob (kind : JobKind) (targetVlog : Nat) : Catalog :=
  { catalog with
    jobs := catalog.jobs.change
      (fun job =>
        if job.kind = kind ∧ job.state = .running ∧
            job.targetVlog = targetVlog then { job with state := .done }
        else job)
      (fun job => by split_ifs <;> rfl) }

end Jobs

end Catalog

/-- One transaction of the catalog with its arguments. -/
inductive CatalogAction
  | commitFile (path : Path) (mtime : Int) (placements : List ChunkPlacement)
  | unlinkFile (path : Path)
  | renameFile (oldPath newPath : Path) (now : Int)
  | mkdir (path : Path) (mtime : Int)
  | rmdir (path : Path)
  | setMtime (path : Path) (mtime : Int)
  | createSnapshot (name : String) (createdAt : Int)
  | deleteSnapshot (snapshotID : Nat)
  | setSnapshotRetention (policy : Option SnapshotRetention)
  | expireSnapshots (now : Int)
  | gcChunks (pinned : List Bytes)
  | gcFileVersions (limit : Nat)
  | createWriteOp (key : String) (path : Path) (now : Int)
  | setWriteOpTail (id : Nat) (tail : Bytes)
  | retargetPreparedWriteOp (id : Nat) (path : Path)
  | claimVlogLease (vlogID opID ordinal : Nat)
  | releaseWriteOpLeases (opID : Nat)
  | abandonWriteOp (id : Nat)
  | cancelWriteOp (id : Nat)
  | commitWriteOpVersion (opID : Nat) (path : Path) (mtime : Int) (placements : List ChunkPlacement)
  | commitWriteOpVersionWithRetention (opID : Nat) (path : Path) (mtime : Int)
      (placements : List ChunkPlacement) (expiresAt : Int)
  | expireWriteResults (now : Int)
  | makeVlog (build : VlogRow)
  | setVlogLength (vlogID length : Nat)
  | discardEmptyVlog (vlogID : Nat)
  | relocateChunk (hash : Bytes) (destVlog newOffset : Nat)
  | retireVlog (vlogID : Nat)
  | getOrCreateVlogJob (kind : JobKind) (targetVlog : Nat)
  | setJobDest (jobID destVlog : Nat)
  | markJobDone (jobID : Nat)
  | finishRunningJob (kind : JobKind) (targetVlog : Nat)

/-- The catalog a transaction leaves when it succeeds. -/
def Catalog.apply (catalog : Catalog) :
    CatalogAction → Except CatalogError Catalog
  | .commitFile path mtime placements =>
    (catalog.publishFileVersion path mtime placements).map Prod.snd
  | .unlinkFile path => catalog.unlinkFile path
  | .renameFile oldPath newPath now => catalog.renameFile oldPath newPath now
  | .mkdir path mtime => catalog.mkdir path mtime
  | .rmdir path => catalog.rmdir path
  | .setMtime path mtime => .ok (catalog.setMtime path mtime).2
  | .createSnapshot name createdAt =>
    (catalog.createSnapshot name createdAt).map Prod.snd
  | .deleteSnapshot snapshotID => catalog.deleteSnapshot snapshotID
  | .setSnapshotRetention policy => catalog.setSnapshotRetention policy
  | .expireSnapshots now => (catalog.expireSnapshots now).map Prod.snd
  | .gcChunks pinned => .ok (catalog.gcChunks pinned)
  | .gcFileVersions limit => catalog.gcFileVersions limit
  | .createWriteOp key path now =>
    (catalog.createWriteOp key path now).map Prod.snd
  | .setWriteOpTail id tail => .ok (catalog.setWriteOpTail id tail)
  | .retargetPreparedWriteOp id path => catalog.retargetPreparedWriteOp id path
  | .claimVlogLease vlogID opID ordinal =>
    catalog.claimVlogLease vlogID opID ordinal
  | .releaseWriteOpLeases opID => .ok (catalog.releaseWriteOpLeases opID)
  | .abandonWriteOp id => .ok (catalog.abandonWriteOp id)
  | .cancelWriteOp id => .ok (catalog.cancelWriteOp id)
  | .commitWriteOpVersion opID path mtime placements =>
    (catalog.commitWriteOpVersion opID path mtime placements 0).map Prod.snd
  | .commitWriteOpVersionWithRetention opID path mtime placements expiresAt =>
    (catalog.commitWriteOpVersionWithRetention opID path mtime placements expiresAt).map Prod.snd
  | .expireWriteResults now => (catalog.expireWriteResults now).map Prod.snd
  | .makeVlog build => .ok (catalog.makeVlog build).2
  | .setVlogLength vlogID length => .ok (catalog.setVlogLength vlogID length)
  | .discardEmptyVlog vlogID => catalog.discardEmptyVlog vlogID
  | .relocateChunk hash destVlog newOffset =>
    .ok (catalog.relocateChunk hash destVlog newOffset)
  | .retireVlog vlogID => catalog.retireVlog vlogID
  | .getOrCreateVlogJob kind targetVlog =>
    .ok (catalog.getOrCreateVlogJob kind targetVlog).2
  | .setJobDest jobID destVlog => catalog.setJobDest jobID destVlog
  | .markJobDone jobID => .ok (catalog.markJobDone jobID)
  | .finishRunningJob kind targetVlog =>
    .ok (catalog.finishRunningJob kind targetVlog)

/-- What a caller sees of a transaction: its outcome and the catalog after it. -/
def Catalog.run (catalog : Catalog) (action : CatalogAction) : Except CatalogError Unit × Catalog :=
  match catalog.apply action with
  | .ok after => (.ok (), after)
  | .error reason => (.error reason, catalog)

/-- One attempt at a transaction: it takes effect or is rolled back. -/
def CatalogStep (before : Catalog) (action : CatalogAction) (after : Catalog) :
    Prop :=
  before.apply action = .ok after ∨ after = before

/-- The run of a list of transactions without failed commits. -/
def Catalog.runAll (catalog : Catalog) :
    List CatalogAction → List (CatalogAction × Catalog)
  | [] => []
  | action :: rest =>
    (action, (catalog.run action).2) :: (catalog.run action).2.runAll rest

theorem Catalog.step_run (catalog : Catalog) (action : CatalogAction) :
    CatalogStep catalog action (catalog.run action).2 := by
  unfold CatalogStep Catalog.run
  cases catalog.apply action with
  | ok after => exact Or.inl rfl
  | error reason => exact Or.inr rfl

theorem Catalog.isRun_runAll (catalog : Catalog) (actions : List CatalogAction) :
    LabelledRuns.IsRun CatalogStep catalog (catalog.runAll actions) := by
  induction actions generalizing catalog with
  | nil => trivial
  | cons action rest ih =>
    exact ⟨catalog.step_run action, ih (catalog.run action).2⟩

end Rose
