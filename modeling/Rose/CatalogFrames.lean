import Rose.CatalogEffects

/-!
# Which tables a transaction writes

Every transaction writes a few of the catalog's tables and leaves the others as
they are.  Frames compose along the parts of a transaction, so an invariant has
to be argued only for the transactions that write a table it reads.
-/

namespace Rose

open FallibleActions

/-- The tables of the catalog. -/
inductive CatalogTable
  | files
  | heads
  | dirs
  | snapshots
  | snapshotFiles
  | snapshotDirs
  | snapshotRetention
  | chunks
  | writeOps
  | resultRoots
  | leases
  | vlogs
  | jobs
deriving DecidableEq, Repr

/-- Two catalogs have the same rows in a table. -/
def SameTable (before after : Catalog) : CatalogTable → Prop
  | .files => after.files = before.files
  | .heads => after.heads = before.heads
  | .dirs => after.dirs = before.dirs
  | .snapshots => after.snapshots = before.snapshots
  | .snapshotFiles => after.snapshotFiles = before.snapshotFiles
  | .snapshotDirs => after.snapshotDirs = before.snapshotDirs
  | .snapshotRetention => after.snapshotRetention = before.snapshotRetention
  | .chunks => after.chunks = before.chunks
  | .writeOps => after.writeOps = before.writeOps
  | .resultRoots => after.resultRoots = before.resultRoots
  | .leases => after.leases = before.leases
  | .vlogs => after.vlogs = before.vlogs
  | .jobs => after.jobs = before.jobs

/-- Only the listed tables may differ. -/
def OnlyWrites (tables : List CatalogTable) (before after : Catalog) : Prop :=
  ∀ table, table ∉ tables → SameTable before after table

namespace OnlyWrites

variable {tables larger : List CatalogTable} {before middle after : Catalog}

theorem refl : OnlyWrites tables before before := by
  intro table _
  cases table <;> rfl

theorem trans (first : OnlyWrites tables before middle) (second : OnlyWrites tables middle after) :
    OnlyWrites tables before after := by
  intro table outside
  have sameFirst := first table outside
  have sameSecond := second table outside
  cases table <;> exact Eq.trans sameSecond sameFirst

theorem mono (writes : OnlyWrites tables before after) (included : tables ⊆ larger) :
    OnlyWrites larger before after :=
  fun table outside => writes table fun member => outside (included member)

theorem chain {firstTables secondTables : List CatalogTable}
    (first : OnlyWrites firstTables before middle) (second : OnlyWrites secondTables middle after)
    (firstIn : firstTables ⊆ tables) (secondIn : secondTables ⊆ tables) :
    OnlyWrites tables before after :=
  (first.mono firstIn).trans (second.mono secondIn)

/-- The listed tables of one catalog with the others of another. -/
def patch (before : Catalog) (tables : List CatalogTable) (after : Catalog) :
    Catalog where
  files := if .files ∈ tables then after.files else before.files
  heads := if .heads ∈ tables then after.heads else before.heads
  dirs := if .dirs ∈ tables then after.dirs else before.dirs
  snapshots := if .snapshots ∈ tables then after.snapshots else before.snapshots
  snapshotFiles :=
    if .snapshotFiles ∈ tables then after.snapshotFiles
    else before.snapshotFiles
  snapshotDirs :=
    if .snapshotDirs ∈ tables then after.snapshotDirs else before.snapshotDirs
  snapshotRetention :=
    if .snapshotRetention ∈ tables then after.snapshotRetention
    else before.snapshotRetention
  chunks := if .chunks ∈ tables then after.chunks else before.chunks
  writeOps := if .writeOps ∈ tables then after.writeOps else before.writeOps
  resultRoots :=
    if .resultRoots ∈ tables then after.resultRoots else before.resultRoots
  leases := if .leases ∈ tables then after.leases else before.leases
  vlogs := if .vlogs ∈ tables then after.vlogs else before.vlogs
  jobs := if .jobs ∈ tables then after.jobs else before.jobs

theorem of_patch (same : after = patch before tables after) : OnlyWrites tables before after := by
  intro table outside
  rw [same]
  cases table <;> exact if_neg outside

end OnlyWrites

namespace Catalog

variable {catalog after : Catalog}

variable {path : Path}

theorem ensureDirs_writes {mtime : Int} (ensured : catalog.ensureDirs path mtime = .ok after) :
    OnlyWrites [.dirs] catalog after := by
  obtain ⟨frame, -, -⟩ := ensureDirs_ok ensured
  rw [frame]
  exact .of_patch rfl

theorem adjustVersionRefs_writes {fileID : Nat} {delta : Int}
    (adjusted : catalog.adjustVersionRefs fileID delta = .ok after) :
    OnlyWrites [.chunks] catalog after := by
  rw [adjustVersionRefs_frame adjusted]
  exact .of_patch rfl

theorem releaseHead_writes (released : catalog.releaseHead path = .ok after) :
    OnlyWrites [.chunks] catalog after := by
  rw [releaseHead_frame released]
  exact .of_patch rfl

theorem cancelPrepared_writes (selects : Path → Bool) :
    OnlyWrites [.writeOps, .leases] catalog (catalog.cancelPrepared selects) :=
  .of_patch rfl

section

variable {mtime : Int} {placements : List ChunkPlacement} {id : Nat}
  (published : catalog.publishFileVersion path mtime placements = .ok (id, after))
include published

theorem publishFileVersion_writes : OnlyWrites [.files, .heads, .dirs, .chunks] catalog after := by
  obtain ⟨-, -, -, released, releasing, ensuring⟩ := publishFileVersion_ok published
  have records : OnlyWrites [.files, .heads, .chunks] released
      (released.withVersion (cleanPath path) mtime placements) :=
    .of_patch rfl
  have upToVersion : OnlyWrites [.files, .heads, .dirs, .chunks] catalog
      (released.withVersion (cleanPath path) mtime placements) :=
    (releaseHead_writes releasing).chain records (by simp) (by simp)
  exact upToVersion.chain (ensureDirs_writes ensuring) (by simp) (by simp)

theorem publishFileVersion_appends :
    after.files = catalog.files.append
      (fun id => ⟨id, cleanPath path, mtime, packExtents placements⟩)
      (fun _ => rfl) := by
  obtain ⟨-, -, -, released, releasing, ensuring⟩ := publishFileVersion_ok published
  have sameFiles : released.files = catalog.files := releaseHead_writes releasing .files (by simp)
  rw [ensureDirs_writes ensuring .files (by simp), ← sameFiles]
  rfl

end

section Namespace

variable {path oldPath newPath : Path} {now mtime : Int}

section

variable (unlinked : catalog.unlinkFile path = .ok after)
include unlinked

theorem unlinkFile_ok :
    ∃ released, (catalog.cancelPrepared (· == cleanPath path)).releaseHead
        (cleanPath path) = .ok released ∧
      after = { released with
        heads := released.heads.keep
          fun head => decide (head.path ≠ cleanPath path) } := by
  unfold unlinkFile at unlinked
  obtain ⟨released, releasing, rest⟩ := bind_eq_ok_iff.mp unlinked
  cases rest
  exact ⟨released, releasing, rfl⟩

theorem unlinkFile_frame :
    OnlyWrites [.chunks, .heads] (catalog.cancelPrepared (· == cleanPath path)) after := by
  obtain ⟨released, releasing, rfl⟩ := unlinkFile_ok unlinked
  have removes : OnlyWrites [.heads] released
      { released with
        heads := released.heads.keep
          fun head => decide (head.path ≠ cleanPath path) } :=
    .of_patch rfl
  exact (releaseHead_writes releasing).chain removes (by simp) (by simp)

theorem unlinkFile_writes : OnlyWrites [.writeOps, .leases, .chunks, .heads] catalog after :=
  (cancelPrepared_writes _).chain (unlinkFile_frame unlinked) (by simp) (by simp)

end

theorem mkdir_ok (made : catalog.mkdir path mtime = .ok after) :
    (cleanPath path = [] ∧ after = catalog) ∨
      (cleanPath path ≠ [] ∧ catalog.heads.has (cleanPath path) = false ∧
        ∃ ensured, catalog.ensureDirs (cleanPath path) mtime = .ok ensured ∧
          after = { ensured with
            dirs := ensured.dirs.addIfAbsent
              (dirRow (cleanPath path) mtime) }) := by
  unfold mkdir at made
  simp only at made
  split_ifs at made with atRoot isFile
  · cases made
    exact Or.inl ⟨atRoot, rfl⟩
  · obtain ⟨ensured, ensuring, rest⟩ := bind_eq_ok_iff.mp made
    cases rest
    exact Or.inr ⟨atRoot, by simpa using isFile, ensured, ensuring, rfl⟩

theorem mkdir_writes (made : catalog.mkdir path mtime = .ok after) :
    OnlyWrites [.dirs] catalog after := by
  rcases mkdir_ok made with ⟨-, rfl⟩ | ⟨-, -, ensured, ensuring, rfl⟩
  · exact .refl
  · exact (ensureDirs_writes ensuring).trans (.of_patch rfl)

theorem rmdir_ok (removed : catalog.rmdir path = .ok after) :
    cleanPath path ≠ [] ∧ catalog.hasChildren (cleanPath path) = false ∧
      after = { catalog.cancelPrepared (inSubtree (cleanPath path)) with
        dirs := catalog.dirs.keep
          fun dir => decide (dir.path ≠ cleanPath path) } := by
  unfold rmdir at removed
  simp only at removed
  split_ifs at removed with atRoot crowded
  cases removed
  exact ⟨atRoot, Bool.eq_false_of_not_eq_true crowded, rfl⟩

theorem rmdir_writes (removed : catalog.rmdir path = .ok after) :
    OnlyWrites [.writeOps, .leases, .dirs] catalog after := by
  obtain ⟨-, -, rfl⟩ := rmdir_ok removed
  exact .of_patch rfl

theorem setMtime_writes (path : Path) (mtime : Int) :
    OnlyWrites [.heads, .dirs] catalog (catalog.setMtime path mtime).2 := by
  unfold setMtime
  simp only
  split_ifs
  · exact .refl
  · exact .of_patch rfl
  · exact .of_patch rfl

section

variable {head : FileHead} (renamed : catalog.renameHead head newPath now = .ok after)
include renamed

theorem renameHead_ok :
    catalog.dirs.has newPath = false ∧ ∃ released, catalog.releaseHead newPath = .ok released ∧
        ensureDirs
          { released with
            heads := (released.heads.put
              (fileHead newPath head.fileID head.mtime)).keep
                fun other => decide (other.path ≠ head.path) }
          newPath now = .ok after := by
  unfold renameHead at renamed
  split_ifs at renamed with isDir
  obtain ⟨released, releasing, rest⟩ := bind_eq_ok_iff.mp renamed
  exact ⟨by simpa using isDir, released, releasing, rest⟩

theorem renameHead_writes : OnlyWrites [.dirs, .heads, .chunks] catalog after := by
  obtain ⟨-, released, releasing, ensuring⟩ := renameHead_ok renamed
  have moves : OnlyWrites [.heads] released
      { released with
        heads := (released.heads.put
          (fileHead newPath head.fileID head.mtime)).keep
            fun other => decide (other.path ≠ head.path) } :=
    .of_patch rfl
  have replaces : OnlyWrites [.heads, .dirs] released after :=
    moves.chain (ensureDirs_writes ensuring) (by simp) (by simp)
  exact (releaseHead_writes releasing).chain replaces (by simp) (by simp)

end

theorem renameFile_frame (different : cleanPath oldPath ≠ cleanPath newPath)
    (renamed : catalog.renameFile oldPath newPath now = .ok after) :
    OnlyWrites [.dirs, .heads, .chunks]
      (catalog.rebound (cleanPath oldPath) (cleanPath newPath)) after := by
  obtain ⟨-, -, -, ⟨-, moved⟩ | ⟨head, -, moved⟩⟩ := renameFile_ok different renamed
  · rw [moved.frame]
    exact .of_patch rfl
  · exact renameHead_writes moved

theorem renameFile_writes (renamed : catalog.renameFile oldPath newPath now = .ok after) :
    OnlyWrites [.writeOps, .leases, .dirs, .heads, .chunks] catalog after := by
  by_cases same : cleanPath oldPath = cleanPath newPath
  · rw [renameFile_same same renamed]
    exact .refl
  · have rebinds : OnlyWrites [.writeOps, .leases] catalog
        (catalog.rebound (cleanPath oldPath) (cleanPath newPath)) :=
      .of_patch rfl
    exact rebinds.chain (renameFile_frame same renamed) (by simp) (by simp)

end Namespace

section Snapshots

variable {snapshotID : Nat}

section

variable {head : FileHead} (added : catalog.snapshotHead snapshotID head = .ok after)
include added

theorem snapshotHead_ok :
    ∃ snapshotFiles, catalog.snapshotFiles.add?
        ⟨snapshotID, head.path, (splitPath head.path).1,
          (splitPath head.path).2, head.fileID, head.mtime⟩ =
        some snapshotFiles ∧
      adjustVersionRefs { catalog with snapshotFiles } head.fileID 1 = .ok after := by
  unfold snapshotHead at added
  obtain ⟨snapshotFiles, adding, adjusting⟩ := bind_eq_ok_iff.mp added
  exact ⟨snapshotFiles, orConflict_eq_ok_iff.mp adding, adjusting⟩

theorem snapshotHead_writes : OnlyWrites [.snapshotFiles, .chunks] catalog after := by
  obtain ⟨snapshotFiles, -, adjusting⟩ := snapshotHead_ok added
  have adds : OnlyWrites [.snapshotFiles] catalog
      { catalog with snapshotFiles } := .of_patch rfl
  exact adds.chain (adjustVersionRefs_writes adjusting) (by simp) (by simp)

end

theorem snapshotDir_ok {dir : DirRow} (added : catalog.snapshotDir snapshotID dir = .ok after) :
    ∃ snapshotDirs, catalog.snapshotDirs.add?
        ⟨snapshotID, dir.path, dir.parent, dir.name, dir.mtime⟩ =
        some snapshotDirs ∧ after = { catalog with snapshotDirs } := by
  unfold snapshotDir at added
  obtain ⟨snapshotDirs, adding, rest⟩ := bind_eq_ok_iff.mp added
  cases rest
  exact ⟨snapshotDirs, orConflict_eq_ok_iff.mp adding, rfl⟩

theorem id_snapshotRow (name : String) (createdAt : Int) :
    ∀ id, (SnapshotRow.mk id name createdAt).id = id :=
  fun _ => rfl

/-- The catalog in which a new snapshot has its row. -/
def withSnapshot (catalog : Catalog) (name : String) (createdAt : Int) :
    Catalog :=
  { catalog with
    snapshots := catalog.snapshots.append (fun id => ⟨id, name, createdAt⟩)
      (id_snapshotRow name createdAt) }

section

variable {name : String} {createdAt : Int} {id : Nat}
  (created : catalog.createSnapshot name createdAt = .ok (id, after))
include created

theorem createSnapshot_ok :
    (∃ existing ∈ catalog.snapshots.rows, existing.name = name ∧
        id = existing.id ∧ after = catalog) ∨
      ((∀ row ∈ catalog.snapshots.rows, row.name ≠ name) ∧ id = catalog.snapshots.last + 1 ∧
        ∃ files, catalog.heads.rows.foldlM (fun catalog head => snapshotHead catalog id head)
            (catalog.withSnapshot name createdAt) = .ok files ∧
          catalog.dirs.rows.foldlM (fun catalog dir => snapshotDir catalog id dir) files =
            .ok after) := by
  unfold createSnapshot at created
  cases found : catalog.snapshots.rows.find? (fun row => row.name == name) with
  | some existing =>
    rw [found] at created
    cases created
    refine Or.inl ⟨existing, List.mem_of_find?_eq_some found, ?_, rfl, rfl⟩
    simpa using List.find?_some found
  | none =>
    rw [found] at created
    obtain ⟨files, filing, rest⟩ := bind_eq_ok_iff.mp created
    obtain ⟨dirs, listing, rest⟩ := bind_eq_ok_iff.mp rest
    cases rest
    have sameDirs : files.dirs = catalog.dirs := by
      have filed : OnlyWrites [.snapshotFiles, .chunks]
          (catalog.withSnapshot name createdAt) files :=
        foldlM_ok_invariant (fun _ _ _ _ writes added => writes.trans (snapshotHead_writes added))
          .refl filing
      exact filed .dirs (by simp)
    rw [sameDirs] at listing
    refine Or.inr ⟨?_, rfl, files, filing, listing⟩
    simpa using found

/-- What the row of a new snapshot and each copied row keep, the snapshot
keeps. -/
theorem createSnapshot_keeps {kept : Catalog → Prop} (holds : kept catalog)
    (records : kept (catalog.withSnapshot name createdAt))
    (files : ∀ start head next, head ∈ start.heads.rows → kept start →
      snapshotHead start (catalog.snapshots.last + 1) head = .ok next → kept next)
    (dirs : ∀ start dir next, kept start →
      snapshotDir start (catalog.snapshots.last + 1) dir = .ok next → kept next) : kept after := by
  rcases createSnapshot_ok created with ⟨-, -, -, -, rfl⟩ | ⟨-, rfl, copied, filing, listing⟩
  · exact holds
  have copies : ∀ start head next, head ∈ catalog.heads.rows →
      kept start ∧ start.heads = catalog.heads →
      snapshotHead start (catalog.snapshots.last + 1) head = .ok next →
        kept next ∧ next.heads = catalog.heads := by
    rintro start head next member ⟨filed, sameHeads⟩ added
    exact ⟨files start head next (by rwa [sameHeads]) filed added,
      (snapshotHead_writes added .heads (by simp)).trans sameHeads⟩
  have filed := foldlM_ok_invariant copies ⟨records, rfl⟩ filing
  exact foldlM_ok_invariant (fun start dir next _ listed added => dirs start dir next listed added)
    filed.1 listing

theorem createSnapshot_writes :
    OnlyWrites [.snapshots, .snapshotFiles, .snapshotDirs, .chunks] catalog
      after := by
  refine createSnapshot_keeps created .refl (.of_patch rfl) (fun _ _ _ _ writes added =>
    writes.chain (snapshotHead_writes added) (by simp) (by simp)) fun _ _ _ writes added => ?_
  obtain ⟨snapshotDirs, -, rfl⟩ := snapshotDir_ok added
  exact writes.trans (.of_patch rfl)

end

theorem foldlM_adjustVersionRefs_frame {Row : Type} {fileID : Row → Nat}
    {delta : Int} {rows : List Row}
    (adjusted : rows.foldlM (fun catalog row => adjustVersionRefs catalog (fileID row) delta)
      catalog = .ok after) :
    after = { catalog with chunks := after.chunks } := by
  induction rows generalizing catalog with
  | nil =>
    cases adjusted
    rfl
  | cons row rows ih =>
    rw [List.foldlM_cons, bind_eq_ok_iff] at adjusted
    obtain ⟨middle, first, rest⟩ := adjusted
    rw [ih rest, adjustVersionRefs_frame first]

theorem deleteSnapshot_ok (deleted : catalog.deleteSnapshot snapshotID = .ok after) :
    ∃ released, (catalog.snapshotFiles.rows.filter
        fun row => decide (row.snapshotID = snapshotID)).foldlM
          (fun catalog row => adjustVersionRefs catalog row.fileID (-1))
          catalog = .ok released ∧
      OnlyWrites [.chunks] catalog released ∧
      after = { catalog with
        chunks := released.chunks
        snapshots := catalog.snapshots.keep
          fun row => decide (row.id ≠ snapshotID)
        snapshotFiles := catalog.snapshotFiles.keep
          fun row => decide (row.snapshotID ≠ snapshotID)
        snapshotDirs := catalog.snapshotDirs.keep
          fun row => decide (row.snapshotID ≠ snapshotID) } := by
  unfold deleteSnapshot at deleted
  obtain ⟨released, releasing, rest⟩ := bind_eq_ok_iff.mp deleted
  cases rest
  have releases := foldlM_adjustVersionRefs_frame releasing
  refine ⟨released, releasing, ?_, ?_⟩
  · rw [releases]
    exact .of_patch rfl
  · rw [releases]

theorem deleteSnapshot_writes (deleted : catalog.deleteSnapshot snapshotID = .ok after) :
    OnlyWrites [.snapshots, .snapshotFiles, .snapshotDirs, .chunks] catalog
      after := by
  obtain ⟨released, -, -, rfl⟩ := deleteSnapshot_ok deleted
  exact .of_patch rfl

theorem setSnapshotRetention_writes {policy : Option SnapshotRetention}
    (set : catalog.setSnapshotRetention policy = .ok after) :
    OnlyWrites [.snapshotRetention] catalog after := by
  unfold setSnapshotRetention at set
  cases policy with
  | none =>
    cases set
    exact .of_patch rfl
  | some windows =>
    simp only at set
    split_ifs at set
    cases set
    exact .of_patch rfl

variable {now : Int} {expired : List Nat}
  (done : catalog.expireSnapshots now = .ok (expired, after))
include done

theorem expireSnapshots_ok :
    expired.foldlM (fun catalog id => deleteSnapshot catalog id) catalog = .ok after := by
  unfold expireSnapshots at done
  cases policy : catalog.snapshotRetention with
  | none =>
    rw [policy] at done
    cases done
    rfl
  | some windows =>
    rw [policy] at done
    obtain ⟨remaining, deleting, rest⟩ := bind_eq_ok_iff.mp done
    cases rest
    exact deleting

theorem expireSnapshots_writes :
    OnlyWrites [.snapshots, .snapshotFiles, .snapshotDirs, .chunks] catalog
      after :=
  foldlM_ok_invariant (fun _ _ _ _ writes deleted => writes.trans (deleteSnapshot_writes deleted))
    .refl (expireSnapshots_ok done)

end Snapshots

section WriteOps

theorem ownsVersion_iff {fileID : Nat} :
    catalog.ownsVersion fileID = true ↔ (∃ head ∈ catalog.heads.rows, head.fileID = fileID) ∨
      (∃ row ∈ catalog.snapshotFiles.rows, row.fileID = fileID) ∨
      (∃ root ∈ catalog.resultRoots.rows, root.fileID = fileID) ∨
      ∃ op ∈ catalog.writeOps.rows, op.fileID = fileID ∧
        (op.state = .prepared ∨ op.state = .committed) := by
  simp [ownsVersion, or_assoc]

/-- Only versions that nothing owns are collected. -/
theorem gcFileVersions_ok {limit : Nat} (collected : catalog.gcFileVersions limit = .ok after) :
    ∃ files, after = { catalog with files } ∧
      (∀ version ∈ files.rows, version ∈ catalog.files.rows) ∧
      ∀ version ∈ catalog.files.rows, catalog.ownsVersion version.id = true →
        version ∈ files.rows := by
  unfold gcFileVersions at collected
  split_ifs at collected
  cases collected
  refine ⟨_, rfl, fun version kept => ((SequencedTable.mem_keep _ _ _).mp kept).1,
    fun version present owned => (SequencedTable.mem_keep _ _ _).mpr ⟨present, ?_⟩⟩
  simp only [Bool.not_eq_true', List.contains_eq_mem, decide_eq_false_iff_not]
  intro doomed
  have listed := List.mem_mergeSort.mp (List.mem_of_mem_take doomed)
  have free := (List.mem_filter.mp listed).2
  rw [owned] at free
  cases free

variable {path : Path} {now : Int}

section

variable {key : String} {op : WriteOp}
  (created : catalog.createWriteOp key path now = .ok (op, after))
include created

theorem createWriteOp_ok :
    cleanPath path ≠ [] ∧
    ((catalog.writeOpByKey key = some op ∧ after = catalog) ∨
      (catalog.writeOpByKey key = none ∧
        op = ⟨catalog.writeOps.last + 1, key, cleanPath path, .prepared, now, 0, 0, []⟩ ∧
        after = { catalog with
          writeOps := catalog.writeOps.append
            (fun id => ⟨id, key, cleanPath path, .prepared, now, 0, 0, []⟩)
            (fun _ => rfl) })) := by
  unfold createWriteOp at created
  simp only at created
  split_ifs at created with missing
  push Not at missing
  refine ⟨missing.2, ?_⟩
  cases known : catalog.writeOpByKey key with
  | some existing =>
    rw [known] at created
    cases created
    exact Or.inl ⟨rfl, rfl⟩
  | none =>
    rw [known] at created
    cases created
    exact Or.inr ⟨rfl, rfl, rfl⟩

theorem createWriteOp_writes : OnlyWrites [.writeOps] catalog after := by
  rcases (createWriteOp_ok created).2 with ⟨-, rfl⟩ | ⟨-, -, rfl⟩
  · exact .refl
  · exact .of_patch rfl

end

theorem retargetPreparedWriteOp_ok {id : Nat}
    (retargeted : catalog.retargetPreparedWriteOp id path = .ok after) :
    cleanPath path ≠ [] ∧ after = catalog.changePrepared id
        (fun op => { op with path := cleanPath path }) (fun _ => rfl) := by
  unfold retargetPreparedWriteOp at retargeted
  simp only at retargeted
  split_ifs at retargeted with missing
  cases retargeted
  exact ⟨missing, rfl⟩

theorem changePrepared_writes (id : Nat) (update : WriteOp → WriteOp)
    (keepsID : ∀ op, (update op).id = op.id) :
    OnlyWrites [.writeOps] catalog (catalog.changePrepared id update keepsID) :=
  .of_patch rfl

variable {opID : Nat}

section

variable {vlogID ordinal : Nat} (claimed : catalog.claimVlogLease vlogID opID ordinal = .ok after)
include claimed

theorem claimVlogLease_ok :
    ∃ op leases, catalog.writeOps.find? opID = some op ∧
      op.state = .prepared ∧ catalog.vlogs.has vlogID = true ∧
      catalog.leases.add? ⟨vlogID, opID, ordinal⟩ = some leases ∧
      after = { catalog with leases } := by
  unfold claimVlogLease at claimed
  cases found : catalog.writeOps.find? opID with
  | none =>
    rw [found] at claimed
    cases claimed
  | some op =>
    rw [found] at claimed
    simp only at claimed
    split_ifs at claimed with terminal missing taken
    obtain ⟨leases, adding, rest⟩ := bind_eq_ok_iff.mp claimed
    cases rest
    exact ⟨op, leases, rfl, not_not.mp terminal, by simpa using missing,
      orConflict_eq_ok_iff.mp adding, rfl⟩

theorem claimVlogLease_writes : OnlyWrites [.leases] catalog after := by
  obtain ⟨-, leases, -, -, -, -, rfl⟩ := claimVlogLease_ok claimed
  exact .of_patch rfl

end

variable {fileID : Nat} {expiresAt : Int}

theorem retainUntil_ok (retained : catalog.retainUntil opID fileID expiresAt = .ok after) :
    (expiresAt = 0 ∧ after = catalog) ∨
      (expiresAt ≠ 0 ∧ ∃ counted resultRoots, catalog.adjustVersionRefs fileID 1 = .ok counted ∧
        catalog.resultRoots.add? ⟨opID, fileID, expiresAt⟩ = some resultRoots ∧
        after = { catalog with chunks := counted.chunks, resultRoots }) := by
  unfold retainUntil retainResult at retained
  split_ifs at retained with none
  · cases retained
    exact Or.inl ⟨none, rfl⟩
  · obtain ⟨counted, counting, rest⟩ := bind_eq_ok_iff.mp retained
    obtain ⟨resultRoots, adding, rest⟩ := bind_eq_ok_iff.mp rest
    cases rest
    have frame := adjustVersionRefs_frame counting
    refine Or.inr ⟨none, counted, resultRoots, counting, ?_, ?_⟩
    · rw [frame] at adding
      exact orConflict_eq_ok_iff.mp adding
    · rw [frame]

theorem retainUntil_writes (retained : catalog.retainUntil opID fileID expiresAt = .ok after) :
    OnlyWrites [.chunks, .resultRoots] catalog after := by
  rcases retainUntil_ok retained with ⟨-, rfl⟩ | ⟨-, counted, resultRoots, -, -, rfl⟩
  · exact .refl
  · exact .of_patch rfl

variable {placements : List ChunkPlacement}

section

variable {mtime : Int} (committed : catalog.commitWriteOpVersion opID path mtime placements
  expiresAt = .ok (fileID, after))
include committed

/-- A commit repeats the stored result or publishes a prepared operation. -/
theorem commitWriteOpVersion_ok :
    ∃ op, catalog.writeOps.find? opID = some op ∧
      ((op.state = .committed ∧ fileID = op.fileID ∧ after = catalog) ∨
        (op.state = .prepared ∧ ∃ published retained,
          catalog.publishFileVersion path mtime placements = .ok (fileID, published) ∧
          published.retainUntil opID fileID expiresAt = .ok retained ∧
          after = retained.finishCommitted opID fileID (totalLen placements))) := by
  unfold commitWriteOpVersion at committed
  cases found : catalog.writeOps.find? opID with
  | none =>
    rw [found] at committed
    cases committed
  | some op =>
    rw [found] at committed
    refine ⟨op, rfl, ?_⟩
    cases state : op.state with
    | committed =>
      simp only [state] at committed
      cases committed
      exact Or.inl ⟨rfl, rfl, rfl⟩
    | prepared =>
      simp only [state] at committed
      obtain ⟨⟨id, published⟩, publishing, rest⟩ := bind_eq_ok_iff.mp committed
      obtain ⟨retained, retaining, rest⟩ := bind_eq_ok_iff.mp rest
      cases rest
      exact Or.inr ⟨rfl, published, retained, publishing, retaining, rfl⟩
    | abandoned | cancelled | expired =>
      simp only [state] at committed
      cases committed

theorem commitWriteOpVersion_writes :
    OnlyWrites [.files, .heads, .dirs, .chunks, .resultRoots, .writeOps,
      .leases] catalog after := by
  obtain ⟨op, -, ⟨-, -, rfl⟩ | ⟨-, published, retained, publishing, retaining, rfl⟩⟩ :=
    commitWriteOpVersion_ok committed
  · exact .refl
  · have finishes : OnlyWrites [.writeOps, .leases] retained
        (retained.finishCommitted opID fileID (totalLen placements)) :=
      .of_patch rfl
    have settles : OnlyWrites [.chunks, .resultRoots, .writeOps, .leases] published
        (retained.finishCommitted opID fileID (totalLen placements)) :=
      (retainUntil_writes retaining).chain finishes (by simp) (by simp)
    exact (publishFileVersion_writes publishing).chain settles (by simp) (by simp)

end

theorem commitWithRetention_ok
    {mtime : Int}
    (committed : catalog.commitWriteOpVersionWithRetention opID path mtime
      placements expiresAt = .ok (fileID, after)) :
    0 < expiresAt ∧ catalog.commitWriteOpVersion opID path mtime placements
      expiresAt = .ok (fileID, after) := by
  unfold commitWriteOpVersionWithRetention at committed
  split_ifs at committed with late
  exact ⟨by omega, committed⟩

/-- An elapsed root gives up its version and its operation expires. -/
theorem expireRoot_ok {root : WriteResultRoot} (expired : catalog.expireRoot root = .ok after) :
    (∃ op ∈ catalog.writeOps.rows, op.id = root.writeOpID ∧
        op.fileID = root.fileID ∧ op.state = .committed) ∧
      ∃ released, catalog.adjustVersionRefs root.fileID (-1) = .ok released ∧
        after = { catalog with
          chunks := released.chunks
          writeOps := catalog.writeOps.change
            (fun op =>
              if op.id = root.writeOpID ∧ op.fileID = root.fileID ∧
                  op.state = .committed then { op with state := .expired }
              else op)
            (fun op => by split_ifs <;> rfl)
          resultRoots := catalog.resultRoots.keep
            fun other => decide (other.writeOpID ≠ root.writeOpID) } := by
  unfold expireRoot at expired
  split_ifs at expired with owned
  obtain ⟨released, releasing, rest⟩ := bind_eq_ok_iff.mp expired
  cases rest
  refine ⟨by simpa [and_assoc] using owned, ?_⟩
  obtain ⟨version, found, rfl⟩ := adjustVersionRefs_ok releasing
  refine ⟨{ catalog with
    chunks := adjustChunkRefs catalog.chunks version.chunks (-1) }, ?_, rfl⟩
  unfold adjustVersionRefs fileChunks
  rw [found]
  rfl

variable {count : Nat} (done : catalog.expireWriteResults now = .ok (count, after))
include done

theorem expireWriteResults_ok :
    ∃ elapsed : List WriteResultRoot, elapsed ⊆ catalog.resultRoots.rows ∧
      (elapsed.map WriteResultRoot.writeOpID).Nodup ∧
      elapsed.foldlM (fun catalog root => expireRoot catalog root) catalog = .ok after := by
  unfold expireWriteResults at done
  obtain ⟨released, releasing, rest⟩ := bind_eq_ok_iff.mp done
  cases rest
  refine ⟨_, fun root member => ?_, ?_, releasing⟩
  · exact List.mem_of_mem_filter (List.mem_mergeSort.mp member)
  · refine ((List.mergeSort_perm _ _).map _).nodup_iff.mpr ?_
    exact catalog.resultRoots.distinct.sublist (List.filter_sublist.map _)

theorem expireWriteResults_writes :
    OnlyWrites [.writeOps, .chunks, .resultRoots] catalog after := by
  obtain ⟨elapsed, -, -, expiring⟩ := expireWriteResults_ok done
  refine foldlM_ok_invariant (fun before root next _ writes expired => ?_) .refl expiring
  obtain ⟨-, released, -, rfl⟩ := expireRoot_ok expired
  exact writes.trans (.of_patch rfl)

end WriteOps

section Vlogs

theorem discardEmptyVlog_ok {vlogID : Nat}
    (discarded : catalog.discardEmptyVlog vlogID = .ok after) :
    (∀ row ∈ catalog.chunks.rows, row.vlogID ≠ vlogID) ∧ after = catalog.dropVlog vlogID := by
  unfold discardEmptyVlog at discarded
  split_ifs at discarded with empty
  cases discarded
  simp only [Bool.and_eq_true, Bool.not_eq_true', List.any_eq_false, decide_eq_true_eq] at empty
  exact ⟨empty.2, rfl⟩

theorem retireVlog_ok {vlogID : Nat} (retired : catalog.retireVlog vlogID = .ok after) :
    (∀ row ∈ catalog.chunks.rows, row.vlogID = vlogID → row.refcount ≤ 0) ∧
      OnlyWrites [.vlogs, .leases, .chunks, .jobs] catalog after ∧
      after.chunks = catalog.chunks.keep (fun row => decide (row.vlogID ≠ vlogID)) ∧
      after.vlogs = catalog.vlogs.keep (fun row => decide (row.id ≠ vlogID)) ∧
      after.leases = catalog.leases.keep (fun lease => decide (lease.vlogID ≠ vlogID)) := by
  unfold retireVlog at retired
  split_ifs at retired with held live
  cases retired
  refine ⟨?_, .of_patch rfl, rfl, rfl, rfl⟩
  intro row present here
  by_contra positive
  refine live (List.any_eq_true.mpr ⟨row, present, ?_⟩)
  simp only [here, decide_true, Bool.true_and, decide_eq_true_eq]
  omega

theorem getOrCreateVlogJob_writes (kind : JobKind) (targetVlog : Nat) :
    OnlyWrites [.jobs] catalog (catalog.getOrCreateVlogJob kind targetVlog).2 := by
  unfold getOrCreateVlogJob
  cases catalog.jobs.rows.find? fun job =>
      decide (job.kind = kind) && decide (job.state = .running) &&
        decide (job.targetVlog = targetVlog) with
  | some job => exact .refl
  | none => exact .of_patch rfl

theorem setJobDest_ok {jobID destVlog : Nat}
    (claimed : catalog.setJobDest jobID destVlog = .ok after) :
    OnlyWrites [.vlogs, .jobs] catalog after ∧ after.vlogs = catalog.vlogs.change
        (fun row =>
          if row.id = destVlog then { row with maintenanceOwned := true }
          else row)
        (fun row => by split_ifs <;> rfl) := by
  unfold setJobDest at claimed
  split_ifs at claimed with missing
  cases found : catalog.jobs.find? jobID with
  | none =>
    rw [found] at claimed
    cases claimed
  | some job =>
    rw [found] at claimed
    simp only at claimed
    split_ifs at claimed with may
    cases claimed
    exact ⟨.of_patch rfl, rfl⟩

end Vlogs

end Catalog

/-- The tables a transaction may write. -/
def CatalogAction.writes : CatalogAction → List CatalogTable
  | .commitFile .. => [.files, .heads, .dirs, .chunks]
  | .unlinkFile _ => [.writeOps, .leases, .chunks, .heads]
  | .renameFile .. => [.writeOps, .leases, .dirs, .heads, .chunks]
  | .mkdir .. => [.dirs]
  | .rmdir _ => [.writeOps, .leases, .dirs]
  | .setMtime .. => [.heads, .dirs]
  | .createSnapshot .. => [.snapshots, .snapshotFiles, .snapshotDirs, .chunks]
  | .deleteSnapshot _ => [.snapshots, .snapshotFiles, .snapshotDirs, .chunks]
  | .setSnapshotRetention _ => [.snapshotRetention]
  | .expireSnapshots _ => [.snapshots, .snapshotFiles, .snapshotDirs, .chunks]
  | .gcChunks _ => [.chunks]
  | .gcFileVersions _ => [.files]
  | .createWriteOp .. => [.writeOps]
  | .setWriteOpTail .. => [.writeOps]
  | .retargetPreparedWriteOp .. => [.writeOps]
  | .claimVlogLease .. => [.leases]
  | .releaseWriteOpLeases _ => [.leases]
  | .abandonWriteOp _ => [.writeOps, .leases]
  | .cancelWriteOp _ => [.writeOps, .leases]
  | .commitWriteOpVersion .. =>
    [.files, .heads, .dirs, .chunks, .resultRoots, .writeOps, .leases]
  | .commitWriteOpVersionWithRetention .. =>
    [.files, .heads, .dirs, .chunks, .resultRoots, .writeOps, .leases]
  | .expireWriteResults _ => [.writeOps, .chunks, .resultRoots]
  | .makeVlog _ => [.vlogs]
  | .setVlogLength .. => [.vlogs]
  | .discardEmptyVlog _ => [.vlogs, .leases]
  | .relocateChunk .. => [.chunks]
  | .retireVlog _ => [.vlogs, .leases, .chunks, .jobs]
  | .getOrCreateVlogJob .. => [.jobs]
  | .setJobDest .. => [.vlogs, .jobs]
  | .markJobDone _ => [.jobs]
  | .finishRunningJob .. => [.jobs]

theorem map_snd_eq_ok_iff {α : Type} {ran : Except CatalogError (α × Catalog)} {after : Catalog} :
    ran.map Prod.snd = .ok after ↔ ∃ result, ran = .ok (result, after) := by
  rw [map_eq_ok_iff]
  constructor
  · rintro ⟨⟨result, after⟩, rfl, rfl⟩
    exact ⟨result, rfl⟩
  · rintro ⟨result, rfl⟩
    exact ⟨(result, after), rfl, rfl⟩

/-- A successful transaction writes its own tables only. -/
theorem Catalog.apply_writes {before after : Catalog} {action : CatalogAction}
    (applied : before.apply action = .ok after) :
    OnlyWrites action.writes before after := by
  cases action with
  | commitFile path mtime placements =>
    obtain ⟨id, published⟩ := map_snd_eq_ok_iff.mp applied
    exact publishFileVersion_writes published
  | unlinkFile path => exact unlinkFile_writes applied
  | renameFile oldPath newPath now => exact renameFile_writes applied
  | mkdir path mtime => exact mkdir_writes applied
  | rmdir path => exact rmdir_writes applied
  | setMtime path mtime =>
    cases applied
    exact setMtime_writes path mtime
  | createSnapshot name createdAt =>
    obtain ⟨id, created⟩ := map_snd_eq_ok_iff.mp applied
    exact createSnapshot_writes created
  | deleteSnapshot snapshotID => exact deleteSnapshot_writes applied
  | setSnapshotRetention policy => exact setSnapshotRetention_writes applied
  | expireSnapshots now =>
    obtain ⟨expired, done⟩ := map_snd_eq_ok_iff.mp applied
    exact expireSnapshots_writes done
  | gcFileVersions limit =>
    obtain ⟨files, rfl, -⟩ := gcFileVersions_ok applied
    exact .of_patch rfl
  | createWriteOp key path now =>
    obtain ⟨op, created⟩ := map_snd_eq_ok_iff.mp applied
    exact createWriteOp_writes created
  | retargetPreparedWriteOp id path =>
    obtain ⟨-, rfl⟩ := retargetPreparedWriteOp_ok applied
    exact changePrepared_writes id _ _
  | claimVlogLease vlogID opID ordinal => exact claimVlogLease_writes applied
  | commitWriteOpVersion opID path mtime placements =>
    obtain ⟨fileID, committed⟩ := map_snd_eq_ok_iff.mp applied
    exact commitWriteOpVersion_writes committed
  | commitWriteOpVersionWithRetention opID path mtime placements expiresAt =>
    obtain ⟨fileID, committed⟩ := map_snd_eq_ok_iff.mp applied
    exact commitWriteOpVersion_writes (commitWithRetention_ok committed).2
  | expireWriteResults now =>
    obtain ⟨count, done⟩ := map_snd_eq_ok_iff.mp applied
    exact expireWriteResults_writes done
  | discardEmptyVlog vlogID =>
    obtain ⟨-, rfl⟩ := discardEmptyVlog_ok applied
    exact .of_patch rfl
  | retireVlog vlogID => exact (retireVlog_ok applied).2.1
  | getOrCreateVlogJob kind targetVlog =>
    cases applied
    exact getOrCreateVlogJob_writes kind targetVlog
  | setJobDest jobID destVlog => exact (setJobDest_ok applied).1
  | _ =>
    cases applied
    exact .of_patch rfl

end Rose
