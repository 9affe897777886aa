import Rose.ChunkLocations
import Rose.SnapshotReads

/-!
# Snapshots over whole runs

A snapshot that is neither deleted nor expired reads the same in every later
state: its rows are never written again, its versions are not collected, and
its chunks keep rows that lie in existing vlogs.
-/

namespace Rose

open FallibleActions LabelledRuns

/-- A transaction neither deletes nor expires the snapshot. -/
def SparesSnapshot (id : Nat) (before : Catalog) : CatalogAction → Prop
  | .deleteSnapshot snapshotID => snapshotID ≠ id
  | .expireSnapshots now =>
    ∀ windows, before.snapshotRetention = some windows → id ∉ before.expiredSnapshots windows now
  | _ => True

namespace SnapshotKept

variable {first before after : Catalog} {id : Nat}

variable (kept : SnapshotKept first before id)
include kept

theorem next (recorded : before.snapshots.has id = true → after.snapshots.has id = true)
    (files : after.snapshotFiles.rows.filter (fun row => decide (row.snapshotID = id)) =
      before.snapshotFiles.rows.filter (fun row => decide (row.snapshotID = id)))
    (dirs : after.snapshotDirs.rows.filter (fun row => decide (row.snapshotID = id)) =
      before.snapshotDirs.rows.filter (fun row => decide (row.snapshotID = id)))
    (versions : ∀ row ∈ before.snapshotFiles.rows, row.snapshotID = id →
      ∀ version, before.files.find? row.fileID = some version →
        after.files.find? row.fileID = some version) : SnapshotKept first after id := by
  refine ⟨recorded kept.recorded, files.trans kept.files,
    dirs.trans kept.dirs, fun row present own => ?_⟩
  obtain ⟨version, inFirst, inBefore⟩ := kept.versions row present own
  exact ⟨version, inFirst, versions row ((kept.mem_files_iff own).mpr present) own version inBefore⟩

theorem of_versions (snapshots : after.snapshots = before.snapshots)
    (snapshotFiles : after.snapshotFiles = before.snapshotFiles)
    (snapshotDirs : after.snapshotDirs = before.snapshotDirs)
    (versions : ∀ row ∈ before.snapshotFiles.rows, row.snapshotID = id →
      ∀ version, before.files.find? row.fileID = some version →
        after.files.find? row.fileID = some version) : SnapshotKept first after id :=
  kept.next (by rw [snapshots]; exact fun has => has) (by rw [snapshotFiles])
    (by rw [snapshotDirs]) versions

theorem publishFileVersion {path : Path} {mtime : Int} {placements : List ChunkPlacement}
    {fileID : Nat}
    (published : before.publishFileVersion path mtime placements = .ok (fileID, after)) :
    SnapshotKept first after id := by
  have writes := Catalog.publishFileVersion_writes published
  refine kept.of_versions (writes .snapshots (by simp))
    (writes .snapshotFiles (by simp)) (writes .snapshotDirs (by simp)) ?_
  intro row _ _ version found
  rw [Catalog.publishFileVersion_appends published, SequencedTable.find?_append, if_neg, found]
  have old := SequencedTable.find?_le_last found
  omega

theorem gcFileVersions {limit : Nat} (collected : before.gcFileVersions limit = .ok after) :
    SnapshotKept first after id := by
  obtain ⟨files, rfl, -, spares⟩ := Catalog.gcFileVersions_ok collected
  refine kept.of_versions rfl rfl rfl fun row present _ version found => ?_
  obtain ⟨versionIn, same⟩ := (KeyedTable.find?_eq_some_iff _ _ _).mp found
  exact (KeyedTable.find?_eq_some_iff _ _ _).mpr ⟨spares version versionIn
    (Catalog.ownsVersion_iff.mpr (Or.inr (Or.inl ⟨row, present, same.symm⟩))), same⟩

theorem deleteSnapshot {snapshotID : Nat} (other : snapshotID ≠ id)
    (deleted : before.deleteSnapshot snapshotID = .ok after) : SnapshotKept first after id := by
  obtain ⟨released, -, -, rfl⟩ := Catalog.deleteSnapshot_ok deleted
  refine kept.next ?_ ?_ ?_ fun _ _ _ _ found => found
  · rw [KeyedTable.has_iff, KeyedTable.has_iff]
    rintro ⟨row, present, rfl⟩
    refine ⟨row, (SequencedTable.mem_keep _ _ _).mpr ⟨present, ?_⟩, rfl⟩
    simpa using other.symm
  · refine (List.filter_filter ..).trans (List.filter_congr fun row _ => ?_)
    by_cases own : row.snapshotID = id
    · simp [own, other.symm]
    · simp [own]
  · refine (List.filter_filter ..).trans (List.filter_congr fun row _ => ?_)
    by_cases own : row.snapshotID = id
    · simp [own, other.symm]
    · simp [own]

theorem expireSnapshots {now : Int} {expired : List Nat} (spared : id ∉ expired)
    (done : before.expireSnapshots now = .ok (expired, after)) : SnapshotKept first after id := by
  have keeps : ∀ start snapshotID next, snapshotID ∈ expired → SnapshotKept first start id →
      Catalog.deleteSnapshot start snapshotID = .ok next → SnapshotKept first next id := by
    intro start snapshotID next member holds deleted
    refine holds.deleteSnapshot ?_ deleted
    rintro rfl
    exact spared member
  exact foldlM_ok_invariant keeps kept (Catalog.expireSnapshots_ok done)

theorem snapshotHead {snapshotID : Nat} {head : FileHead} (other : snapshotID ≠ id)
    (added : before.snapshotHead snapshotID head = .ok after) : SnapshotKept first after id := by
  have writes := Catalog.snapshotHead_writes added
  obtain ⟨snapshotFiles, adding, adjusting⟩ := Catalog.snapshotHead_ok added
  have files : after.snapshotFiles = snapshotFiles :=
    Catalog.adjustVersionRefs_writes adjusting .snapshotFiles (by simp)
  have sameVersions : after.files = before.files := writes .files (by simp)
  have sameSnapshots : after.snapshots = before.snapshots := writes .snapshots (by simp)
  have sameDirs : after.snapshotDirs = before.snapshotDirs := writes .snapshotDirs (by simp)
  refine kept.next (by rw [sameSnapshots]; exact fun has => has) ?_
    (by rw [sameDirs]) fun row _ _ version found => by rw [sameVersions, found]
  rw [files, ((KeyedTable.add?_eq_some_iff _ _ _).mp adding).2, List.filter_append]
  simp [other]

theorem snapshotDir {snapshotID : Nat} {dir : DirRow} (other : snapshotID ≠ id)
    (added : before.snapshotDir snapshotID dir = .ok after) : SnapshotKept first after id := by
  obtain ⟨snapshotDirs, adding, rfl⟩ := Catalog.snapshotDir_ok added
  refine kept.next (fun has => has) rfl ?_ fun _ _ _ _ found => found
  dsimp only
  rw [((KeyedTable.add?_eq_some_iff _ _ _).mp adding).2, List.filter_append]
  simp [other]

theorem createSnapshot {name : String} {createdAt : Int} {newID : Nat}
    (created : before.createSnapshot name createdAt = .ok (newID, after)) :
    SnapshotKept first after id := by
  have other : before.snapshots.last + 1 ≠ id := by
    obtain ⟨row, present, same⟩ := (KeyedTable.has_iff _ _).mp kept.recorded
    have bound := before.snapshots.bounded row present
    omega
  refine @Catalog.createSnapshot_keeps _ _ _ _ _ created (SnapshotKept first · id) kept ?_
    (fun _ _ _ _ holds added => holds.snapshotHead other added)
    fun _ _ _ holds added => holds.snapshotDir other added
  refine kept.next ?_ rfl rfl fun _ _ _ _ found => found
  rw [KeyedTable.has_iff, KeyedTable.has_iff]
  rintro ⟨row, present, same⟩
  exact ⟨row, (SequencedTable.mem_append _ _ _ _).mpr (Or.inl present), same⟩

theorem commitWriteOpVersion {opID fileID : Nat} {path : Path} {mtime expiresAt : Int}
    {placements : List ChunkPlacement}
    (committed : before.commitWriteOpVersion opID path mtime placements
      expiresAt = .ok (fileID, after)) : SnapshotKept first after id := by
  obtain ⟨op, -, ⟨-, -, rfl⟩ | ⟨-, published, retained, publishing, retaining, rfl⟩⟩ :=
    Catalog.commitWriteOpVersion_ok committed
  · exact kept
  · have retains := Catalog.retainUntil_writes retaining
    have sameFiles : retained.files = published.files := retains .files (by simp)
    refine (kept.publishFileVersion publishing).of_versions
      (retains .snapshots (by simp)) (retains .snapshotFiles (by simp))
      (retains .snapshotDirs (by simp)) fun row _ _ version found => ?_
    rw [← found, ← sameFiles]
    rfl

theorem of_frame {tables : List CatalogTable} (writes : OnlyWrites tables before after)
    (spared : ∀ table ∈ tables, table ≠ .files ∧ table ≠ .snapshots ∧
      table ≠ .snapshotFiles ∧ table ≠ .snapshotDirs) : SnapshotKept first after id := by
  have same : ∀ table, (table = .files ∨ table = .snapshots ∨
      table = .snapshotFiles ∨ table = .snapshotDirs) → SameTable before after table := by
    intro table isRead
    refine writes table fun member => ?_
    have apart := spared table member
    grind
  have sameFiles : after.files = before.files := same .files (by simp)
  refine kept.of_versions (same .snapshots (by simp))
    (same .snapshotFiles (by simp)) (same .snapshotDirs (by simp))
    fun row _ _ version found => ?_
  rw [sameFiles, found]

theorem apply {action : CatalogAction} (spares : SparesSnapshot id before action)
    (applied : before.apply action = .ok after) : SnapshotKept first after id := by
  have writes := Catalog.apply_writes applied
  cases action with
  | commitFile path mtime placements =>
    obtain ⟨fileID, published⟩ := map_snd_eq_ok_iff.mp applied
    exact kept.publishFileVersion published
  | createSnapshot name createdAt =>
    obtain ⟨newID, created⟩ := map_snd_eq_ok_iff.mp applied
    exact kept.createSnapshot created
  | deleteSnapshot snapshotID => exact kept.deleteSnapshot spares applied
  | expireSnapshots now =>
    obtain ⟨expired, done⟩ := map_snd_eq_ok_iff.mp applied
    refine kept.expireSnapshots ?_ done
    unfold Catalog.expireSnapshots at done
    cases policy : before.snapshotRetention with
    | none =>
      rw [policy] at done
      cases done
      simp
    | some windows =>
      rw [policy] at done
      obtain ⟨remaining, -, rest⟩ := bind_eq_ok_iff.mp done
      cases rest
      exact spares windows policy
  | gcFileVersions limit => exact kept.gcFileVersions applied
  | commitWriteOpVersion opID path mtime placements =>
    obtain ⟨fileID, committed⟩ := map_snd_eq_ok_iff.mp applied
    exact kept.commitWriteOpVersion committed
  | commitWriteOpVersionWithRetention opID path mtime placements expiresAt =>
    obtain ⟨fileID, committed⟩ := map_snd_eq_ok_iff.mp applied
    exact kept.commitWriteOpVersion (Catalog.commitWithRetention_ok committed).2
  | _ =>
    exact kept.of_frame writes (by simp [CatalogAction.writes])

end SnapshotKept

/-- What callers of the catalog promise of a transaction. -/
def CallerKeeps (before : Catalog) (action : CatalogAction) : Prop :=
  action.PlacementsFit ∧ NamesVlogs before action

/-- The counts are exact and the referenced chunks lie in vlogs. -/
def Referenced (catalog : Catalog) : Prop := Counted catalog ∧ Located catalog

theorem Referenced.empty : Referenced Catalog.empty :=
  ⟨Counted.empty, fun _ present => by cases present⟩

theorem Referenced.step {before after : Catalog} {action : CatalogAction}
    (holds : Referenced before) (stepped : CatalogStep before action after)
    (promised : CallerKeeps before action) : Referenced after := by
  rcases stepped with applied | rfl
  · exact ⟨holds.1.apply promised.1 applied, holds.2.apply holds.1 promised.1 promised.2 applied⟩
  · exact holds

/-- A snapshot reads as in the catalog it was taken in, and its chunks have
rows in existing vlogs. -/
structure SnapshotReadsSame (first later : Catalog) (id : Nat) : Prop where
  stat : ∀ path, later.snapshotStat id path = first.snapshotStat id path
  list : ∀ path, later.listSnapshotDir id path = first.listSnapshotDir id path
  extents : ∀ path, ∃ placements original,
    later.fileVersionChunks (later.openSnapshotFile id path) = .ok placements ∧
    first.fileVersionChunks (first.openSnapshotFile id path) = .ok original ∧
    placements.map extentIdentity = original.map extentIdentity ∧
    ∀ placement ∈ placements, ∃ row ∈ later.chunks.rows,
      row.hash = placement.hash ∧ row.vlogID = placement.vlogID ∧ later.vlogs.has row.vlogID = true

theorem createSnapshot_recorded {before created : Catalog} {name : String} {createdAt : Int}
    {id : Nat} (taken : before.createSnapshot name createdAt = .ok (id, created)) :
    created.snapshots.has id = true := by
  rw [KeyedTable.has_iff]
  rcases Catalog.createSnapshot_ok taken with
    ⟨existing, present, -, rfl, rfl⟩ | ⟨-, rfl, files, filing, listing⟩
  · exact ⟨existing, present, rfl⟩
  have filed : OnlyWrites [.snapshotFiles, .chunks] (before.withSnapshot name createdAt) files :=
    foldlM_ok_invariant
      (fun _ _ _ _ writes added =>
        writes.trans (Catalog.snapshotHead_writes added)) .refl filing
  have listed : OnlyWrites [.snapshotDirs] files created := by
    refine foldlM_ok_invariant (fun start dir next _ writes added => ?_) .refl listing
    obtain ⟨snapshotDirs, -, rfl⟩ := Catalog.snapshotDir_ok added
    exact writes.trans (.of_patch rfl)
  have sameSnapshots : created.snapshots = (before.withSnapshot name createdAt).snapshots :=
    (listed .snapshots (by simp)).trans (filed .snapshots (by simp))
  rw [sameSnapshots]
  exact ⟨⟨before.snapshots.last + 1, name, createdAt⟩,
    (SequencedTable.mem_append _ _ _ _).mpr (Or.inr rfl), rfl⟩

theorem SnapshotKept.refl {catalog : Catalog} {id : Nat} (counted : Counted catalog)
    (recorded : catalog.snapshots.has id = true) :
    SnapshotKept catalog catalog id := by
  refine ⟨recorded, rfl, rfl, fun row present _ => ?_⟩
  obtain ⟨version, found⟩ := counted.versions row.fileID (Or.inr (Or.inl ⟨row, present, rfl⟩))
  exact ⟨version, found, found⟩

theorem SnapshotKept.extents {first later : Catalog} {id : Nat} (kept : SnapshotKept first later id)
    (firstHolds : Counted first) (holds : Referenced later) (path : Path) :
    ∃ placements original, later.fileVersionChunks (later.openSnapshotFile id path) =
        .ok placements ∧
      first.fileVersionChunks (first.openSnapshotFile id path) = .ok original ∧
      placements.map extentIdentity = original.map extentIdentity ∧
      ∀ placement ∈ placements, ∃ row ∈ later.chunks.rows,
        row.hash = placement.hash ∧ row.vlogID = placement.vlogID ∧
          later.vlogs.has row.vlogID = true := by
  rw [kept.openSnapshotFile_eq]
  by_cases zero : first.openSnapshotFile id path = 0
  · refine ⟨[], [], ?_, ?_, rfl, by simp⟩
    · rw [Catalog.fileVersionChunks, if_pos zero]
    · rw [Catalog.fileVersionChunks, if_pos zero]
  obtain ⟨row, present, own, sameFile⟩ : ∃ row ∈ first.snapshotFiles.rows, row.snapshotID = id ∧
        first.openSnapshotFile id path = row.fileID := by
    unfold Catalog.openSnapshotFile at zero ⊢
    cases found : first.snapshotFiles.find? (id, path) with
    | none =>
      rw [found] at zero
      exact absurd rfl zero
    | some row =>
      obtain ⟨present, keys⟩ := (KeyedTable.find?_eq_some_iff _ _ _).mp found
      exact ⟨row, present, (Prod.mk.inj keys).1, rfl⟩
  rw [sameFile] at zero ⊢
  obtain ⟨version, inFirst, inLater⟩ := kept.versions row present own
  obtain ⟨original, resolved, originalExtents, -⟩ :=
    firstHolds.fileVersionChunks (Or.inr (Or.inl ⟨row, present, rfl⟩)) inFirst zero
  obtain ⟨placements, resolvedLater, extents, rows⟩ := holds.1.fileVersionChunks
      (Or.inr (Or.inl ⟨row, (kept.mem_files_iff own).mpr present, rfl⟩))
      inLater zero
  refine ⟨placements, original, resolvedLater, resolved,
    extents.trans originalExtents.symm, fun placement member => ?_⟩
  obtain ⟨chunk, chunkIn, sameHash, sameVlog, positive⟩ := rows placement member
  exact ⟨chunk, chunkIn, sameHash, sameVlog, holds.2 chunk chunkIn positive⟩

/-- A snapshot taken in any reachable catalog reads the same in every state of
every continuation that does not delete or expire it. -/
theorem snapshot_reads_stay {earlier later : List (CatalogAction × Catalog)}
    {created : Catalog} {name : String} {createdAt : Int} {id : Nat}
    (isRun : IsRun CatalogStep Catalog.empty
      (earlier ++ (.createSnapshot name createdAt, created) :: later))
    (taken : (lastState Catalog.empty earlier).createSnapshot name createdAt = .ok (id, created))
    (promised : AllSteps CallerKeeps Catalog.empty
      (earlier ++ (.createSnapshot name createdAt, created) :: later))
    (spared : AllSteps (SparesSnapshot id) created later) :
    AllStates (fun catalog => SnapshotReadsSame created catalog id) created
      later := by
  obtain ⟨isEarlier, stepped, isLater⟩ := (isRun_append_iff _ _ _ _).mp isRun
  obtain ⟨promisedEarlier, promisedTaken, promisedLater⟩ :=
    (allSteps_append_iff _ _ _ _).mp promised
  have before : Referenced (lastState Catalog.empty earlier) :=
    (isEarlier.allStates_of_allSteps
      (fun _ _ _ holds stepped promised => holds.step stepped promised)
      Referenced.empty promisedEarlier).lastState
  have atCreation : Referenced created := before.step stepped promisedTaken
  have recorded := createSnapshot_recorded taken
  have kept : AllStates (fun catalog => Referenced catalog ∧
      SnapshotKept created catalog id) created later := by
    refine isLater.allStates_of_allSteps (fun start action next holds stepped guards => ?_)
      ⟨atCreation, .refl atCreation.1 recorded⟩ (promisedLater.and spared)
    refine ⟨holds.1.step stepped guards.1, ?_⟩
    rcases stepped with applied | rfl
    · exact holds.2.apply guards.2 applied
    · exact holds.2
  have reads : ∀ catalog, Referenced catalog ∧ SnapshotKept created catalog id →
      SnapshotReadsSame created catalog id := fun catalog holds =>
    ⟨holds.2.snapshotStat_eq recorded, holds.2.listSnapshotDir_eq recorded,
      holds.2.extents atCreation.1 holds.1⟩
  exact ⟨reads created kept.1, fun entry member =>
    reads entry.2 (kept.2 entry member)⟩

/-- The file of a snapshot is removed and the collectors run. -/
theorem snapshot_reads_stay_after_unlink :
    let earlier := Catalog.empty.runAll
      [.makeVlog ⟨0, 0, .duplicate, 1, 0, 0, 0, [], 1, false⟩,
        .commitFile (ascii ['a']) 3 [⟨List.replicate 15 7, 1, 0, 5, 5⟩]]
    ∃ created id, (lastState Catalog.empty earlier).createSnapshot "s" 0 = .ok (id, created) ∧
      AllStates (fun catalog => SnapshotReadsSame created catalog id) created
        (created.runAll [.unlinkFile (ascii ['a']), .gcChunks [], .gcFileVersions 9]) := by
  intro earlier
  cases taken : (lastState Catalog.empty earlier).createSnapshot "s" 0 with
  | error reason =>
    have succeeds : (match (lastState Catalog.empty earlier).createSnapshot
        "s" 0 with | .ok _ => true | .error _ => false) = true := by
      decide +kernel
    rw [taken] at succeeds
    cases succeeds
  | ok outcome =>
    obtain ⟨id, created⟩ := outcome
    have stepped : CatalogStep (lastState Catalog.empty earlier) (.createSnapshot "s" 0) created :=
      Or.inl (map_snd_eq_ok_iff.mpr ⟨id, taken⟩)
    refine ⟨created, id, rfl, snapshot_reads_stay
      ((isRun_append_iff _ _ _ _).mpr ⟨Catalog.isRun_runAll _ _, stepped,
        Catalog.isRun_runAll _ _⟩) taken
      ((allSteps_append_iff _ _ _ _).mpr
        ⟨⟨⟨trivial, trivial⟩, ⟨?_, ?_⟩, trivial⟩, ⟨trivial, trivial⟩,
          ⟨trivial, trivial⟩, ⟨trivial, trivial⟩, ⟨trivial, trivial⟩,
          trivial⟩) ⟨trivial, trivial, trivial, trivial⟩⟩
    · intro placement member
      rw [List.mem_singleton.mp member]
      rfl
    · intro placement member
      rw [List.mem_singleton.mp member]
      rfl

end Rose
