import Rose.ReferenceRuns

/-!
# Where the live chunks lie

Callers publish placements in existing vlogs and relocate chunks to existing
vlogs.  The catalog then keeps every referenced chunk in an existing vlog: a
vlog is dropped only when no referenced row names it.
-/

namespace Rose

open FallibleActions

/-- Every referenced row names an existing vlog. -/
def LiveIn (chunks : KeyedTable ChunkRow.hash) (vlogs : SequencedTable VlogRow.id) : Prop :=
  ∀ row ∈ chunks.rows, 0 < row.refcount → vlogs.has row.vlogID = true

namespace LiveIn

variable {chunks : KeyedTable ChunkRow.hash} {vlogs : SequencedTable VlogRow.id}

variable (live : LiveIn chunks vlogs)
include live

theorem release (hash : Bytes) : LiveIn (addChunkRefs (-1) chunks hash) vlogs := by
  intro row present positive
  obtain ⟨old, oldIn, rfl⟩ := (KeyedTable.mem_change _ _ _ _).mp present
  split_ifs at positive ⊢
  · exact live old oldIn (by dsimp only at positive; omega)
  · exact live old oldIn positive

theorem hold {hash : Bytes} (counted : 0 < chunkRefs chunks hash) :
    LiveIn (addChunkRefs 1 chunks hash) vlogs := by
  intro row present positive
  obtain ⟨old, oldIn, rfl⟩ := (KeyedTable.mem_change _ _ _ _).mp present
  split_ifs at positive ⊢ with same
  · refine live old oldIn ?_
    rw [← same] at counted
    exact (chunks.weightAt_of_mem ChunkRow.refcount oldIn) ▸ counted
  · exact live old oldIn positive

theorem releaseAll (blob : Bytes) : LiveIn (adjustChunkRefs chunks blob (-1)) vlogs := by
  unfold adjustChunkRefs
  induction chunkHashes blob generalizing chunks with
  | nil => exact live
  | cons hash hashes ih => exact ih (live.release hash)

theorem holdHashes {hashes : List Bytes} (counted : ∀ hash ∈ hashes, 0 < chunkRefs chunks hash) :
    LiveIn (hashes.foldl (addChunkRefs 1) chunks) vlogs := by
  induction hashes generalizing chunks with
  | nil => exact live
  | cons hash hashes ih =>
    refine ih (live.hold (counted hash (by simp))) fun other member => ?_
    have present : hash ∈ chunks.keys := by
      by_contra absent
      have zero : chunkRefs chunks hash = 0 := KeyedTable.weightAt_of_not_mem_keys _ _ absent
      have positive := counted hash (by simp)
      omega
    rw [chunkRefs_addChunkRefs present]
    have positive := counted other (by simp [member])
    split_ifs <;> omega

theorem holdAll {blob : Bytes} (counted : ∀ hash ∈ chunkHashes blob, 0 < chunkRefs chunks hash) :
    LiveIn (adjustChunkRefs chunks blob 1) vlogs :=
  live.holdHashes counted

theorem upsert {placement : ChunkPlacement} (known : vlogs.has placement.vlogID = true) :
    LiveIn (upsertChunkRef chunks placement) vlogs := by
  intro row present positive
  unfold upsertChunkRef at present
  cases found : chunks.find? placement.hash with
  | none =>
    rw [found] at present
    rcases (KeyedTable.mem_put _ _ _).mp present with ⟨old, -⟩ | rfl
    · exact live row old positive
    · exact known
  | some old =>
    obtain ⟨oldIn, -⟩ := (KeyedTable.find?_eq_some_iff _ _ _).mp found
    rw [found] at present
    simp only at present
    split_ifs at present with dead
    · rcases (KeyedTable.mem_put _ _ _).mp present with ⟨same, -⟩ | rfl
      · exact live row same positive
      · exact known
    · rcases (KeyedTable.mem_put _ _ _).mp present with ⟨same, -⟩ | rfl
      · exact live row same positive
      · exact live old oldIn (by dsimp only at positive; omega)

theorem upsertAll {placements : List ChunkPlacement}
    (known : ∀ placement ∈ placements, vlogs.has placement.vlogID = true) :
    LiveIn (upsertChunkRefs chunks placements) vlogs := by
  unfold upsertChunkRefs
  induction placements generalizing chunks with
  | nil => exact live
  | cons placement placements ih =>
    exact ih (live.upsert (known placement (by simp)))
      fun other member => known other (by simp [member])

end LiveIn

/-- The catalog's referenced chunks lie in its vlogs. -/
def Located (catalog : Catalog) : Prop := LiveIn catalog.chunks catalog.vlogs

/-- The vlogs that a caller names exist. -/
def NamesVlogs (before : Catalog) : CatalogAction → Prop
  | .commitFile _ _ placements =>
    ∀ placement ∈ placements, before.vlogs.has placement.vlogID = true
  | .commitWriteOpVersion _ _ _ placements =>
    ∀ placement ∈ placements, before.vlogs.has placement.vlogID = true
  | .commitWriteOpVersionWithRetention _ _ _ placements _ =>
    ∀ placement ∈ placements, before.vlogs.has placement.vlogID = true
  | .relocateChunk _ destVlog _ => before.vlogs.has destVlog = true
  | _ => True

namespace Located

variable {before after : Catalog}

variable (located : Located before)
include located

theorem of_same (chunks : after.chunks = before.chunks) (vlogs : after.vlogs = before.vlogs) :
    Located after := by
  unfold Located at located ⊢
  rwa [chunks, vlogs]

theorem of_keep {kept : ChunkRow → Bool} (chunks : after.chunks = before.chunks.keep kept)
    (vlogs : after.vlogs = before.vlogs) : Located after := by
  unfold Located
  rw [chunks, vlogs]
  intro row present
  exact located row ((KeyedTable.mem_keep _ _ _).mp present).1

theorem of_vlogs (chunks : after.chunks = before.chunks)
    (vlogs : ∀ vlogID, before.vlogs.has vlogID = true → after.vlogs.has vlogID = true) :
    Located after := by
  unfold Located
  rw [chunks]
  intro row present positive
  exact vlogs row.vlogID (located row present positive)

theorem releaseHead {path : Path} (released : before.releaseHead path = .ok after) :
    Located after := by
  rcases Catalog.releaseHead_ok released with ⟨-, rfl⟩ | ⟨head, -, adjusted⟩
  · exact located
  · obtain ⟨version, -, rfl⟩ := Catalog.adjustVersionRefs_ok adjusted
    exact located.releaseAll version.chunks

theorem holdVersion (counted : Counted before) {fileID : Nat} (rooted : before.Roots fileID)
    (adjusted : before.adjustVersionRefs fileID 1 = .ok after) : Located after := by
  obtain ⟨version, found, rfl⟩ := Catalog.adjustVersionRefs_ok adjusted
  refine located.holdAll fun hash member => ?_
  have bound := versionUses_le_rootUses rooted hash
  rw [versionUses_of_find? found, ← counted.refs] at bound
  have occurs := List.count_pos_iff.mpr member
  omega

theorem publishFileVersion {path : Path} {mtime : Int} {placements : List ChunkPlacement}
    {id : Nat} (known : ∀ placement ∈ placements, before.vlogs.has placement.vlogID = true)
    (published : before.publishFileVersion path mtime placements = .ok (id, after)) :
    Located after := by
  obtain ⟨-, -, -, released, releasing, ensuring⟩ := Catalog.publishFileVersion_ok published
  have sameVlogs : released.vlogs = before.vlogs :=
    Catalog.releaseHead_writes releasing .vlogs (by simp)
  have ensures := Catalog.ensureDirs_writes ensuring
  have recorded : Located (released.withVersion (cleanPath path) mtime placements) := by
    refine (located.releaseHead releasing).upsertAll ?_
    rw [sameVlogs]
    exact known
  exact recorded.of_same (ensures .chunks (by simp)) (ensures .vlogs (by simp))

theorem unlinkFile {path : Path} (unlinked : before.unlinkFile path = .ok after) :
    Located after := by
  obtain ⟨released, releasing, rfl⟩ := Catalog.unlinkFile_ok unlinked
  have cancelled : Located (before.cancelPrepared (· == cleanPath path)) := located.of_same rfl rfl
  exact (cancelled.releaseHead releasing).of_same rfl rfl

theorem renameFile {oldPath newPath : Path} {now : Int}
    (renamed : before.renameFile oldPath newPath now = .ok after) : Located after := by
  by_cases same : cleanPath oldPath = cleanPath newPath
  · rw [Catalog.renameFile_same same renamed]
    exact located
  have rebound : Located (before.rebound (cleanPath oldPath)
      (cleanPath newPath)) := located.of_same rfl rfl
  obtain ⟨-, -, -, ⟨-, moved⟩ | ⟨head, -, moved⟩⟩ := Catalog.renameFile_ok same renamed
  · rw [moved.frame]
    exact rebound.of_same rfl rfl
  · obtain ⟨-, released, releasing, ensuring⟩ := Catalog.renameHead_ok moved
    have ensures := Catalog.ensureDirs_writes ensuring
    exact (rebound.releaseHead releasing).of_same (ensures .chunks (by simp))
      (ensures .vlogs (by simp))

theorem snapshotHead (counted : Counted before) {snapshotID : Nat} {head : FileHead}
    (present : head ∈ before.heads.rows) (added : before.snapshotHead snapshotID head = .ok after) :
    Located after := by
  obtain ⟨snapshotFiles, -, adjusting⟩ := Catalog.snapshotHead_ok added
  obtain ⟨version, found, rfl⟩ := Catalog.adjustVersionRefs_ok adjusting
  have held : before.adjustVersionRefs head.fileID 1 = .ok
      { before with
        chunks := adjustChunkRefs before.chunks version.chunks 1 } := by
    unfold Catalog.adjustVersionRefs Catalog.fileChunks
    have found : before.files.find? head.fileID = some version := found
    rw [found]
    rfl
  exact (located.holdVersion counted (Or.inl ⟨head, present, rfl⟩) held).of_same rfl rfl

theorem createSnapshot (counted : Counted before) {name : String} {createdAt : Int} {id : Nat}
    (created : before.createSnapshot name createdAt = .ok (id, after)) : Located after := by
  have both : Counted after ∧ Located after := by
    refine @Catalog.createSnapshot_keeps _ _ _ _ _ created
      (fun catalog => Counted catalog ∧ Located catalog) ⟨counted, located⟩
      ⟨counted.of_same rfl rfl rfl rfl fun _ => rfl, located.of_same rfl rfl⟩
      (fun _ _ _ present holds added => ⟨holds.1.snapshotHead present added,
        holds.2.snapshotHead holds.1 present added⟩) fun _ _ _ holds added => ?_
    obtain ⟨snapshotDirs, -, rfl⟩ := Catalog.snapshotDir_ok added
    exact ⟨holds.1.of_same rfl rfl rfl rfl fun _ => rfl, holds.2.of_same rfl rfl⟩
  exact both.2

theorem deleteSnapshot {snapshotID : Nat} (deleted : before.deleteSnapshot snapshotID = .ok after) :
    Located after := by
  obtain ⟨released, releasing, writes, rfl⟩ := Catalog.deleteSnapshot_ok deleted
  have keeps : ∀ start row next, row ∈ before.snapshotFiles.rows.filter
      (fun row => decide (row.snapshotID = snapshotID)) → Located start →
      Catalog.adjustVersionRefs start row.fileID (-1) = .ok next → Located next := by
    intro start row next _ holds adjusted
    obtain ⟨version, -, rfl⟩ := Catalog.adjustVersionRefs_ok adjusted
    exact holds.releaseAll version.chunks
  have held : Located released := foldlM_ok_invariant keeps located releasing
  exact held.of_same rfl (writes .vlogs (by simp)).symm

theorem retainUntil (counted : Counted before) {opID fileID : Nat} {expiresAt : Int}
    (rooted : before.Roots fileID)
    (retained : before.retainUntil opID fileID expiresAt = .ok after) : Located after := by
  rcases Catalog.retainUntil_ok retained with ⟨-, rfl⟩ | ⟨-, held, resultRoots, holding, -, rfl⟩
  · exact located
  · have sameVlogs : held.vlogs = before.vlogs :=
      Catalog.adjustVersionRefs_writes holding .vlogs (by simp)
    exact (located.holdVersion counted rooted holding).of_same rfl sameVlogs.symm

theorem commitWriteOpVersion (counted : Counted before) {opID fileID : Nat} {path : Path}
    {mtime expiresAt : Int} {placements : List ChunkPlacement} (fit : HashesFit placements)
    (known : ∀ placement ∈ placements, before.vlogs.has placement.vlogID = true)
    (committed : before.commitWriteOpVersion opID path mtime placements
      expiresAt = .ok (fileID, after)) : Located after := by
  obtain ⟨op, -, ⟨-, -, rfl⟩ | ⟨-, published, retained, publishing, retaining, rfl⟩⟩ :=
    Catalog.commitWriteOpVersion_ok committed
  · exact located
  · have rooted : published.Roots fileID := Or.inl (Catalog.publishFileVersion_head publishing)
    exact ((located.publishFileVersion known publishing).retainUntil
      (counted.publishFileVersion fit publishing) rooted
      retaining).of_same rfl rfl

theorem expireWriteResults {now : Int} {count : Nat}
    (done : before.expireWriteResults now = .ok (count, after)) : Located after := by
  obtain ⟨elapsed, -, -, expiring⟩ := Catalog.expireWriteResults_ok done
  refine foldlM_ok_invariant (fun start root next _ holds expired => ?_) located expiring
  obtain ⟨-, released, releasing, rfl⟩ := Catalog.expireRoot_ok expired
  obtain ⟨version, -, rfl⟩ := Catalog.adjustVersionRefs_ok releasing
  exact holds.releaseAll version.chunks

theorem retireVlog {vlogID : Nat} (retired : before.retireVlog vlogID = .ok after) :
    Located after := by
  obtain ⟨-, -, chunks, vlogs, -⟩ := Catalog.retireVlog_ok retired
  unfold Located
  rw [chunks, vlogs]
  intro row present positive
  obtain ⟨old, other⟩ := (KeyedTable.mem_keep _ _ _).mp present
  obtain ⟨vlog, vlogIn, same⟩ := (KeyedTable.has_iff _ _).mp (located row old positive)
  refine (KeyedTable.has_iff _ _).mpr ⟨vlog, ?_, same⟩
  refine (SequencedTable.mem_keep _ _ _).mpr ⟨vlogIn, ?_⟩
  rw [same]
  exact other

theorem discardEmptyVlog {vlogID : Nat} (discarded : before.discardEmptyVlog vlogID = .ok after) :
    Located after := by
  obtain ⟨empty, rfl⟩ := Catalog.discardEmptyVlog_ok discarded
  intro row present positive
  obtain ⟨vlog, vlogIn, same⟩ := (KeyedTable.has_iff _ _).mp (located row present positive)
  refine (KeyedTable.has_iff _ _).mpr ⟨vlog, ?_, same⟩
  refine (SequencedTable.mem_keep _ _ _).mpr ⟨vlogIn, ?_⟩
  rw [same]
  simpa using empty row present

theorem relocateChunk {hash : Bytes} {destVlog newOffset : Nat}
    (known : before.vlogs.has destVlog = true) :
    Located (before.relocateChunk hash destVlog newOffset) := by
  intro row present positive
  obtain ⟨old, oldIn, rfl⟩ := List.mem_map.mp present
  split_ifs at positive ⊢
  · exact known
  · exact located old oldIn positive

theorem apply {action : CatalogAction} (counted : Counted before) (fit : action.PlacementsFit)
    (known : NamesVlogs before action) (applied : before.apply action = .ok after) :
    Located after := by
  have writes := Catalog.apply_writes applied
  cases action with
  | commitFile path mtime placements =>
    obtain ⟨id, published⟩ := map_snd_eq_ok_iff.mp applied
    exact located.publishFileVersion known published
  | unlinkFile path => exact located.unlinkFile applied
  | renameFile oldPath newPath now => exact located.renameFile applied
  | createSnapshot name createdAt =>
    obtain ⟨id, created⟩ := map_snd_eq_ok_iff.mp applied
    exact located.createSnapshot counted created
  | deleteSnapshot snapshotID => exact located.deleteSnapshot applied
  | expireSnapshots now =>
    obtain ⟨expired, done⟩ := map_snd_eq_ok_iff.mp applied
    exact foldlM_ok_invariant (fun _ _ _ _ holds deleted => holds.deleteSnapshot deleted) located
      (Catalog.expireSnapshots_ok done)
  | gcChunks pinned =>
    cases applied
    exact located.of_keep rfl rfl
  | commitWriteOpVersion opID path mtime placements =>
    obtain ⟨fileID, committed⟩ := map_snd_eq_ok_iff.mp applied
    exact located.commitWriteOpVersion counted fit known committed
  | commitWriteOpVersionWithRetention opID path mtime placements expiresAt =>
    obtain ⟨fileID, committed⟩ := map_snd_eq_ok_iff.mp applied
    exact located.commitWriteOpVersion counted fit known
      (Catalog.commitWithRetention_ok committed).2
  | expireWriteResults now =>
    obtain ⟨count, done⟩ := map_snd_eq_ok_iff.mp applied
    exact located.expireWriteResults done
  | makeVlog build =>
    cases applied
    refine located.of_vlogs rfl fun vlogID has => ?_
    obtain ⟨row, present, same⟩ := (KeyedTable.has_iff _ _).mp has
    exact (KeyedTable.has_iff _ _).mpr ⟨row,
      (SequencedTable.mem_append _ _ _ _).mpr (Or.inl present), same⟩
  | setVlogLength vlogID length =>
    cases applied
    refine located.of_vlogs rfl fun vlogID has => ?_
    unfold Catalog.setVlogLength
    rwa [SequencedTable.has_change]
  | discardEmptyVlog vlogID => exact located.discardEmptyVlog applied
  | relocateChunk hash destVlog newOffset =>
    cases applied
    exact located.relocateChunk known
  | retireVlog vlogID => exact located.retireVlog applied
  | setJobDest jobID destVlog =>
    obtain ⟨-, vlogs⟩ := Catalog.setJobDest_ok applied
    refine located.of_vlogs (writes .chunks (by simp [CatalogAction.writes])) fun vlogID has => ?_
    rwa [vlogs, SequencedTable.has_change]
  | _ =>
    exact located.of_same (writes .chunks (by simp [CatalogAction.writes]))
      (writes .vlogs (by simp [CatalogAction.writes]))

end Located

end Rose
