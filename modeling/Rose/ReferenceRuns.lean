import Rose.ReferenceCounts

/-!
# Reference counts over whole runs

Snapshots, the collectors, retained results and relocations keep the counts
exact; with the namespace transactions this holds in every run of the catalog.
-/

namespace Rose

open FallibleActions LabelledRuns

namespace Counted

variable {before after : Catalog}

section Snapshots

variable (counted : Counted before)
include counted

theorem snapshotHead {snapshotID : Nat} {head : FileHead} (present : head ∈ before.heads.rows)
    (added : before.snapshotHead snapshotID head = .ok after) : Counted after := by
  have writes := Catalog.snapshotHead_writes added
  obtain ⟨snapshotFiles, adding, adjusting⟩ := Catalog.snapshotHead_ok added
  have heads : after.heads = before.heads := writes .heads (by simp)
  have roots : after.resultRoots = before.resultRoots := writes .resultRoots (by simp)
  have files : after.snapshotFiles = snapshotFiles :=
    Catalog.adjustVersionRefs_writes adjusting .snapshotFiles (by simp)
  have rooted : before.Roots head.fileID := Or.inl ⟨head, present, rfl⟩
  refine counted.of_roots (writes .files (by simp)) ?_ fun hash => ?_
  · rintro fileID (⟨other, otherIn, rfl⟩ | ⟨row, rowIn, rfl⟩ | kept)
    · rw [heads] at otherIn
      exact Or.inl ⟨other, otherIn, rfl⟩
    · rw [files, KeyedTable.mem_of_add? adding] at rowIn
      rcases rowIn with old | rfl
      · exact Or.inr (Or.inl ⟨row, old, rfl⟩)
      · exact rooted
    · rw [roots] at kept
      exact Or.inr (Or.inr kept)
  · obtain ⟨version, found, rfl⟩ := Catalog.adjustVersionRefs_ok adjusting
    have found : before.files.find? head.fileID = some version := found
    rw [heads, roots, files, KeyedTable.total_of_add? adding]
    have counts := chunkRefs_adjustChunkRefs (counted.hashes_present rooted found) 1 hash
    rw [counted.refs, ← versionUses_of_find? found] at counts
    refine counts.trans ?_
    unfold Catalog.rootUses
    dsimp only
    omega

theorem createSnapshot {name : String} {createdAt : Int} {id : Nat}
    (created : before.createSnapshot name createdAt = .ok (id, after)) : Counted after := by
  refine Catalog.createSnapshot_keeps created counted (counted.of_same rfl rfl rfl rfl fun _ => rfl)
    (fun _ _ _ present holds added => holds.snapshotHead present added) fun _ _ _ holds added => ?_
  obtain ⟨snapshotDirs, -, rfl⟩ := Catalog.snapshotDir_ok added
  exact holds.of_same rfl rfl rfl rfl fun _ => rfl

/-- Releasing held versions one by one takes all their uses off the counts. -/
theorem release_all {Row : Type} {fileID : Row → Nat} {rows : List Row}
    (rooted : ∀ row ∈ rows, before.Roots (fileID row)) {start released : Catalog}
    (releasing : rows.foldlM
      (fun catalog row => Catalog.adjustVersionRefs catalog (fileID row) (-1))
      start = .ok released) (files : start.files = before.files)
    (keys : start.chunks.keys = before.chunks.keys) (hash : Bytes) :
    chunkRefs released.chunks hash = chunkRefs start.chunks hash -
      (rows.map fun row => before.versionUses hash (fileID row)).sum := by
  induction rows generalizing start with
  | nil =>
    cases releasing
    simp
  | cons row rows ih =>
    rw [List.foldlM_cons, bind_eq_ok_iff] at releasing
    obtain ⟨middle, first, rest⟩ := releasing
    obtain ⟨version, found, rfl⟩ := Catalog.adjustVersionRefs_ok first
    rw [files] at found
    have present : ∀ hash ∈ chunkHashes version.chunks, hash ∈ start.chunks.keys := by
      rw [keys]
      exact counted.hashes_present (rooted row (by simp)) found
    rw [ih (fun other member => rooted other (by simp [member])) rest files
      ((keys_adjustChunkRefs present (-1)).trans keys),
      chunkRefs_adjustChunkRefs present, List.map_cons, List.sum_cons,
      versionUses_of_find? found]
    omega

theorem deleteSnapshot {snapshotID : Nat} (deleted : before.deleteSnapshot snapshotID = .ok after) :
    Counted after := by
  obtain ⟨released, releasing, -, rfl⟩ := Catalog.deleteSnapshot_ok deleted
  refine counted.of_roots rfl ?_ fun hash => ?_
  · rintro fileID (head | ⟨row, rowIn, rfl⟩ | root)
    · exact Or.inl head
    · exact Or.inr (Or.inl ⟨row, ((KeyedTable.mem_keep _ _ _).mp rowIn).1, rfl⟩)
    · exact Or.inr (Or.inr root)
  · have rooted : ∀ row ∈ before.snapshotFiles.rows.filter
        (fun row => decide (row.snapshotID = snapshotID)),
        before.Roots row.fileID := fun row member =>
      Or.inr (Or.inl ⟨row, (List.mem_filter.mp member).1, rfl⟩)
    have counts := counted.release_all rooted releasing rfl rfl hash
    have split := before.snapshotFiles.total_keep_add
      (fun row => decide (row.snapshotID ≠ snapshotID))
      (fun row => before.versionUses hash row.fileID)
    have sameRows : (before.snapshotFiles.rows.filter
        fun row => !decide (row.snapshotID ≠ snapshotID)) =
        before.snapshotFiles.rows.filter fun row => decide (row.snapshotID = snapshotID) := by
      simp
    rw [sameRows] at split
    rw [counted.refs] at counts
    unfold Catalog.rootUses at counts
    refine counts.trans ?_
    dsimp only
    omega

theorem expireSnapshots {now : Int} {expired : List Nat}
    (done : before.expireSnapshots now = .ok (expired, after)) : Counted after :=
  foldlM_ok_invariant (fun _ _ _ _ holds deleted => holds.deleteSnapshot deleted)
    counted (Catalog.expireSnapshots_ok done)

end Snapshots

section Collection

variable (counted : Counted before)
include counted

theorem of_chunks (writes : OnlyWrites [.vlogs, .leases, .chunks, .jobs] before after)
    (chunks : ∀ hash, chunkRefs after.chunks hash = chunkRefs before.chunks hash) : Counted after :=
  counted.of_same (writes .files (by simp)) (writes .heads (by simp))
    (writes .snapshotFiles (by simp)) (writes .resultRoots (by simp)) chunks

theorem refcount_eq {row : ChunkRow} (present : row ∈ before.chunks.rows) :
    row.refcount = before.rootUses row.hash := by
  rw [← counted.refs]
  exact (before.chunks.weightAt_of_mem _ present).symm

theorem chunkRefs_keep {kept : ChunkRow → Bool}
    (dead : ∀ row ∈ before.chunks.rows, kept row = false → row.refcount ≤ 0) (hash : Bytes) :
    chunkRefs (before.chunks.keep kept) hash = chunkRefs before.chunks hash := by
  refine before.chunks.weightAt_keep kept _ (fun row present deleted => ?_) hash
  have atMost := dead row present deleted
  have atLeast := rootUses_nonneg before row.hash
  rw [← counted.refcount_eq present] at atLeast
  omega

theorem gcChunks (pinned : List Bytes) : Counted (before.gcChunks pinned) := by
  refine counted.of_chunks (.of_patch rfl) ?_
  refine counted.chunkRefs_keep fun row _ deleted => ?_
  simp only [Bool.or_eq_false_iff, Bool.not_eq_false', decide_eq_true_eq] at deleted
  exact deleted.1

theorem gcFileVersions {limit : Nat} (collected : before.gcFileVersions limit = .ok after) :
    Counted after := by
  obtain ⟨files, rfl, subset, spares⟩ := Catalog.gcFileVersions_ok collected
  have owned : ∀ fileID, before.Roots fileID → before.ownsVersion fileID = true := by
    rintro fileID (head | snapshot | root)
    · exact Catalog.ownsVersion_iff.mpr (Or.inl head)
    · exact Catalog.ownsVersion_iff.mpr (Or.inr (Or.inl snapshot))
    · exact Catalog.ownsVersion_iff.mpr (Or.inr (Or.inr (Or.inl root)))
  have found : ∀ fileID, before.Roots fileID → files.find? fileID = before.files.find? fileID := by
    intro fileID rooted
    refine KeyedTable.find?_congr fun row isWanted => ⟨subset row, fun present => ?_⟩
    exact spares row present (isWanted ▸ owned fileID rooted)
  constructor
  · intro hash
    refine (counted.refs hash).trans (Eq.symm ?_)
    refine rootUses_congr ?_ ?_ ?_ found hash
    · rfl
    · rfl
    · rfl
  · intro fileID rooted
    obtain ⟨version, known⟩ := counted.versions fileID rooted
    exact ⟨version, (found fileID rooted).trans known⟩

theorem relocateChunk (hash : Bytes) (destVlog newOffset : Nat) :
    Counted (before.relocateChunk hash destVlog newOffset) := by
  refine counted.of_chunks (.of_patch rfl) fun other => ?_
  unfold chunkRefs Catalog.relocateChunk
  rw [KeyedTable.weightAt_change]
  refine before.chunks.weightAt_congr (fun row _ => ?_) other
  split_ifs <;> rfl

theorem retireVlog {vlogID : Nat} (retired : before.retireVlog vlogID = .ok after) :
    Counted after := by
  obtain ⟨dead, writes, chunks, -, -⟩ := Catalog.retireVlog_ok retired
  refine counted.of_chunks writes fun hash => ?_
  rw [chunks]
  refine counted.chunkRefs_keep (fun row present deleted => ?_) hash
  exact dead row present (by simpa using deleted)

end Collection

section Results

variable (counted : Counted before)
include counted

theorem retainUntil {opID fileID : Nat} {expiresAt : Int} (rooted : before.Roots fileID)
    (retained : before.retainUntil opID fileID expiresAt = .ok after) : Counted after := by
  rcases Catalog.retainUntil_ok retained with ⟨-, rfl⟩ |
    ⟨-, counts, resultRoots, counting, adding, rfl⟩
  · exact counted
  refine counted.of_roots rfl ?_ fun hash => ?_
  · rintro other (head | snapshot | ⟨root, rootIn, rfl⟩)
    · exact Or.inl head
    · exact Or.inr (Or.inl snapshot)
    · rcases (KeyedTable.mem_of_add? adding root).mp rootIn with old | rfl
      · exact Or.inr (Or.inr ⟨root, old, rfl⟩)
      · exact rooted
  · dsimp only
    rw [counted.adjust rooted counting, KeyedTable.total_of_add? adding]
    dsimp only [Catalog.rootUses]
    omega

theorem commitWriteOpVersion {opID fileID : Nat} {path : Path} {mtime expiresAt : Int}
    {placements : List ChunkPlacement} (fit : HashesFit placements)
    (committed : before.commitWriteOpVersion opID path mtime placements
      expiresAt = .ok (fileID, after)) : Counted after := by
  obtain ⟨op, -, ⟨-, -, rfl⟩ | ⟨-, published, retained, publishing, retaining, rfl⟩⟩ :=
    Catalog.commitWriteOpVersion_ok committed
  · exact counted
  · have rooted : published.Roots fileID := Or.inl (Catalog.publishFileVersion_head publishing)
    exact ((counted.publishFileVersion fit publishing).retainUntil rooted
      retaining).of_same rfl rfl rfl rfl fun _ => rfl

theorem expireRoot {root : WriteResultRoot} (present : root ∈ before.resultRoots.rows)
    (expired : before.expireRoot root = .ok after) : Counted after := by
  obtain ⟨-, released, releasing, rfl⟩ := Catalog.expireRoot_ok expired
  refine counted.of_roots rfl ?_ fun hash => ?_
  · rintro fileID (head | snapshot | ⟨other, otherIn, rfl⟩)
    · exact Or.inl head
    · exact Or.inr (Or.inl snapshot)
    · exact Or.inr (Or.inr ⟨other, ((KeyedTable.mem_keep _ _ _).mp otherIn).1, rfl⟩)
  · dsimp only
    rw [counted.adjust (Or.inr (Or.inr ⟨root, present, rfl⟩)) releasing,
      KeyedTable.total_keep_ne, KeyedTable.weightAt_of_mem _ _ present]
    unfold Catalog.rootUses
    omega

theorem expireRoots {elapsed : List WriteResultRoot} (present : elapsed ⊆ before.resultRoots.rows)
    (once : (elapsed.map WriteResultRoot.writeOpID).Nodup)
    (expiring : elapsed.foldlM (fun catalog root => Catalog.expireRoot catalog root) before =
      .ok after) : Counted after := by
  induction elapsed generalizing before with
  | nil =>
    cases expiring
    exact counted
  | cons root elapsed ih =>
    rw [List.foldlM_cons, bind_eq_ok_iff] at expiring
    obtain ⟨middle, expired, rest⟩ := expiring
    rw [List.map_cons, List.nodup_cons] at once
    refine ih (counted.expireRoot (present (by simp)) expired) ?_ once.2 rest
    intro other later
    obtain ⟨-, released, -, rfl⟩ := Catalog.expireRoot_ok expired
    refine (KeyedTable.mem_keep _ _ _).mpr ⟨present (by simp [later]), ?_⟩
    rw [decide_eq_true_eq]
    exact fun same => once.1 (List.mem_map.mpr ⟨other, later, same⟩)

theorem expireWriteResults {now : Int} {count : Nat}
    (done : before.expireWriteResults now = .ok (count, after)) : Counted after := by
  obtain ⟨elapsed, present, once, expiring⟩ := Catalog.expireWriteResults_ok done
  exact counted.expireRoots present once expiring

end Results

end Counted

/-- Content hashes are fifteen bytes of a digest. -/
def CatalogAction.PlacementsFit : CatalogAction → Prop
  | .commitFile _ _ placements => HashesFit placements
  | .commitWriteOpVersion _ _ _ placements => HashesFit placements
  | .commitWriteOpVersionWithRetention _ _ _ placements _ =>
    HashesFit placements
  | _ => True

theorem Counted.apply {before after : Catalog} {action : CatalogAction} (counted : Counted before)
    (fit : action.PlacementsFit) (applied : before.apply action = .ok after) : Counted after := by
  cases action with
  | commitFile path mtime placements =>
    obtain ⟨id, published⟩ := map_snd_eq_ok_iff.mp applied
    exact counted.publishFileVersion fit published
  | unlinkFile path => exact counted.unlinkFile applied
  | renameFile oldPath newPath now => exact counted.renameFile applied
  | setMtime path mtime =>
    cases applied
    exact counted.setMtime path mtime
  | createSnapshot name createdAt =>
    obtain ⟨id, created⟩ := map_snd_eq_ok_iff.mp applied
    exact counted.createSnapshot created
  | deleteSnapshot snapshotID => exact counted.deleteSnapshot applied
  | expireSnapshots now =>
    obtain ⟨expired, done⟩ := map_snd_eq_ok_iff.mp applied
    exact counted.expireSnapshots done
  | gcChunks pinned =>
    cases applied
    exact counted.gcChunks pinned
  | gcFileVersions limit => exact counted.gcFileVersions applied
  | commitWriteOpVersion opID path mtime placements =>
    obtain ⟨fileID, committed⟩ := map_snd_eq_ok_iff.mp applied
    exact counted.commitWriteOpVersion fit committed
  | commitWriteOpVersionWithRetention opID path mtime placements expiresAt =>
    obtain ⟨fileID, committed⟩ := map_snd_eq_ok_iff.mp applied
    exact counted.commitWriteOpVersion fit (Catalog.commitWithRetention_ok committed).2
  | expireWriteResults now =>
    obtain ⟨count, done⟩ := map_snd_eq_ok_iff.mp applied
    exact counted.expireWriteResults done
  | relocateChunk hash destVlog newOffset =>
    cases applied
    exact counted.relocateChunk hash destVlog newOffset
  | retireVlog vlogID => exact counted.retireVlog applied
  | _ =>
    have writes := Catalog.apply_writes applied
    have chunks : after.chunks = before.chunks := writes .chunks (by simp [CatalogAction.writes])
    refine counted.of_same (writes .files (by simp [CatalogAction.writes]))
      (writes .heads (by simp [CatalogAction.writes]))
      (writes .snapshotFiles (by simp [CatalogAction.writes]))
      (writes .resultRoots (by simp [CatalogAction.writes])) fun hash => ?_
    rw [chunks]

theorem Counted.step {before after : Catalog} {action : CatalogAction} (counted : Counted before)
    (stepped : CatalogStep before action after) (fit : action.PlacementsFit) : Counted after := by
  rcases stepped with applied | rfl
  · exact counted.apply fit applied
  · exact counted

/-- Every count is the number of uses, every used hash has a row and every held
version exists. -/
structure ReferencesExact (catalog : Catalog) : Prop where
  refcounts : ∀ row ∈ catalog.chunks.rows, row.refcount = catalog.rootUses row.hash
  chunks : ∀ version ∈ catalog.files.rows, catalog.Roots version.id →
    ∀ hash ∈ chunkHashes version.chunks, catalog.chunks.has hash = true
  versions : ∀ fileID, catalog.Roots fileID → catalog.files.has fileID = true

theorem Counted.referencesExact {catalog : Catalog} (counted : Counted catalog) :
    ReferencesExact catalog := by
  refine ⟨fun row present => counted.refcount_eq present, ?_, ?_⟩
  · intro version present rooted hash member
    rw [KeyedTable.has_iff_mem_keys]
    exact counted.hashes_present rooted (catalog.files.find?_of_mem present) hash member
  · intro fileID rooted
    obtain ⟨version, found⟩ := counted.versions fileID rooted
    rw [KeyedTable.has_iff]
    exact ⟨version, KeyedTable.mem_of_find? found, KeyedTable.key_of_find? found⟩

/-- The counts are exact in every state of every run. -/
theorem references_stay_exact {run : List (CatalogAction × Catalog)}
    (isRun : IsRun CatalogStep Catalog.empty run)
    (fit : AllSteps (fun _ action => action.PlacementsFit) Catalog.empty run) :
    AllStates ReferencesExact Catalog.empty run := by
  have counted : AllStates Counted Catalog.empty run := isRun.allStates_of_allSteps
      (fun _ _ _ counted stepped fit => counted.step stepped fit)
      Counted.empty fit
  exact ⟨counted.1.referencesExact, fun entry member =>
    (counted.2 entry member).referencesExact⟩

/-- A chunk used twice by a file is shared by a snapshot, the file is removed
and the collectors run. -/
theorem references_stay_exact_after_collection :
    AllStates ReferencesExact Catalog.empty
      (Catalog.empty.runAll
        [.commitFile (ascii ['a']) 0
          [⟨List.replicate 15 7, 1, 0, 5, 5⟩, ⟨List.replicate 15 7, 1, 0, 5, 5⟩],
        .createSnapshot "s" 0, .unlinkFile (ascii ['a']), .gcChunks [],
        .gcFileVersions 1]) := by
  refine references_stay_exact (Catalog.isRun_runAll _ _)
    ⟨?_, trivial, trivial, trivial, trivial, trivial⟩
  intro placement member
  simp only [List.mem_cons, List.not_mem_nil, or_false, or_self] at member
  rw [member]
  rfl

end Rose
