import Rose.CatalogFrames
import Rose.DirectoryRename

/-!
# Reference counts

The live heads, the snapshot entries and the retained write results hold file
versions.  In every run of catalog transactions the count of a chunk row is the
number of times the hash occurs in the extents of the held versions.
-/

namespace Rose

open FallibleActions

section Statements

/-- The count recorded for a hash; zero when it has no row. -/
def chunkRefs (chunks : KeyedTable ChunkRow.hash) (hash : Bytes) : Int :=
  chunks.weightAt ChunkRow.refcount hash

variable {chunks : KeyedTable ChunkRow.hash}

@[simp]
theorem keys_addChunkRefs (delta : Int) (hash : Bytes) :
    (addChunkRefs delta chunks hash).keys = chunks.keys :=
  KeyedTable.keys_change _ _ _

theorem chunkRefs_addChunkRefs {added : Bytes} (present : added ∈ chunks.keys) (delta : Int)
    (hash : Bytes) :
    chunkRefs (addChunkRefs delta chunks added) hash =
      chunkRefs chunks hash + if hash = added then delta else 0 := by
  unfold chunkRefs addChunkRefs
  rw [KeyedTable.weightAt_change]
  by_cases known : hash ∈ chunks.keys
  · obtain ⟨row, rowIn, rfl⟩ := known
    rw [KeyedTable.weightAt_of_mem _ _ rowIn, KeyedTable.weightAt_of_mem _ _ rowIn]
    split_ifs <;> simp
  · have different : hash ≠ added := by
      rintro rfl
      exact known present
    rw [KeyedTable.weightAt_of_not_mem_keys _ _ known,
      KeyedTable.weightAt_of_not_mem_keys _ _ known, if_neg different]
    rfl

theorem foldl_addChunkRefs {hashes : List Bytes} {delta : Int}
    (present : ∀ hash ∈ hashes, hash ∈ chunks.keys) :
    (hashes.foldl (addChunkRefs delta) chunks).keys = chunks.keys ∧
      ∀ hash, chunkRefs (hashes.foldl (addChunkRefs delta) chunks) hash =
        chunkRefs chunks hash + delta * (hashes.count hash : Int) := by
  induction hashes generalizing chunks with
  | nil => simp
  | cons added hashes ih =>
    rw [List.foldl_cons]
    have later : ∀ hash ∈ hashes, hash ∈ (addChunkRefs delta chunks added).keys := by
      intro hash member
      rw [keys_addChunkRefs]
      exact present hash (by simp [member])
    obtain ⟨sameKeys, counts⟩ := ih later
    refine ⟨by rw [sameKeys, keys_addChunkRefs], fun hash => ?_⟩
    rw [counts, chunkRefs_addChunkRefs (present added (by simp)), List.count_cons]
    by_cases same : hash = added
    · subst same
      rw [if_pos rfl, beq_self_eq_true, if_pos rfl]
      push_cast
      rw [Int.mul_add]
      omega
    · have other : (added == hash) = false := by simpa using Ne.symm same
      rw [if_neg same, other]
      simp

section

variable {blob : Bytes} (present : ∀ hash ∈ chunkHashes blob, hash ∈ chunks.keys) (delta : Int)
include present delta

theorem chunkRefs_adjustChunkRefs (hash : Bytes) :
    chunkRefs (adjustChunkRefs chunks blob delta) hash =
      chunkRefs chunks hash + delta * ((chunkHashes blob).count hash : Int) :=
  (foldl_addChunkRefs present).2 hash

theorem keys_adjustChunkRefs : (adjustChunkRefs chunks blob delta).keys = chunks.keys :=
  (foldl_addChunkRefs present).1

end

/-- A placement adds one reference, whether or not it had a row. -/
theorem chunkRefs_upsertChunkRef (placement : ChunkPlacement) (hash : Bytes) :
    chunkRefs (upsertChunkRef chunks placement) hash =
      chunkRefs chunks hash + if placement.hash = hash then 1 else 0 := by
  unfold chunkRefs upsertChunkRef
  cases found : chunks.find? placement.hash with
  | none =>
    simp only
    rw [KeyedTable.weightAt_put]
    by_cases same : hash = placement.hash
    · subst same
      have zero : chunks.weightAt ChunkRow.refcount placement.hash = 0 := by
        unfold KeyedTable.weightAt
        rw [found]
        rfl
      simp [zero]
    · rw [if_neg same, if_neg (Ne.symm same), Int.add_zero]
  | some row =>
    obtain ⟨present, sameHash⟩ := (KeyedTable.find?_eq_some_iff _ _ _).mp found
    have old : chunks.weightAt ChunkRow.refcount placement.hash = row.refcount := by
      rw [← sameHash]
      exact chunks.weightAt_of_mem _ present
    simp only
    split_ifs with dead same same
    · rw [KeyedTable.weightAt_put, ← same, if_pos rfl, old]
    · rw [KeyedTable.weightAt_put, if_neg (Ne.symm same), Int.add_zero]
    · rw [KeyedTable.weightAt_put, ← same, if_pos sameHash.symm, old]
    · rw [KeyedTable.weightAt_put, if_neg, Int.add_zero]
      exact fun isHash => same (isHash.trans sameHash).symm

theorem chunkRefs_upsertChunkRefs (placements : List ChunkPlacement) (hash : Bytes) :
    chunkRefs (upsertChunkRefs chunks placements) hash = chunkRefs chunks hash +
        ((placements.map ChunkPlacement.hash).count hash : Int) := by
  unfold upsertChunkRefs
  induction placements generalizing chunks with
  | nil => simp
  | cons placement placements ih =>
    rw [List.foldl_cons, ih, chunkRefs_upsertChunkRef, List.map_cons, List.count_cons]
    by_cases same : placement.hash = hash
    · subst same
      simp
      omega
    · have other : (placement.hash == hash) = false := by simpa using same
      rw [if_neg same, other]
      simp

end Statements

namespace Catalog

variable (catalog : Catalog)

/-- How often a hash occurs in the extents of a version. -/
def versionUses (hash : Bytes) (fileID : Nat) : Int := catalog.files.weightAt
    (fun version => ((chunkHashes version.chunks).count hash : Int)) fileID

/-- How often a hash occurs in the extents of all held versions. -/
def rootUses (hash : Bytes) : Int :=
  catalog.heads.total (fun head => catalog.versionUses hash head.fileID) +
    catalog.snapshotFiles.total (fun row => catalog.versionUses hash row.fileID) +
    catalog.resultRoots.total (fun root => catalog.versionUses hash root.fileID)

/-- A head, a snapshot entry or a retained result holds the version. -/
def Roots (fileID : Nat) : Prop := (∃ head ∈ catalog.heads.rows, head.fileID = fileID) ∨
    (∃ row ∈ catalog.snapshotFiles.rows, row.fileID = fileID) ∨
    ∃ root ∈ catalog.resultRoots.rows, root.fileID = fileID

end Catalog

/-- The counts of the chunk rows are exact and the held versions exist. -/
structure Counted (catalog : Catalog) : Prop where
  refs : ∀ hash, chunkRefs catalog.chunks hash = catalog.rootUses hash
  versions : ∀ fileID, catalog.Roots fileID → ∃ version, catalog.files.find? fileID = some version

section Uses

variable {before after : Catalog} {hash : Bytes} {fileID : Nat}

theorem versionUses_nonneg (catalog : Catalog) (hash : Bytes) (fileID : Nat) :
    0 ≤ catalog.versionUses hash fileID := by
  unfold Catalog.versionUses KeyedTable.weightAt
  cases catalog.files.find? fileID with
  | none => exact Int.le_refl 0
  | some version => exact Int.natCast_nonneg _

theorem versionUses_of_find? {version : FileVersion}
    (found : before.files.find? fileID = some version) :
    before.versionUses hash fileID = ((chunkHashes version.chunks).count hash : Int) := by
  unfold Catalog.versionUses KeyedTable.weightAt
  rw [found]
  rfl

theorem versionUses_congr (hash : Bytes)
    (same : after.files.find? fileID = before.files.find? fileID) :
    after.versionUses hash fileID = before.versionUses hash fileID := by
  unfold Catalog.versionUses KeyedTable.weightAt
  rw [same]

theorem rootUses_nonneg (catalog : Catalog) (hash : Bytes) : 0 ≤ catalog.rootUses hash := by
  have heads := catalog.heads.total_nonneg fun head =>
    versionUses_nonneg catalog hash head.fileID
  have snapshots := catalog.snapshotFiles.total_nonneg fun row =>
    versionUses_nonneg catalog hash row.fileID
  have roots := catalog.resultRoots.total_nonneg fun root =>
    versionUses_nonneg catalog hash root.fileID
  unfold Catalog.rootUses
  omega

theorem versionUses_le_rootUses (rooted : before.Roots fileID) (hash : Bytes) :
    before.versionUses hash fileID ≤ before.rootUses hash := by
  have heads := before.heads.total_nonneg fun head =>
    versionUses_nonneg before hash head.fileID
  have snapshots := before.snapshotFiles.total_nonneg fun row =>
    versionUses_nonneg before hash row.fileID
  have roots := before.resultRoots.total_nonneg fun root =>
    versionUses_nonneg before hash root.fileID
  unfold Catalog.rootUses
  rcases rooted with ⟨head, present, rfl⟩ | ⟨row, present, rfl⟩ | ⟨root, present, rfl⟩
  · have bound := before.heads.weight_le_total
      (fun head => versionUses_nonneg before hash head.fileID) present
    omega
  · have bound := before.snapshotFiles.weight_le_total
      (fun row => versionUses_nonneg before hash row.fileID) present
    omega
  · have bound := before.resultRoots.weight_le_total
      (fun root => versionUses_nonneg before hash root.fileID) present
    omega

theorem Counted.hashes_present (counted : Counted before) (rooted : before.Roots fileID)
    {version : FileVersion} (found : before.files.find? fileID = some version) :
    ∀ hash ∈ chunkHashes version.chunks, hash ∈ before.chunks.keys := by
  intro hash member
  by_contra absent
  have none : chunkRefs before.chunks hash = 0 := KeyedTable.weightAt_of_not_mem_keys _ _ absent
  have bound := versionUses_le_rootUses rooted hash
  have occurs : 0 < (chunkHashes version.chunks).count hash := List.count_pos_iff.mpr member
  rw [versionUses_of_find? found, ← counted.refs, none] at bound
  omega

theorem Counted.adjust (counted : Counted before) (rooted : before.Roots fileID) {delta : Int}
    (adjusted : before.adjustVersionRefs fileID delta = .ok after) (hash : Bytes) :
    chunkRefs after.chunks hash =
      before.rootUses hash + delta * before.versionUses hash fileID := by
  obtain ⟨version, found, rfl⟩ := Catalog.adjustVersionRefs_ok adjusted
  rw [versionUses_of_find? found, ← counted.refs]
  exact chunkRefs_adjustChunkRefs (counted.hashes_present rooted found) delta hash

theorem Counted.release (counted : Counted before) {path : Path}
    (released : before.releaseHead path = .ok after) (hash : Bytes) :
    chunkRefs after.chunks hash = before.rootUses hash - before.heads.weightAt
        (fun head => before.versionUses hash head.fileID) path := by
  rcases Catalog.releaseHead_ok released with ⟨missing, rfl⟩ | ⟨head, found, adjusted⟩
  · have none : after.heads.weightAt (fun head => after.versionUses hash head.fileID) path = 0 := by
      unfold KeyedTable.weightAt
      rw [missing]
      rfl
    rw [none, counted.refs]
    omega
  · obtain ⟨present, samePath⟩ := (KeyedTable.find?_eq_some_iff _ _ _).mp found
    have rooted : before.Roots head.fileID := Or.inl ⟨head, present, rfl⟩
    rw [counted.adjust rooted adjusted, ← samePath, KeyedTable.weightAt_of_mem _ _ present]
    omega

theorem rootUses_congr (heads : after.heads = before.heads)
    (snapshotFiles : after.snapshotFiles = before.snapshotFiles)
    (resultRoots : after.resultRoots = before.resultRoots)
    (files : ∀ fileID, before.Roots fileID → after.files.find? fileID = before.files.find? fileID)
    (hash : Bytes) :
    after.rootUses hash = before.rootUses hash := by
  unfold Catalog.rootUses
  rw [heads, snapshotFiles, resultRoots]
  have sameHeads := before.heads.total_congr fun head present =>
    versionUses_congr hash (files head.fileID (Or.inl ⟨head, present, rfl⟩))
  have sameSnapshots := before.snapshotFiles.total_congr fun row present =>
    versionUses_congr hash (files row.fileID (Or.inr (Or.inl ⟨row, present, rfl⟩)))
  have sameRoots := before.resultRoots.total_congr fun root present =>
    versionUses_congr hash (files root.fileID (Or.inr (Or.inr ⟨root, present, rfl⟩)))
  rw [sameHeads, sameSnapshots, sameRoots]

end Uses

namespace Counted

variable {before after : Catalog}

theorem empty : Counted Catalog.empty where
  refs := fun _ => rfl
  versions := by
    rintro fileID (⟨_, present, -⟩ | ⟨_, present, -⟩ | ⟨_, present, -⟩) <;>
      cases present

section

variable (counted : Counted before) (files : after.files = before.files)
include counted files

theorem of_roots (roots : ∀ fileID, after.Roots fileID → before.Roots fileID)
    (refs : ∀ hash, chunkRefs after.chunks hash =
      after.heads.total (fun head => before.versionUses hash head.fileID) +
        after.snapshotFiles.total (fun row => before.versionUses hash row.fileID) +
        after.resultRoots.total (fun root => before.versionUses hash root.fileID)) :
    Counted after := by
  have sameUses : after.versionUses = before.versionUses := by
    unfold Catalog.versionUses
    rw [files]
  constructor
  · intro hash
    unfold Catalog.rootUses
    rw [refs, sameUses]
  · intro fileID rooted
    rw [files]
    exact counted.versions fileID (roots fileID rooted)

theorem of_same (heads : after.heads = before.heads)
    (snapshotFiles : after.snapshotFiles = before.snapshotFiles)
    (resultRoots : after.resultRoots = before.resultRoots)
    (chunks : ∀ hash, chunkRefs after.chunks hash = chunkRefs before.chunks hash) :
    Counted after := by
  refine counted.of_roots files (fun fileID rooted => ?_) fun hash => ?_
  · unfold Catalog.Roots at rooted
    rw [heads, snapshotFiles, resultRoots] at rooted
    exact rooted
  · rw [chunks, counted.refs, heads, snapshotFiles, resultRoots]
    rfl

theorem of_heads (snapshotFiles : after.snapshotFiles = before.snapshotFiles)
    (resultRoots : after.resultRoots = before.resultRoots)
    (heads : ∀ head ∈ after.heads.rows, before.Roots head.fileID)
    (refs : ∀ hash, chunkRefs after.chunks hash = before.rootUses hash -
      before.heads.total (fun head => before.versionUses hash head.fileID) +
      after.heads.total (fun head => before.versionUses hash head.fileID)) : Counted after := by
  refine counted.of_roots files ?_ fun hash => ?_
  · rintro fileID (⟨head, present, rfl⟩ | rooted)
    · exact heads head present
    · rw [snapshotFiles, resultRoots] at rooted
      exact Or.inr rooted
  · rw [refs, snapshotFiles, resultRoots]
    unfold Catalog.rootUses
    omega

end

/-- A new version becomes the head of a path whose old head was released. -/
theorem withVersion (counted : Counted before) {released : Catalog} {path : Path} {mtime : Int}
    {placements : List ChunkPlacement} (fit : HashesFit placements)
    (releasing : before.releaseHead path = .ok released) :
    Counted (released.withVersion path mtime placements) := by
  have frame := Catalog.releaseHead_frame releasing
  have release := counted.release releasing
  have found : ∀ fileID, before.Roots fileID →
      (released.withVersion path mtime placements).files.find? fileID =
        before.files.find? fileID := by
    intro fileID rooted
    obtain ⟨version, known⟩ := counted.versions fileID rooted
    have old := SequencedTable.find?_le_last known
    rw [frame]
    refine (SequencedTable.find?_append _ _ _ _).trans (if_neg ?_)
    exact Nat.ne_of_lt (Nat.lt_succ_of_le old)
  have newest : (released.withVersion path mtime placements).files.find? (before.files.last + 1) =
        some ⟨before.files.last + 1, path, mtime, packExtents placements⟩ := by
    rw [frame]
    exact (SequencedTable.find?_append _ _ _ _).trans (if_pos rfl)
  have heads : (released.withVersion path mtime placements).heads =
      before.heads.put (fileHead path (before.files.last + 1) mtime) := by
    rw [frame]
    rfl
  have snapshotFiles : (released.withVersion path mtime placements
      ).snapshotFiles = before.snapshotFiles := by
    rw [frame]
    rfl
  have resultRoots : (released.withVersion path mtime placements
      ).resultRoots = before.resultRoots := by
    rw [frame]
    rfl
  constructor
  · intro hash
    have uses : (released.withVersion path mtime placements).versionUses hash
        (before.files.last + 1) = ((placements.map ChunkPlacement.hash).count hash : Int) := by
      rw [versionUses_of_find? newest, chunkHashes_packExtents fit]
    have sameHeads : ∀ head ∈ before.heads.rows,
        (released.withVersion path mtime placements).versionUses hash
          head.fileID = before.versionUses hash head.fileID :=
      fun head present => versionUses_congr hash (found head.fileID (Or.inl ⟨head, present, rfl⟩))
    have sameSnapshots : ∀ row ∈ before.snapshotFiles.rows,
        (released.withVersion path mtime placements).versionUses hash
          row.fileID = before.versionUses hash row.fileID :=
      fun row present => versionUses_congr hash
        (found row.fileID (Or.inr (Or.inl ⟨row, present, rfl⟩)))
    have sameRoots : ∀ root ∈ before.resultRoots.rows,
        (released.withVersion path mtime placements).versionUses hash
          root.fileID = before.versionUses hash root.fileID :=
      fun root present => versionUses_congr hash
        (found root.fileID (Or.inr (Or.inr ⟨root, present, rfl⟩)))
    have counts : chunkRefs (released.withVersion path mtime placements).chunks hash =
          chunkRefs released.chunks hash +
            ((placements.map ChunkPlacement.hash).count hash : Int) :=
      chunkRefs_upsertChunkRefs placements hash
    rw [counts, release]
    unfold Catalog.rootUses
    rw [heads, snapshotFiles, resultRoots, KeyedTable.total_put, before.heads.total_congr sameHeads,
      before.snapshotFiles.total_congr sameSnapshots,
      before.resultRoots.total_congr sameRoots, fileHead_path,
      before.heads.weightAt_congr sameHeads]
    have newWeight : (released.withVersion path mtime placements).versionUses
        hash (fileHead path (before.files.last + 1) mtime).fileID = _ := uses
    rw [newWeight]
    omega
  · rintro fileID (⟨head, present, rfl⟩ | rooted)
    · rw [heads, KeyedTable.mem_put] at present
      rcases present with ⟨old, -⟩ | rfl
      · have rooted : before.Roots head.fileID := Or.inl ⟨head, old, rfl⟩
        rw [found _ rooted]
        exact counted.versions _ rooted
      · exact ⟨_, newest⟩
    · rw [snapshotFiles, resultRoots] at rooted
      have rooted : before.Roots fileID := Or.inr rooted
      rw [found _ rooted]
      exact counted.versions _ rooted

section Namespace

variable {path oldPath newPath : Path} {mtime now : Int}

variable (counted : Counted before)
include counted

theorem publishFileVersion {placements : List ChunkPlacement} {id : Nat}
    (fit : HashesFit placements)
    (published : before.publishFileVersion path mtime placements = .ok (id, after)) :
    Counted after := by
  obtain ⟨-, -, -, released, releasing, ensuring⟩ := Catalog.publishFileVersion_ok published
  have ensures := Catalog.ensureDirs_writes ensuring
  refine (counted.withVersion fit releasing).of_same (ensures .files (by simp))
    (ensures .heads (by simp)) (ensures .snapshotFiles (by simp))
    (ensures .resultRoots (by simp)) fun hash => ?_
  rw [ensures .chunks (by simp)]

theorem unlinkFile (unlinked : before.unlinkFile path = .ok after) : Counted after := by
  have writes := Catalog.unlinkFile_writes unlinked
  obtain ⟨released, releasing, rfl⟩ := Catalog.unlinkFile_ok unlinked
  have cancelled : Counted (before.cancelPrepared (· == cleanPath path)) :=
    counted.of_same rfl rfl rfl rfl fun _ => rfl
  have sameHeads : released.heads = before.heads :=
    Catalog.releaseHead_writes releasing .heads (by simp)
  refine counted.of_heads (writes .files (by simp))
    (writes .snapshotFiles (by simp)) (writes .resultRoots (by simp))
    (fun head present => ?_) fun hash => ?_
  · rw [KeyedTable.mem_keep, sameHeads] at present
    exact Or.inl ⟨head, present.1, rfl⟩
  · have release := cancelled.release releasing hash
    rw [KeyedTable.total_keep_ne, sameHeads]
    refine release.trans ?_
    have sameRoots : (before.cancelPrepared (· == cleanPath path)).rootUses
        hash = before.rootUses hash := rfl
    have sameWeight :
        (before.cancelPrepared (· == cleanPath path)).heads.weightAt
          (fun head => (before.cancelPrepared (· == cleanPath path)).versionUses hash head.fileID)
          (cleanPath path) =
        before.heads.weightAt (fun head => before.versionUses hash head.fileID)
          (cleanPath path) := rfl
    omega

theorem renameHead {head : FileHead} (present : head ∈ before.heads.rows)
    (different : head.path ≠ newPath) (renamed : before.renameHead head newPath now = .ok after) :
    Counted after := by
  have writes := Catalog.renameHead_writes renamed
  obtain ⟨-, released, releasing, ensuring⟩ := Catalog.renameHead_ok renamed
  have ensures := Catalog.ensureDirs_writes ensuring
  have sameHeads : released.heads = before.heads :=
    Catalog.releaseHead_writes releasing .heads (by simp)
  have heads : after.heads = (before.heads.put (fileHead newPath head.fileID head.mtime)).keep
        fun other => decide (other.path ≠ head.path) := by
    rw [ensures .heads (by simp), sameHeads]
  have chunks : after.chunks = released.chunks := ensures .chunks (by simp)
  refine counted.of_heads (writes .files (by simp))
    (writes .snapshotFiles (by simp)) (writes .resultRoots (by simp))
    (fun other otherIn => ?_) fun hash => ?_
  · rw [heads, KeyedTable.mem_keep, KeyedTable.mem_put] at otherIn
    rcases otherIn.1 with ⟨old, -⟩ | rfl
    · exact Or.inl ⟨other, old, rfl⟩
    · exact Or.inl ⟨head, present, rfl⟩
  · rw [chunks, counted.release releasing, heads, KeyedTable.total_keep_ne,
      KeyedTable.total_put, KeyedTable.weightAt_put, fileHead_path,
      if_neg different, KeyedTable.weightAt_of_mem _ _ present]
    have sameID : (fileHead newPath head.fileID head.mtime).fileID = head.fileID := rfl
    rw [sameID]
    omega

theorem renameDirectory (renamed : Catalog.DirRenamed before after oldPath newPath now) :
    Counted after := by
  have moved := (rewriteSubtreePaths_rekeyed renamed.heads).2
  have frame := renamed.frame
  have files : after.files = before.files := by rw [frame]
  have snapshotFiles : after.snapshotFiles = before.snapshotFiles := by
    rw [frame]
  have resultRoots : after.resultRoots = before.resultRoots := by rw [frame]
  have chunks : after.chunks = before.chunks := by rw [frame]
  refine counted.of_heads files snapshotFiles resultRoots (fun head present => ?_) fun hash => ?_
  · obtain ⟨members, -⟩ := rewriteSubtreePaths_ok renamed.heads
    rcases (members head).mp present with ⟨old, -⟩ | ⟨old, oldIn, -, rfl⟩
    · exact Or.inl ⟨head, old, rfl⟩
    · exact Or.inl ⟨old, oldIn, rfl⟩
  · have sameTotal : after.heads.total (fun head => before.versionUses hash head.fileID) =
        before.heads.total (fun head => before.versionUses hash head.fileID) := by
      refine KeyedTable.total_of_rekeyAll? ?_ moved
      exact fun _ => rfl
    rw [chunks, counted.refs, sameTotal]
    omega

theorem renameFile (renamed : before.renameFile oldPath newPath now = .ok after) :
    Counted after := by
  by_cases same : cleanPath oldPath = cleanPath newPath
  · rw [Catalog.renameFile_same same renamed]
    exact counted
  have rebound : Counted (before.rebound (cleanPath oldPath) (cleanPath newPath)) :=
    counted.of_same rfl rfl rfl rfl fun _ => rfl
  obtain ⟨-, -, -, moved⟩ := Catalog.renameFile_ok same renamed
  rcases moved with ⟨-, moved⟩ | ⟨head, found, moved⟩
  · exact rebound.renameDirectory moved
  · obtain ⟨present, atOld⟩ := (KeyedTable.find?_eq_some_iff _ _ _).mp found
    exact rebound.renameHead present (atOld ▸ same) moved

theorem setMtime (path : Path) (mtime : Int) : Counted (before.setMtime path mtime).2 := by
  unfold Catalog.setMtime
  simp only
  split_ifs with atRoot isFile
  · exact counted
  · refine counted.of_heads rfl rfl rfl (fun head present => ?_) fun hash => ?_
    · obtain ⟨old, oldIn, rfl⟩ := List.mem_map.mp present
      refine Or.inl ⟨old, oldIn, ?_⟩
      split_ifs <;> rfl
    · rw [KeyedTable.total_change, counted.refs]
      have sameTotal : (before.heads.total fun row => before.versionUses hash
          (if row.path = cleanPath path then { row with mtime } else row ).fileID) =
          before.heads.total fun row => before.versionUses hash row.fileID := by
        refine before.heads.total_congr fun row _ => ?_
        split_ifs <;> rfl
      rw [sameTotal]
      omega
  · exact counted.of_same rfl rfl rfl rfl fun _ => rfl

end Namespace

end Counted

end Rose
