import Rose.PublicationOrder
import Rose.ReferenceRuns

/-!
# The published placements are the verified ones

Verification resolves each hash of a planned version to one placement: that of
the referenced row if there is one, else the planned one.  The transaction then
releases the old version, which may leave rows without references, and lets the
upsert repoint such rows.  The rows of the version end up at the placements that
were verified, and no other row moves.
-/

namespace Rose

open FallibleActions LabelledRuns

section Rows

/-- Where the row of a hash places its bytes. -/
def placementAt (chunks : KeyedTable ChunkRow.hash) (hash : Bytes) :
    Option ChunkPlacement :=
  (chunks.find? hash).map ChunkRow.placement

variable {chunks : KeyedTable ChunkRow.hash}

@[simp]
theorem placementAt_addChunkRefs (delta : Int) (added hash : Bytes) :
    placementAt (addChunkRefs delta chunks added) hash = placementAt chunks hash := by
  unfold placementAt addChunkRefs
  rw [KeyedTable.find?_change, Option.map_map]
  refine congrArg (fun place => Option.map place (chunks.find? hash)) ?_
  funext row
  dsimp only [Function.comp]
  split_ifs <;> rfl

@[simp]
theorem placementAt_adjustChunkRefs (blob : Bytes) (delta : Int) (hash : Bytes) :
    placementAt (adjustChunkRefs chunks blob delta) hash = placementAt chunks hash := by
  unfold adjustChunkRefs
  induction chunkHashes blob generalizing chunks with
  | nil => rfl
  | cons added hashes ih =>
    rw [List.foldl_cons, ih, placementAt_addChunkRefs]

/-- The row of the placement's hash is missing, unreferenced or at the
placement already. -/
def Resolves (chunks : KeyedTable ChunkRow.hash) (placement : ChunkPlacement) : Prop :=
  ∀ row, chunks.find? placement.hash = some row → row.refcount = 0 ∨ row.placement = placement

/-- One placement for each hash. -/
def OnePerHash (placements : List ChunkPlacement) : Prop :=
  ∀ first ∈ placements, ∀ second ∈ placements, first.hash = second.hash →
    first = second

theorem placementAt_upsertChunkRef {placement : ChunkPlacement}
    (resolves : Resolves chunks placement) (hash : Bytes) :
    placementAt (upsertChunkRef chunks placement) hash =
      if hash = placement.hash then some placement
      else placementAt chunks hash := by
  unfold placementAt upsertChunkRef
  cases found : chunks.find? placement.hash with
  | none =>
    dsimp only
    rw [KeyedTable.find?_put]
    split_ifs <;> rfl
  | some row =>
    have sameHash : row.hash = placement.hash := KeyedTable.key_of_find? found
    dsimp only
    split_ifs with dead same same
    · rw [KeyedTable.find?_put, if_pos same]
      rfl
    · rw [KeyedTable.find?_put, if_neg same]
    · have there := (resolves row found).resolve_left dead
      rw [KeyedTable.find?_put, if_pos (same.trans sameHash.symm)]
      exact congrArg some there
    · rw [KeyedTable.find?_put, if_neg fun isHash =>
        same (isHash.trans sameHash)]

theorem Resolves.upsertChunkRef {placement other : ChunkPlacement}
    (resolves : Resolves chunks placement) (otherResolves : Resolves chunks other)
    (agree : placement.hash = other.hash → placement = other) :
    Resolves (upsertChunkRef chunks placement) other := by
  intro row found
  by_cases same : other.hash = placement.hash
  · right
    have placed := placementAt_upsertChunkRef resolves other.hash
    rw [if_pos same, agree same.symm] at placed
    unfold placementAt at placed
    rw [agree same.symm] at found
    rw [found] at placed
    exact Option.some.inj placed
  · refine otherResolves row ?_
    unfold Rose.upsertChunkRef at found
    cases old : chunks.find? placement.hash with
    | none =>
      rw [old] at found
      dsimp only at found
      rwa [KeyedTable.find?_put, if_neg same] at found
    | some oldRow =>
      have sameHash : oldRow.hash = placement.hash := KeyedTable.key_of_find? old
      rw [old] at found
      dsimp only at found
      split_ifs at found
      · rwa [KeyedTable.find?_put, if_neg same] at found
      · rwa [KeyedTable.find?_put, if_neg fun isHash =>
          same (isHash.trans sameHash)] at found

/-- The upsert leaves the rows of the placements there and moves no other. -/
theorem placementAt_upsertChunkRefs {placements : List ChunkPlacement}
    (resolves : ∀ placement ∈ placements, Resolves chunks placement)
    (agree : OnePerHash placements) :
    (∀ placement ∈ placements, placementAt (upsertChunkRefs chunks placements) placement.hash =
        some placement) ∧
    ∀ hash, (∀ placement ∈ placements, placement.hash ≠ hash) →
      placementAt (upsertChunkRefs chunks placements) hash = placementAt chunks hash := by
  unfold upsertChunkRefs
  induction placements generalizing chunks with
  | nil => exact ⟨by simp, fun _ _ => rfl⟩
  | cons placement placements ih =>
    have own := resolves placement List.mem_cons_self
    have later : ∀ other ∈ placements, Resolves (upsertChunkRef chunks placement) other := by
      intro other member
      exact own.upsertChunkRef (resolves other (List.mem_cons_of_mem _ member))
        (agree _ List.mem_cons_self _ (List.mem_cons_of_mem _ member))
    have laterAgree : OnePerHash placements := by
      intro first firstIn second secondIn
      exact agree _ (List.mem_cons_of_mem _ firstIn) _ (List.mem_cons_of_mem _ secondIn)
    obtain ⟨placed, others⟩ := ih later laterAgree
    rw [List.foldl_cons]
    constructor
    · intro wanted member
      by_cases again : ∃ other ∈ placements, other.hash = wanted.hash
      · obtain ⟨other, otherIn, same⟩ := again
        rw [← agree _ (List.mem_cons_of_mem _ otherIn) _ member same]
        exact placed other otherIn
      · have isFirst : wanted = placement := by
          rcases List.mem_cons.mp member with first | inside
          · exact first
          · exact absurd ⟨wanted, inside, rfl⟩ again
        rw [others wanted.hash fun other otherIn same =>
          again ⟨other, otherIn, same⟩, placementAt_upsertChunkRef own,
          isFirst, if_pos rfl]
    · intro hash absent
      rw [others hash fun other otherIn =>
        absent other (List.mem_cons_of_mem _ otherIn),
        placementAt_upsertChunkRef own,
        if_neg (absent placement List.mem_cons_self).symm]

end Rows

section Transaction

variable {before after : Catalog}

variable {path : Path}

theorem placementAt_releaseHead (released : before.releaseHead path = .ok after) (hash : Bytes) :
    placementAt after.chunks hash = placementAt before.chunks hash := by
  rcases Catalog.releaseHead_ok released with ⟨-, rfl⟩ | ⟨head, -, adjusted⟩
  · rfl
  · obtain ⟨version, -, rfl⟩ := Catalog.adjustVersionRefs_ok adjusted
    exact placementAt_adjustChunkRefs _ _ _

/-- A placement that is the referenced row's, if there is one. -/
def FollowsLive (chunks : KeyedTable ChunkRow.hash) (placement : ChunkPlacement) : Prop :=
  ∀ row, chunks.find? placement.hash = some row → 0 < row.refcount → row.placement = placement

/-- A row without references is not used by the version that is replaced, so it
has none after the release either. -/
theorem resolves_of_releaseHead (counted : Counted before)
    (released : before.releaseHead path = .ok after) {placement : ChunkPlacement}
    (follows : FollowsLive before.chunks placement) :
    Resolves after.chunks placement := by
  intro row found
  have placed := placementAt_releaseHead released placement.hash
  unfold placementAt at placed
  rw [found] at placed
  obtain ⟨old, oldFound, samePlacement⟩ := Option.map_eq_some_iff.mp placed.symm
  by_cases live : 0 < old.refcount
  · right
    rw [← samePlacement]
    exact follows old oldFound live
  left
  have oldRefs : chunkRefs before.chunks placement.hash = old.refcount := by
    unfold chunkRefs KeyedTable.weightAt
    rw [oldFound]
    rfl
  have newRefs : chunkRefs after.chunks placement.hash = row.refcount := by
    unfold chunkRefs KeyedTable.weightAt
    rw [found]
    rfl
  have unused := counted.refs placement.hash
  have nonneg := rootUses_nonneg before placement.hash
  rcases Catalog.releaseHead_ok released with ⟨-, rfl⟩ | ⟨head, headFound, adjusted⟩
  · omega
  · have rooted : before.Roots head.fileID := Or.inl ⟨head, KeyedTable.mem_of_find? headFound, rfl⟩
    obtain ⟨version, versionFound, rfl⟩ := Catalog.adjustVersionRefs_ok adjusted
    have uses := versionUses_le_rootUses rooted placement.hash
    rw [versionUses_of_find? versionFound] at uses
    have present := counted.hashes_present rooted versionFound
    have refs := chunkRefs_adjustChunkRefs present (-1) placement.hash
    dsimp only at newRefs
    rw [newRefs] at refs
    omega

/-- The rows of the new version are where it says, the others where they were. -/
structure PlacesVersion (before after : KeyedTable ChunkRow.hash)
    (placements : List ChunkPlacement) : Prop where
  placed : ∀ placement ∈ placements, placementAt after placement.hash = some placement
  others : ∀ hash, (∀ placement ∈ placements, placement.hash ≠ hash) →
    placementAt after hash = placementAt before hash

variable {placements : List ChunkPlacement}

theorem PlacesVersion.congr {first last last' : KeyedTable ChunkRow.hash}
    (places : PlacesVersion first last placements)
    (same : ∀ hash, placementAt last' hash = placementAt last hash) :
    PlacesVersion first last' placements :=
  ⟨fun placement member => (same _).trans (places.placed placement member),
    fun hash absent => (same hash).trans (places.others hash absent)⟩

theorem placesVersion_publishFileVersion (counted : Counted before) {mtime : Int} {id : Nat}
    (follows : ∀ placement ∈ placements, FollowsLive before.chunks placement)
    (agree : OnePerHash placements)
    (published : before.publishFileVersion path mtime placements = .ok (id, after)) :
    PlacesVersion before.chunks after.chunks placements := by
  obtain ⟨-, -, -, released, releasing, ensuring⟩ := Catalog.publishFileVersion_ok published
  have sameChunks : after.chunks = upsertChunkRefs released.chunks placements :=
    Catalog.ensureDirs_writes ensuring .chunks (by simp)
  obtain ⟨placed, others⟩ := placementAt_upsertChunkRefs
    (fun placement member =>
      resolves_of_releaseHead counted releasing (follows placement member))
    agree
  rw [sameChunks]
  exact ⟨placed, fun hash absent =>
    (others hash absent).trans (placementAt_releaseHead releasing hash)⟩

theorem placesVersion_commitWriteOpVersion (counted : Counted before)
    {opID fileID : Nat} {op : WriteOp} {mtime expiresAt : Int}
    (found : before.writeOps.find? opID = some op)
    (isPrepared : op.state = .prepared)
    (follows : ∀ placement ∈ placements, FollowsLive before.chunks placement)
    (agree : OnePerHash placements)
    (committed : before.commitWriteOpVersion opID path mtime placements
      expiresAt = .ok (fileID, after)) :
    PlacesVersion before.chunks after.chunks placements := by
  obtain ⟨other, otherFound, ⟨isCommitted, -⟩ |
    ⟨-, published, retained, publishing, retaining, rfl⟩⟩ :=
    Catalog.commitWriteOpVersion_ok committed
  · cases found.symm.trans otherFound
    rw [isPrepared] at isCommitted
    cases isCommitted
  have places := placesVersion_publishFileVersion counted follows agree publishing
  refine places.congr fun hash => ?_
  change placementAt retained.chunks hash = _
  rcases Catalog.retainUntil_ok retaining with ⟨-, rfl⟩ | ⟨-, held, resultRoots, holding, -, rfl⟩
  · rfl
  · obtain ⟨version, -, rfl⟩ := Catalog.adjustVersionRefs_ok holding
    exact placementAt_adjustChunkRefs _ _ _

end Transaction

section Steps

namespace Coordinator

variable {World Failure : Type} (coordinator : Coordinator World Failure)

/-- The publication from `start` came to its verification with `before` true,
and the verification succeeded. -/
def VerifiesAt (start : World) (before : World → Prop) (earlier verified : World) : Prop :=
  (∃ count, (coordinator.steps count (.initial start)).transaction.phase = .verify ∧
    (coordinator.steps count (.initial start)).world = earlier) ∧
  before earlier ∧
  coordinator.publication.verify earlier = (.ok (), verified)

/-- How far the publication has come. -/
def Followed (start : World) (before : World → Prop)
    (progress : PublicationProgress World Failure) : Prop :=
  match progress.transaction.phase with
  | .done => ∃ earlier verified, coordinator.VerifiesAt start before earlier verified ∧
        coordinator.publication.publish verified = (.ok (), progress.world)
  | .publish => progress.transaction.err = none → ∃ earlier,
      coordinator.VerifiesAt start before earlier progress.world
  | _ => progress.transaction.err = none → before progress.world

/-- The effects before the verification keep a property, and the hook leaves the
world alone. -/
structure KeepsBefore (before : World → Prop) : Prop where
  admitVlogs : ∀ world, before world → before (coordinator.publication.admitVlogs world).2
  sync : ∀ vlog world, before world → before (coordinator.publication.sync vlog world).2
  recordPrefix : ∀ vlog length world, before world →
    before (coordinator.publication.recordPrefix vlog length world).2
  hook : ∀ hook, coordinator.hook = some hook → ∀ point world, (hook point world).2 = world

variable {coordinator} {start : World} {before : World → Prop}
  {progress : PublicationProgress World Failure}

theorem steps_succ (count : Nat) :
    coordinator.steps (count + 1) progress =
      coordinator.step (coordinator.steps count progress) := by
  induction count generalizing progress with
  | zero => rfl
  | succ count ih =>
    rw [steps, ih]
    rfl

theorem Followed.stop (followed : coordinator.Followed start before progress)
    {next : PublicationProgress World Failure} {reason : Failure}
    (phase : next.transaction.phase = progress.transaction.phase)
    (stopped : next.transaction.err = some reason)
    (world : next.transaction.phase = .done → next.world = progress.world) :
    coordinator.Followed start before next := by
  unfold Followed at followed ⊢
  rw [← phase] at followed
  cases isPhase : next.transaction.phase with
  | done =>
    simp only [isPhase] at followed
    rw [world isPhase]
    exact followed
  | _ => simp [stopped]

variable (keeps : coordinator.KeepsBefore before)
include keeps

theorem Followed.checkpoint (followed : coordinator.Followed start before progress)
    (point : PublicationPoint) :
    coordinator.Followed start before (coordinator.checkpoint point progress) := by
  unfold Coordinator.checkpoint
  cases hooked : coordinator.hook with
  | none => exact followed
  | some hook =>
    have same := keeps.hook hook hooked point progress.world
    dsimp only
    split
    case _ world asked =>
        rw [asked] at same
        cases same
        exact followed
    case _ reason world asked =>
        rw [asked] at same
        exact followed.stop rfl rfl fun _ => same

theorem Followed.perform {count : Nat}
    (reached : progress = coordinator.steps count (.initial start))
    (clean : progress.transaction.err = none)
    (followed : coordinator.Followed start before progress) :
    coordinator.Followed start before (coordinator.perform progress) := by
  have now := followed
  unfold Followed at now
  unfold Coordinator.perform
  dsimp only
  cases phase : progress.transaction.phase with
  | admission =>
    simp only [phase, clean, true_implies] at now
    have kept := keeps.admitVlogs progress.world now
    dsimp only
    split
    · exact followed.stop rfl rfl fun impossible => by
        simp [fails, phase] at impossible
    case _ ids world admitted =>
        rw [admitted] at kept
        unfold Followed moves
        dsimp only
        split_ifs
        · exact fun _ => kept
        · exact fun _ => kept
  | syncPrefix =>
    simp only [phase, clean, true_implies] at now
    dsimp only
    cases progress.transaction.vlogs[progress.transaction.index]? with
    | none => exact followed
    | some vlog =>
      have kept := keeps.sync vlog progress.world now
      dsimp only
      split
      · exact followed.stop rfl rfl fun impossible => by
          simp [fails, phase] at impossible
      case _ length world synced =>
          rw [synced] at kept
          refine Followed.checkpoint keeps ?_ _
          exact fun _ => kept
  | recordPrefix =>
    simp only [phase, clean, true_implies] at now
    dsimp only
    cases progress.transaction.vlogs[progress.transaction.index]? with
    | none => exact followed
    | some vlog =>
      have kept := keeps.recordPrefix vlog progress.transaction.pending progress.world now
      dsimp only
      split
      · exact followed.stop rfl rfl fun impossible => by
          simp [fails, phase] at impossible
      case _ world recorded =>
          rw [recorded] at kept
          refine Followed.checkpoint keeps ?_ _
          unfold Followed moves
          dsimp only
          split_ifs
          · exact fun _ => kept
          · exact fun _ => kept
  | verify =>
    simp only [phase, clean, true_implies] at now
    dsimp only
    split
    · exact followed.stop rfl rfl fun impossible => by
        simp [fails, phase] at impossible
    case _ world verified =>
        refine Followed.checkpoint keeps ?_ _
        exact fun _ => ⟨progress.world, ⟨count, reached ▸ phase, by rw [← reached]⟩, now, verified⟩
  | publish =>
    simp only [phase, clean, true_implies] at now
    obtain ⟨earlier, verifies⟩ := now
    dsimp only
    split
    · exact followed.stop rfl rfl fun impossible => by
        simp [fails, phase] at impossible
    case _ world published =>
        refine Followed.checkpoint keeps ?_ _
        exact ⟨earlier, progress.world, verifies, published⟩
  | done => exact followed

theorem followed_steps (initial : before start) (count : Nat) :
    coordinator.Followed start before (coordinator.steps count (.initial start)) := by
  induction count with
  | zero => exact fun _ => initial
  | succ count ih =>
    rw [steps_succ]
    unfold step
    cases failed : (coordinator.steps count (.initial start)).transaction.err with
    | some reason => exact ih
    | none => exact ih.perform keeps rfl failed

end Coordinator

end Steps

namespace PreparedPublication

variable (prepared : PreparedPublication) {world : PublicationWorld}

/-- The bytes of a placement were found on every shard of its vlog. -/
def VerifiedOnAllShards (world : PublicationWorld) (placement : ChunkPlacement) : Prop :=
  ∃ mounted record, world.vlogs placement.vlogID = some mounted ∧
    prepared.protectedRecord mounted.vlog placement = some record ∧
    mounted.vlog.verifyAll prepared.validRow placement.vaddrOffset record = true

theorem canonical_hash (world : PublicationWorld) (planned : ChunkPlacement) :
    (canonical world planned).hash = planned.hash := by
  unfold canonical liveChunkByHash
  split
  · rfl
  case _ row found =>
      have sameHash : row.hash = planned.hash := KeyedTable.key_of_find? found
      split_ifs
      · exact sameHash
      · rfl

theorem followsLive_canonical (world : PublicationWorld) (planned : ChunkPlacement) :
    FollowsLive world.catalog.chunks (canonical world planned) := by
  intro row found live
  rw [canonical_hash] at found
  unfold canonical liveChunkByHash
  rw [found]
  simp [live]

variable {prepared}

theorem verifiedOnAllShards_of_verifyPlacement {placement : ChunkPlacement}
    (verified : prepared.verifyPlacement world placement = .ok ()) :
    prepared.VerifiedOnAllShards world placement := by
  unfold verifyPlacement at verified
  split at verified
  · cases verified
  split at verified
  · cases verified
  split at verified
  · cases verified
  obtain ⟨⟨⟩, -, verified⟩ := bind_eq_ok_iff.mp verified
  split at verified
  · cases verified
  case _ mounted found =>
      split_ifs at verified with ready checked
      unfold verifyProtectedChunk at checked
      split at checked
      · cases checked
      case _ record expected =>
          exact ⟨mounted, record, found, expected, checked⟩

/-- Each hash is resolved to one placement, which was checked. -/
theorem verifyPlacements_ok {planned checked placements : List ChunkPlacement}
    (agree : OnePerHash checked)
    (verified : prepared.verifyPlacements world planned checked = .ok placements) :
    placements.map ChunkPlacement.hash = planned.map ChunkPlacement.hash ∧
      OnePerHash (placements ++ checked) ∧
      ∀ placement ∈ placements, placement ∈ checked ∨
        (prepared.verifyPlacement world placement = .ok () ∧
          FollowsLive world.catalog.chunks placement) := by
  induction planned generalizing checked placements with
  | nil =>
    cases verified
    exact ⟨rfl, agree, by simp⟩
  | cons extent later ih =>
    unfold verifyPlacements at verified
    split at verified
    case _ previous found =>
        have known : previous ∈ checked := List.mem_of_find?_eq_some found
        have sameHash : previous.hash = extent.hash := by
          simpa using List.find?_some found
        obtain ⟨rest, verifiedRest, built⟩ := bind_eq_ok_iff.mp verified
        cases built
        obtain ⟨hashes, agreeRest, checkedRest⟩ := ih agree verifiedRest
        refine ⟨by simp [sameHash, hashes], ?_, ?_⟩
        · have inside : ∀ placement ∈ (previous :: rest) ++ checked,
              placement ∈ rest ++ checked := by
            intro placement member
            rcases List.mem_cons.mp member with rfl | member
            · exact List.mem_append_right _ known
            · exact member
          intro first firstIn second secondIn
          exact agreeRest first (inside first firstIn) second (inside second secondIn)
        · intro placement member
          rcases List.mem_cons.mp member with rfl | member
          · exact Or.inl known
          · exact checkedRest placement member
    case _ unseen =>
        obtain ⟨⟨⟩, checks, verified⟩ := bind_eq_ok_iff.mp verified
        obtain ⟨rest, verifiedRest, built⟩ := bind_eq_ok_iff.mp verified
        cases built
        have fresh : ∀ placement ∈ checked, placement.hash ≠ (canonical world extent).hash := by
          intro placement member
          rw [canonical_hash]
          simpa using List.find?_eq_none.mp unseen placement member
        have agreeMore : OnePerHash (canonical world extent :: checked) := by
          intro first firstIn second secondIn sameHash
          rcases List.mem_cons.mp firstIn with rfl | firstIn <;>
            rcases List.mem_cons.mp secondIn with rfl | secondIn
          · rfl
          · exact absurd sameHash.symm (fresh second secondIn)
          · exact absurd sameHash (fresh first firstIn)
          · exact agree first firstIn second secondIn sameHash
        obtain ⟨hashes, agreeRest, checkedRest⟩ := ih agreeMore verifiedRest
        refine ⟨by simp [canonical_hash, hashes], ?_, ?_⟩
        · have inside : ∀ placement ∈ (canonical world extent :: rest) ++ checked,
              placement ∈ rest ++ canonical world extent :: checked := by
            intro placement member
            rw [List.mem_append, List.mem_cons]
            rcases List.mem_cons.mp member with rfl | member
            · exact Or.inr (Or.inl rfl)
            · rcases List.mem_append.mp member with inRest | inChecked
              · exact Or.inl inRest
              · exact Or.inr (Or.inr inChecked)
          intro first firstIn second secondIn
          exact agreeRest first (inside first firstIn) second (inside second secondIn)
        · have own : prepared.verifyPlacement world (canonical world extent) = .ok () ∧
              FollowsLive world.catalog.chunks (canonical world extent) :=
            ⟨checks, followsLive_canonical world extent⟩
          intro placement member
          rcases List.mem_cons.mp member with rfl | member
          · exact Or.inr own
          · rcases checkedRest placement member with known | right
            · rcases List.mem_cons.mp known with rfl | known
              · exact Or.inr own
              · exact Or.inl known
            · exact Or.inr right

theorem keepsBefore (prepared : PreparedPublication) (faults : PublicationPoint → Bool)
    (start : Catalog) :
    (prepared.coordinator faults).KeepsBefore
      (fun world => OnlyWrites [.vlogs] start world.catalog) where
  admitVlogs world before := by
    change OnlyWrites _ _ (prepared.admitVlogs world).2.catalog
    unfold admitVlogs
    split <;> exact before
  sync vlogID world before := by
    change OnlyWrites _ _ (prepared.sync vlogID world).2.catalog
    unfold sync
    split
    · exact before
    · dsimp only
      split <;> exact before
  recordPrefix vlogID length world before := by
    change OnlyWrites _ _ (recordPrefix vlogID length world).2.catalog
    unfold recordPrefix
    split_ifs
    · exact before
    · exact before.trans (.of_patch rfl)
  hook hook hooked point world := by
    cases hooked
    rfl

/-- The rows of the planned extents name placements verified in `verifying`,
and no other row has moved. -/
structure PublishedAsVerified (prepared : PreparedPublication)
    (start verifying after : PublicationWorld) : Prop where
  extents : ∀ extent ∈ prepared.planned, ∃ placement : ChunkPlacement,
    placement.hash = extent.hash ∧ prepared.VerifiedOnAllShards verifying placement ∧
      placementAt after.catalog.chunks extent.hash = some placement
  others : ∀ hash, (∀ extent ∈ prepared.planned, extent.hash ≠ hash) →
    placementAt after.catalog.chunks hash = placementAt start.catalog.chunks hash

theorem publishedAsVerified {start verifying verified after : PublicationWorld}
    (counted : Counted start.catalog) {op : WriteOp}
    (found : start.catalog.writeOps.find? prepared.opID = some op)
    (isPrepared : op.state = .prepared)
    (before : OnlyWrites [.vlogs] start.catalog verifying.catalog)
    (verifies : prepared.verify verifying = (.ok (), verified))
    (publishes : prepared.publish verified = (.ok (), after)) :
    PublishedAsVerified prepared start verifying after := by
  have sameChunks : verifying.catalog.chunks = start.catalog.chunks := before .chunks (by simp)
  unfold verify at verifies
  cases resolved : prepared.verifyPlacements verifying prepared.planned [] with
  | error reason =>
    rw [resolved] at verifies
    cases verifies
  | ok placements =>
    rw [resolved] at verifies
    cases verifies
    obtain ⟨hashes, agree, checked⟩ :=
      verifyPlacements_ok (fun _ impossible => by cases impossible) resolved
    rw [List.append_nil] at agree
    have countedNow : Counted verifying.catalog :=
      counted.of_same (before .files (by simp)) (before .heads (by simp))
        (before .snapshotFiles (by simp)) (before .resultRoots (by simp))
        (fun _ => by rw [sameChunks])
    have foundNow : verifying.catalog.writeOps.find? prepared.opID = some op := by
      rw [before .writeOps (by simp)]
      exact found
    have right : ∀ placement ∈ placements, prepared.verifyPlacement verifying placement = .ok () ∧
          FollowsLive verifying.catalog.chunks placement := by
      intro placement member
      rcases checked placement member with impossible | right
      · cases impossible
      · exact right
    have places : PlacesVersion verifying.catalog.chunks
        after.catalog.chunks placements := by
      unfold publish at publishes
      cases committed : prepared.commitVersion { verifying with placements } with
      | error reason =>
        rw [committed] at publishes
        cases publishes
      | ok result =>
        rw [committed] at publishes
        cases publishes
        unfold commitVersion at committed
        split at committed
        · exact placesVersion_commitWriteOpVersion countedNow foundNow
            isPrepared (fun placement member => (right placement member).2)
            agree (Catalog.commitWithRetention_ok committed).2
        · exact placesVersion_commitWriteOpVersion countedNow foundNow
            isPrepared (fun placement member => (right placement member).2)
            agree committed
    constructor
    · intro extent member
      have listed : extent.hash ∈ placements.map ChunkPlacement.hash := by
        rw [hashes]
        exact List.mem_map_of_mem member
      obtain ⟨placement, placementIn, sameHash⟩ := List.mem_map.mp listed
      refine ⟨placement, sameHash,
        verifiedOnAllShards_of_verifyPlacement (right placement placementIn).1,
        ?_⟩
      rw [← sameHash]
      exact places.placed placement placementIn
    · intro hash absent
      rw [← sameChunks]
      refine places.others hash fun placement member sameHash => ?_
      have listed : hash ∈ prepared.planned.map ChunkPlacement.hash := by
        rw [← hashes, ← sameHash]
        exact List.mem_map_of_mem member
      obtain ⟨extent, extentIn, isHash⟩ := List.mem_map.mp listed
      exact absent extent extentIn isHash

end PreparedPublication

/-- A publication from any catalog that transactions lead to leaves the rows of
its extents at the placements that its own verification found on all shards,
and moves no other row. -/
theorem published_placements_were_verified
    {run : List (CatalogAction × Catalog)}
    (isRun : IsRun CatalogStep Catalog.empty run)
    (fit : AllSteps (fun _ action => action.PlacementsFit) Catalog.empty run)
    (prepared : PreparedPublication) (faults : PublicationPoint → Bool)
    {start : PublicationWorld}
    (reached : start.catalog = lastState Catalog.empty run) {op : WriteOp}
    (found : start.catalog.writeOps.find? prepared.opID = some op)
    (isPrepared : op.state = .prepared) {count : Nat}
    (done : ((prepared.coordinator faults).steps count
      (.initial start)).transaction.phase = .done) :
    ∃ earlier,
      ((prepared.coordinator faults).steps earlier (.initial start)).transaction.phase = .verify ∧
      prepared.PublishedAsVerified start
        ((prepared.coordinator faults).steps earlier (.initial start)).world
        ((prepared.coordinator faults).steps count (.initial start)).world := by
  have counted : Counted start.catalog := by
    rw [reached]
    exact (isRun.allStates_of_allSteps (fun _ _ _ counted stepped fit => counted.step stepped fit)
      Counted.empty fit).lastState
  have followed := Coordinator.followed_steps
    (prepared.keepsBefore faults start.catalog) .refl count
  unfold Coordinator.Followed at followed
  simp only [done] at followed
  obtain ⟨verifying, verified, ⟨⟨earlier, phase, rfl⟩, before, verifies⟩, publishes⟩ := followed
  exact ⟨earlier, phase, PreparedPublication.publishedAsVerified counted found isPrepared before
      verifies publishes⟩

/-- A vlog with one plog that holds all of its bytes. -/
def singleCopy (content : Bytes) : MountedVlog where
  vlog :=
    { protectionScheme := .none
      dataShards := 1
      parityShards := 0
      columnBytes := 1
      copies := [⟨content, 0, Nat.zero_le _, true⟩]
      length := content.length
      writeQuorum := 1
      completeReplicas := none }
  complete := by
    intro client asked copy found
    obtain ⟨inside, rfl⟩ := List.getElem?_eq_some_iff.mp found
    simp only [List.getElem_singleton]
    exact Nat.le_refl _

/-- The file shares a chunk with the version it replaces, planned at a place of
its own, and adds a new chunk. -/
def overwritingPublication : PreparedPublication where
  opID := 1
  path := ascii ['a']
  mtime := 1
  planned := [⟨List.replicate 15 7, 1, 70, 1, 1⟩, ⟨List.replicate 15 9, 1, 135, 1, 1⟩]
  retainUntil := some 5
  dedupDomain := [1]
  topology :=
    { shardDisks := fun _ => [⟨1, 1⟩]
      offlinePlogs := fun _ => false
      diskReachable := fun _ => true
      minCopies := 1 }
  answers := fun _ mounted => ⟨mounted.vlog.candidates, .refl _, fun _ => true⟩
  protectedRecord := fun _ _ => some (List.replicate 65 7)
  validRow := fun _ => true

def beforeOverwriting : List CatalogAction :=
  [.makeVlog ⟨0, 0, .none, 1, 0, 0, 0, [1], 1, false⟩, .setVlogLength 1 65,
    .commitFile (ascii ['a']) 0 [⟨List.replicate 15 7, 1, 0, 1, 1⟩],
    .createWriteOp "k" (ascii ['a']) 0, .claimVlogLease 1 1 0]

/-- The shared chunk stays where it was verified, at the old place. -/
theorem overwriting_publishes_verified_placements : let start : PublicationWorld :=
      ⟨lastState Catalog.empty (Catalog.empty.runAll beforeOverwriting),
        fun _ => some (singleCopy (List.replicate 200 7)), [], 0⟩
    ∃ earlier, ((overwritingPublication.coordinator fun _ => false).steps
        earlier (.initial start)).transaction.phase = .verify ∧
      overwritingPublication.PublishedAsVerified start
        ((overwritingPublication.coordinator fun _ => false).steps earlier (.initial start)).world
        ((overwritingPublication.coordinator fun _ => false).steps 5 (.initial start)).world := by
  have fit : AllSteps (fun _ action => action.PlacementsFit) Catalog.empty
      (Catalog.empty.runAll beforeOverwriting) := by
    refine ⟨trivial, trivial, ?_, trivial, trivial, trivial⟩
    intro placement member
    rw [List.mem_singleton.mp member]
    rfl
  have found : (lastState Catalog.empty (Catalog.empty.runAll beforeOverwriting)).writeOps.find?
        overwritingPublication.opID =
      some (⟨1, "k", ascii ['a'], .prepared, 0, 0, 0, []⟩ : WriteOp) := by
    decide +kernel
  refine published_placements_were_verified (Catalog.isRun_runAll _ _) fit
    overwritingPublication (fun _ => false) rfl found rfl ?_
  decide +kernel

end Rose
