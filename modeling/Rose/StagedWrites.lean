import Rose.RetryOutcomes

/-!
# What handles have written

A handle that writes keeps its bytes in a cache over its base version until it
is finished.  The extents of versions and handles name stored bytes, so the
bytes of a committed version and those a handle would publish are well defined,
and a retry is compared byte by byte.  Requests other than a write leave what a
handle has written as it is.
-/

namespace Rose

open FallibleActions LabelledRuns ListSplice

section Versions

/-- The bytes of a version. -/
def FileVersion.bytes (version : FileVersion) (plain : Bytes → Bytes) : Bytes :=
  (chunkHashes version.chunks).flatMap plain

/-- Every extent of a version names stored bytes of its length. -/
def FileVersion.Stored (version : FileVersion) (plain : Bytes → Bytes) : Prop :=
  ∀ extent ∈ extentsOf version.chunks,
    (plain (extent.take 15)).length = LittleEndian.decode (extent.drop 15) ∧
      0 < LittleEndian.decode (extent.drop 15)

variable {plain : Bytes → Bytes}

variable {placements : List ChunkPlacement}

theorem identities_of_mapM {chunks : KeyedTable ChunkRow.hash} {extents : List Bytes}
    (mapped : extents.mapM (extentPlacement chunks) = .ok placements) :
    placements.map extentIdentity = extents.map (fun extent =>
      (extent.take 15, LittleEndian.decode (extent.drop 15))) := by
  induction extents generalizing placements with
  | nil =>
    cases mapped
    rfl
  | cons extent extents ih =>
    rw [List.mapM_cons] at mapped
    obtain ⟨placement, placed, rest⟩ := bind_eq_ok_iff.mp mapped
    obtain ⟨others, placedOthers, same⟩ := bind_eq_ok_iff.mp rest
    cases same
    rw [List.map_cons, List.map_cons, ih placedOthers]
    unfold extentPlacement at placed
    split at placed
    · cases placed
    · cases placed
      rfl

theorem chunkBytes_eq_of_identities
    {extents : List Bytes}
    (same : placements.map extentIdentity = extents.map (fun extent =>
      (extent.take 15, LittleEndian.decode (extent.drop 15)))) :
    chunkBytes plain placements = (extents.map (·.take 15)).flatMap plain := by
  have hashes : placements.map ChunkPlacement.hash = extents.map (·.take 15) := by
    have firsts := congrArg (List.map Prod.fst) same
    simpa [extentIdentity, Function.comp_def] using firsts
  rw [← hashes, List.flatMap_map]
  rfl

theorem fileVersionChunks_bytes {catalog : Catalog} {fileID : Nat} {version : FileVersion}
    (read : catalog.fileVersionChunks fileID = .ok placements)
    (found : catalog.files.find? fileID = some version) (nonzero : fileID ≠ 0) :
    chunkBytes plain placements = version.bytes plain := by
  unfold Catalog.fileVersionChunks Catalog.fileChunks at read
  rw [if_neg nonzero, found] at read
  exact chunkBytes_eq_of_identities (identities_of_mapM read)

theorem fileVersionChunks_stored {catalog : Catalog} {fileID : Nat}
    (versions : ∀ version ∈ catalog.files.rows, version.Stored plain)
    (read : catalog.fileVersionChunks fileID = .ok placements) :
    AllStored plain placements := by
  unfold Catalog.fileVersionChunks at read
  split_ifs at read with zero
  · cases read
    exact allStored_nil
  · obtain ⟨blob, found, mapped⟩ := bind_eq_ok_iff.mp read
    unfold Catalog.fileChunks at found
    split at found
    · cases found
    · rename_i version isFound
      cases found
      have stored := versions version (KeyedTable.mem_of_find? isFound)
      have identities := identities_of_mapM mapped
      intro placement member
      have listed : extentIdentity placement ∈
          placements.map extentIdentity := List.mem_map_of_mem member
      rw [identities] at listed
      obtain ⟨extent, extentIn, same⟩ := List.mem_map.mp listed
      obtain ⟨sameHash, sameLen⟩ := Prod.mk.inj same
      have holds := stored extent extentIn
      rw [sameHash, sameLen] at holds
      exact holds

/-- A published version holds the bytes of its placements. -/
theorem stored_packExtents (fit : HashesFit placements) (stored : AllStored plain placements)
    (sizes : ∀ placement ∈ placements, placement.logicalLen < 2 ^ 32) (id : Nat) (path : Path)
    (mtime : Int) :
    FileVersion.Stored ⟨id, path, mtime, packExtents placements⟩ plain ∧
      FileVersion.bytes ⟨id, path, mtime, packExtents placements⟩ plain =
        chunkBytes plain placements := by
  have split : ∀ placement ∈ placements,
      ((extentBytes placement).take 15, LittleEndian.decode ((extentBytes placement).drop 15)) =
        extentIdentity placement := by
    intro placement member
    have hashLength := fit placement member
    have small : placement.logicalLen < 256 ^ 4 := sizes placement member
    unfold extentBytes extentIdentity
    rw [List.take_left' hashLength, List.drop_left' hashLength,
      LittleEndian.decode_encode_of_lt small]
  have extents := extentsOf_packExtents fit
  constructor
  · intro extent extentIn
    dsimp only at extentIn
    rw [extents] at extentIn
    obtain ⟨placement, member, rfl⟩ := List.mem_map.mp extentIn
    obtain ⟨sameHash, sameLen⟩ := Prod.mk.inj (split placement member)
    rw [sameHash, sameLen]
    exact stored placement member
  · have same : placements.map extentIdentity =
        (extentsOf (packExtents placements)).map (fun extent =>
          (extent.take 15, LittleEndian.decode (extent.drop 15))) := by
      rw [extents, List.map_map]
      exact List.map_congr_left fun placement member =>
        (split placement member).symm
    exact (chunkBytes_eq_of_identities same).symm

end Versions

section Caches

variable {plain : Bytes → Bytes}

/-- A cache that reads as it should. -/
def WriteCache.Sound (cache : WriteCache) (plain : Bytes → Bytes) : Prop :=
  cache.WellFormed plain ∧ SpansOrdered cache.spans

/-- The base and the cache of a handle name stored bytes. -/
def FileHandle.Stored (handle : FileHandle) (plain : Bytes → Bytes) : Prop :=
  AllStored plain handle.chunks ∧ ∀ cache, handle.cache = some cache → cache.Sound plain

theorem newWriteCache_sound {base : List ChunkPlacement} (stored : AllStored plain base) :
    (newWriteCache base).Sound plain :=
  ⟨WriteCache.newWriteCache_wellFormed stored, by
    constructor <;> simp [newWriteCache]⟩

theorem FileHandle.Stored.cache {handle : FileHandle} (stored : handle.Stored plain) :
    (handle.cache.getD (newWriteCache handle.chunks)).Sound plain := by
  cases held : handle.cache with
  | none => exact newWriteCache_sound stored.1
  | some cache => exact stored.2 cache held

variable {cache : WriteCache} (spiller : CacheSpiller plain) (sound : cache.Sound plain)
include spiller sound

theorem CacheSpiller.keeps :
    (spiller.spill cache).2.Sound plain ∧
      (spiller.spill cache).2.view plain = cache.view plain := by
  rcases spiller.sound cache with same | ⟨placements, step⟩
  · rw [same]
    exact ⟨sound, rfl⟩
  · exact ⟨⟨step.wellFormed sound.1, step.ordered sound.1 sound.2 trivial⟩,
      step.view sound.1 sound.2⟩

theorem CacheSpiller.spill_write (offset : Nat) (data : Bytes) :
    (spiller.spill (cache.writeAt offset data)).2.Sound plain ∧
      (spiller.spill (cache.writeAt offset data)).2.view plain =
        overwrite 0 (cache.view plain) offset data := by
  have step : CacheStep plain cache (.write offset data)
      (cache.writeAt offset data) := .write cache offset data
  have written : (cache.writeAt offset data).Sound plain :=
    ⟨step.wellFormed sound.1, step.ordered sound.1 sound.2 trivial⟩
  obtain ⟨kept, same⟩ := spiller.keeps written
  exact ⟨kept, same.trans (step.view sound.1 sound.2)⟩

end Caches

/-- A handle with stored bytes; in the strict sense it also has its name. -/
def FileHandle.Good (handle : FileHandle) (plain : Bytes → Bytes) (strict : Prop) : Prop :=
  handle.Stored plain ∧ (strict → handle.unlinked = false)

theorem FileHandle.Stored.of_chunks {plain : Bytes → Bytes} {handle : FileHandle}
    (stored : AllStored plain handle.chunks) (noCache : handle.cache = none) :
    handle.Stored plain := by
  refine ⟨stored, fun cache held => ?_⟩
  rw [noCache] at held
  cases held

/-- The versions and the open handles name stored bytes. -/
structure ContentsStored (plain : Bytes → Bytes) (strict : Prop) (server : FileServer) : Prop where
  versions : ∀ version ∈ server.catalog.files.rows, version.Stored plain
  handles : ∀ handle ∈ server.handles.rows, handle.Good plain strict

section Serving

variable {plain : Bytes → Bytes} {strict : Prop} {before after : FileServer}
  {exchange : Request plain × Reply}

theorem commitVersion_stored (found : FileHandle) (opID : Nat) (mtime : Int)
    (chunks : PreparedChunks plain) (env : FinishEnv plain) :
    Keeps (ContentsStored plain strict) (FileServer.commitVersion found opID mtime chunks env)
      fun _ => AllStored plain chunks.placements := by
  intro server stored
  refine (FileServer.commitVersion_ends found opID mtime chunks).mono ?_ ?_
  · rintro fileID after ⟨same, commits⟩
    have handles : after.handles = server.handles := by rw [same]
    refine ⟨⟨fun version versionIn => ?_, handles ▸ stored.handles⟩, chunks.stored⟩
    rcases commitWriteOpVersion_files commits version versionIn with
      old | rfl
    · exact stored.versions version old
    · exact (stored_packExtents chunks.hashesFit chunks.stored chunks.sizesFit
        _ _ _).1
  · rintro after rfl
    exact stored

theorem ContentsStored.frame {allowed : CatalogAction → Prop} :
    FileServer.Frame (fun action => allowed action ∧ action.Quiet) (·.Good plain strict)
      (AllStored plain) (ContentsStored plain strict) where
  acts permitted applied stored := ⟨fun version versionIn => stored.versions version
    (files_of_quiet permitted.2 applied version versionIn), stored.handles⟩
  puts good stored := by
    refine ⟨stored.versions, fun other otherIn => ?_⟩
    rcases (KeyedTable.mem_put _ _ _).mp otherIn with ⟨oldIn, -⟩ | rfl
    · exact stored.handles other oldIn
    · exact good
  drops subset stored := ⟨stored.versions, fun row rowIn => stored.handles row (subset row rowIn)⟩
  counts _ stored := ⟨stored.versions, stored.handles⟩
  chunks stored read := fileVersionChunks_stored stored.versions read

theorem ContentsStored.serves (stored : ContentsStored plain strict before)
    (served : before.Serves exchange after) (names : strict → exchange.1.KeepsNames) :
    ContentsStored plain strict after := by
  obtain ⟨request, reply⟩ := exchange
  have found : ∀ {handle : Nat} {row : FileHandle}, before.handles.find? handle = some row →
      row.Good plain strict := fun isFound => stored.handles _ (KeyedTable.mem_of_find? isFound)
  refine served.keeps ContentsStored.frame (fun new put => ?_) (fun _ => commitVersion_stored)
    (fun taken _ _ unlinked kept => ⟨kept.versions, fun new newIn => ?_⟩)
    (fun _ _ handle path kept handleIn => ?_) stored
  · have opened : ∀ number, new.Opened number (AllStored plain) → new.Good plain strict := by
      refine fun number fresh => ⟨⟨fresh.chunks, fun cache held => ?_⟩, fun _ => fresh.unlinked⟩
      rw [fresh.cache cache held]
      exact newWriteCache_sound fresh.chunks
    have joined : ∀ {row writing : FileHandle}, row.Good plain strict → writing.Joins row →
        writing.Good plain strict := by
      rintro row writing ⟨⟨chunks, caches⟩, linked⟩ joins
      refine ⟨⟨joins.chunks ▸ chunks, fun cache held => caches cache ?_⟩, fun isStrict => ?_⟩
      · rw [← joins.cache, held]
      · rw [joins.unlinked, linked isStrict]
    cases request with
    | openHandle => exact opened _ put
    | openSnapshot =>
      obtain ⟨⟨number, fresh⟩, -⟩ := put
      exact opened number fresh
    | write handle offset data env payload spiller =>
      obtain ⟨row, isFound, joins | ⟨writing, touched, joins, -, rfl⟩⟩ := put
      · exact joined (found isFound) joins
      · have good := joined (found isFound) joins
        refine ⟨⟨good.1.1, ?_⟩, good.2⟩
        rintro cache ⟨⟩
        exact (spiller.spill_write good.1.cache offset data).1
    | setHandleMtime =>
      obtain ⟨row, openedMtime, isFound, -, rfl⟩ := put
      have good := found isFound
      exact good
    | flush | close =>
      obtain ⟨row, isFound, rfl | ⟨-, linked, -, noCache, listed⟩⟩ := put
      · refine ⟨⟨(found isFound).1.1, ?_⟩, (found isFound).2⟩
        rintro cache ⟨⟩
        exact (found isFound).1.cache
      · exact ⟨.of_chunks listed noCache, fun isStrict => linked.trans ((found isFound).2 isStrict)⟩
    | _ => exact put.elim
  · have lenient : ¬strict := fun isStrict => taken (names isStrict)
    refine ⟨?_, fun isStrict => absurd isStrict lenient⟩
    obtain ⟨old, oldIn, rfl | rfl⟩ := unlinked new newIn
    · exact (kept.handles new oldIn).1
    · exact (kept.handles old oldIn).1
  · have good := kept.handles handle handleIn
    exact good

theorem ContentsStored.initial (counter : Nat) :
    ContentsStored plain strict (.initial counter) := by
  constructor
  · intro version impossible
    cases impossible
  · intro handle impossible
    cases impossible

end Serving

end Rose
