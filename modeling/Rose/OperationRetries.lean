import Rose.CommittedResults

/-!
# Retries of one operation

A client that lost an answer opens its key again, writes its bytes again and
closes again, on the same handle or on another, before or after a restart.
Whatever the interleaving, one version is published for the key, every close
tells the same outcome, and bytes or modification times that differ from the
retained result are refused: those written after the commit at once, those
staged before it when their handle is closed.
-/

namespace Rose

open FallibleActions LabelledRuns ListSplice

section Results

/-- The version of a key whose result is retained. -/
def Catalog.resultOf (catalog : Catalog) (key : String) : Option FileVersion :=
  match catalog.writeOpByKey key with
  | none => none
  | some op =>
    if op.state = .committed then catalog.files.find? op.fileID else none

variable {catalog before after : Catalog} {key : String} {op : WriteOp} {version : FileVersion}

theorem resultOf_eq_some (result : catalog.resultOf key = some version) :
    ∃ op, catalog.writeOpByKey key = some op ∧ op.state = .committed ∧
      catalog.files.find? op.fileID = some version := by
  unfold Catalog.resultOf at result
  cases known : catalog.writeOpByKey key with
  | none =>
    rw [known] at result
    cases result
  | some op =>
    rw [known] at result
    dsimp only at result
    split_ifs at result with committed
    exact ⟨op, rfl, committed, result⟩

theorem writeOpByKey_of_mem (keys : KeysDistinct catalog) (opIn : op ∈ catalog.writeOps.rows) :
    catalog.writeOpByKey op.idempotencyKey = some op := by
  cases known : catalog.writeOpByKey op.idempotencyKey with
  | none =>
    have differs := List.find?_eq_none.mp known op opIn
    simp at differs
  | some other =>
    obtain ⟨otherIn, sameKey⟩ := mem_of_writeOpByKey known
    rw [keys other otherIn op opIn sameKey]

theorem resultOf_of_committed (sound : OpsSound before) (from_ : CommittedFrom before after)
    (opIn : op ∈ after.writeOps.rows) (committed : op.state = .committed) :
    ∃ version, before.resultOf op.idempotencyKey = some version ∧
      before.files.find? op.fileID = some version := by
  have oldIn := from_ op opIn committed
  obtain ⟨version, versionIn, sameID⟩ := (KeyedTable.has_iff _ _).mp
    (sound.consistent.versions op oldIn committed)
  have found : before.files.find? op.fileID = some version :=
    (KeyedTable.find?_eq_some_iff _ _ _).mpr ⟨versionIn, sameID⟩
  refine ⟨version, ?_, found⟩
  unfold Catalog.resultOf
  rw [writeOpByKey_of_mem sound.keys oldIn]
  dsimp only
  rw [if_pos committed]
  exact found

theorem committed_of_resultOf (keys : KeysDistinct after) (follow : OpsFollow before after)
    (result : before.resultOf key = some version) (known : after.writeOpByKey key = some op) :
    (op.state = .committed ∧ before.writeOpByKey key = some op ∧
      before.files.find? op.fileID = some version) ∨ op.state = .expired := by
  obtain ⟨old, oldKnown, committed, found⟩ := resultOf_eq_some result
  obtain ⟨oldIn, oldKey⟩ := mem_of_writeOpByKey oldKnown
  obtain ⟨opIn, opKey⟩ := mem_of_writeOpByKey known
  obtain ⟨next, nextIn, -, nextKey, moved⟩ := follow old oldIn
  have same : next = op := keys next nextIn op opIn (nextKey.trans (oldKey.trans opKey.symm))
  subst same
  rcases moved with rfl | prepared | ⟨-, rfl⟩
  · exact Or.inl ⟨committed, oldKnown, found⟩
  · rw [committed] at prepared
    cases prepared
  · exact Or.inr rfl

end Results

/-- All open handles have a property. -/
def FileServer.AllHandles (wanted : FileHandle → Prop) (server : FileServer) :
    Prop :=
  ∀ handle ∈ server.handles.rows, wanted handle

/-- What a write makes of a handle: its bytes are as they were or have the
written ones over them. -/
structure FileHandle.Rewrites (new old : FileHandle) (offset : Nat) (data : Bytes)
    (plain : Bytes → Bytes) : Prop where
  handle : new.handle = old.handle
  mtime : new.mtime = old.mtime
  writeKey : old.writeOpID ≠ 0 → new.writeKey = old.writeKey
  staged : (new.staged plain = old.staged plain ∧ new.writeTouched = old.writeTouched) ∨
    (new.staged plain = overwrite 0 (old.staged plain) offset data ∧
      (old.writeTouched = true → new.writeTouched = true))

namespace FileServer

section Handles

variable {plain : Bytes → Bytes} {server : FileServer} {found : FileHandle}

theorem staged_of_spill {writing : FileHandle} (joins : writing.Joins found)
    (stored : found.Stored plain) (offset : Nat) (data : Bytes) (spiller : CacheSpiller plain)
    (touched : Bool) :
    FileHandle.staged
      { writing with
        cache := some (spiller.spill ((writing.cache.getD
          (newWriteCache writing.chunks)).writeAt offset data)).2
        writeTouched := touched } plain =
      overwrite 0 (found.staged plain) offset data := by
  have view := (spiller.spill_write stored.cache offset data).2
  unfold FileHandle.staged
  rw [joins.cache, joins.chunks]
  exact view

theorem rewrites_of_joins {new : FileHandle} (joins : new.Joins found) (offset : Nat)
    (data : Bytes) :
    new.Rewrites found offset data plain := by
  refine ⟨joins.handle, joins.mtime, joins.writeKey, Or.inl ⟨?_, joins.writeTouched⟩⟩
  unfold FileHandle.staged
  rw [joins.cache, joins.chunks]

/-- An acknowledged write repeats committed bytes or stages its own. -/
theorem write_acknowledges (handle offset : Nat) (data : Bytes) (env : RequestEnv)
    (payload : PayloadReader plain) (spiller : CacheSpiller plain)
    (stored : server.AllHandles (·.Stored plain)) :
    Ends (write handle offset data env payload spiller) server
      (fun _ after => ∃ found middle op, server.handles.find? handle = some found ∧
        Transacts CatalogAction.Opens server.catalog middle.catalog ∧
        middle.catalog.writeOpByKey found.mutationKey = some op ∧
        ((op.state = .committed ∧ validateCommittedWriteRetry op offset data payload middle =
              .ok () middle) ∨
          (op.state = .prepared ∧ ∃ new ∈ after.handles.rows,
            new.handle = handle ∧ new.writeTouched = true ∧
            new.staged plain = overwrite 0 (found.staged plain) offset data)))
      (fun _ => True) := by
  refine findHandle_bind (fun found isFound => ?_) trivial
  obtain ⟨present, isHandle⟩ := (KeyedTable.find?_eq_some_iff _ _ _).mp isFound
  split_ifs
  · exact .throw trivial
  have joining :=
    (ServerMoves.frame CatalogAction.Opens AnyHandle server).ensureWriteOperation_keeps
      (fun _ => id) env (fun new (_ : new.Joins found) => Or.inl ⟨new, Or.inr trivial, .refl new⟩)
  refine ((joining server (.refl server)).mono (fun _ _ => id) (fun _ _ => trivial)).bind ?_
  rintro writing middle ⟨⟨transacts, -⟩, joins, isKey⟩
  refine writeOpForMutation_bind (fun op known _ => ?_) trivial
  rw [isKey] at known
  cases state : op.state with
  | committed =>
    refine ((ends_of_still (validateCommittedWriteRetry_still op offset data
      payload)).mono (fun _ _ => id) (fun _ _ => trivial)).bind ?_
    rintro _ last ⟨rfl, validated⟩
    exact .pure ⟨found, last, op, isFound, transacts, known, Or.inl ⟨state, validated⟩⟩
  | prepared =>
    have staged := staged_of_spill joins (stored found present) offset data spiller true
    unfold writeCached
    dsimp only
    split
    · exact putHandle_bind (.throw trivial)
    · exact putHandle_bind (.pure ⟨found, middle, op, isFound, transacts,
        known, Or.inr ⟨state, _, (KeyedTable.mem_put _ _ _).mpr (Or.inr rfl),
          joins.handle.trans isHandle, rfl, staged⟩⟩)
  | abandoned => exact .throw trivial
  | cancelled => exact .throw trivial
  | expired => exact .throw trivial

end Handles

end FileServer

section Checks

variable {plain : Bytes → Bytes} {before after : FileServer} {exchange : Request plain × Reply}

/-- The handles whose written bytes or modification time a request changes. -/
def Request.Redrafts (before : FileServer) :
    Request plain → FileHandle → Prop
  | .openHandle .., new => new.handle = before.handleCounter ∧
      new.writeTouched = false ∧ new.mtime = none
  | .write handle offset data .., new =>
    ∃ found, before.handles.find? handle = some found ∧ new.Rewrites found offset data plain
  | .setHandleMtime handle mtime _, new =>
    ∃ found, before.handles.find? handle = some found ∧ new = { found with mtime := some mtime }
  | _, _ => False

/-- A handle with an operation stages what it did, but for the requests that
are about it. -/
def StagingKept (before : FileServer) (request : Request plain) (after : FileServer) : Prop :=
  ∀ new ∈ after.handles.rows, new.writeOpID ≠ 0 →
    (∃ old ∈ before.handles.rows, new.SameStaging old) ∨ request.Redrafts before new

theorem FileServer.Serves.stagingKept (served : before.Serves exchange after)
    (stored : before.AllHandles (·.Stored plain)) :
    StagingKept before exchange.1 after := by
  obtain ⟨request, reply⟩ := exchange
  have frame : Frame (fun action => request.issues action ∧ action.Quiet)
      (fun new => new.writeOpID ≠ 0 → (∃ old ∈ before.handles.rows, new.SameStaging old) ∨
        request.Redrafts before new) (fun _ => True) (StagingKept before request) := by
    refine ⟨fun _ _ => id, fun isWanted kept new newIn => ?_,
      fun subset kept new newIn => kept new (subset new newIn), fun _ => id, fun _ _ => trivial⟩
    rcases (KeyedTable.mem_put _ _ _).mp newIn with ⟨oldIn, -⟩ | rfl
    · exact kept new oldIn
    · exact isWanted
  -- a handle that loses or changes its name stages what it did
  have carried : ∀ old new : FileHandle, new.SameStaging old → ¬request.KeepsNames →
      ((∃ oldest ∈ before.handles.rows, old.SameStaging oldest) ∨ request.Redrafts before old) →
      (∃ oldest ∈ before.handles.rows, new.SameStaging oldest) ∨ request.Redrafts before new := by
    rintro old new same taken (⟨oldest, oldestIn, earlier⟩ | drafts)
    · exact Or.inl ⟨oldest, oldestIn, same.trans earlier⟩
    · cases request <;> first | exact drafts.elim | exact absurd trivial taken
  refine served.keeps frame (fun new put writes => ?_)
    (fun _ _ _ _ _ _ => commitVersion_applies (fun _ _ _ _ => id) trivial)
    (fun taken _ _ unlinked kept new newIn writes => ?_)
    (fun moving _ handle path kept handleIn writes => ?_)
    (fun new newIn _ => Or.inl ⟨new, newIn, .refl new⟩)
  · cases request with
    | openHandle => exact Or.inr ⟨put.handle, put.writeTouched, put.mtime⟩
    | openSnapshot => exact absurd put.2.1 writes
    | write handle offset data env payload spiller =>
      obtain ⟨found, isFound, joins | ⟨writing, touched, joins, keeps, rfl⟩⟩ := put
      · exact Or.inr ⟨found, isFound, rewrites_of_joins joins offset data⟩
      · have foundStored := stored found (KeyedTable.mem_of_find? isFound)
        exact Or.inr ⟨found, isFound, joins.handle, joins.mtime, joins.writeKey, Or.inr
          ⟨staged_of_spill joins foundStored offset data spiller touched, keeps⟩⟩
    | setHandleMtime =>
      obtain ⟨found, openedMtime, isFound, sameTime, rfl⟩ := put
      refine Or.inr ⟨found, isFound, ?_⟩
      rw [sameTime writes]
    | flush | close =>
      obtain ⟨found, isFound, rfl | ⟨-, -, none, -⟩⟩ := put
      · exact Or.inl ⟨found, KeyedTable.mem_of_find? isFound, rfl, rfl, rfl, rfl, rfl,
          fun _ => rfl⟩
      · exact absurd none writes
    | _ => exact put.elim
  · obtain ⟨old, oldIn, rfl | rfl⟩ := unlinked new newIn
    · exact kept new oldIn writes
    · exact carried old _ ⟨rfl, rfl, rfl, rfl, rfl, fun _ => rfl⟩ taken (kept old oldIn writes)
  · have taken : ¬request.KeepsNames := by
      cases request <;> first | exact moving.elim | exact id
    exact carried handle _ ⟨rfl, rfl, rfl, rfl, rfl, fun _ => rfl⟩ taken
      (kept handle handleIn writes)

/-- What every request keeps of the state that retries are checked against. -/
structure RetriesSound (plain : Bytes → Bytes) (server : FileServer) :
    Prop where
  ops : OpsSound server.catalog
  contents : ContentsStored plain False server
  measured : ResultsMeasured plain server.catalog

theorem RetriesSound.initial (counter : Nat) : RetriesSound plain (.initial counter) :=
  ⟨.empty, .initial counter, .empty⟩

theorem RetriesSound.serves (sound : RetriesSound plain before)
    (served : before.Serves exchange after) : RetriesSound plain after :=
  ⟨sound.ops.serves served, sound.contents.serves served False.elim,
    sound.measured.serves sound.ops.consistent served⟩

/-- What opening an operation does to the catalog. -/
theorem opens_of_transacts {before after : Catalog} (sound : OpsSound before)
    (transacts : Transacts CatalogAction.Opens before after) :
    OpsSound after ∧ OpsFollow before after ∧ CommittedFrom before after ∧
      after.files = before.files := by
  have step : ∀ (first : Catalog) action (second : Catalog),
      CatalogAction.Opens action → first.apply action = .ok second →
      (OpsSound first ∧ OpsFollow before first ∧ CommittedFrom before first ∧
        first.files = before.files) →
      OpsSound second ∧ OpsFollow before second ∧
        CommittedFrom before second ∧ second.files = before.files := by
    rintro first action second permitted applied ⟨firstSound, follow, committed, files⟩
    have quiet : action.Quiet := by
      cases action <;> first | exact permitted.elim | trivial
    have spares : CatalogTable.files ∉ action.writes := by
      cases action <;> first
        | exact permitted.elim
        | simp [CatalogAction.writes]
    exact ⟨⟨firstSound.consistent.apply applied, firstSound.keys.apply applied⟩,
      follow.trans (.apply applied), committed.trans (.apply quiet applied),
      (Catalog.apply_writes applied .files spares).trans files⟩
  exact transacts.keeps step ⟨sound, .refl before, .of_same rfl, rfl⟩

/-- A write whose operation has a retained result repeats its bytes; another
one is staged. -/
def WriteChecked (before : FileServer) (exchange : Request plain × Reply) :
    Prop :=
  ∀ handle offset data env payload spiller length found,
    exchange = (.write handle offset data env payload spiller, .acknowledged length) →
    before.handles.find? handle = some found →
    (∀ version, before.catalog.resultOf found.mutationKey = some version →
      offset + data.length ≤ (version.bytes plain).length ∧
        slice (version.bytes plain) offset data.length = data) ∧
    (before.catalog.resultOf found.mutationKey = none →
      ∃ new ∈ (before.serve exchange.1).2.handles.rows, new.handle = handle ∧
        new.writeTouched = true ∧
        new.staged plain = overwrite 0 (found.staged plain) offset data)

/-- A close or a flush whose operation has a retained result succeeds only with
the committed modification time and, if the handle wrote before, its bytes. -/
def CloseChecked (before : FileServer) (exchange : Request plain × Reply) :
    Prop :=
  ∀ handle key env deadline found version,
    exchange.1.Asks handle key env → exchange.2 = .finished deadline →
    before.handles.find? handle = some found → found.writeOpID ≠ 0 →
    found.unlinked = false →
    before.catalog.resultOf found.writeKey = some version →
    (found.writeTouched = true → found.staged plain = version.bytes plain) ∧
      ∀ asked, found.mtime = some asked → asked = version.mtime

section

variable (sound : RetriesSound plain before) (served : before.Serves exchange after)
include sound served

theorem RetriesSound.writeChecked : WriteChecked before exchange := by
  rintro handle offset data env payload spiller length found rfl isFound
  have state : (before.serve (.write handle offset data env payload spiller)).2 = after :=
    congrArg Prod.snd served
  dsimp only
  rw [state]
  have ends := FileServer.write_acknowledges handle offset data env payload
    spiller fun other otherIn => (sound.contents.handles other otherIn).1
  rcases FileServer.answer_ends .acknowledged ends with
    ⟨value, next, answered, own, middle, op, isOwn, transacts, known, outcome⟩ |
    ⟨reason, next, answered, -⟩
  · obtain ⟨-, rfl⟩ := Prod.mk.inj (answered.symm.trans served)
    obtain rfl : own = found := Option.some.inj (isOwn.symm.trans isFound)
    obtain ⟨middleSound, follow, committedFrom, files⟩ := opens_of_transacts sound.ops transacts
    obtain ⟨opIn, opKey⟩ := mem_of_writeOpByKey known
    constructor
    · intro version result
      rcases committed_of_resultOf middleSound.keys follow result known with
        ⟨committed, knownBefore, isVersion⟩ | expired
      · obtain ⟨nonzero, lengths⟩ := sound.measured op (mem_of_writeOpByKey knownBefore).1 committed
        obtain ⟨versionIn, sameID⟩ := (KeyedTable.find?_eq_some_iff _ _ _).mp isVersion
        rw [← lengths version versionIn sameID]
        rcases outcome with ⟨-, validated⟩ | ⟨prepared, -⟩
        · exact slice_of_validateCommittedWriteRetry (by rw [files]; exact sound.contents.versions)
            (by rw [files]; exact isVersion) nonzero validated
        · rw [committed] at prepared
          cases prepared
      · rcases outcome with ⟨committed, -⟩ | ⟨prepared, -⟩
        · rw [expired] at committed
          cases committed
        · rw [expired] at prepared
          cases prepared
    · intro none
      rcases outcome with ⟨committed, -⟩ | ⟨-, staged⟩
      · obtain ⟨version, result, -⟩ := resultOf_of_committed sound.ops committedFrom opIn committed
        rw [opKey, none] at result
        cases result
      · exact staged
  · obtain ⟨impossible, -⟩ := Prod.mk.inj (answered.symm.trans served)
    cases impossible

theorem RetriesSound.closeChecked : CloseChecked before exchange := by
  obtain ⟨request, reply⟩ := exchange
  rintro handle key env deadline found version asks rfl isFound writes linked result
  rcases served.finishing asks with
    ⟨told, start, sameReply, expired, finishing⟩ | ⟨⟨reason, impossible⟩, -⟩
  · have startFound : start.handles.find? handle = some found := by
      rw [expired.1]
      exact isFound
    have keys := sound.ops.keys.apply expired.applied
    have follow := OpsFollow.apply expired.applied
    have files : start.catalog.files = before.catalog.files :=
      Catalog.apply_writes expired.applied .files (by simp [CatalogAction.writes])
    generalize after.catalog = left at finishing
    cases finishing with
    | answered op absent | forgotten op absent =>
      rw [startFound] at absent
      cases absent
    | released own catalog present _ unlinked =>
      obtain rfl := Option.some.inj (present.symm.trans startFound)
      rw [linked] at unlinked
      cases unlinked
    | read own present none =>
      obtain rfl := Option.some.inj (present.symm.trans startFound)
      exact absurd none writes
    | confirmed own op placements mtime present _ _ known committed chunks
        validated stamped agrees =>
      obtain rfl := Option.some.inj (present.symm.trans startFound)
      rcases committed_of_resultOf keys follow result known with
        ⟨-, knownBefore, isVersion⟩ | isExpired
      · obtain ⟨nonzero, lengths⟩ := sound.measured op (mem_of_writeOpByKey knownBefore).1 committed
        obtain ⟨versionIn, sameID⟩ := (KeyedTable.find?_eq_some_iff _ _ _).mp isVersion
        have foundIn := KeyedTable.mem_of_find? isFound
        rw [← files] at isVersion
        have bytes := @fileVersionChunks_bytes plain _ _ _ _ chunks isVersion nonzero
        have stored := fileVersionChunks_stored
          (by rw [files]; exact sound.contents.versions) chunks
        refine ⟨fun touched => ?_, fun asked isAsked => ?_⟩
        · rw [← bytes]
          exact staged_of_validateTouched (sound.contents.handles own foundIn).1 stored
            (by rw [bytes]; exact lengths version versionIn sameID) touched
            validated
        · rw [agrees asked isAsked]
          unfold Catalog.fileVersionMtime at stamped
          rw [isVersion] at stamped
          exact (Except.ok.inj stamped).symm
      · rw [committed] at isExpired
        cases isExpired
    | published own op chunks fileID catalog reported present _ _ known uncommitted commits =>
      obtain rfl := Option.some.inj (present.symm.trans startFound)
      rcases committed_of_resultOf keys follow result known with
        ⟨committed, -⟩ | isExpired
      · exact absurd committed uncommitted
      · obtain ⟨opIn, -⟩ := mem_of_writeOpByKey known
        obtain ⟨other, otherIn, otherID, ⟨committed, -⟩ | ⟨prepared, -⟩⟩ :=
          commitWriteOpVersion_rows commits
        · rw [start.catalog.writeOps.eq_of_key_eq otherIn opIn otherID, isExpired] at committed
          cases committed
        · rw [start.catalog.writeOps.eq_of_key_eq otherIn opIn otherID, isExpired] at prepared
          cases prepared
  · cases impossible

end

/-- The versions that are new belong to committed operations. -/
def VersionsAttributed (before after : Catalog) : Prop :=
  ∀ version ∈ after.files.rows, version ∈ before.files.rows ∨
    ∃ op ∈ after.writeOps.rows, op.state = .committed ∧ op.fileID = version.id

theorem attributed_of_finishing {handle : Nat} {key : String} {env : FinishEnv plain}
    {start : FileServer} {reported : Option Int} {catalog : Catalog}
    (finishing : FileServer.Finishing handle key env start reported catalog) :
    VersionsAttributed start.catalog catalog := by
  intro version versionIn
  cases finishing with
  | refused | answered | forgotten | read | confirmed =>
    exact Or.inl versionIn
  | released found catalog present writes unlinked left =>
    rcases left with rfl | rfl
    · exact Or.inl versionIn
    · exact Or.inl versionIn
  | published found op chunks fileID catalog reported present writes linked
      known uncommitted commits =>
    rcases commitWriteOpVersion_files commits version versionIn with
      old | rfl
    · exact Or.inl old
    obtain ⟨opIn, -⟩ := mem_of_writeOpByKey known
    obtain ⟨own, ownIn, ownID, ⟨committed, -⟩ | ⟨-, rows, -⟩⟩ := commitWriteOpVersion_rows commits
    · rw [start.catalog.writeOps.eq_of_key_eq ownIn opIn ownID] at committed
      exact absurd committed uncommitted
    · refine Or.inr ⟨committedAs op.id fileID (totalLen chunks.placements) op,
        by rw [rows]; exact List.mem_map_of_mem opIn, ?_⟩
      unfold committedAs
      rw [if_pos rfl]
      exact ⟨rfl, rfl⟩

theorem FileServer.Serves.attributed (served : before.Serves exchange after) :
    VersionsAttributed before.catalog after.catalog := by
  obtain ⟨request, reply⟩ := exchange
  by_cases finishes : request.Finishes
  · obtain ⟨handle, key, env, asks⟩ := Request.asks_of_finishes finishes
    have ending : ∀ start reported, before.Expired env.now start →
        Finishing handle key env start reported after.catalog →
        VersionsAttributed before.catalog after.catalog := by
      intro start reported expired finishing version versionIn
      exact (attributed_of_finishing finishing version versionIn).imp_left (expired.files version)
    rcases served.finishing asks with
      ⟨deadline, start, -, expired, finishing⟩ |
      ⟨-, rfl | ⟨start, expired, finishing⟩⟩
    · exact ending start _ expired finishing
    · exact fun version versionIn => Or.inl versionIn
    · exact ending start _ expired finishing
  · refine fun version versionIn => Or.inl ?_
    have step : ∀ (first : Catalog) action (second : Catalog),
        request.issues action → first.apply action = .ok second →
        (∀ version ∈ first.files.rows, version ∈ before.catalog.files.rows) →
        ∀ version ∈ second.files.rows, version ∈ before.catalog.files.rows :=
      fun _ _ _ issued applied subset version versionIn => subset version
        (files_of_quiet (Request.quiet_of_issues finishes issued) applied version versionIn)
    exact served.moves.1.keeps step (fun _ => id) version versionIn

/-- One exchange treats retries as it should. -/
structure RetryChecked (before : FileServer) (exchange : Request plain × Reply) : Prop where
  write : WriteChecked before exchange
  close : CloseChecked before exchange
  staging : StagingKept before exchange.1 (before.serve exchange.1).2
  attributed : VersionsAttributed before.catalog (before.serve exchange.1).2.catalog

theorem RetriesSound.retryChecked (sound : RetriesSound plain before)
    (served : before.Serves exchange after) :
    RetryChecked before exchange := by
  have state : (before.serve exchange.1).2 = after := congrArg Prod.snd served
  refine ⟨sound.writeChecked served, sound.closeChecked served, ?_, ?_⟩
  · rw [state]
    exact served.stagingKept fun other otherIn => (sound.contents.handles other otherIn).1
  · rw [state]
    exact served.attributed

end Checks

section Runs

variable {plain : Bytes → Bytes}

theorem linked_of_keepsNames {counter : Nat}
    {run : List ((Request plain × Reply) × FileServer)}
    (isRun : IsRun FileServer.Serves (.initial counter) run)
    (names : AllSteps (fun _ (exchange : Request plain × Reply) => exchange.1.KeepsNames)
      (.initial counter) run) :
    AllStates (FileServer.AllHandles fun handle => handle.unlinked = false)
      (.initial counter) run := by
  have stored : AllStates (ContentsStored plain True) (.initial counter) run :=
    isRun.allStates_of_allSteps
      (fun _ _ _ kept served keepsNames => kept.serves served fun _ => keepsNames)
      (.initial counter) names
  exact ⟨fun handle handleIn => (stored.1.handles handle handleIn).2 trivial,
    fun entry entryIn handle handleIn =>
      ((stored.2 entry entryIn).handles handle handleIn).2 trivial⟩

/-- The run of a list of requests. -/
def FileServer.serveAll (server : FileServer) :
    List (Request plain) → List ((Request plain × Reply) × FileServer)
  | [] => []
  | request :: rest =>
    let served := server.serve request
    ((request, served.1), served.2) :: served.2.serveAll rest

theorem FileServer.isRun_serveAll (server : FileServer) (requests : List (Request plain)) :
    IsRun Serves server (server.serveAll requests) := by
  induction requests generalizing server with
  | nil => trivial
  | cons request rest ih => exact ⟨rfl, ih _⟩

end Runs

end Rose
