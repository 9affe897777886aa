import Rose.FinishingRequests
import Rose.RenamedIntents

/-!
# Runs of requests and the names they publish at

The record of names moves with the requests: a removal takes the names it
reaches off the record, a rename moves them.  Along runs whose renames reach
every intent they concern, prepared operations stay on their recorded names,
and a version is published only at the name its intent then stands for.  A
rename of a directory does not reach an intent below it whose handle a restart
has forgotten.
-/

namespace Rose

open FallibleActions LabelledRuns

section Publications

/-- The versions that are new were published by operations at the names these
stood for. -/
def Published (names : IntentNames) (before after : Catalog) : Prop :=
  ∀ version ∈ after.files.rows, version ∈ before.files.rows ∨
    ∃ op ∈ after.writeOps.rows, op.state = .committed ∧
      op.fileID = version.id ∧ names op.id = some version.path

instance (names : IntentNames) (before after : Catalog) :
    Decidable (Published names before after) :=
  inferInstanceAs (Decidable (∀ version ∈ _, _ ∨ ∃ op ∈ _, _))

theorem files_of_quiet {before after : Catalog} {action : CatalogAction} (quiet : action.Quiet)
    (applied : before.apply action = .ok after) :
    ∀ version ∈ after.files.rows, version ∈ before.files.rows := by
  by_cases writes : CatalogTable.files ∈ action.writes
  · cases action with
    | gcFileVersions limit =>
      obtain ⟨files, rfl, subset, -⟩ := Catalog.gcFileVersions_ok applied
      exact subset
    | commitFile | commitWriteOpVersion | commitWriteOpVersionWithRetention =>
      exact quiet.elim
    | _ => simp [CatalogAction.writes] at writes
  · intro version versionIn
    rwa [Catalog.apply_writes applied .files writes] at versionIn

theorem commitWriteOpVersion_files {before after : Catalog} {opID fileID : Nat}
    {path : Path} {mtime expiresAt : Int} {placements : List ChunkPlacement}
    (commits : before.commitWriteOpVersion opID path mtime placements
      expiresAt = .ok (fileID, after)) :
    ∀ version ∈ after.files.rows, version ∈ before.files.rows ∨
      version = ⟨fileID, cleanPath path, mtime, packExtents placements⟩ := by
  intro version versionIn
  obtain ⟨op, -, ⟨-, -, rfl⟩ | ⟨-, published, retained, publishing, retaining, rfl⟩⟩ :=
    Catalog.commitWriteOpVersion_ok commits
  · exact Or.inl versionIn
  have files : retained.files = before.files.append _ _ :=
    (Catalog.retainUntil_writes retaining .files (by simp)).trans
      (Catalog.publishFileVersion_appends publishing)
  change version ∈ retained.files.rows at versionIn
  rw [files] at versionIn
  obtain ⟨-, -, rfl, -⟩ := Catalog.publishFileVersion_ok publishing
  exact (SequencedTable.mem_append _ _ _ _).mp versionIn

namespace Published

variable {names : IntentNames} {before after : Catalog}

theorem of_subset (subset : ∀ version ∈ after.files.rows, version ∈ before.files.rows) :
    Published names before after :=
  fun version versionIn => Or.inl (subset version versionIn)

theorem of_transacts {allowed : CatalogAction → Prop} (transacts : Transacts allowed before after)
    (quiet : ∀ action, allowed action → action.Quiet) :
    Published names before after := by
  have step : ∀ (first : Catalog) action (second : Catalog), allowed action →
      first.apply action = .ok second →
      (∀ version ∈ first.files.rows, version ∈ before.files.rows) →
      ∀ version ∈ second.files.rows, version ∈ before.files.rows := by
    intro first action second permitted applied subset version versionIn
    exact subset version (files_of_quiet (quiet action permitted) applied version versionIn)
  exact .of_subset (transacts.keeps step fun _ => id)

end Published

namespace FileServer

variable {before start : FileServer}

theorem Expired.files {now : Int} (expired : before.Expired now start) :
    ∀ version ∈ start.catalog.files.rows, version ∈ before.catalog.files.rows :=
  have quiet : (CatalogAction.expireWriteResults now).Quiet := trivial
  files_of_quiet quiet expired.applied

end FileServer

end Publications

namespace FileServer

section Removals

variable {server : FileServer} {gone : Path → Bool}

/-- No prepared operation stands on a path that is gone. -/
def Cleared (gone : Path → Bool) (server : FileServer) : Prop :=
  ∀ op ∈ server.catalog.writeOps.rows, op.state = .prepared → gone op.path = false

/-- A removing transaction that cancels what is gone, and the marking of the
handles after it. -/
theorem removal_ends {run : Catalog → Except CatalogError Catalog}
    {path : Path} {descendants : Bool} {selects : Path → Bool}
    (cancels : ∀ after, run server.catalog = .ok after →
      after.writeOps = (server.catalog.cancelPrepared selects).writeOps)
    (selected : ∀ path, gone path = true → selects path = true) :
    Ends (do
        transaction fun catalog => (run catalog).map ((), ·)
        markOpenHandlesUnlinked path descendants) server
      (fun _ after => after.Cleared gone) (fun _ => True) := by
  have removing : Ends (transaction fun catalog => (run catalog).map ((), ·))
      server (fun _ after => after.Cleared gone) (fun _ => True) := by
    refine transaction_ends (fun _ catalog removed op opIn prepared => ?_)
      trivial
    obtain ⟨after, ran, same⟩ := map_eq_ok_iff.mp removed
    cases same
    change op ∈ catalog.writeOps.rows at opIn
    rw [cancels catalog ran, cancelPrepared_rows] at opIn
    obtain ⟨old, -, rfl⟩ := List.mem_map.mp opIn
    unfold cancelledBy at prepared ⊢
    split_ifs at prepared ⊢ with cancelled
    by_contra isGone
    exact cancelled ⟨prepared, selected _ (by simpa using isGone)⟩
  refine removing.bind fun _ middle cleared op opIn prepared => ?_
  obtain ⟨old, oldIn, -, kept, -⟩ := foldl_cancel_rows _ _ op opIn
  obtain ⟨same, -⟩ := kept prepared
  subst same
  exact cleared old oldIn prepared

theorem unlink_ends (path : Path) :
    Ends (unlink path) server (fun _ after => after.Cleared (· == cleanPath path))
      (fun _ => True) := by
  unfold unlink
  split_ifs
  · exact .throw trivial
  · refine .bind_get ?_
    split_ifs
    · exact .throw trivial
    · refine removal_ends (fun after removed => ?_) fun _ => id
      rw [Catalog.unlinkFile_frame removed .writeOps (by simp), cleanPath_cleanPath]

theorem rmdir_ends (path : Path) :
    Ends (rmdir path) server
      (fun _ after => after.Cleared fun name => decide (AtOrBelow (cleanPath path) name))
      (fun _ => True) := by
  unfold rmdir
  split_ifs
  · exact .throw trivial
  · refine .bind_get ?_
    split_ifs
    · exact .throw trivial
    · refine @removal_ends _ _ _ _ _ (inSubtree (cleanPath path))
        (fun after removed => ?_) fun name within => ?_
      · obtain ⟨-, -, rfl⟩ := Catalog.rmdir_ok removed
        rw [cleanPath_cleanPath]
      · exact (of_decide_eq_true within).inSubtree

end Removals

end FileServer

/-- The server with the record of names. -/
structure TrackedServer where
  server : FileServer
  names : IntentNames

namespace TrackedServer

variable {plain : Bytes → Bytes}

def initial (counter : Nat) : TrackedServer := ⟨.initial counter, fun _ => none⟩

def Serves (before : TrackedServer) (exchange : Request plain × Reply) (after : TrackedServer) :
    Prop :=
  before.server.Serves exchange after.server ∧
    after.names = before.names.after before.server exchange after.server

/-- A rename reaches the intents it concerns, and a key that the server makes
is new. -/
def Reaches (before : TrackedServer) (exchange : Request plain × Reply) :
    Prop :=
  match exchange.1 with
  | .rename oldPath newPath _ =>
    before.server.RenameReaches (cleanPath oldPath) (cleanPath newPath)
  | .write handle _ _ _ _ _ => before.server.FreshKey handle
  | _ => True

/-- What runs keep: intents are bound, and every head has its version. -/
def Sound (state : TrackedServer) : Prop :=
  IntentsBound state.server state.names ∧ Counted state.server.catalog

/-- A list of requests served one after another. -/
def serveAll (state : TrackedServer) :
    List (Request plain) → List ((Request plain × Reply) × TrackedServer)
  | [] => []
  | request :: rest =>
    let served := state.server.serve request
    let next : TrackedServer :=
      ⟨served.2, state.names.after state.server (request, served.1) served.2⟩
    ((request, served.1), next) :: next.serveAll rest

theorem isRun_serveAll (state : TrackedServer) (requests : List (Request plain)) :
    IsRun Serves state (state.serveAll requests) := by
  induction requests generalizing state with
  | nil => trivial
  | cons request rest ih => exact ⟨⟨rfl, rfl⟩, ih _⟩

end TrackedServer

section Steps

variable {plain : Bytes → Bytes} {before after : FileServer} {names : IntentNames}

theorem Counted.serves {exchange : Request plain × Reply} (counted : Counted before.catalog)
    (served : before.Serves exchange after) : Counted after.catalog :=
  served.moves.1.keeps
    (fun _ _ _ issued applied counted => counted.apply
      (Request.placementsFit_of_issues issued) applied) counted

theorem binds_of_issues {request : Request plain} {reply : Reply}
    (served : before.Serves (request, reply) after)
    (still : request.leaves = fun _ => False)
    (noneNew : ∀ action, request.issues action → ¬action.Creates)
    (noneMoved : ∀ action, request.issues action → ¬action.Rebinds) :
    Binds before after := by
  have moves := served.moves
  rw [still] at moves
  exact .of_moves moves noneNew noneMoved

variable {action : CatalogAction}

theorem CatalogAction.writes_of_concerned (concerned : action.Creates ∨ action.Rebinds) :
    CatalogTable.writeOps ∈ action.writes := by
  cases action <;>
    simp_all [CatalogAction.Creates, CatalogAction.Rebinds, CatalogAction.writes]

theorem Housekeeping.spares (work : Housekeeping) : ¬work.action.Creates ∧ ¬work.action.Rebinds :=
  ⟨fun creates => work.sparesOps (CatalogAction.writes_of_concerned (Or.inl creates)),
    fun rebinds => work.sparesOps (CatalogAction.writes_of_concerned (Or.inr rebinds))⟩

theorem CatalogAction.Finishes.spares (finishes : action.Finishes) :
    ¬action.Creates ∧ ¬action.Rebinds := by
  cases action <;> first | exact finishes.elim | exact ⟨id, id⟩

theorem CatalogAction.Removes.spares (removes : action.Removes) :
    ¬action.Creates ∧ ¬action.Rebinds := by
  cases action <;> first | exact removes.elim | exact ⟨id, id⟩

variable (isBound : IntentsBound before names)
include isBound

theorem IntentsBound.of_removal (binds : Binds before after) {gone : Path → Bool}
    (cleared : after.Cleared gone) :
    IntentsBound after ((names.noted before.catalog after.catalog).removed gone) :=
  (isBound.of_binds binds).removed cleared

/-- One request keeps intents bound to the record it moves. -/
theorem IntentsBound.serves (counted : Counted before.catalog) {exchange : Request plain × Reply}
    (served : before.Serves exchange after)
    (reaches : TrackedServer.Reaches ⟨before, names⟩ exchange) :
    IntentsBound after (names.after before exchange after) := by
  obtain ⟨request, reply⟩ := exchange
  have state : (before.serve request).2 = after := congrArg Prod.snd served
  cases request with
  | openHandle path key env =>
    refine isBound.of_binds ?_
    rw [← state]
    exact FileServer.answer_kept (FileServer.openHandle_binds path key env before)
  | write handle offset data env payload spiller =>
    refine isBound.of_binds ?_
    rw [← state]
    exact FileServer.answer_kept (FileServer.write_ends handle offset data env payload spiller
      isBound.clean reaches)
  | openSnapshot id path =>
    exact isBound.of_binds (binds_of_issues served rfl (fun _ impossible => impossible.elim)
      fun _ impossible => impossible.elim)
  | setHandleMtime handle mtime env =>
    refine isBound.of_binds ?_
    rw [← state]
    exact FileServer.answer_kept (FileServer.setHandleMtime_binds handle mtime env before)
  | flush handle env =>
    exact isBound.of_binds (binds_of_issues served rfl
      (fun _ issued => issued.spares.1) fun _ issued => issued.spares.2)
  | close handle key env =>
    exact isBound.of_binds (binds_of_issues served rfl
      (fun _ issued => issued.spares.1) fun _ issued => issued.spares.2)
  | mkdir path env =>
    refine isBound.of_binds (binds_of_issues served rfl ?_ ?_)
    · rintro action rfl
      exact id
    · rintro action rfl
      exact id
  | expireWriteResults now =>
    refine isBound.of_binds (binds_of_issues served rfl ?_ ?_)
    · rintro action rfl
      exact id
    · rintro action rfl
      exact id
  | housekeeping work =>
    refine isBound.of_binds (binds_of_issues served rfl ?_ ?_)
    · rintro action rfl
      exact work.spares.1
    · rintro action rfl
      exact work.spares.2
  | restart counter =>
    exact isBound.of_binds (binds_of_issues served rfl (fun _ impossible => impossible.elim)
      fun _ impossible => impossible.elim)
  | unlink path =>
    have binds : Binds before after := binds_of_issues served rfl
      (fun _ issued => issued.spares.1) fun _ issued => issued.spares.2
    rcases FileServer.answer_ends (fun _ => .done) (FileServer.unlink_ends path) with
      ⟨value, next, answered, cleared⟩ | ⟨reason, next, answered, -⟩
    · obtain ⟨rfl, rfl⟩ := Prod.mk.inj (answered.symm.trans served)
      exact isBound.of_removal binds cleared
    · obtain ⟨rfl, rfl⟩ := Prod.mk.inj (answered.symm.trans served)
      exact isBound.of_binds binds
  | rmdir path =>
    have binds : Binds before after := binds_of_issues served rfl
      (fun _ issued => issued.spares.1) fun _ issued => issued.spares.2
    rcases FileServer.answer_ends (fun _ => .done) (FileServer.rmdir_ends path) with
      ⟨value, next, answered, cleared⟩ | ⟨reason, next, answered, -⟩
    · obtain ⟨rfl, rfl⟩ := Prod.mk.inj (answered.symm.trans served)
      exact isBound.of_removal binds cleared
    · obtain ⟨rfl, rfl⟩ := Prod.mk.inj (answered.symm.trans served)
      exact isBound.of_binds binds
  | rename oldPath newPath env =>
    have follow : OpsFollow before.catalog after.catalog := served.moves.1.keeps
        (fun _ _ _ _ applied follow => follow.trans (.apply applied))
        (.refl _)
    have keys : KeysDistinct after.catalog := served.moves.1.keeps
        (fun _ _ _ _ applied distinct => distinct.apply applied) isBound.keys
    rcases FileServer.answer_ends (fun _ => .done)
      (FileServer.rename_ends isBound counted env reaches) with
      ⟨value, next, answered, notRoot, -, displaced, isDisplaced, retargeted⟩ |
      ⟨reason, next, answered, same⟩
    · obtain ⟨rfl, rfl⟩ := Prod.mk.inj (answered.symm.trans served)
      exact FileServer.intentsBound_of_renamed isBound isDisplaced retargeted
        reaches (cleanPath_cleanPath newPath) notRoot follow keys
    · obtain ⟨rfl, rfl⟩ := Prod.mk.inj (answered.symm.trans served)
      subst same
      exact isBound.of_binds (.refl before)

end Steps

section Runs

variable {plain : Bytes → Bytes}

/-- The clocks of the runs below. -/
def exampleEnv : RequestEnv := ⟨0, 1, 1⟩

end Runs

end Rose
