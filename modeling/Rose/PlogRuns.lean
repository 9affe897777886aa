import Rose.LabelledRuns
import Rose.PlogReopening
import Rose.UndoRuns

/-!
# Runs of a physical log

A history interleaves appends, truncations and commits, each under any tape of
faults, with kills, power losses and attempts to open the log again.  Beside
the world it records the bytes the log stands for, the bytes of the last commit
that returned, and the bytes of the commits started since.
-/

namespace Rose

open ListSplice FixedBlocks DurableFiles FaultyPrograms LabelledRuns

inductive PlogAction where
  | write (data : Bytes)
  | ensureAppend (offset : Int) (data : Bytes)
  | truncateTo (target : Int)
  | commit
  | kill
  | powerLoss
  | reopen

structure PlogHistory where
  world : PlogWorld
  running : Bool
  content : Bytes
  committed : Bytes
  started : List Bytes

namespace PlogHistory

/-- What a crash may bring back. -/
def Contents (history : PlogHistory) (content : Bytes) : Prop :=
  content = history.committed ∨ content ∈ history.started

/-- The history after an operation stopped: an error leaves the process
running, a crash does not. -/
def halted (history : PlogHistory) (halt : Halt) (world : PlogWorld) (content : Bytes) :
    PlogHistory :=
  { history with
    world := world
    running := decide (halt ≠ .crash)
    content := content }

/-- The history with a commit of its content started. -/
def starting (history : PlogHistory) : PlogHistory :=
  { history with started := history.content :: history.started }

/-- A log that was just created. -/
def created (env : PlogEnv) (id : Nat) (payload : Bytes) : PlogHistory :=
  ⟨⟨UndoStore.settled (superblock env payload), openedPlog env id payload []⟩, true, [], [], []⟩

end PlogHistory

inductive PlogStep (env : PlogEnv) (id : Nat) :
    PlogHistory → PlogAction → PlogHistory → Prop
  | written (before : PlogHistory) (data : Bytes) (faults : List Fault)
      (offset : Nat) (after : Machine PlogWorld)
      (running : before.running = true)
      (ran : writeLocked env data ⟨before.world, faults⟩ = .ok offset after) :
      PlogStep env id before (.write data)
        { before with world := after.world, content := before.content ++ data }
  | writeStopped (before : PlogHistory) (data : Bytes) (faults : List Fault)
      (halt : Halt) (after : Machine PlogWorld)
      (running : before.running = true)
      (ran : writeLocked env data ⟨before.world, faults⟩ = .error halt after) :
      PlogStep env id before (.write data) (before.halted halt after.world before.content)
  | appended (before : PlogHistory) (offset : Int) (data : Bytes)
      (faults : List Fault) (after : Machine PlogWorld)
      (running : before.running = true)
      (ran : ensureAppend env offset data ⟨before.world, faults⟩ = .ok () after) :
      PlogStep env id before (.ensureAppend offset data)
        { before with
          world := after.world
          content := before.content ++
            data.drop (min (before.content.length - offset.toNat)
              data.length) }
  | appendStopped (before : PlogHistory) (offset : Int) (data : Bytes)
      (faults : List Fault) (halt : Halt) (after : Machine PlogWorld)
      (running : before.running = true)
      (ran : ensureAppend env offset data ⟨before.world, faults⟩ = .error halt after) :
      PlogStep env id before (.ensureAppend offset data)
        (before.halted halt after.world before.content)
  | truncated (before : PlogHistory) (target : Int) (faults : List Fault)
      (after : Machine PlogWorld) (running : before.running = true)
      (ran : truncateTo env target ⟨before.world, faults⟩ = .ok () after) :
      PlogStep env id before (.truncateTo target)
        { before with
          world := after.world, content := before.content.take target.toNat }
  -- A truncation may stop after the cut; the log then has the shorter length.
  | truncateStopped (before : PlogHistory) (target : Int)
      (faults : List Fault) (halt : Halt) (after : Machine PlogWorld)
      (running : before.running = true)
      (ran : truncateTo env target ⟨before.world, faults⟩ = .error halt after) :
      PlogStep env id before (.truncateTo target)
        (before.halted halt after.world (before.content.take after.world.plog.logicalLength))
  | committed (before : PlogHistory) (faults : List Fault)
      (after : Machine PlogWorld) (running : before.running = true)
      (ran : commit env ⟨before.world, faults⟩ = .ok () after) :
      PlogStep env id before .commit
        { before with
          world := after.world, committed := before.content, started := [] }
  | commitStopped (before : PlogHistory) (faults : List Fault) (halt : Halt)
      (after : Machine PlogWorld) (running : before.running = true)
      (ran : commit env ⟨before.world, faults⟩ = .error halt after) :
      PlogStep env id before .commit (before.starting.halted halt after.world before.content)
  | killed (before : PlogHistory) : PlogStep env id before .kill { before with running := false }
  | powerLost (before : PlogHistory) (store : UndoStore) (down : before.running = false)
      (loss : before.world.store.PowerLoss store) :
      PlogStep env id before .powerLoss
        { before with world := { before.world with store := store } }
  | reopened (before : PlogHistory) (recovered : Bytes)
      (after : Machine PlogWorld) (down : before.running = false)
      (ran : openExistingPlog env id ⟨before.world, []⟩ = .ok () after)
      (yields : Yields env after.world.plog after.world.content recovered) :
      PlogStep env id before .reopen ⟨after.world, true, recovered, recovered, []⟩
  | reopenStopped (before : PlogHistory) (faults : List Fault) (halt : Halt)
      (after : Machine PlogWorld) (down : before.running = false)
      (ran : openExistingPlog env id ⟨before.world, faults⟩ = .error halt after) :
      PlogStep env id before .reopen { before with world := after.world }

/-- A commit is started on bytes whose file fits and none of whose hash sectors
looks like a trailer. -/
def CommitsPlainly (env : PlogEnv) (history : PlogHistory) :
    PlogAction → Prop
  | .commit => NoTrailerLookalike env history.content ∧ committedEnd history.content < 2 ^ 63
  | _ => True

/-- What every step keeps. -/
structure PlogHistory.Sound (env : PlogEnv) (payload : Bytes) (history : PlogHistory) : Prop where
  plain : ∀ content, history.Contents content → NoTrailerLookalike env content
  session : history.running = true →
    Session env (superblock env payload) history.Contents history.content history.world
  recoverable : Recoverable env (superblock env payload) history.Contents history.world.store

variable {env : PlogEnv} {head bytes payload : Bytes} {id : Nat} {contents : Bytes → Prop}
  {world : PlogWorld} {before : PlogHistory}

section Widening

variable {wider : Bytes → Prop} (widens : ∀ content, contents content → wider content)
include widens

theorem ImageOf.mono {image : Bytes} (imageOf : ImageOf env head contents image) :
    ImageOf env head wider image := by
  obtain ⟨content, isContent, rest⟩ := imageOf
  exact ⟨content, widens content isContent, rest⟩

theorem Session.mono (session : Session env head contents bytes world) :
    Session env head wider bytes world := by
  obtain ⟨image, guards, protects⟩ := session.guarded
  exact ⟨⟨image, guards.mono fun _ => ImageOf.mono widens, protects⟩,
    session.undoStartLe, session.stored, session.tracks, session.idle⟩

end Widening

namespace PlogHistory.Sound

section

variable (sound : before.Sound env payload)
include sound

theorem of_session {content : Bytes}
    (session : Session env (superblock env payload) before.Contents content world) :
    PlogHistory.Sound env payload
      { before with world := world, content := content } :=
  ⟨sound.plain, fun _ => session, session.recoverable⟩

theorem halted {content : Bytes} {halt : Halt}
    (interrupted : Interrupted env (superblock env payload) before.Contents content halt world) :
    (before.halted halt world content).Sound env payload := by
  cases halt with
  | error reason =>
    exact ⟨sound.plain, fun _ => interrupted, Session.recoverable interrupted⟩
  | crash =>
    refine ⟨sound.plain, fun running => ?_, interrupted⟩
    exact absurd running Bool.false_ne_true

theorem starting (plain : NoTrailerLookalike env before.content) :
    before.starting.Sound env payload := by
  have widens : ∀ content, before.Contents content → before.starting.Contents content := by
    rintro content (same | member)
    · exact Or.inl same
    · exact Or.inr (List.mem_cons_of_mem _ member)
  refine ⟨?_, fun running => (sound.session running).mono widens, ?_⟩
  · rintro content (same | member)
    · exact sound.plain content (Or.inl same)
    · rcases List.mem_cons.mp member with same | earlier
      · rw [same]
        exact plain
      · exact sound.plain content (Or.inr earlier)
  · obtain ⟨image, guards⟩ := sound.recoverable
    exact ⟨image, guards.mono fun _ => ImageOf.mono widens⟩

end

theorem of_only {content : Bytes} {running : Bool} (plain : NoTrailerLookalike env content)
    (session : Session env (superblock env payload) (fun other => other = content) content world) :
    PlogHistory.Sound env payload ⟨world, running, content, content, []⟩ := by
  have only : ∀ other, other = content →
      PlogHistory.Contents ⟨world, running, content, content, []⟩ other :=
    fun _ same => Or.inl same
  refine ⟨?_, fun _ => session.mono only, (session.mono only).recoverable⟩
  rintro other (same | member)
  · rw [same]
    exact plain
  · cases member

end PlogHistory.Sound

theorem sectorsOf_nil : sectorsOf [] = [] := congrArg Prod.fst (splitBlocks_of_lt (by decide))

theorem raggedOf_nil : raggedOf [] = [] := congrArg Prod.snd (splitBlocks_of_lt (by decide))

theorem not_hasOpenBlock_nil : ¬HasOpenBlock [] := by
  simp [HasOpenBlock, sectorsOf_nil, raggedOf_nil]

theorem openedPlog_nil (env : PlogEnv) (id : Nat) (payload : Bytes) :
    openedPlog env id payload [] = { Plog.fresh id with header := payload } := by
  rw [openedPlog, decide_eq_false not_hasOpenBlock_nil, sectorsOf_nil, raggedOf_nil]
  rfl

theorem created_committedImage (env : PlogEnv) (payload : Bytes) :
    CommittedImage env (superblock env payload) [] (superblock env payload) := by
  have isPrefix : superblock env payload ++ layout env (sectorsOf []) <+:
      superblock env payload := by
    have none : layout env (sectorsOf []) = [] := (congrArg (layout env) sectorsOf_nil).trans rfl
    exact ⟨[], by rw [none, List.append_nil, List.append_nil]⟩
  refine ⟨⟨length_superblock env payload, isPrefix⟩, ?_, ?_,
    fun isOpen => absurd isOpen not_hasOpenBlock_nil⟩
  · rw [length_superblock, committedEnd, if_neg not_hasOpenBlock_nil, sealedEnd, sectorsOf_nil]
    rfl
  · rw [raggedOf_nil]
    exact slice_zero_count _ _

theorem created_sound (env : PlogEnv) (id : Nat) (payload : Bytes) :
    (PlogHistory.created env id payload).Sound env payload := by
  have committed := created_committedImage env payload
  have restored : Restored (superblock env payload) (UndoStore.settled (superblock env payload)) :=
    ⟨⟨rfl, fun _ issued => absurd issued List.not_mem_nil⟩, rfl⟩
  refine PlogHistory.Sound.of_only (fun blockIdx complete => ?_)
    (Session.of_openAt
      (show OpenAt (superblock env payload) (openedPlog env id payload [])
        ⟨UndoStore.settled (superblock env payload),
          openedPlog env id payload []⟩ from ⟨restored, rfl⟩)
      committed rfl ?_)
  · rw [sectorsOf_nil, List.length_nil] at complete
    omega
  · rw [length_superblock]
    decide

/-- Every step keeps a history sound. -/
theorem PlogStep.sound {after : PlogHistory} {action : PlogAction}
    (payloadFits : payload.length ≤ plogHeaderMaxPayload) (parses : env.parses payload = true)
    (sound : before.Sound env payload) (step : PlogStep env id before action after)
    (plainly : CommitsPlainly env before action) :
    after.Sound env payload := by
  cases step with
  | written data faults offset last running ran =>
    exact sound.of_session ((writeLocked_triple (sound.session running)).returned rfl ran).1
  | writeStopped data faults halt last running ran =>
    exact sound.halted ((writeLocked_triple (sound.session running)).halted rfl ran).1
  | appended offset data faults last running ran =>
    exact sound.of_session ((ensureAppend_triple (sound.session running) offset).returned rfl ran)
  | appendStopped offset data faults halt last running ran =>
    exact sound.halted ((ensureAppend_triple (sound.session running) offset).halted rfl ran).1
  | truncated target faults last running ran =>
    exact sound.of_session ((truncateTo_triple (sound.session running) target).returned rfl ran)
  | truncateStopped target faults halt last running ran =>
    exact sound.halted ((truncateTo_triple (sound.session running) target).halted rfl ran)
  | committed faults last running ran =>
    obtain ⟨plain, fits⟩ := plainly
    have started := sound.starting plain
    have session := (commit_triple (started.session running)
      (Or.inr List.mem_cons_self) fits).returned rfl ran
    exact PlogHistory.Sound.of_only plain session
  | commitStopped faults halt last running ran =>
    obtain ⟨plain, fits⟩ := plainly
    have started := sound.starting plain
    exact started.halted ((commit_triple (started.session running)
      (Or.inr List.mem_cons_self) fits).halted rfl ran)
  | killed =>
    exact ⟨sound.plain, fun running => absurd running Bool.false_ne_true, sound.recoverable⟩
  | powerLost store down loss =>
    refine ⟨sound.plain, fun running => ?_, ?_⟩
    · cases down.symm.trans running
    · obtain ⟨image, guards⟩ := sound.recoverable
      exact guards.powerLoss loss
  | reopened recovered last down ran yields =>
    obtain ⟨found, world, opened, isContent, session, foundYields⟩ :=
      openExistingPlog_recovers id sound.recoverable sound.plain payloadFits parses
    cases opened.symm.trans ran
    cases foundYields.unique yields
    exact PlogHistory.Sound.of_only (sound.plain _ isContent) session
  | reopenStopped faults halt last down ran =>
    refine ⟨sound.plain, fun running => ?_, ?_⟩
    · cases down.symm.trans running
    · have maintains : Maintains (fun world : PlogWorld =>
          Recoverable env (superblock env payload) before.Contents
            world.store) (openExistingPlog env id) :=
        openExistingPlog_maintains
      exact Triple.halted maintains sound.recoverable ran

section Progress

variable {data : Bytes}

theorem protectPrefixLocked_runs {start : Nat} (inactive : world.plog.undoActive = false)
    (noJournal : world.store.journal.current = none) (startLe : start ≤ world.content.length) :
    ∃ after, Runs (protectPrefixLocked env start) world () after ∧
      after.plog = { world.plog with undoActive := true, undoStart := start } := by
  obtain ⟨store, saves⟩ := @saveUndo_runs env.sha world.store start noJournal startLe
  refine ⟨⟨store, { world.plog with undoActive := true, undoStart := start }⟩,
    .bind .current ?_, rfl⟩
  rw [if_neg (by rw [inactive]; simp)]
  exact .bind (.labelled (.within saves)) .update

/-- When nothing fails, data is appended. -/
theorem writeLocked_runs_healthy (session : Session env head contents bytes world)
    (healthy : world.plog.Healthy) (inactive : world.plog.undoActive = false)
    (noJournal : world.store.journal.current = none) :
    ∃ offset after, Runs (writeLocked env data) world offset after ∧ after.plog.Healthy := by
  have startLe : calcPhysical (blockStartOf world.plog.logicalLength) ≤ world.content.length := by
    refine Nat.le_trans (calcPhysical_blockStart_le (Nat.le_of_eq session.tracks.length_eq)) ?_
    rw [← session.stored.sealedEnd_eq]
    exact session.stored.isPrefix.length_le
  obtain ⟨shielded, protects, shielded_eq⟩ := protectPrefixLocked_runs inactive noJournal startLe
  obtain ⟨after, runs, after_eq⟩ := writeLocked_runs (by
    rw [healthy.bufTrusted, healthy.openTrusted]
    decide) protects
  refine ⟨_, after, runs, ?_⟩
  split_ifs at after_eq
  · rw [after_eq]
    exact ⟨healthy.bufTrusted, healthy.openTrusted⟩
  · rw [after_eq, shielded_eq]
    exact ⟨healthy.bufTrusted, healthy.openTrusted⟩

end Progress

/-- No hash sector of the bytes is a trailer that authenticates. -/
def NoValidTrailer (env : PlogEnv) (bytes : Bytes) : Prop :=
  ∀ blockIdx, 255 * (blockIdx + 1) ≤ (sectorsOf bytes).length → ∀ geometry ragged,
      trailerGeometry (hashSector env blockIdx (blockHashes env (sectorsOf bytes) blockIdx))
        (hashSectorPhys blockIdx + sectorSize) = some geometry →
      openBlockMAC env geometry.blockIdx
        (slice (hashSector env blockIdx
          (blockHashes env (sectorsOf bytes) blockIdx)) 0 geometry.hashesEnd)
        ragged ≠
      slice (hashSector env blockIdx
        (blockHashes env (sectorsOf bytes) blockIdx)) geometry.hashesEnd hashSize

/-- A commit is started on bytes whose file fits and none of whose hash sectors
is a trailer that authenticates. -/
def CommitsUnforged (env : PlogEnv) (history : PlogHistory) :
    PlogAction → Prop
  | .commit => NoValidTrailer env history.content ∧ committedEnd history.content < 2 ^ 63
  | _ => True

section Lookalike

/-- A hash that starts like a trailer for 254 sectors and one more byte. -/
def lookalikeHash : Bytes := openTrailerMagic ++ [254, 0, 1, 128, 0, 0, 0, 0]

def lookalikeEnv : PlogEnv where
  sha := ⟨fun _ => lookalikeHash ++ List.replicate 16 0, fun _ => by decide⟩
  hmac := ⟨fun _ => List.replicate 32 1, fun _ => by decide⟩
  parses := fun _ => true

def lookalikeTrailer : Bytes := (List.replicate 255 lookalikeHash).flatten ++ List.replicate 16 1

theorem hashSector_lookalike {bytes : Bytes} (whole : (sectorsOf bytes).length = 255) :
    hashSector lookalikeEnv 0 (blockHashes lookalikeEnv (sectorsOf bytes) 0) =
      lookalikeTrailer := by
  have hash_eq : sectorHash lookalikeEnv = fun _ => lookalikeHash := by
    funext data
    change (lookalikeHash ++ List.replicate 16 0).take hashSize = _
    decide
  have hashes_eq : blockHashes lookalikeEnv (sectorsOf bytes) 0 =
      (List.replicate 255 lookalikeHash).flatten := by
    rw [blockHashes, Nat.mul_zero, List.drop_zero,
      List.take_of_length_le (Nat.le_of_eq whole), hash_eq,
      List.map_const', whole]
  rw [hashSector, hashes_eq]
  rfl

theorem trailerGeometry_lookalike :
    trailerGeometry lookalikeTrailer 1052672 = some ⟨0, 254, 1, true⟩ := by
  decide +kernel

theorem lookalike_forged (front ragged : Bytes) :
    openBlockMAC lookalikeEnv 0 front ragged ≠
      slice lookalikeTrailer 4076 hashSize := by
  change (List.replicate 32 (1 : UInt8)).take hashSize ≠ _
  decide +kernel

theorem noValidTrailer_lookalike {bytes : Bytes} (whole : (sectorsOf bytes).length = 255) :
    NoValidTrailer lookalikeEnv bytes := by
  intro blockIdx complete geometry ragged found
  obtain rfl : blockIdx = 0 := by omega
  rw [hashSector_lookalike whole] at found ⊢
  have size_eq : hashSectorPhys 0 + sectorSize = 1052672 := by
    decide
  rw [size_eq, trailerGeometry_lookalike] at found
  cases found
  exact lookalike_forged _ _

/-- Opening the committed image of one whole block cuts it short. -/
theorem openExistingPlog_lookalike (id : Nat) {contents : Bytes → Prop} {world : PlogWorld}
    {bytes image payload : Bytes} (guards : Guards lookalikeEnv.sha contents image world.store)
    (committed : CommittedImage lookalikeEnv (superblock lookalikeEnv payload) bytes image)
    (payloadFits : payload.length ≤ plogHeaderMaxPayload) (whole : (sectorsOf bytes).length = 255)
    (isClosed : ¬HasOpenBlock bytes) :
    ∃ after, Runs (openExistingPlog lookalikeEnv id) world () after ∧
      after.plog.logicalLength = 1040385 := by
  have size_eq : image.length = 1052672 := by
    rw [committed.size_closed isClosed, sealedEnd, whole]
  have position : image.length - sectorSize = hashSectorPhys 0 := by
    rw [size_eq]
    decide
  have read : readAt image (image.length - sectorSize) sectorSize = .ok lookalikeTrailer := by
    rw [position, committed.stored.readAt_hashSector (by omega), hashSector_lookalike whole]
  obtain ⟨ragged, raggedRead⟩ : ∃ ragged, readAt image
      (calcPhysical (254 * sectorSize)) 1 = .ok ragged := by
    refine ⟨_, if_pos (Or.inr ?_)⟩
    rw [size_eq, sectorSize, Nat.mul_comm, calcPhysical_mul]
    decide
  have geometry_eq : trailerGeometry lookalikeTrailer image.length = some ⟨0, 254, 1, true⟩ := by
    rw [size_eq, trailerGeometry_lookalike]
  have sealed_eq : TrailerGeometry.sealed ⟨0, 254, 1, true⟩ = 254 * sectorSize := Nat.zero_add _
  have recovers := @recoveredFrom_of_trailer lookalikeEnv (headerRead id payload image) _ _ _ _
    (by rw [size_eq]; decide) read geometry_eq (by rw [sealed_eq]; exact raggedRead) rfl
  rw [applyTrailer_poisons rfl (lookalike_forged _ _)] at recovers
  obtain ⟨after, runs, opened⟩ := openExistingPlog_runs guards
    (committed.stored.readSuperblock_eq payloadFits rfl) (by omega)
    (reloadedFrom_of_recovered recovers)
  refine ⟨after, runs, ?_⟩
  rw [opened.plog_eq]
  rfl

end Lookalike

/-- Digests that ignore their input. -/
def constantEnv : PlogEnv := ⟨constantSha, constantSha, fun _ => true⟩

/-- After any run on a created log in which no committed hash sector looks like
a trailer, opening the log returns and yields the length and the bytes of the
last commit that returned or of one started after it. -/
theorem plog_run_reopens_committed (env : PlogEnv) (id : Nat) (payload : Bytes)
    (payloadFits : payload.length ≤ plogHeaderMaxPayload) (parses : env.parses payload = true)
    (run : List (PlogAction × PlogHistory))
    (isRun : IsRun (PlogStep env id) (PlogHistory.created env id payload) run)
    (plainly : AllSteps (CommitsPlainly env) (PlogHistory.created env id payload) run) :
    let last := lastState (PlogHistory.created env id payload) run
    ∃ recovered after, openExistingPlog env id ⟨last.world, []⟩ = .ok () ⟨after, []⟩ ∧
      (recovered = last.committed ∨ recovered ∈ last.started) ∧
      Yields env after.plog after.content recovered := by
  intro last
  have keeps : ∀ before action after, PlogHistory.Sound env payload before →
        PlogStep env id before action after → CommitsPlainly env before action →
            PlogHistory.Sound env payload after :=
    fun _ _ _ => PlogStep.sound payloadFits parses
  have sound : last.Sound env payload :=
    (isRun.allStates_of_allSteps keeps (created_sound env id payload) plainly).lastState
  obtain ⟨recovered, after, ran, isContent, -, yields⟩ :=
    openExistingPlog_recovers id sound.recoverable sound.plain payloadFits parses
  exact ⟨recovered, after, ran, isContent, yields⟩

/-- Three bytes are written and their commit crashes at once. -/
theorem plog_run_reopens_after_crash :
    ∃ last : PlogHistory, last.committed = [] ∧ last.started = [[1, 2, 3]] ∧ ∃ recovered after,
        openExistingPlog constantEnv 7 ⟨last.world, []⟩ = .ok () ⟨after, []⟩ ∧
        (recovered = last.committed ∨ recovered ∈ last.started) ∧
        Yields constantEnv after.plog after.content recovered := by
  obtain ⟨written, wrote⟩ : ∃ written : Machine PlogWorld, writeLocked constantEnv [1, 2, 3]
        ⟨(PlogHistory.created constantEnv 7 []).world, []⟩ = .ok 0 written := by
    rw [PlogHistory.created, openedPlog_nil]
    exact ⟨_, rfl⟩
  obtain ⟨crashed, crash⟩ : ∃ crashed : Machine PlogWorld,
      commit constantEnv ⟨written.world, [.crash 0]⟩ = .error .crash crashed := by
    rw [PlogHistory.created, openedPlog_nil] at wrote
    cases wrote
    exact ⟨_, rfl⟩
  have short : (sectorsOf [1, 2, 3]).length = 0 :=
    congrArg List.length (congrArg Prod.fst (splitBlocks_of_lt (by decide)))
  have isRun : IsRun (PlogStep constantEnv 7) (PlogHistory.created constantEnv 7 [])
      [(.write [1, 2, 3], ⟨written.world, true, [1, 2, 3], [], []⟩),
        (.commit, ⟨crashed.world, false, [1, 2, 3], [], [[1, 2, 3]]⟩)] :=
    ⟨PlogStep.written _ [1, 2, 3] [] 0 written rfl wrote,
      PlogStep.commitStopped _ [.crash 0] .crash crashed rfl crash, trivial⟩
  refine ⟨⟨crashed.world, false, [1, 2, 3], [], [[1, 2, 3]]⟩, rfl, rfl, ?_⟩
  refine plog_run_reopens_committed constantEnv 7 [] (by decide) rfl _ isRun
    ⟨trivial, ⟨fun blockIdx complete => ?_, ?_⟩, trivial⟩
  · change 255 * (blockIdx + 1) ≤ (sectorsOf [1, 2, 3]).length at complete
    omega
  · change committedEnd [1, 2, 3] < 2 ^ 63
    rw [committedEnd, sealedEnd, short]
    split_ifs <;> decide

section Reopened

/-- What a log holds once data was written to it and committed, the process was killed and the
log opened again. -/
theorem committed_data_reopens {data : Bytes} {offset : Nat} {written committed : PlogWorld}
    {left rest : List Fault} (short : data.length < dataPerBlock)
    (wrote : writeLocked constantEnv data ⟨(PlogHistory.created constantEnv 7 []).world, []⟩ =
      .ok offset ⟨written, left⟩)
    (commits : commit constantEnv ⟨written, []⟩ = .ok () ⟨committed, rest⟩) :
    ∃ (run : List (PlogAction × PlogHistory)) (last : PlogHistory),
      run.map Prod.fst = [.write data, .commit, .kill, .reopen] ∧
      IsRun (PlogStep constantEnv 7) (PlogHistory.created constantEnv 7 []) run ∧
      AllSteps (CommitsPlainly constantEnv) (PlogHistory.created constantEnv 7 []) run ∧
      lastState (PlogHistory.created constantEnv 7 []) run = last ∧
      last.running = true ∧ last.content = data ∧
      openExistingPlog constantEnv 7 ⟨committed, []⟩ = .ok () ⟨last.world, []⟩ ∧
      Yields constantEnv last.world.plog last.world.content data := by
  have split := length_sectorsOf data
  have block : dataPerBlock = 4096 * 255 := rfl
  let second : PlogHistory := ⟨committed, true, data, data, []⟩
  have writes : PlogStep constantEnv 7 (.created constantEnv 7 []) (.write data)
      ⟨written, true, data, [], []⟩ := .written _ _ [] offset _ rfl wrote
  have persists : PlogStep constantEnv 7 ⟨written, true, data, [], []⟩ .commit second :=
    .committed _ [] ⟨committed, rest⟩ rfl commits
  have plainly : CommitsPlainly constantEnv ⟨written, true, data, [], []⟩ .commit := by
    refine ⟨fun blockIdx complete => ?_, ?_⟩
    · change 255 * (blockIdx + 1) ≤ (sectorsOf data).length at complete
      omega
    · change committedEnd data < 2 ^ 63
      rw [committedEnd, sealedEnd]
      split_ifs <;> omega
  have sound := PlogStep.sound (by decide) rfl
    (PlogStep.sound (by decide) rfl (created_sound constantEnv 7 []) writes trivial)
    persists plainly
  obtain ⟨recovered, after, opens, isContent, -, yields⟩ :=
    openExistingPlog_recovers 7 sound.recoverable sound.plain (by decide) rfl
  obtain rfl : recovered = data := by simpa [second, PlogHistory.Contents] using isContent
  exact ⟨[(.write recovered, _), (.commit, second), (.kill, _), (.reopen, _)], _, rfl,
    ⟨writes, persists, .killed second, .reopened _ _ ⟨after, []⟩ rfl opens yields, trivial⟩,
    ⟨trivial, plainly, trivial, trivial, trivial⟩, rfl, rfl, rfl, opens, yields⟩

/-- A sealed sector and a part of the next one. -/
def twoSectors : Bytes := List.replicate 5000 4

def writtenLog : PlogWorld :=
  worldAfter (writeLocked constantEnv twoSectors)
    ⟨(PlogHistory.created constantEnv 7 []).world, []⟩

def committedLog : PlogWorld := worldAfter (commit constantEnv) ⟨writtenLog, []⟩

theorem twoSectors_written :
    ∃ offset rest, writeLocked constantEnv twoSectors
      ⟨(PlogHistory.created constantEnv 7 []).world, []⟩ = .ok offset ⟨writtenLog, rest⟩ :=
  returned_of_haltOf (by decide +kernel)

theorem twoSectors_committed :
    ∃ value rest, commit constantEnv ⟨writtenLog, []⟩ = .ok value ⟨committedLog, rest⟩ :=
  returned_of_haltOf (by decide +kernel)

end Reopened

/-- Without a condition on the geometry of hash sectors, a committed block can
be taken for an open one and lose its last sector. -/
theorem plog_run_reopens_shorter :
    ∃ (env : PlogEnv) (id : Nat) (payload : Bytes) (run : List (PlogAction × PlogHistory)),
      payload.length ≤ plogHeaderMaxPayload ∧ env.parses payload = true ∧
      IsRun (PlogStep env id) (PlogHistory.created env id payload) run ∧
      AllSteps (CommitsUnforged env) (PlogHistory.created env id payload) run ∧
      let last := lastState (PlogHistory.created env id payload) run
      ¬∃ recovered after, openExistingPlog env id ⟨last.world, []⟩ = .ok () ⟨after, []⟩ ∧
        (recovered = last.committed ∨ recovered ∈ last.started) ∧
        Yields env after.plog after.content recovered := by
  obtain ⟨data, dataLength⟩ : ∃ data : Bytes, data.length = 1044480 :=
    ⟨List.replicate 1044480 0, List.length_replicate⟩
  have split := length_sectorsOf data
  have rest := length_raggedOf data
  have whole : (sectorsOf data).length = 255 := by omega
  have noRagged : raggedOf data = [] := List.eq_nil_of_length_eq_zero (by omega)
  have isClosed : ¬HasOpenBlock data := by
    rw [HasOpenBlock, whole, noRagged]
    decide
  have fits : committedEnd data < 2 ^ 63 := by
    rw [committedEnd, if_neg isClosed, sealedEnd, whole]
    decide
  have sound := created_sound lookalikeEnv 0 []
  have session := sound.session rfl
  obtain ⟨offset, written, wrote, healthy⟩ :=
    @writeLocked_runs_healthy lookalikeEnv _ _ _ _ data session
      (openedPlog_healthy lookalikeEnv 0 [] []) rfl rfl
  obtain ⟨appended, -⟩ := (writeLocked_triple session).returned rfl wrote
  have content_eq : (PlogHistory.created lookalikeEnv 0 []).content ++ data =
      data := List.nil_append data
  rw [content_eq] at appended
  have notOpen : written.plog.hasOpenBlock = false := by
    rw [Bool.eq_false_iff]
    exact fun isOpen =>
      isClosed ((appended.tracks.hasOpenBlock_iff healthy).mp isOpen)
  have wide : Session lookalikeEnv (superblock lookalikeEnv []) (fun _ => True)
      data written := appended.mono fun _ _ => trivial
  obtain ⟨committed, ran⟩ := commit_runs (by
    rw [healthy.bufTrusted, healthy.openTrusted]
    decide) fun isOpen => absurd (notOpen.symm.trans isOpen) Bool.false_ne_true
  have only := (commit_triple wide trivial fits).returned rfl ran
  obtain ⟨image, guards⟩ := only.recoverable
  obtain ⟨content, content_eq, isCommitted, -⟩ := guards.isAllowed
  rw [content_eq] at isCommitted
  obtain ⟨opened, reopened, shorter⟩ :=
    openExistingPlog_lookalike 0 guards isCommitted (by decide) whole isClosed
  refine ⟨lookalikeEnv, 0, [],
    [(.write data, ⟨written, true, data, [], []⟩),
      (.commit, ⟨committed, true, data, data, []⟩)], by decide, rfl,
    ⟨PlogStep.written _ data [] offset ⟨written, []⟩ rfl wrote,
      PlogStep.committed _ [] ⟨committed, []⟩ rfl ran, trivial⟩,
    ⟨trivial, ⟨noValidTrailer_lookalike whole, fits⟩, trivial⟩, ?_⟩
  rintro last ⟨recovered, after, opens, same | impossible, yields⟩
  · cases reopened.symm.trans opens
    rw [same] at yields
    have length_eq : 1040385 = data.length := shorter.symm.trans yields.1
    rw [dataLength] at length_eq
    exact absurd length_eq (by decide)
  · cases impossible

end Rose
