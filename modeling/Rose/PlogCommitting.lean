import Rose.PlogTruncation

/-!
# Committing a physical log

A commit writes the ragged edge and the trailer behind the sealed sectors, cuts
the file there, and only then retires the journal.  Until the journal is gone
the last committed image can be restored; afterwards the file is the committed
image of the log's bytes.
-/

namespace Rose

open ListSplice FixedBlocks DurableFiles FaultyPrograms

variable {env : PlogEnv} {head bytes : Bytes} {plog : Plog} {contents : Bytes → Prop}
  {world : PlogWorld}

namespace Plog.Tracks

variable (tracks : plog.Tracks env bytes) (healthy : plog.Healthy)
include tracks healthy

theorem hasOpenBlock_iff : plog.hasOpenBlock = true ↔ HasOpenBlock bytes := by
  rw [Plog.hasOpenBlock, decide_eq_true_iff, HasOpenBlock,
    tracks.hashes_eq healthy.bufTrusted healthy.openTrusted,
    tracks.buf_eq healthy.bufTrusted, length_openHashes, gt_iff_lt, gt_iff_lt,
    List.length_pos_iff]
  exact or_congr (by omega) Iff.rfl

theorem buildOpenTrailer_eq : buildOpenTrailer env plog = committedTrailer env bytes := by
  have blockIdx : 4096 * (sectorsOf bytes).length / dataPerBlock =
      (sectorsOf bytes).length / 255 := by
    rw [dataPerBlock, hashesPerBlock, sectorSize]
    omega
  rw [buildOpenTrailer, committedTrailer, tracks.sealed_eq, blockIdx,
    tracks.hashes_eq healthy.bufTrusted healthy.openTrusted,
    tracks.buf_eq healthy.bufTrusted]

theorem physicalEnd_eq : plog.physicalEnd = committedEnd bytes := by
  rw [Plog.physicalEnd, committedEnd, tracks.sealed_eq, calcPhysical_sealed,
    show sectorSize = 4096 from rfl]
  by_cases isOpen : HasOpenBlock bytes
  · rw [if_pos isOpen, if_pos ((tracks.hasOpenBlock_iff healthy).mpr isOpen)]
  · have noRagged : raggedOf bytes = [] := not_not.mp fun present => isOpen (Or.inr present)
    have split := length_sectorsOf bytes
    rw [noRagged, List.length_nil] at split
    rw [if_neg isOpen, if_neg fun marked =>
      isOpen ((tracks.hasOpenBlock_iff healthy).mp marked), tracks.length_eq,
      ← split, Nat.add_zero, calcPhysical_sealed]

end Plog.Tracks

/-- The session once the open block is in the file. -/
structure LaidOut (env : PlogEnv) (head : Bytes) (contents : Bytes → Prop) (bytes : Bytes)
    (world : PlogWorld) : Prop where
  session : Session env head contents bytes world
  active : HasOpenBlock bytes → world.plog.undoActive = true
  ragged_eq : slice world.content (sealedEnd bytes) (raggedOf bytes).length = raggedOf bytes
  trailer_eq : HasOpenBlock bytes → slice world.content (sealedEnd bytes + 4096) 4096 =
      committedTrailer env bytes

theorem LaidOut.of_closed (session : Session env head contents bytes world)
    (isClosed : ¬HasOpenBlock bytes) :
    LaidOut env head contents bytes world := by
  have noRagged : raggedOf bytes = [] := not_not.mp fun present => isClosed (Or.inr present)
  refine ⟨session, fun isOpen => absurd isOpen isClosed, ?_, fun isOpen => absurd isOpen isClosed⟩
  rw [noRagged]
  exact slice_zero_count _ _

theorem writeOpenBlock_triple (session : Session env head contents bytes world)
    (healthy : world.plog.Healthy) :
    Triple (· = world) (writeOpenBlock env world.plog)
      (fun _ after => LaidOut env head contents bytes after)
      (Interrupted env head contents bytes) := by
  have tracks := session.tracks
  have short := length_raggedOf bytes
  have buf_eq := tracks.buf_eq healthy.bufTrusted
  have sealed_eq : calcPhysical world.plog.sealed = sealedEnd bytes := by
    rw [tracks.sealed_eq, calcPhysical_sealed]
  have sealedLe : world.plog.sealed ≤ bytes.length := by
    rw [tracks.sealed_eq, ← length_sectorsOf bytes]
    exact Nat.le_add_right _ _
  have protects : Triple (· = world)
      (protectPrefixLocked env (calcPhysical (blockStartOf world.plog.sealed)))
      (fun _ after => (Session env head contents bytes after ∧ after.plog.undoActive = true) ∧
        after.content = world.content) (Interrupted env head contents bytes) :=
    (protectPrefixLocked_triple session (calcPhysical_blockStart_le sealedLe)).weaken
      (fun _ _ protection => ⟨⟨protection.session, protection.active⟩,
        congrArg DurableFile.view protection.file_eq⟩) fun _ _ untouched => untouched.1
  refine writeOpenBlock_rule (fun closed => ?_) protects (fun _ held => held.1.interrupted)
    (fun _ _ data held above => ⟨held.1.issue held.2 (Session.harmless_write data
      (Nat.le_trans (Nat.le_of_eq sealed_eq.symm) above)), held.2⟩)
    fun _ after held content_eq => ?_
  · refine LaidOut.of_closed session fun isOpen => ?_
    rw [(tracks.hasOpenBlock_iff healthy).mpr isOpen] at closed
    cases closed
  · have ragged := @openBlockFile_ragged env world.plog world.content (by rw [buf_eq]; exact short)
    have trailer := @openBlockFile_trailer env world.plog world.content
    rw [← content_eq, sealed_eq] at ragged trailer
    rw [buf_eq] at ragged
    rw [tracks.buildOpenTrailer_eq healthy] at trailer
    exact ⟨held.1, fun _ => held.2, ragged, fun _ => trailer⟩

namespace LaidOut

variable (laid : LaidOut env head contents bytes world)
include laid

/-- Cutting the file behind the open block leaves the committed image. -/
theorem committedImage :
    CommittedImage env head bytes (resize 0 (committedEnd bytes) world.content) := by
  have sealedLe : sealedEnd bytes ≤ committedEnd bytes := by
    rw [committedEnd]
    split_ifs <;> omega
  have storedLength : sealedEnd bytes ≤ world.content.length := by
    rw [← laid.session.stored.sealedEnd_eq]
    exact laid.session.stored.isPrefix.length_le
  have short := length_raggedOf bytes
  have reaches : HasOpenBlock bytes → sealedEnd bytes + 8192 ≤ world.content.length := by
    intro isOpen
    have length_eq := congrArg List.length (laid.trailer_eq isOpen)
    rw [length_slice, show (committedTrailer env bytes).length = 4096 from
      length_openTrailer _ _ _ _] at length_eq
    omega
  refine ⟨@Stored.apply env head bytes world.content laid.session.stored
    (.truncate (committedEnd bytes)) sealedLe, length_resize _ _ _, ?_, fun isOpen => ?_⟩
  · by_cases isOpen : HasOpenBlock bytes
    · have bound := reaches isOpen
      rw [slice_resize 0 (by omega) (by rw [committedEnd, if_pos isOpen]; omega), laid.ragged_eq]
    · have noRagged : raggedOf bytes = [] := not_not.mp fun present => isOpen (Or.inr present)
      rw [noRagged]
      exact slice_zero_count _ _
  · have bound := reaches isOpen
    rw [slice_resize 0 (by omega) (by rw [committedEnd, if_pos isOpen]), laid.trailer_eq isOpen]

/-- The cut is safe: it is protected by the journal or changes nothing. -/
theorem truncate :
    Session env head contents bytes { world with
      store := world.store.issue (.truncate (committedEnd bytes)) } := by
  have sealedLe : sealedEnd bytes ≤ committedEnd bytes := by
    rw [committedEnd]
    split_ifs <;> omega
  cases active : world.plog.undoActive with
  | true => exact laid.session.issue active fun _ => sealedLe
  | false =>
    have isClosed : ¬HasOpenBlock bytes := by
      intro isOpen
      cases active.symm.trans (laid.active isOpen)
    have size_eq : committedEnd bytes = world.store.file.view.length := by
      rw [committedEnd, if_neg isClosed]
      exact (laid.session.idle active isClosed).symm
    have content_eq : ({ world with
        store := world.store.issue (.truncate (committedEnd bytes)) } :
          PlogWorld).content =
        resize 0 (committedEnd bytes) world.content :=
      DurableFile.view_issue _ _
    obtain ⟨image, guards, -⟩ := laid.session.guarded
    have notActive : ¬world.plog.undoActive = true := by
      rw [active]
      decide
    refine ⟨⟨image, ?_, fun isActive => absurd isActive notActive⟩,
      fun isActive => absurd isActive notActive, ?_, laid.session.tracks, ?_⟩
    · rw [size_eq]
      exact guards.issue_truncate_size
    · rw [content_eq]
      exact laid.committedImage.stored
    · intro _ _
      rw [content_eq, length_resize, committedEnd, if_neg isClosed]

end LaidOut

theorem Session.unprotected {others : Bytes → Prop} {store : UndoStore}
    (session : Session env head contents bytes world)
    (committed : CommittedImage env head bytes world.content)
    (recoverable : Recoverable env head others store) (view_eq : store.file.view = world.content) :
    Session env head others bytes ⟨store, { world.plog with undoActive := false }⟩ := by
  obtain ⟨image, guards⟩ := recoverable
  have tracks := session.tracks
  refine ⟨⟨image, guards, fun active => absurd active Bool.false_ne_true⟩,
    fun active => absurd active Bool.false_ne_true, ?_, ⟨tracks.length_eq, tracks.bufLength,
      tracks.buf_eq, tracks.hashes_eq⟩, fun _ isClosed => ?_⟩
  · change Stored env head bytes store.file.view
    rw [view_eq]
    exact session.stored
  · change store.file.view.length = _
    rw [view_eq, committed.size_closed isClosed]

theorem CommittedImage.imageOf {image : Bytes} (committed : CommittedImage env head bytes image)
    (isContent : contents bytes) (fits : committedEnd bytes < 2 ^ 63) :
    ImageOf env head contents image :=
  ⟨bytes, isContent, committed, by rw [committed.size_eq]; exact fits⟩

/-- The states a store goes through while its journal is retired. -/
def UndoStore.Retiring (store next : UndoStore) : Prop :=
  next = store ∨ next = store.syncFile ∨ next = store.syncFile.removeJournal

/-- Only a crash keeps the log under protection, whether or not the journal went away. -/
theorem retireUndo_cases :
    Triple (· = world) retireUndo (fun _ after => Restored world.content after.store ∧
        after.plog = { world.plog with undoActive := false })
      (fun halt after => world.store.Retiring after.store ∧
        (halt ≠ .crash → after.plog = { world.plog with undoActive := false })) := by
  have retires : Triple (· = world) (attempt (onStore commitUndo))
      (fun retired after => after.plog = world.plog ∧
        (∀ done, retired = .ok done → Restored world.content after.store) ∧
        ∀ reason, retired = .error reason → world.store.Retiring after.store)
      (fun halt after => world.store.Retiring after.store ∧
        (halt ≠ .crash → after.plog = { world.plog with undoActive := false })) := by
    refine Triple.attempt (Triple.within fun outer same => ?_)
    subst same
    refine commitUndo_triple.weaken (fun _ _ restored =>
      ⟨rfl, fun _ _ => restored, fun _ impossible => by cases impossible⟩) fun halt _ reached => ?_
    cases halt with
    | error reason => exact ⟨rfl, fun _ impossible => (by cases impossible), fun _ _ => reached⟩
    | crash => exact ⟨reached, fun other => absurd rfl other⟩
  refine Triple.bind retires fun retired machine reached => ?_
  obtain ⟨plog_eq, onSuccess, onFailure⟩ := reached
  refine (Triple.bind setPlog_triple fun _ => ?_) machine rfl
  rw [plog_eq]
  cases retired with
  | ok done =>
    refine Triple.pure fun _ same => ?_
    rw [same]
    exact ⟨onSuccess done rfl, rfl⟩
  | error reason =>
    refine Triple.raise fun _ same => ?_
    rw [same]
    exact ⟨onFailure reason rfl, fun _ => rfl⟩

section Retiring

variable (session : Session env head contents bytes world) (isContent : contents bytes)
  (committed : CommittedImage env head bytes world.content) (fits : committedEnd bytes < 2 ^ 63)
include session isContent committed fits

theorem Session.retiring {store : UndoStore}
    (reached : world.store.Retiring store) :
    Recoverable env head contents store ∧ store.file.view = world.content := by
  obtain ⟨image, guards, -⟩ := session.guarded
  have isImage := committed.imageOf isContent fits
  rcases reached with rfl | rfl | rfl
  · exact ⟨⟨image, guards⟩, rfl⟩
  · exact ⟨⟨image, guards.syncFile⟩, rfl⟩
  · exact ⟨⟨_, guards.retire isImage⟩, rfl⟩

theorem retireUndo_triple :
    Triple (· = world) retireUndo
      (fun _ after => Session env head (fun content => content = bytes) bytes after)
      (Interrupted env head contents bytes) := by
  refine retireUndo_cases.weaken ?_ ?_
  · rintro _ ⟨store, plog⟩ ⟨restored, rfl⟩
    exact session.unprotected committed
      ⟨_, restored.guards env.sha (committed.imageOf rfl fits)⟩ restored.keeps.view_eq
  · rintro halt ⟨store, plog⟩ ⟨reached, left⟩
    obtain ⟨recoverable, view_eq⟩ := session.retiring isContent committed fits reached
    cases halt with
    | error reason =>
      obtain rfl := left nofun
      exact session.unprotected committed recoverable view_eq
    | crash => exact recoverable

end Retiring

/-- A commit that returns makes the bytes the only content; one that stops
leaves them one of the contents a crash may bring back. -/
theorem commit_triple (session : Session env head contents bytes world) (isContent : contents bytes)
    (fits : committedEnd bytes < 2 ^ 63) :
    Triple (· = world) (commit env)
      (fun _ after => Session env head (fun content => content = bytes) bytes after)
      (Interrupted env head contents bytes) := by
  refine commit_rule session.interrupted (fun bufTrusted openTrusted =>
    writeOpenBlock_triple session ⟨bufTrusted, openTrusted⟩)
    (fun middle laid => laid.session.interrupted) ?_
  intro bufTrusted openTrusted middle laid
  rw [session.tracks.physicalEnd_eq ⟨bufTrusted, openTrusted⟩]
  have committed : CommittedImage env head bytes
      (middle.store.file.issue (.truncate (committedEnd bytes))).view := by
    rw [DurableFile.view_issue]
    exact laid.committedImage
  refine (retireUndo_triple laid.truncate isContent committed fits).returning
    fun _ after retired => ?_
  have tracks := retired.tracks
  split_ifs
  · exact ⟨retired.guarded, retired.undoStartLe, retired.stored,
      ⟨tracks.length_eq, tracks.bufLength, tracks.buf_eq, tracks.hashes_eq⟩,
      retired.idle⟩
  · exact retired

section Progress

/-- A trusted log is committed whenever its open block can be protected. -/
theorem commit_runs
    (trusted : ¬(world.plog.bufCorrupt = true ∨ world.plog.openUnverified = true))
    (protects : world.plog.hasOpenBlock = true → ∃ shielded, Runs (protectPrefixLocked env
      (calcPhysical (blockStartOf world.plog.sealed))) world () shielded) :
    ∃ after, Runs (commit env) world () after := by
  obtain ⟨laid, lays⟩ : ∃ laid, Runs (writeOpenBlock env world.plog) world () laid := by
    unfold writeOpenBlock
    split_ifs with isOpen
    · obtain ⟨shielded, protects⟩ := protects isOpen
      obtain ⟨edged, writes⟩ : ∃ edged, Runs (writeRagged world.plog) shielded () edged := by
        unfold writeRagged
        split_ifs
        · exact ⟨_, .labelled (.within .effect)⟩
        · exact ⟨_, .pure⟩
      exact ⟨_, .bind protects (.bind writes (.labelled (.within .effect)))⟩
    · exact ⟨_, .pure⟩
  have retires : ∀ before, ∃ after, Runs retireUndo before () after := fun _ => ⟨_, rfl⟩
  obtain ⟨retired, retires⟩ := retires
    { laid with store := laid.store.issue (.truncate world.plog.physicalEnd) }
  exact ⟨_, .bind .current (by
    rw [if_neg trusted]
    exact .bind lays (.bind (.labelled (.within .effect)) (.bind retires .update)))⟩

end Progress

end Rose
