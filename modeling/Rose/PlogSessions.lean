import Rose.PlogRecovery

/-!
# Sessions of a physical log

While a process uses a log, its file stores the sealed sectors of the log's
bytes, its memory tracks the bytes, and the undo journal guards a committed
image of one of the contents a crash may bring back.  Once the journal is
active, it protects the file from below the end of the sealed sectors, so
everything written after them can be undone.
-/

namespace Rose

open ListSplice FixedBlocks DurableFiles FaultyPrograms

/-- The committed images of a set of contents, as far as a file can hold them. -/
def ImageOf (env : PlogEnv) (head : Bytes) (contents : Bytes → Prop) (image : Bytes) : Prop :=
  ∃ bytes, contents bytes ∧ CommittedImage env head bytes image ∧ image.length < 2 ^ 63

structure Session (env : PlogEnv) (head : Bytes) (contents : Bytes → Prop) (bytes : Bytes)
    (world : PlogWorld) : Prop where
  guarded : ∃ image, Guards env.sha (ImageOf env head contents) image world.store ∧
      (world.plog.undoActive = true → ProtectsFrom env.sha image world.plog.undoStart world.store)
  undoStartLe : world.plog.undoActive = true → world.plog.undoStart ≤ sealedEnd bytes
  stored : Stored env head bytes world.content
  tracks : world.plog.Tracks env bytes
  idle : world.plog.undoActive = false → ¬HasOpenBlock bytes →
    world.content.length = sealedEnd bytes

/-- What is left when the process is gone. -/
def Recoverable (env : PlogEnv) (head : Bytes) (contents : Bytes → Prop) (store : UndoStore) :
    Prop :=
  ∃ image, Guards env.sha (ImageOf env head contents) image store

/-- What a stopped operation leaves: after an error the session goes on, after a
crash only the store remains. -/
def Interrupted (env : PlogEnv) (head : Bytes) (contents : Bytes → Prop) (bytes : Bytes) :
    Halt → PlogWorld → Prop
  | .error _, world => Session env head contents bytes world
  | .crash, world => Recoverable env head contents world.store

variable {env : PlogEnv} {head bytes content next data : Bytes} {contents : Bytes → Prop}
  {world : PlogWorld}

theorem Session.recoverable (session : Session env head contents bytes world) :
    Recoverable env head contents world.store := by
  obtain ⟨image, guards, -⟩ := session.guarded
  exact ⟨image, guards⟩

theorem Session.interrupted (session : Session env head contents bytes world) (halt : Halt) :
    Interrupted env head contents bytes halt world := by
  cases halt with
  | error reason => exact session
  | crash => exact session.recoverable

namespace Stored

variable (stored : Stored env head bytes content)
include stored

theorem sealedEnd_eq : (head ++ layout env (sectorsOf bytes)).length = sealedEnd bytes := by
  rw [List.length_append, stored.headLength, length_layout (fullSectors_sectorsOf bytes), sealedEnd]
  omega

theorem of_agreeBelow (agree : AgreeBelow (sealedEnd bytes) content next) :
    Stored env head bytes next := by
  refine ⟨stored.headLength, List.prefix_iff_eq_take.mpr ?_⟩
  have front := List.prefix_iff_eq_take.mp stored.isPrefix
  rw [stored.sealedEnd_eq] at front ⊢
  rw [front]
  apply List.ext_getElem?
  intro index
  rw [List.getElem?_take, List.getElem?_take]
  split_ifs with below
  · exact (agree.bytes index below).symm
  · rfl

theorem apply {op : FileOp} (harmless : op.HarmlessBelow (sealedEnd bytes) content) :
    Stored env head bytes (op.apply content) :=
  stored.of_agreeBelow ((op.torn_apply content).agreeBelow harmless
    (AgreeBelow.refl stored.length_le))

end Stored

namespace Session

theorem issue (session : Session env head contents bytes world)
    (active : world.plog.undoActive = true) {op : FileOp}
    (harmless : ∀ target, op.HarmlessBelow (sealedEnd bytes) target) :
    Session env head contents bytes
      { world with store := world.store.issue op } := by
  obtain ⟨image, guards, protects⟩ := session.guarded
  have protectsAfter := (protects active).issue ((harmless image).mono (session.undoStartLe active))
  refine ⟨⟨image, protectsAfter.guards guards.isAllowed,
    fun _ => protectsAfter⟩, session.undoStartLe, ?_, session.tracks, ?_⟩
  · change Stored env head bytes (world.store.file.issue op).view
    rw [DurableFile.view_issue]
    exact session.stored.apply (harmless _)
  · intro inactive
    cases active.symm.trans inactive

theorem harmless_write (data : Bytes) {offset : Nat} (above : sealedEnd bytes ≤ offset)
    (target : Bytes) :
    (FileOp.write offset data).HarmlessBelow (sealedEnd bytes) target :=
  FileOp.harmlessBelow_write data target above

theorem of_openAt {image payload : Bytes} {id : Nat}
    (opened : OpenAt image (openedPlog env id payload bytes) world)
    (committed : CommittedImage env head bytes image) (isContent : contents bytes)
    (fits : image.length < 2 ^ 63) :
    Session env head contents bytes world := by
  have guards := opened.restored.guards env.sha
    (show ImageOf env head contents image from
      ⟨bytes, isContent, committed, fits⟩)
  have inactive : world.plog.undoActive = false := by
    rw [opened.plog_eq]
    rfl
  have notActive : world.plog.undoActive ≠ true := by
    rw [inactive]
    decide
  refine ⟨⟨image, guards, fun active => absurd active notActive⟩,
    fun active => absurd active notActive, ?_, ?_, ?_⟩
  · rw [opened.content_eq]
    exact committed.stored
  · rw [opened.plog_eq]
    exact openedPlog_tracks env id payload bytes
  · intro _ isClosed
    rw [opened.content_eq, committed.size_closed isClosed]

end Session

theorem Session.save {image : Bytes} {store : UndoStore}
    (session : Session env head contents bytes world)
    (kept : SaveKeeps env.sha (ImageOf env head contents) image world.store store)
    (protects : world.plog.undoActive = true →
      ProtectsFrom env.sha image world.plog.undoStart world.store) :
    Session env head contents bytes { world with store := store } := by
  have content_eq : ({ world with store := store } : PlogWorld).content =
      world.content := congrArg DurableFile.view kept.file_eq
  refine ⟨⟨image, kept.guards, fun active =>
    kept.protects _ (protects active)⟩, session.undoStartLe, ?_,
    session.tracks, ?_⟩
  · rw [content_eq]
    exact session.stored
  · rw [content_eq]
    exact session.idle

/-- The session after the file was protected from `start` on. -/
structure Protected (env : PlogEnv) (head : Bytes) (contents : Bytes → Prop) (bytes : Bytes)
    (start : Nat) (before after : PlogWorld) : Prop where
  session : Session env head contents bytes after
  active : after.plog.undoActive = true
  startLe : after.plog.undoStart ≤ start
  file_eq : after.store.file = before.store.file
  plog_eq : after.plog = { before.plog with
    undoActive := true, undoStart := after.plog.undoStart }

/-- An operation stopped before it changed the memory of the log. -/
def Untouched (env : PlogEnv) (head : Bytes) (contents : Bytes → Prop) (bytes : Bytes)
    (before : PlogWorld) (halt : Halt) (after : PlogWorld) :
    Prop :=
  Interrupted env head contents bytes halt after ∧
    after.plog.logicalLength = before.plog.logicalLength

theorem protectPrefixLocked_triple {start : Nat} (session : Session env head contents bytes world)
    (startLe : start ≤ sealedEnd bytes) :
    Triple (· = world) (protectPrefixLocked env start)
      (fun _ after => Protected env head contents bytes start world after)
      (Untouched env head contents bytes world) := by
  obtain ⟨image, guards, protects⟩ := session.guarded
  obtain ⟨-, -, -, fits⟩ := guards.isAllowed
  refine protectPrefixLocked_rule ?_ ((saveUndo_triple guards fits start).weaken ?_ ?_)
    fun _ _ _ held => held
  · intro active reaches
    refine ⟨session, active, reaches, rfl, ?_⟩
    rw [← active]
  · rintro _ store ⟨kept, saved⟩
    rw [Int.toNat_natCast] at saved
    have tracks := session.tracks
    have stored := session.stored
    rw [PlogWorld.content, ← kept.file_eq] at stored
    exact ⟨⟨⟨image, kept.guards, fun _ => saved⟩, fun _ => startLe, stored,
      ⟨tracks.length_eq, tracks.bufLength, tracks.buf_eq, tracks.hashes_eq⟩, nofun⟩,
      rfl, Nat.le_refl _, kept.file_eq, rfl⟩
  · intro halt store kept
    exact ⟨(session.save kept protects).interrupted halt, rfl⟩

end Rose
