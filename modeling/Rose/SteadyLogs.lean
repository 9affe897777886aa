import Rose.PlogReopening
import Rose.PlogStates

/-!
# Logs whose file was never damaged

Any number of failed operations, crashes and reopenings leave a log steady: its
memory has the shape of a log of its length, the file reaches to the end of the
sealed sectors, and the journal guards a file that some commit left.  The
journal never starts above the block the log ends in.
-/

namespace Rose

open ListSplice DurableFiles FaultyPrograms

section Journal

variable {sha : Sha256} {allowed : Bytes → Prop} {image : Bytes} {store : UndoStore}
  {start bound : Nat}

/-- A journal that is there starts no higher than `bound`. -/
def UndoStore.ReachesTo (sha : Sha256) (bound : Nat) (store : UndoStore) : Prop :=
  ∀ record, readUndo sha store = .ok (some record) → record.start ≤ bound

theorem readUndo_congr {next : UndoStore} (same : next.journal.current = store.journal.current) :
    readUndo sha next = readUndo sha store := by
  rw [readUndo, readUndo, same]

theorem readUndo_of_saves {journal : Journal} (current_eq : store.journal.current = some journal)
    (saves : journal.Saves sha image start) :
    readUndo sha store = .ok (some (savedRecord sha image start)) := by
  rw [readUndo, current_eq]
  dsimp only
  rw [saves.decoded]
  rfl

theorem reachesTo_of_protects (protects : ProtectsFrom sha image bound store) :
    store.ReachesTo sha bound := by
  intro record read
  obtain ⟨journal, start, current_eq, startLe, saves, -⟩ := protects _ store.journal.current_mem
  rw [readUndo_of_saves current_eq saves] at read
  cases read
  exact startLe

theorem Restored.reachesTo (restored : Restored image store) : store.ReachesTo sha bound := by
  intro record read
  have nothing : readUndo sha store = .ok none := by
    rw [readUndo, restored.journal_eq]
    rfl
  rw [nothing] at read
  cases read

theorem WriteStopped.reachesTo {after : UndoStore}
    (stopped : WriteStopped sha image store start after) (reaches : store.ReachesTo sha bound)
    (startLe : start ≤ bound) :
    after.ReachesTo sha bound := by
  obtain ⟨-, same | ⟨journal, journal_eq, saves, -⟩⟩ := stopped
  · intro record read
    rw [readUndo_congr (congrArg DurableEntry.current same)] at read
    exact reaches record read
  · intro record read
    rw [Int.toNat_natCast] at saves
    rw [readUndo_of_saves (by rw [journal_eq]; rfl) saves] at read
    cases read
    exact startLe

theorem saveUndo_reaches (guards : Guards sha allowed image store) (fits : image.length < 2 ^ 63)
    (reaches : store.ReachesTo sha bound) (startLe : start ≤ bound) :
    Triple (fun world => world = store) (saveUndo sha start)
      (fun _ _ => True) (fun _ after => after.ReachesTo sha bound) := by
  have written : ∀ old, OpenedAs sha image store old →
      (∀ record, old = some record → (start : Int) < record.start) →
      Triple (fun world => world = store) (writeUndo sha start image.length old)
        (fun _ _ => True) (fun _ after => after.ReachesTo sha bound) := by
    intro old opened lower
    refine (writeUndo_triple opened.savedFrom ?_ fits).weaken (fun _ _ _ => trivial)
      fun _ after stopped => stopped.reachesTo reaches startLe
    intro inside
    cases old with
    | none => exact inside
    | some record => exact Int.le_of_lt (lower record rfl)
  refine Triple.bind_fact (guards.openUndo_triple fun _ => reaches) fun old opened => ?_
  cases old with
  | none =>
    refine Triple.bind_fact (fileSize_triple fun _ => reaches) ?_
    rintro size rfl
    rw [opened.2.view_eq]
    exact written none opened fun record absurd => by cases absurd
  | some record =>
    have found := opened
    obtain ⟨journal, saved, current_eq, rfl, saves, below⟩ := found
    dsimp only
    split_ifs with higher
    · exact (keepUndo_triple current_eq below).weaken (fun _ _ _ => trivial)
        fun _ _ same => same ▸ reaches
    · refine Triple.bind_fact (fileSize_triple fun _ => reaches) fun _ _ => ?_
      refine written _ opened ?_
      rintro record same
      cases same
      omega

theorem saveUndo_returns (guards : Guards sha allowed image store)
    (reaches : store.ReachesTo sha start) (startLe : start ≤ store.file.view.length) :
    ∃ after, Runs (saveUndo sha start) store () after := by
  obtain ⟨found, read, opened⟩ := guards.readUndo_eq
  cases found with
  | none => exact saveUndo_runs opened.1 startLe
  | some record =>
    have reached := reaches record read
    obtain ⟨journal, saved, current_eq, rfl, saves, below⟩ := opened
    exact ⟨_, .bind (.inspect read) (by
      dsimp only
      rw [if_pos (by omega)]
      exact .bind (.inspect (identityOf_eq below (Nat.le_refl _)))
        (.bind (checkIdentity_runs _) .effect))⟩

end Journal

section Steadiness

/-- Where the block a log ends in begins in the file. -/
def Plog.blockBase (plog : Plog) : Nat := calcPhysical (blockStartOf plog.logicalLength)

/-- The file that a commit of a log with an open block leaves.  Nothing is said
of the bytes between the ragged edge and the trailer. -/
structure CommittedBy (env : PlogEnv) (plog : Plog) (image : Bytes) : Prop where
  shaped : plog.Shaped
  trusted : plog.bufCorrupt = false
  isOpen : plog.hasOpenBlock = true
  size_eq : image.length = calcPhysical plog.sealed + 2 * sectorSize
  ragged_eq : slice image (calcPhysical plog.sealed) plog.buf.length = plog.buf
  trailer_eq : slice image (calcPhysical plog.sealed + sectorSize) sectorSize =
    buildOpenTrailer env plog

/-- A file that a commit may leave: it ends with a complete block, or with the
trailer of an open one. -/
structure Committable (env : PlogEnv) (image : Bytes) : Prop where
  fits : image.length < 2 ^ 63
  header : ∃ payload, readSuperblock env image = .ok payload
  ends : (∃ count, image.length = calcPhysical (dataPerBlock * count)) ∨
    ∃ plog, CommittedBy env plog image

/-- The journal and the file can bring the image back. -/
structure Backed (env : PlogEnv) (image : Bytes) (world : PlogWorld) :
    Prop where
  guards : Guards env.sha (Committable env) image world.store
  protects : world.plog.undoActive = true →
    ProtectsFrom env.sha image world.plog.undoStart world.store
  startLe : world.plog.undoActive = true → world.plog.undoStart ≤ world.plog.blockBase
  reaches : world.store.ReachesTo env.sha world.plog.blockBase

structure Steady (env : PlogEnv) (image : Bytes) (world : PlogWorld) :
    Prop where
  shaped : world.plog.Shaped
  header : ∃ payload, readSuperblock env world.content = .ok payload
  long : calcPhysical world.plog.sealed ≤ world.content.length
  idle : world.plog.undoActive = false → world.plog.logicalLength % dataPerBlock = 0 →
      world.content.length = calcPhysical world.plog.logicalLength
  backed : Backed env image world

variable {env : PlogEnv} {image : Bytes} {world : PlogWorld} {start : Nat}

variable {plog : Plog}

theorem Plog.Shaped.blockStart_sealed (shaped : plog.Shaped) :
    blockStartOf plog.sealed = blockStartOf plog.logicalLength := by
  have split := shaped.logicalLength_eq
  have short := shaped.bufShort
  have aligned := shaped.aligned
  have blocks : plog.sealed / dataPerBlock = plog.logicalLength / dataPerBlock := by
    rw [dataPerBlock, hashesPerBlock, sectorSize]
    omega
  rw [blockStartOf, blockStartOf, blocks]

theorem Plog.Shaped.blockBase_le (shaped : plog.Shaped) :
    plog.blockBase ≤ calcPhysical plog.sealed := by
  rw [Plog.blockBase, ← shaped.blockStart_sealed]
  exact calcPhysical_mono (Nat.div_mul_le_self _ _)

/-- The log once its file is protected from `start` on. -/
structure Shielded (env : PlogEnv) (image : Bytes) (start : Nat) (before after : PlogWorld) :
    Prop where
  backed : Backed env image after
  active : after.plog.undoActive = true
  startLe : after.plog.undoStart ≤ start
  file_eq : after.store.file = before.store.file
  memory_eq : after.plog.unjournaled = before.plog.unjournaled

/-- What a journal that could not be written leaves. -/
structure Unshielded (env : PlogEnv) (image : Bytes) (before after : PlogWorld) : Prop where
  backed : Backed env image after
  file_eq : after.store.file = before.store.file
  plog_eq : after.plog = before.plog

section

variable (backed : Backed env image world)
include backed

theorem Backed.protect (startLe : start ≤ world.plog.blockBase) :
    Triple (· = world) (protectPrefixLocked env start)
      (fun _ after => Shielded env image start world after)
      (fun _ after => Unshielded env image world after) := by
  have fits := backed.guards.isAllowed.fits
  have saves := (saveUndo_triple backed.guards fits start).and
    (saveUndo_reaches backed.guards fits backed.reaches startLe)
  refine protectPrefixLocked_rule ?_ (saves.weaken ?_ ?_) fun _ _ _ held => held
  · exact fun active reached => ⟨backed, active, reached, rfl, rfl⟩
  · rintro _ store ⟨⟨kept, saved⟩, -⟩
    rw [Int.toNat_natCast] at saved
    refine ⟨⟨kept.guards, fun _ => saved, fun _ => startLe, ?_⟩, rfl, Nat.le_refl _,
      kept.file_eq, rfl⟩
    intro record read
    exact Nat.le_trans (reachesTo_of_protects saved record read) startLe
  · rintro _ store ⟨kept, reaches⟩
    exact ⟨⟨kept.guards, fun active => kept.protects _ (backed.protects active),
      backed.startLe, reaches⟩, kept.file_eq, rfl⟩

theorem Backed.protect_runs (long : world.plog.blockBase ≤ world.content.length) :
    ∃ after, Runs (protectPrefixLocked env world.plog.blockBase) world () after ∧
      Shielded env image world.plog.blockBase world after := by
  obtain ⟨after, runs⟩ : ∃ after,
      Runs (protectPrefixLocked env world.plog.blockBase) world () after := by
    obtain ⟨store, saves⟩ := saveUndo_returns backed.guards backed.reaches long
    by_cases reached : world.plog.undoActive = true ∧ world.plog.undoStart ≤ world.plog.blockBase
    · exact ⟨_, .bind .current (by
        rw [if_pos reached]
        exact .pure)⟩
    · exact ⟨_, .bind .current (by
        rw [if_neg reached]
        exact .bind (.labelled (.within saves)) .update)⟩
  exact ⟨after, runs, (backed.protect (Nat.le_refl _)).returned rfl runs⟩

theorem Backed.issue (active : world.plog.undoActive = true) {op : FileOp}
    (harmless : op.HarmlessBelow world.plog.undoStart image) :
    Backed env image { world with store := world.store.issue op } := by
  have protects := (backed.protects active).issue harmless
  exact ⟨protects.guards backed.guards.isAllowed, fun _ => protects, backed.startLe, backed.reaches⟩

end

theorem le_calcPhysical (logical : Nat) : 4096 ≤ calcPhysical logical := by
  simp only [calcPhysical, plogHeaderSize, sectorSize]
  omega

theorem readSuperblock_congr {content other : Bytes} {limit : Nat}
    (agree : AgreeBelow limit content other) (long : limit ≤ content.length)
    (headerLe : 4096 ≤ limit) :
    readSuperblock env other = readSuperblock env content := by
  have size : plogHeaderSize = 4096 := rfl
  have otherLong := agree.limitLe
  unfold readSuperblock
  dsimp only
  rw [size, agree.slice_eq (show 0 + 4096 ≤ limit by omega)]
  have bothLong : other.length < 4096 ↔ content.length < 4096 := by omega
  simp only [bothLong]

/-- The memory of the log, and the file up to the end of the sealed sectors, are
what they were. -/
structure Undisturbed (env : PlogEnv) (image : Bytes) (before after : PlogWorld) : Prop where
  steady : Steady env image after
  memory_eq : after.plog.unjournaled = before.plog.unjournaled
  agree : AgreeBelow (calcPhysical before.plog.sealed) before.content after.content

theorem Steady.undisturbed (steady : Steady env image world) : Undisturbed env image world world :=
  ⟨steady, rfl, AgreeBelow.refl steady.long⟩

theorem logicalLength_of_unjournaled {other : Plog} (same : other.unjournaled = plog.unjournaled) :
    other.logicalLength = plog.logicalLength := by
  have length_eq := congrArg Plog.logicalLength same
  exact length_eq

theorem Plog.blockBase_of_unjournaled {other : Plog} (same : other.unjournaled = plog.unjournaled) :
    other.blockBase = plog.blockBase := by
  rw [Plog.blockBase, Plog.blockBase, logicalLength_of_unjournaled same]

variable {after : PlogWorld}

section

variable (steady : Steady env image world)
include steady

theorem Steady.undisturb (backed : Backed env image after)
    (memory_eq : after.plog.unjournaled = world.plog.unjournaled)
    (agree : AgreeBelow (calcPhysical world.plog.sealed) world.content after.content)
    (idle : after.plog.undoActive = false →
      world.plog.undoActive = false ∧ after.content = world.content) :
    Undisturbed env image world after := by
  have sealed_eq := sealed_of_unjournaled memory_eq
  have length_eq := logicalLength_of_unjournaled memory_eq
  refine ⟨⟨steady.shaped.of_unjournaled memory_eq, ?_, ?_, ?_, backed⟩, memory_eq, agree⟩
  · rw [readSuperblock_congr agree steady.long (le_calcPhysical _)]
    exact steady.header
  · rw [sealed_eq]
    exact agree.limitLe
  · intro inactive closed
    obtain ⟨wasInactive, content_eq⟩ := idle inactive
    rw [length_eq] at closed ⊢
    rw [content_eq]
    exact steady.idle wasInactive closed

theorem Shielded.undisturbed (shielded : Shielded env image start world after) :
    Undisturbed env image world after := by
  have content_eq : after.content = world.content := congrArg DurableFile.view shielded.file_eq
  refine steady.undisturb shielded.backed shielded.memory_eq ?_ ?_
  · rw [content_eq]
    exact AgreeBelow.refl steady.long
  · intro inactive
    cases shielded.active.symm.trans inactive

theorem Unshielded.undisturbed (unshielded : Unshielded env image world after) :
    Undisturbed env image world after := by
  have content_eq : after.content = world.content := congrArg DurableFile.view unshielded.file_eq
  refine steady.undisturb unshielded.backed (by rw [unshielded.plog_eq]) ?_ ?_
  · rw [content_eq]
    exact AgreeBelow.refl steady.long
  · rw [unshielded.plog_eq]
    exact fun inactive => ⟨inactive, content_eq⟩

end

theorem Undisturbed.issue {op : FileOp} (undisturbed : Undisturbed env image world after)
    (steady : Steady env image world) (active : after.plog.undoActive = true)
    (harmless : ∀ target, op.HarmlessBelow (calcPhysical world.plog.sealed) target) :
    Undisturbed env image world
      { after with store := after.store.issue op } := by
  have base_eq := Plog.blockBase_of_unjournaled undisturbed.memory_eq
  have startLe : after.plog.undoStart ≤ calcPhysical world.plog.sealed := by
    have baseLe := undisturbed.steady.backed.startLe active
    rw [base_eq] at baseLe
    exact Nat.le_trans baseLe steady.shaped.blockBase_le
  refine steady.undisturb (undisturbed.steady.backed.issue active
    ((harmless image).mono startLe)) undisturbed.memory_eq ?_ ?_
  · change AgreeBelow _ world.content (after.store.file.issue op).view
    rw [DurableFile.view_issue]
    exact (op.torn_apply _).agreeBelow (harmless _) undisturbed.agree
  · intro inactive
    cases active.symm.trans inactive

end Steadiness

end Rose
