import Rose.SteadyOperations

/-!
# Committing and opening a steady log

A commit cuts the file behind the open block and retires the journal.  If it
returns, the file is a committed one; if it fails on the way, the log is as
steady as before.  Opening brings back the file the store guards, and the log
that is loaded from it is steady.
-/

namespace Rose

open ListSplice DurableFiles FaultyPrograms

variable {env : PlogEnv} {image : Bytes} {world : PlogWorld} {plog : Plog}

section Committing

theorem Plog.Shaped.closed_iff (shaped : plog.Shaped) (trusted : plog.bufCorrupt = false) :
    plog.hasOpenBlock = false ↔ plog.logicalLength % dataPerBlock = 0 := by
  have split := shaped.logicalLength_eq
  have short := shaped.bufShort
  have aligned := shaped.aligned
  have hashed : plog.hashes.length = plog.sealed / 4096 % 255 * 16 := shaped.hashed (.inl trusted)
  rw [Plog.hasOpenBlock, decide_eq_false_iff_not, not_or, dataPerBlock, hashesPerBlock, sectorSize]
  omega

theorem Plog.physicalEnd_of_closed (closed : plog.hasOpenBlock = false) :
    plog.physicalEnd = calcPhysical plog.logicalLength := by
  rw [Plog.physicalEnd, closed]
  rfl

theorem Plog.physicalEnd_of_open (isOpen : plog.hasOpenBlock = true) :
    plog.physicalEnd = calcPhysical plog.sealed + 2 * sectorSize := by
  rw [Plog.physicalEnd, if_pos isOpen]

theorem Plog.sealed_of_closed (closed : plog.hasOpenBlock = false) :
    plog.sealed = plog.logicalLength := by
  rw [Plog.sealed, Plog.buf_of_closed closed]
  rfl

theorem Plog.sealed_le_physicalEnd (plog : Plog) : calcPhysical plog.sealed ≤ plog.physicalEnd := by
  cases isOpen : plog.hasOpenBlock with
  | true =>
    rw [Plog.physicalEnd_of_open isOpen]
    exact Nat.le_add_right _ _
  | false =>
    rw [Plog.physicalEnd_of_closed isOpen, Plog.sealed_of_closed isOpen]

/-- The cut file, as the log that was committed describes it. -/
structure Trimmed (env : PlogEnv) (image : Bytes) (before after : PlogWorld) :
    Prop where
  undisturbed : Undisturbed env image before after
  size_eq : after.content.length = before.plog.physicalEnd
  closed : before.plog.logicalLength % dataPerBlock = 0 → before.plog.hasOpenBlock = false
  committed : before.plog.hasOpenBlock = true → CommittedBy env before.plog after.content

namespace Laid

variable {after : PlogWorld} (laid : Laid env image world after) (steady : Steady env image world)
  (trusted : world.plog.bufCorrupt = false)
include laid steady trusted

theorem committedBy (isOpen : world.plog.hasOpenBlock = true) :
    CommittedBy env world.plog (resize 0 world.plog.physicalEnd after.content) := by
  have size : sectorSize = 4096 := rfl
  have short := steady.shaped.bufShort
  have end_eq := Plog.physicalEnd_of_open isOpen
  have reaches : calcPhysical world.plog.sealed + 8192 ≤ after.content.length := by
    have length_eq := congrArg List.length (laid.trailer_eq isOpen)
    rw [length_slice, length_buildOpenTrailer] at length_eq
    omega
  refine ⟨steady.shaped, trusted, isOpen, ?_, ?_, ?_⟩
  · rw [length_resize, end_eq]
  · rw [slice_resize 0 (by omega) (by omega), laid.ragged_eq]
  · rw [slice_resize 0 (by omega) (by omega), laid.trailer_eq isOpen]

/-- Cutting the file is covered by the journal, or changes nothing. -/
theorem backed_truncate :
    Backed env image { after with
      store := after.store.issue (.truncate world.plog.physicalEnd) } := by
  have backed := laid.undisturbed.steady.backed
  have memory_eq := laid.undisturbed.memory_eq
  cases active : after.plog.undoActive with
  | true =>
    refine backed.issue active ?_
    have startLe := backed.startLe active
    rw [Plog.blockBase_of_unjournaled memory_eq] at startLe
    exact Nat.le_trans startLe (Nat.le_trans steady.shaped.blockBase_le
      world.plog.sealed_le_physicalEnd)
  | false =>
    have notActive : ¬after.plog.undoActive = true := by
      rw [active]
      decide
    have closed : world.plog.hasOpenBlock = false :=
      Bool.eq_false_iff.mpr fun isOpen => notActive (laid.active isOpen)
    have size_eq : after.store.file.view.length = world.plog.physicalEnd := by
      have length_eq := logicalLength_of_unjournaled memory_eq
      rw [Plog.physicalEnd_of_closed closed, ← length_eq]
      refine laid.undisturbed.steady.idle active ?_
      rw [length_eq]
      exact (steady.shaped.closed_iff trusted).mp closed
    refine ⟨?_, fun isActive => absurd isActive notActive,
      fun isActive => absurd isActive notActive, backed.reaches⟩
    rw [← size_eq]
    exact backed.guards.issue_truncate_size

theorem trimmed :
    Trimmed env image world { after with
      store := after.store.issue (.truncate world.plog.physicalEnd) } := by
  have memory_eq := laid.undisturbed.memory_eq
  have length_eq := logicalLength_of_unjournaled memory_eq
  have content_eq : ({ after with
      store := after.store.issue (.truncate world.plog.physicalEnd) } :
        PlogWorld).content =
      resize 0 world.plog.physicalEnd after.content :=
    DurableFile.view_issue _ _
  have harmless : ∀ target, (FileOp.truncate
      world.plog.physicalEnd).HarmlessBelow (calcPhysical world.plog.sealed)
        target := fun _ => world.plog.sealed_le_physicalEnd
  have agree : AgreeBelow (calcPhysical world.plog.sealed) world.content
      (resize 0 world.plog.physicalEnd after.content) :=
    ((FileOp.truncate world.plog.physicalEnd).torn_apply _).agreeBelow
      (harmless _) laid.undisturbed.agree
  rw [← content_eq] at agree
  refine ⟨⟨⟨laid.undisturbed.steady.shaped, ?_, ?_, ?_,
    laid.backed_truncate steady trusted⟩, memory_eq, agree⟩, ?_,
    (steady.shaped.closed_iff trusted).mpr, ?_⟩
  · rw [readSuperblock_congr agree steady.long (le_calcPhysical _)]
    exact steady.header
  · have sealed_eq := sealed_of_unjournaled memory_eq
    change calcPhysical after.plog.sealed ≤ _
    rw [sealed_eq]
    exact agree.limitLe
  · intro _ closed
    have isClosed : world.plog.logicalLength % dataPerBlock = 0 := by
      rw [← length_eq]
      exact closed
    change _ = calcPhysical after.plog.logicalLength
    rw [content_eq, length_resize, length_eq]
    exact Plog.physicalEnd_of_closed ((steady.shaped.closed_iff trusted).mpr isClosed)
  · rw [content_eq, length_resize]
  · intro isOpen
    rw [content_eq]
    exact laid.committedBy steady trusted isOpen

end Laid

theorem Trimmed.committable {after : PlogWorld} (trimmed : Trimmed env image world after)
    (steady : Steady env image world) (trusted : world.plog.bufCorrupt = false)
    (fits : world.plog.physicalEnd < 2 ^ 63) :
    Committable env after.content := by
  refine ⟨by rw [trimmed.size_eq]; exact fits, trimmed.undisturbed.steady.header, ?_⟩
  cases isOpen : world.plog.hasOpenBlock with
  | true => exact Or.inr ⟨world.plog, trimmed.committed isOpen⟩
  | false =>
    have whole := (steady.shaped.closed_iff trusted).mp isOpen
    refine Or.inl ⟨world.plog.logicalLength / dataPerBlock, ?_⟩
    rw [trimmed.size_eq, Plog.physicalEnd_of_closed isOpen,
      Nat.mul_div_cancel' (Nat.dvd_of_mod_eq_zero whole)]

/-- The log after a commit: its file is committed as it is. -/
structure Recommitted (env : PlogEnv) (before after : PlogWorld) : Prop where
  steady : Steady env after.content after
  memory_eq : after.plog.unjournaled =
    (if before.plog.hasOpenBlock then
      { before.plog with loadedFromTrailer := true }
    else before.plog).unjournaled
  agree : AgreeBelow (calcPhysical before.plog.sealed) before.content after.content
  size_eq : after.content.length = before.plog.physicalEnd
  committed : before.plog.hasOpenBlock = true → CommittedBy env before.plog after.content

section Retiring

variable {after : PlogWorld} (trimmed : Trimmed env image world after)
  (committable : Committable env after.content)
include trimmed committable

theorem Trimmed.retiring {store : UndoStore}
    (reached : after.store.Retiring store) :
    (∃ image, Guards env.sha (Committable env) image store) ∧ store.file.view = after.content ∧
      store.ReachesTo env.sha after.plog.blockBase := by
  have backed := trimmed.undisturbed.steady.backed
  rcases reached with rfl | rfl | rfl
  · exact ⟨⟨image, backed.guards⟩, rfl, backed.reaches⟩
  · exact ⟨⟨image, backed.guards.syncFile⟩, rfl, backed.reaches⟩
  · refine ⟨⟨_, backed.guards.retire committable⟩, rfl, ?_⟩
    intro record read
    cases read

omit committable in
theorem Trimmed.unprotected {other : Bytes} {store : UndoStore}
    (guards : Guards env.sha (Committable env) other store)
    (view_eq : store.file.view = after.content)
    (reaches : store.ReachesTo env.sha after.plog.blockBase) :
    Steady env other ⟨store, { after.plog with undoActive := false }⟩ := by
  have steady := trimmed.undisturbed.steady
  have shaped := steady.shaped
  have content_eq : (⟨store, { after.plog with undoActive := false }⟩ :
      PlogWorld).content = after.content := view_eq
  refine ⟨⟨shaped.aligned, shaped.bufShort, shaped.bufLe, shaped.hashed⟩,
    ?_, ?_, fun _ closed => ?_, guards,
    fun active => absurd active Bool.false_ne_true,
    fun active => absurd active Bool.false_ne_true, reaches⟩
  · rw [content_eq]
    exact steady.header
  · rw [content_eq]
    exact steady.long
  · rw [content_eq]
    have length_eq := logicalLength_of_unjournaled trimmed.undisturbed.memory_eq
    have isClosed := trimmed.closed (length_eq ▸ closed)
    change _ = calcPhysical after.plog.logicalLength
    rw [trimmed.size_eq, length_eq]
    exact Plog.physicalEnd_of_closed isClosed

theorem Trimmed.retireUndo :
    Triple (· = after) retireUndo
      (fun _ next => Steady env next.content next ∧ next.content = after.content ∧
        next.plog.unjournaled = after.plog.unjournaled)
      (Survives env) := by
  refine retireUndo_cases.weaken ?_ ?_
  · rintro _ ⟨store, plog⟩ ⟨restored, rfl⟩
    have view_eq : store.file.view = after.content := restored.keeps.view_eq
    refine ⟨?_, view_eq, rfl⟩
    change Steady env store.file.view _
    rw [view_eq]
    exact trimmed.unprotected (restored.guards env.sha committable) view_eq restored.reachesTo
  · rintro halt ⟨store, plog⟩ ⟨reached, left⟩
    obtain ⟨⟨other, guards⟩, view_eq, reaches⟩ := trimmed.retiring committable reached
    cases halt with
    | error reason =>
      obtain rfl := left nofun
      exact ⟨other, trimmed.unprotected guards view_eq reaches⟩
    | crash => exact ⟨other, guards⟩

end Retiring

theorem Steady.loaded (steady : Steady env image world) :
    Steady env image { world with
      plog := { world.plog with loadedFromTrailer := true } } := by
  have shaped := steady.shaped
  have backed := steady.backed
  exact ⟨⟨shaped.aligned, shaped.bufShort, shaped.bufLe, shaped.hashed⟩,
    steady.header, steady.long, steady.idle, backed.guards, backed.protects,
    backed.startLe, backed.reaches⟩

theorem commit_recommits (steady : Steady env image world)
    (fits : world.plog.physicalEnd < 2 ^ 63) :
    Triple (· = world) (commit env)
      (fun _ after => Recommitted env world after) (Survives env) := by
  refine commit_rule steady.survives (fun _ _ => (writeOpenBlock_laid steady).stopping
    fun halt _ held => held.steady.survives halt)
    (fun middle laid => laid.undisturbed.steady.survives) ?_
  intro trusted _ middle laid
  have trimmed := laid.trimmed steady trusted
  refine (trimmed.retireUndo (trimmed.committable steady trusted fits)).returning ?_
  rintro _ after ⟨retired, content_eq, memory_eq⟩
  have memory := memory_eq.trans trimmed.undisturbed.memory_eq
  have agree := trimmed.undisturbed.agree
  have size_eq := trimmed.size_eq
  have committed := trimmed.committed
  rw [← content_eq] at agree size_eq committed
  cases isOpen : world.plog.hasOpenBlock with
  | true =>
    have marked := congrArg (fun plog : Plog => { plog with loadedFromTrailer := true }) memory
    refine ⟨retired.loaded, ?_, agree, size_eq, committed⟩
    rw [if_pos isOpen]
    exact marked
  | false =>
    refine ⟨retired, ?_, agree, size_eq, committed⟩
    rw [isOpen]
    exact memory

end Committing

theorem commit_recommits_runs (steady : Steady env image world)
    (fits : world.plog.physicalEnd < 2 ^ 63)
    (trusted : ¬(world.plog.bufCorrupt = true ∨ world.plog.openUnverified = true)) :
    ∃ after, Runs (commit env) world () after ∧ Recommitted env world after := by
  have baseLe := Nat.le_trans steady.shaped.blockBase_le steady.long
  obtain ⟨shielded, protects, -⟩ := steady.backed.protect_runs baseLe
  obtain ⟨after, runs⟩ := commit_runs trusted fun _ => ⟨shielded, by
    rw [steady.shaped.blockStart_sealed]
    exact protects⟩
  exact ⟨after, runs, (commit_recommits steady fits).returned rfl runs⟩

end Rose
