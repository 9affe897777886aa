import Rose.SteadyLogs

/-!
# Operations on a steady log

Every operation leaves a steady log steady, whether it returns or fails, and a
crash in any of them leaves a store that guards a committed file.  An append
that fails disturbs nothing.
-/

namespace Rose

open ListSplice FixedBlocks DurableFiles FaultyPrograms

variable {env : PlogEnv} {image data : Bytes} {world : PlogWorld} {plog : Plog}

section Sealing

theorem sealData_end (shaped : plog.Shaped) (trusted : plog.bufCorrupt = false)
    (seals : 4096 ≤ plog.buf.length + data.length) :
    calcPhysical plog.sealed + (sealData env plog data).1.writeBuf.length =
      calcPhysical (plog.sealedWith (sealData env plog data)).sealed := by
  have counts := shaped.counts trusted
  obtain ⟨added, batch⟩ := @interleaved_foldl env _ (fullSectors_sectorsOf (plog.buf ++ data)) []
    _ _ counts
  have ends := batch.ends
  have sealed_eq : 4096 * (plog.sealed / 4096) = plog.sealed := counts.length_eq.symm
  have afterSealed : ∀ (state : SealState) (rest : Bytes),
      (plog.sealedWith (state, rest)).sealed = state.logicalLength :=
    fun _ _ => Nat.add_sub_cancel _ _
  rw [sealed_eq] at ends
  rw [sealData_foldl env shaped.bufShort seals, afterSealed, batch.counts.length_eq, batch.written]
  exact ends

end Sealing

section Appending

theorem Plog.blockBase_mono {other : Plog} (lengthLe : plog.logicalLength ≤ other.logicalLength) :
    plog.blockBase ≤ other.blockBase :=
  calcPhysical_mono (Nat.mul_le_mul_right _ (Nat.div_le_div_right lengthLe))

theorem Backed.grow {grown : Plog} (backed : Backed env image world)
    (active_eq : grown.undoActive = world.plog.undoActive)
    (start_eq : grown.undoStart = world.plog.undoStart)
    (lengthLe : world.plog.logicalLength ≤ grown.logicalLength) :
    Backed env image { world with plog := grown } := by
  have baseLe := Plog.blockBase_mono lengthLe
  refine ⟨backed.guards, ?_, ?_, ?_⟩
  · intro active
    rw [active_eq] at active
    change ProtectsFrom _ _ grown.undoStart _
    rw [start_eq]
    exact backed.protects active
  · intro active
    rw [active_eq] at active
    change grown.undoStart ≤ _
    rw [start_eq]
    exact Nat.le_trans (backed.startLe active) baseLe
  · intro record read
    exact Nat.le_trans (backed.reaches record read) baseLe

theorem Plog.sealed_buffer (shaped : plog.Shaped) (data : Bytes) :
    (plog.buffer data).sealed = plog.sealed := by
  have bufLe := shaped.bufLe
  unfold Plog.sealed Plog.buffer
  dsimp only
  rw [List.length_append]
  omega

variable (steady : Steady env image world)
include steady

/-- Buffering keeps a log steady. -/
theorem Steady.buffer (trusted : world.plog.bufCorrupt = false)
    (short : world.plog.buf.length + data.length < 4096) :
    Steady env image { world with plog := world.plog.buffer data } := by
  have shaped := (@appended_buffer env world.plog world.content data
    steady.shaped trusted short).shaped
  have sealed_eq := Plog.sealed_buffer steady.shaped data
  have split := steady.shaped.logicalLength_eq
  have aligned := steady.shaped.aligned
  refine ⟨shaped, steady.header, ?_, ?_, ?_⟩
  · change calcPhysical (world.plog.buffer data).sealed ≤ world.content.length
    rw [sealed_eq]
    exact steady.long
  · intro inactive closed
    have empty : data.length = 0 := by
      have whole : (world.plog.logicalLength + data.length) % 4096 = 0 := by
        have blocks : (world.plog.logicalLength + data.length) % dataPerBlock = 0 := closed
        rw [dataPerBlock, hashesPerBlock, sectorSize] at blocks
        omega
      omega
    have same : (world.plog.buffer data).logicalLength = world.plog.logicalLength := by
      change world.plog.logicalLength + data.length = _
      rw [empty, Nat.add_zero]
    change world.content.length = calcPhysical (world.plog.buffer data).logicalLength
    rw [same]
    refine steady.idle inactive ?_
    rw [← same]
    exact closed
  · exact steady.backed.grow rfl rfl (Nat.le_add_right _ _)

/-- The log after the batched write. -/
theorem Undisturbed.seal {after : PlogWorld} (undisturbed : Undisturbed env image world after)
    (active : after.plog.undoActive = true) (trusted : world.plog.bufCorrupt = false)
    (seals : 4096 ≤ world.plog.buf.length + data.length) :
    Steady env image ⟨after.store.issue (.write (calcPhysical world.plog.sealed)
      (sealData env world.plog data).1.writeBuf),
        after.plog.sealedWith (sealData env world.plog data)⟩ := by
  have ends := @sealData_end env data world.plog steady.shaped trusted seals
  have appended := @appended_sealData env world.plog world.content data steady.shaped trusted seals
  have written := undisturbed.issue steady active fun target =>
    FileOp.harmlessBelow_write (sealData env world.plog data).1.writeBuf target
      (Nat.le_refl (calcPhysical world.plog.sealed))
  have memory_eq : (after.plog.sealedWith (sealData env world.plog data)).unjournaled =
        (world.plog.sealedWith (sealData env world.plog data)).unjournaled := by
    have sealedSame := congrArg
      (fun plog => (plog.sealedWith (sealData env world.plog data)).unjournaled)
      undisturbed.memory_eq
    exact sealedSame
  generalize sealData env world.plog data = result at ends appended written memory_eq ⊢
  have content_eq : (after.store.file.issue
      (.write (calcPhysical world.plog.sealed) result.1.writeBuf)).view =
        overwrite 0 after.content (calcPhysical world.plog.sealed)
          result.1.writeBuf := DurableFile.view_issue _ _
  have grows : after.plog.logicalLength ≤ (after.plog.sealedWith result).logicalLength := by
    have length_eq := logicalLength_of_unjournaled memory_eq
    rw [appended.length_eq] at length_eq
    rw [length_eq, logicalLength_of_unjournaled undisturbed.memory_eq]
    exact Nat.le_add_right _ _
  refine ⟨appended.shaped.of_unjournaled memory_eq, written.steady.header, ?_, ?_, ?_⟩
  · change _ ≤ (after.store.file.issue _).view.length
    rw [content_eq, sealed_of_unjournaled memory_eq, ← ends]
    by_cases nothing : result.1.writeBuf = []
    · rw [nothing, overwrite, if_pos rfl]
      exact undisturbed.agree.limitLe
    · rw [length_overwrite _ _ _ _ nothing]
      exact Nat.le_max_right _ _
  · intro inactive
    cases active.symm.trans inactive
  · exact written.steady.backed.grow rfl rfl grows

/-- An append that returns keeps the log steady; one that stops disturbs
nothing. -/
theorem writeLocked_steady (data : Bytes) :
    Triple (· = world) (writeLocked env data) (fun _ after => Steady env image after)
      (fun _ after => Undisturbed env image world after) := by
  refine writeLocked_rule (fun _ => steady.undisturbed) ?_
    ((steady.backed.protect (Nat.le_refl _)).stopping fun _ _ held => held.undisturbed steady) ?_ ?_
  · exact fun trusted _ short => steady.buffer trusted short
  · intro middle shielded progress _
    exact (shielded.undisturbed steady).issue steady shielded.active fun target =>
      FileOp.harmlessBelow_write _ target (Nat.le_refl _)
  · intro trusted _ full middle shielded
    exact (shielded.undisturbed steady).seal steady shielded.active trusted full

theorem ensureAppend_steady (offset : Int) (data : Bytes) :
    Triple (· = world) (ensureAppend env offset data) (fun _ after => Steady env image after)
      (fun _ after => Steady env image after) := by
  refine ensureAppend_rule (fun _ => steady) (fun _ _ _ => trivial) ?_ ?_
  · intro _ _ _ _
    exact steady
  · intro _ _ _ _ _ _
    exact (writeLocked_steady steady _).stopping fun _ _ held => held.steady

end Appending

section Rebuilding

/-- Only what the memory holds of the open block may differ. -/
structure SameRecord (before after : PlogWorld) : Prop where
  store_eq : after.store = before.store
  length_eq : after.plog.logicalLength = before.plog.logicalLength
  active_eq : after.plog.undoActive = before.plog.undoActive
  start_eq : after.plog.undoStart = before.plog.undoStart

theorem SameRecord.refl (world : PlogWorld) : SameRecord world world := ⟨rfl, rfl, rfl, rfl⟩

/-- A change of the memory that leaves the length and the record of the
journal. -/
structure KeepsRecord (change : Plog → Plog) : Prop where
  length_eq : ∀ plog, (change plog).logicalLength = plog.logicalLength
  active_eq : ∀ plog, (change plog).undoActive = plog.undoActive
  start_eq : ∀ plog, (change plog).undoStart = plog.undoStart

theorem setPlog_sameRecord {change : Plog → Plog} (keeps : KeepsRecord change) :
    Maintains (SameRecord world) (setPlog change) := by
  refine Maintains.update fun current same => ?_
  exact ⟨same.store_eq, (keeps.length_eq _).trans same.length_eq,
    (keeps.active_eq _).trans same.active_eq,
    (keeps.start_eq _).trans same.start_eq⟩

theorem Plog.awaiting_keepsRecord : KeepsRecord Plog.awaiting := by
  refine ⟨fun plog => ?_, fun plog => ?_, fun plog => ?_⟩ <;>
    rw [Plog.awaiting]

theorem Plog.rebuilt_keepsRecord (buf : Bytes) : KeepsRecord fun plog => plog.rebuilt buf := by
  refine ⟨fun plog => ?_, fun plog => ?_, fun plog => ?_⟩ <;>
    rw [Plog.rebuilt]

theorem rebuildOpenBlock_sameRecord : Maintains (SameRecord world) rebuildOpenBlock := by
  refine Maintains.bind Maintains.current fun current => ?_
  refine Maintains.bind (setPlog_sameRecord Plog.awaiting_keepsRecord) fun _ => ?_
  refine Maintains.bind (Maintains.labelled ?_) fun buf =>
    setPlog_sameRecord (Plog.rebuilt_keepsRecord buf)
  unfold readOpenSector
  split_ifs
  · exact Maintains.inspect
  · exact Maintains.pure

theorem Plog.judge_keepsRecord (verified : Except String Bytes) :
    KeepsRecord fun plog => plog.judge env verified := by
  cases verified with
  | ok bytes => exact ⟨fun _ => rfl, fun _ => rfl, fun _ => rfl⟩
  | error reason => exact ⟨fun _ => rfl, fun _ => rfl, fun _ => rfl⟩

/-- What the length of the log and the record of the journal are to the file. -/
structure Footing (env : PlogEnv) (image : Bytes) (world : PlogWorld) :
    Prop where
  header : ∃ payload, readSuperblock env world.content = .ok payload
  long : calcPhysical world.plog.aligned ≤ world.content.length
  idle : world.plog.undoActive = false → world.plog.logicalLength % dataPerBlock = 0 →
      world.content.length = calcPhysical world.plog.logicalLength
  backed : Backed env image world

theorem Steady.footing (steady : Steady env image world) : Footing env image world := by
  refine ⟨steady.header, ?_, steady.idle, steady.backed⟩
  rw [← steady.shaped.sealed_eq_aligned]
  exact steady.long

theorem Footing.steady (footing : Footing env image world) (shaped : world.plog.Shaped) :
    Steady env image world := by
  refine ⟨shaped, footing.header, ?_, footing.idle, footing.backed⟩
  rw [shaped.sealed_eq_aligned]
  exact footing.long

theorem Footing.of_sameRecord {after : PlogWorld} (footing : Footing env image world)
    (same : SameRecord world after) :
    Footing env image after := by
  obtain ⟨store, plog⟩ := after
  obtain ⟨rfl, length_eq, active_eq, start_eq⟩ := same
  have backed := footing.backed.grow active_eq start_eq (Nat.le_of_eq length_eq.symm)
  have aligned_eq : plog.aligned = world.plog.aligned := by
    dsimp only at length_eq
    rw [Plog.aligned, Plog.aligned, Plog.part, Plog.part, length_eq]
  refine ⟨footing.header, ?_, ?_, backed⟩
  · dsimp only
    rw [aligned_eq]
    exact footing.long
  · intro inactive closed
    dsimp only at length_eq active_eq inactive closed ⊢
    rw [active_eq] at inactive
    rw [length_eq] at closed ⊢
    exact footing.idle inactive closed

theorem Plog.invalidate_keepsRecord : KeepsRecord Plog.invalidate := by
  refine ⟨fun plog => ?_, fun plog => ?_, fun plog => ?_⟩ <;>
    rw [Plog.invalidate]

theorem Plog.hashes_record (plog : Plog) (hashes : Bytes) :
    ({ plog with hashes := hashes }).logicalLength = plog.logicalLength ∧
      ({ plog with hashes := hashes }).undoActive = plog.undoActive ∧
      ({ plog with hashes := hashes }).undoStart = plog.undoStart :=
  ⟨rfl, rfl, rfl⟩

section

variable (chunks : List VerifiedChunk)
include chunks

theorem Plog.authenticateSector_record (state : Plog × Bool) (start : Nat) :
    (Plog.authenticateSector env chunks state start).1.logicalLength = state.1.logicalLength ∧
      (Plog.authenticateSector env chunks state start).1.undoActive = state.1.undoActive ∧
      (Plog.authenticateSector env chunks state start).1.undoStart = state.1.undoStart := by
  unfold Plog.authenticateSector
  dsimp only
  cases authenticatedSector start (min (start + sectorSize) state.1.logicalLength) chunks with
  | none => exact ⟨rfl, rfl, rfl⟩
  | some sector =>
    dsimp only
    split_ifs
    · exact ⟨rfl, rfl, rfl⟩
    · exact Plog.hashes_record _ _

theorem Plog.authenticateSectors_record (starts : List Nat) (state : Plog × Bool) :
    (starts.foldl (Plog.authenticateSector env chunks) state).1.logicalLength =
        state.1.logicalLength ∧
      (starts.foldl (Plog.authenticateSector env chunks) state).1.undoActive = state.1.undoActive ∧
      (starts.foldl (Plog.authenticateSector env chunks) state).1.undoStart =
        state.1.undoStart := by
  induction starts generalizing state with
  | nil => exact ⟨rfl, rfl, rfl⟩
  | cons start starts ih =>
    obtain ⟨length_eq, active_eq, start_eq⟩ :=
      @Plog.authenticateSector_record env chunks state start
    obtain ⟨laterLength, laterActive, laterStart⟩ :=
      ih (Plog.authenticateSector env chunks state start)
    rw [List.foldl_cons]
    exact ⟨laterLength.trans length_eq, laterActive.trans active_eq, laterStart.trans start_eq⟩

theorem Plog.authenticate_record (plog : Plog) :
    (plog.authenticate env chunks).logicalLength = plog.logicalLength ∧
      (plog.authenticate env chunks).undoActive = plog.undoActive ∧
      (plog.authenticate env chunks).undoStart = plog.undoStart := by
  have record := @Plog.authenticateSectors_record env chunks plog.openSectorStarts (plog, true)
  rw [← Plog.authenticateSectors] at record
  unfold Plog.authenticate
  generalize Plog.authenticateSectors env chunks plog = result at record ⊢
  obtain ⟨scanned, flag⟩ := result
  obtain ⟨length_eq, active_eq, start_eq⟩ := record
  exact ⟨length_eq, active_eq, start_eq⟩

theorem Plog.authenticate_keepsRecord : KeepsRecord fun plog => plog.authenticate env chunks :=
  ⟨fun plog => (Plog.authenticate_record chunks plog).1,
    fun plog => (Plog.authenticate_record chunks plog).2.1,
    fun plog => (Plog.authenticate_record chunks plog).2.2⟩

end

theorem recoverHashes_sameRecord (recoverer : ChunkRecoverer) :
    Maintains (SameRecord world) (recoverHashes env recoverer) := by
  refine Maintains.bind Maintains.current fun current => ?_
  dsimp only
  split_ifs
  · exact Maintains.pure
  · exact Maintains.bind (setPlog_sameRecord Plog.invalidate_keepsRecord) fun _ => Maintains.pure
  · refine Maintains.bind (setPlog_sameRecord Plog.invalidate_keepsRecord) fun _ => ?_
    cases recoverer current.plog.id (calcPhysical current.plog.openStart)
        (calcPhysical current.plog.logicalLength) with
    | error reason => exact Maintains.raise
    | ok chunks =>
      exact Maintains.bind (verifyChunks_maintains chunks) fun verified =>
        setPlog_sameRecord (Plog.authenticate_keepsRecord verified)

theorem Steady.of_sameRecord {α : Type} {program : Program PlogWorld α}
    (steady : Steady env image world) (same : Maintains (SameRecord world) program)
    (shaped : Maintains ShapedWorld program) :
    Triple (· = world) program (fun _ after => Steady env image after)
      (fun _ after => Steady env image after) := by
  have both := (same.consequence
    (show ∀ before, before = world → SameRecord world before from
      fun _ same => same ▸ SameRecord.refl _)
    (fun _ _ held => held) fun _ _ held => held).and (shaped.consequence
    (show ∀ before, before = world → ShapedWorld before from
      fun _ same => same ▸ steady.shaped)
    (fun _ _ held => held) fun _ _ held => held)
  exact both.weaken
    (fun _ _ held => (steady.footing.of_sameRecord held.1).steady held.2)
    fun _ _ held => (steady.footing.of_sameRecord held.1).steady held.2

end Rebuilding

section Truncating

variable {logical : Nat}

variable (steady : Steady env image world)
include steady

/-- The protected file cut at a lower length, with the length in memory. -/
theorem Shielded.cut {after : PlogWorld}
    (shielded : Shielded env image (calcPhysical (blockStartOf logical)) world after) :
    Footing env image ⟨after.store.issue (.truncate (calcPhysical logical)),
      { after.plog with logicalLength := logical }⟩ := by
  have baseLe : calcPhysical (blockStartOf logical) ≤ calcPhysical logical :=
    calcPhysical_mono (Nat.div_mul_le_self _ _)
  have startLe := shielded.startLe
  have content_eq : (after.store.file.issue (.truncate (calcPhysical logical))).view =
        resize 0 (calcPhysical logical) after.content :=
    DurableFile.view_issue _ _
  have undisturbed := shielded.undisturbed steady
  have headerLong : 4096 ≤ after.content.length :=
    Nat.le_trans (le_calcPhysical _) undisturbed.agree.limitLe
  have protects := (shielded.backed.protects shielded.active).issue
    (show (FileOp.truncate (calcPhysical logical)).HarmlessBelow
      after.plog.undoStart image from Nat.le_trans startLe baseLe)
  refine ⟨?_, ?_, ?_, ?_⟩
  · have agree : AgreeBelow 4096 after.content (resize 0 (calcPhysical logical) after.content) :=
      ((FileOp.truncate (calcPhysical logical)).torn_apply _).agreeBelow
        (le_calcPhysical logical) (AgreeBelow.refl headerLong)
    obtain ⟨payload, read⟩ := undisturbed.steady.header
    refine ⟨payload, ?_⟩
    change readSuperblock env (after.store.file.issue _).view = _
    rw [content_eq, readSuperblock_congr agree headerLong (Nat.le_refl _), read]
  · change _ ≤ (after.store.file.issue _).view.length
    rw [content_eq, length_resize]
    exact calcPhysical_mono (Nat.sub_le _ _)
  · intro inactive
    cases shielded.active.symm.trans inactive
  · refine ⟨protects.guards shielded.backed.guards.isAllowed, fun _ => protects,
      fun _ => startLe, ?_⟩
    intro record read
    exact Nat.le_trans (reachesTo_of_protects protects record read) startLe

/-- A truncation leaves a footing, whether it cut the file or not. -/
theorem cutTo_footing (logicalLe : logical ≤ world.plog.logicalLength) :
    Triple (· = world) (cutTo env logical) (fun _ after => Footing env image after)
      (fun _ after => Footing env image after) := by
  have baseLe : calcPhysical (blockStartOf logical) ≤ world.plog.blockBase :=
    calcPhysical_mono (Nat.mul_le_mul_right _ (Nat.div_le_div_right logicalLe))
  refine Triple.bind_current ?_
  dsimp only
  refine Triple.bind ((Maintains.attempt Maintains.inspect).weaken (fun _ _ same => same)
    fun _ _ same => same ▸ steady.footing) fun verified => ?_
  refine Triple.bind ((steady.backed.protect baseLe).stopping
    fun _ _ held => (held.undisturbed steady).steady.footing)
    fun _ machine shielded => ?_
  refine (Triple.bind (storeEffect_triple fun _ _ =>
    (shielded.undisturbed steady).steady.footing) fun _ =>
      Triple.bind setPlog_triple fun _ => ?_) machine rfl
  have footing := shielded.cut steady
  have continues : ∀ base, Maintains (SameRecord base) (do
      rebuildOpenBlock
      setPlog fun plog => plog.judge env verified) := fun _ =>
    Maintains.bind rebuildOpenBlock_sameRecord
      fun _ => setPlog_sameRecord (Plog.judge_keepsRecord verified)
  refine (continues _).consequence ?_ (fun _ _ same => footing.of_sameRecord same)
    fun _ _ same => footing.of_sameRecord same
  intro current same
  rw [same]
  exact SameRecord.refl _

theorem truncateTo_steady (logical : Int) :
    Triple (· = world) (truncateTo env logical) (fun _ after => Steady env image after)
      (fun _ after => Steady env image after) := by
  have footed : Triple (· = world) (truncateTo env logical)
      (fun _ after => Footing env image after)
      (fun _ after => Footing env image after) := by
    refine Triple.bind_current ?_
    dsimp only
    split_ifs
    · exact Triple.raise fun _ same => same ▸ steady.footing
    · exact Triple.raise fun _ same => same ▸ steady.footing
    · exact Triple.pure fun _ same => same ▸ steady.footing
    · exact cutTo_footing steady (by omega)
  have shaped := (@truncateTo_shaped env logical).consequence
    (show ∀ before, before = world → ShapedWorld before from
      fun _ same => same ▸ steady.shaped)
    (fun _ _ held => held) fun _ _ held => held
  exact (footed.and shaped).weaken
    (fun _ _ held => held.1.steady held.2) fun _ _ held => held.1.steady held.2

end Truncating

section Committing

/-- What a stopped operation leaves: a steady log after an error, and a store
that guards a committed file after a crash. -/
def Survives (env : PlogEnv) : Halt → PlogWorld → Prop
  | .error _, world => ∃ image, Steady env image world
  | .crash, world =>
    ∃ image, Guards env.sha (Committable env) image world.store

theorem Steady.survives (steady : Steady env image world) (halt : Halt) :
    Survives env halt world := by
  cases halt with
  | error reason => exact ⟨image, steady⟩
  | crash => exact ⟨image, steady.backed.guards⟩

/-- The open block is in the file. -/
structure Laid (env : PlogEnv) (image : Bytes) (before after : PlogWorld) :
    Prop where
  undisturbed : Undisturbed env image before after
  active : before.plog.hasOpenBlock = true → after.plog.undoActive = true
  ragged_eq : slice after.content (calcPhysical before.plog.sealed)
    before.plog.buf.length = before.plog.buf
  trailer_eq : before.plog.hasOpenBlock = true →
    slice after.content (calcPhysical before.plog.sealed + sectorSize)
      sectorSize = buildOpenTrailer env before.plog

theorem Plog.buf_of_closed (closed : plog.hasOpenBlock = false) : plog.buf = [] := by
  rw [Plog.hasOpenBlock, decide_eq_false_iff_not, not_or] at closed
  exact List.length_eq_zero_iff.mp (Nat.eq_zero_of_not_pos closed.2)

theorem Steady.laid_of_closed (steady : Steady env image world)
    (closed : world.plog.hasOpenBlock = false) :
    Laid env image world world := by
  have notOpen : ¬world.plog.hasOpenBlock = true := by
    rw [closed]
    decide
  refine ⟨steady.undisturbed, fun isOpen => absurd isOpen notOpen, ?_,
    fun isOpen => absurd isOpen notOpen⟩
  rw [Plog.buf_of_closed closed]
  exact slice_zero_count _ _

theorem writeOpenBlock_laid (steady : Steady env image world) :
    Triple (· = world) (writeOpenBlock env world.plog) (fun _ after => Laid env image world after)
      (fun _ after => Undisturbed env image world after) := by
  have protects : Triple (· = world)
      (protectPrefixLocked env world.plog.blockBase)
      (fun _ after => (Undisturbed env image world after ∧ after.plog.undoActive = true) ∧
        after.content = world.content) (fun _ after => Undisturbed env image world after) :=
    (steady.backed.protect (Nat.le_refl _)).weaken
      (fun _ _ shielded => ⟨⟨shielded.undisturbed steady, shielded.active⟩,
        congrArg DurableFile.view shielded.file_eq⟩) fun _ _ held => held.undisturbed steady
  rw [Plog.blockBase, ← steady.shaped.blockStart_sealed] at protects
  refine writeOpenBlock_rule steady.laid_of_closed protects (fun _ held _ => held.1)
    (fun _ _ data held above => ⟨held.1.issue steady held.2 fun target =>
      FileOp.harmlessBelow_write data target above, held.2⟩) fun _ after held content_eq => ?_
  have ragged := @openBlockFile_ragged env world.plog world.content steady.shaped.bufShort
  have trailer := @openBlockFile_trailer env world.plog world.content
  rw [← content_eq] at ragged trailer
  exact ⟨held.1, fun _ => held.2, ragged, fun _ => trailer⟩

end Committing

end Rose
