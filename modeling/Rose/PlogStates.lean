import Rose.PlogFailures
import Rose.PlogHashRecovery

/-!
# The states a log can be in

A log is opened on some file, is authenticated by the catalog, written, cut,
committed and read with any failures, and the file may be damaged at any time.
Nothing is known then about the bytes, but the memory of the log always has the
shape of a log of its length.  This is an invariant of every operation, whether it returns or fails.
-/

namespace Rose

open ListSplice FaultyPrograms FallibleActions

/-- What the users of an open log may ask of it. -/
inductive PlogOperation where
  | write (data : Bytes)
  | ensureAppend (offset : Int) (data : Bytes)
  | truncateTo (logical : Int)
  | recoverHashes (recoverer : ChunkRecoverer)
  | commit

def PlogOperation.run (env : PlogEnv) : PlogOperation → Program PlogWorld Unit
  | .write data => do
      let _ ← writeLocked env data
      pure ()
  | .ensureAppend offset data => Rose.ensureAppend env offset data
  | .truncateTo logical => Rose.truncateTo env logical
  | .recoverHashes recoverer => Rose.recoverHashes env recoverer
  | .commit => Rose.commit env

/-- The operation returned or failed; it was not cut short by a crash. -/
def Finishes {α : Type} (program : Program PlogWorld α) (before after : PlogWorld) :
    Prop :=
  ∃ faults rest, (∃ value, program ⟨before, faults⟩ = .ok value ⟨after, rest⟩) ∨
    ∃ reason, program ⟨before, faults⟩ = .error (.error reason) ⟨after, rest⟩

theorem finishes_of_haltOf {α : Type} {program : Program PlogWorld α} {before : PlogWorld}
    {faults : List Fault} (returns : haltOf program ⟨before, faults⟩ = none) :
    Finishes program before (worldAfter program ⟨before, faults⟩) := by
  obtain ⟨value, rest, ran⟩ := returned_of_haltOf returns
  exact ⟨faults, rest, .inl ⟨value, ran⟩⟩

/-- The states of a log that is open.  The store may be damaged at any time,
also before the log is opened. -/
inductive PlogReached (env : PlogEnv) : PlogWorld → Prop
  | created (id : Nat) (payload : Bytes) (store : UndoStore) :
      PlogReached env ⟨store, { Plog.fresh id with header := payload }⟩
  | opened (id : Nat) (before after : PlogWorld) (faults rest : List Fault)
      (ran : openExistingPlog env id ⟨before, faults⟩ = .ok () ⟨after, rest⟩) :
      PlogReached env after
  | operated (operation : PlogOperation) (before after : PlogWorld)
      (reached : PlogReached env before)
      (finishes : Finishes (operation.run env) before after) :
      PlogReached env after
  | damaged (before : PlogWorld) (store : UndoStore) (reached : PlogReached env before) :
      PlogReached env { before with store := store }

/-- The invariant, as a property of worlds. -/
def ShapedWorld (world : PlogWorld) : Prop := world.plog.Shaped

theorem Finishes.shaped {α : Type} {program : Program PlogWorld α} {before after : PlogWorld}
    (finishes : Finishes program before after) (maintains : Maintains ShapedWorld program)
    (shaped : before.plog.Shaped) : after.plog.Shaped := by
  obtain ⟨faults, rest, ⟨value, ran⟩ | ⟨reason, ran⟩⟩ := finishes
  · exact Triple.returned maintains
      (show ShapedWorld (Machine.mk before faults).world from shaped) ran
  · exact Triple.halted maintains
      (show ShapedWorld (Machine.mk before faults).world from shaped) ran

section Appending

variable {env : PlogEnv}

theorem writeLocked_shaped (data : Bytes) : Maintains ShapedWorld (writeLocked env data) := by
  intro machine shaped
  exact (writeLocked_appends shaped).weaken
    (fun _ _ appended => appended.2.shaped)
    (fun _ _ unappended => unappended.shaped shaped) machine rfl

theorem checkOverlap_maintains {kept : PlogWorld → Prop} (offset : Int) (expected : Bytes) :
    Maintains kept (checkOverlap env offset expected) := by
  unfold checkOverlap
  split_ifs
  · exact Maintains.pure
  · refine Maintains.bind Maintains.current fun _ => ?_
    refine Maintains.bind Maintains.inspect fun _ => ?_
    split_ifs
    · exact Maintains.raise
    · exact Maintains.pure

theorem ensureAppend_shaped (offset : Int) (data : Bytes) :
    Maintains ShapedWorld (ensureAppend env offset data) := by
  refine Maintains.bind Maintains.current fun world => ?_
  dsimp only
  split_ifs
  · exact Maintains.raise
  · exact Maintains.bind (checkOverlap_maintains _ _) fun _ => Maintains.pure
  · refine Maintains.bind (checkOverlap_maintains _ _) fun _ => ?_
    exact Maintains.bind (writeLocked_shaped _) fun _ => Maintains.pure

end Appending

section Committing

variable {env : PlogEnv}

theorem onStore_maintains {α : Type} {program : Program UndoStore α} {kept : Plog → Prop} :
    Maintains (fun world => kept world.plog) (onStore program) := by
  refine Triple.within fun outer held => ?_
  exact fun machine same => by
    cases program machine with
    | ok value after => exact held
    | error halt after => exact held

theorem protectPrefixLocked_shaped (start : Nat) :
    Maintains ShapedWorld (protectPrefixLocked env start) := by
  intro machine shaped
  exact (protectPrefixLocked_journalOnly env machine.world start).weaken
    (fun _ _ journalOnly => journalOnly.unappended.shaped shaped)
    (fun _ _ journalOnly => journalOnly.unappended.shaped shaped) machine rfl

theorem setPlog_shaped {change : Plog → Plog}
    (keeps : ∀ plog : Plog, plog.Shaped → (change plog).Shaped) :
    Maintains ShapedWorld (setPlog change) :=
  Maintains.update fun _ shaped => keeps _ shaped

theorem retireUndo_shaped : Maintains ShapedWorld retireUndo := by
  refine Maintains.bind (Maintains.attempt onStore_maintains) fun retired => ?_
  refine Maintains.bind (setPlog_shaped fun plog shaped =>
    ⟨shaped.aligned, shaped.bufShort, shaped.bufLe, shaped.hashed⟩) fun _ => ?_
  cases retired with
  | ok value => exact Maintains.pure
  | error reason => exact Maintains.raise

theorem writeOpenBlock_shaped (plog : Plog) : Maintains ShapedWorld (writeOpenBlock env plog) := by
  unfold writeOpenBlock
  split_ifs
  · refine Maintains.bind (protectPrefixLocked_shaped _) fun _ => ?_
    refine Maintains.bind ?_ fun _ => Maintains.labelled onStore_maintains
    unfold writeRagged
    split_ifs
    · exact Maintains.labelled onStore_maintains
    · exact Maintains.pure
  · exact Maintains.pure

theorem commit_shaped : Maintains ShapedWorld (commit env) := by
  refine Maintains.bind Maintains.current fun world => ?_
  dsimp only
  split_ifs
  · exact Maintains.raise
  · refine Maintains.bind (writeOpenBlock_shaped _) fun _ => ?_
    refine Maintains.bind (Maintains.labelled onStore_maintains) fun _ => ?_
    refine Maintains.bind retireUndo_shaped fun _ => ?_
    exact setPlog_shaped fun plog shaped =>
      ⟨shaped.aligned, shaped.bufShort, shaped.bufLe, shaped.hashed⟩
  · refine Maintains.bind (writeOpenBlock_shaped _) fun _ => ?_
    refine Maintains.bind (Maintains.labelled onStore_maintains) fun _ => ?_
    refine Maintains.bind retireUndo_shaped fun _ => ?_
    exact setPlog_shaped fun plog shaped => shaped

end Committing

section Rebuilding

variable {env : PlogEnv} {plog : Plog}

/-- A shaped log that has its hashes, trusted or not. -/
def RebuiltWorld (world : PlogWorld) : Prop := world.plog.Shaped ∧ world.plog.Hashed

theorem Plog.part_lt (plog : Plog) : plog.part < 4096 := Nat.mod_lt _ (by decide)

theorem Plog.Shaped.of_part (length_eq : plog.buf.length = plog.logicalLength % 4096)
    (hashed : plog.TailTrusted → plog.Hashed) : plog.Shaped := by
  refine ⟨?_, ?_, ?_, hashed⟩
  · unfold Plog.sealed
    omega
  · omega
  · omega

theorem length_openBlock (count : Nat) :
    (4096 * count - blockStartOf (4096 * count)) / sectorSize * hashSize = count % 255 * 16 := by
  have block : dataPerBlock = 4096 * 255 := rfl
  have start_eq : blockStartOf (4096 * count) = 4096 * (count / 255 * 255) := by
    rw [blockStartOf, block, Nat.mul_div_mul_left _ _ (by decide), Nat.mul_left_comm]
  have size : sectorSize = 4096 := rfl
  have split := Nat.div_add_mod' count 255
  have rest : count - count / 255 * 255 = count % 255 := by omega
  rw [start_eq, size, ← Nat.mul_sub, Nat.mul_div_cancel_left _ (by decide), rest]
  rfl

theorem Plog.awaiting_shaped (ragged : plog.part > 0) : plog.awaiting.Shaped := by
  have length_eq : plog.awaiting.buf.length = plog.part := length_resize 0 plog.part plog.buf
  refine .of_part length_eq ?_
  rintro (trusted | empty)
  · have untrusted : plog.awaiting.bufCorrupt = true := decide_eq_true ragged
    rw [untrusted] at trusted
    cases trusted
  · rw [empty, List.length_nil] at length_eq
    omega

theorem Plog.rebuilt_hashed {buf : Bytes} (length_eq : buf.length = plog.part) :
    (plog.rebuilt buf).Hashed := by
  have sealed_eq : (plog.rebuilt buf).sealed = plog.aligned := by
    unfold Plog.rebuilt Plog.sealed Plog.aligned
    dsimp only
    rw [length_eq]
  have whole : plog.aligned = 4096 * (plog.logicalLength / 4096) := by
    simp only [Plog.aligned, Plog.part, sectorSize]
    omega
  unfold Plog.Hashed
  rw [sealed_eq, whole, Nat.mul_div_cancel_left _ (by decide)]
  unfold Plog.rebuilt
  dsimp only
  rw [List.length_replicate, whole, length_openBlock]

theorem Plog.rebuilt_shaped {buf : Bytes} (length_eq : buf.length = plog.part) :
    (plog.rebuilt buf).Shaped ∧ (plog.rebuilt buf).Hashed := by
  have hashed := Plog.rebuilt_hashed length_eq
  refine ⟨.of_part ?_ fun _ => hashed, hashed⟩
  unfold Plog.rebuilt
  dsimp only
  rw [length_eq, Plog.part, sectorSize]

theorem rebuildOpenBlock_shaped :
    Triple (fun _ => True) rebuildOpenBlock (fun _ => RebuiltWorld) (fun _ => ShapedWorld) := by
  intro machine _
  refine (rebuildOpenBlock_triple (fun ragged _ => Plog.awaiting_shaped ragged)
    fun _ _ _ held => held).returning ?_ machine rfl
  rintro _ _ ⟨buf, length_eq, rfl⟩
  exact @Plog.rebuilt_shaped machine.world.plog.awaiting buf length_eq

theorem Plog.judge_shaped (verified : Except String Bytes) (shaped : plog.Shaped)
    (hashed : plog.Hashed) :
    (plog.judge env verified).Shaped := by
  cases verified with
  | error reason =>
    exact ⟨shaped.aligned, shaped.bufShort, shaped.bufLe, shaped.hashed⟩
  | ok bytes =>
    have bufLength : (plog.bless env bytes).buf.length = plog.buf.length := length_copyAt _ _ _
    have hashesLength : (plog.bless env bytes).hashes.length =
        plog.hashes.length := length_copyAt _ _ _
    have sealed_eq : (plog.bless env bytes).sealed = plog.sealed := by
      unfold Plog.sealed
      rw [bufLength]
      rfl
    refine ⟨?_, ?_, ?_, fun _ => ?_⟩
    · exact sealed_eq ▸ shaped.aligned
    · exact bufLength ▸ shaped.bufShort
    · exact bufLength ▸ shaped.bufLe
    · change (plog.bless env bytes).Hashed
      rw [Plog.Hashed, hashesLength, sealed_eq]
      exact hashed

theorem cutTo_shaped (logical : Nat) : Maintains ShapedWorld (cutTo env logical) := by
  refine Maintains.bind Maintains.current fun world => ?_
  refine Maintains.bind (Maintains.attempt Maintains.inspect) fun verified => ?_
  refine Maintains.bind (protectPrefixLocked_shaped _) fun _ => ?_
  refine Maintains.bind (Maintains.labelled onStore_maintains) fun _ => ?_
  have shortens : Triple ShapedWorld (setPlog fun plog => { plog with logicalLength := logical })
      (fun _ _ => True) (fun _ => ShapedWorld) :=
    Triple.update fun _ _ => trivial
  refine Triple.bind shortens fun _ => ?_
  refine Triple.bind rebuildOpenBlock_shaped fun _ => ?_
  exact Triple.update fun _ rebuilt =>
    Plog.judge_shaped verified rebuilt.1 rebuilt.2

theorem truncateTo_shaped (logical : Int) : Maintains ShapedWorld (truncateTo env logical) := by
  refine Maintains.bind Maintains.current fun world => ?_
  dsimp only
  split_ifs
  · exact Maintains.raise
  · exact Maintains.raise
  · exact Maintains.pure
  · exact cutTo_shaped _

theorem Plog.sealed_congr {other : Plog} (length_eq : other.logicalLength = plog.logicalLength)
    (bufLength : other.buf.length = plog.buf.length) :
    other.sealed = plog.sealed := by
  unfold Plog.sealed
  rw [length_eq, bufLength]

theorem Plog.Shaped.of_lengths {other : Plog} (shaped : plog.Shaped)
    (length_eq : other.logicalLength = plog.logicalLength)
    (bufLength : other.buf.length = plog.buf.length)
    (hashesLength : other.hashes.length = plog.sealed / 4096 % 255 * 16) :
    other.Shaped ∧ other.Hashed := by
  have sealed_eq := Plog.sealed_congr length_eq bufLength
  have hashed : other.Hashed := by
    unfold Plog.Hashed
    rw [sealed_eq]
    exact hashesLength
  refine ⟨⟨?_, ?_, ?_, fun _ => hashed⟩, hashed⟩
  · rw [sealed_eq]
    exact shaped.aligned
  · rw [bufLength]
    exact shaped.bufShort
  · rw [bufLength, length_eq]
    exact shaped.bufLe

theorem Plog.Shaped.sealed_eq_aligned (shaped : plog.Shaped) : plog.sealed = plog.aligned := by
  have bufShort := shaped.bufShort
  have bufLe := shaped.bufLe
  have whole := shaped.aligned
  unfold Plog.sealed at whole ⊢
  simp only [Plog.aligned, Plog.part, sectorSize]
  omega

theorem Plog.invalidate_shaped (shaped : plog.Shaped) :
    plog.invalidate.Shaped ∧ plog.invalidate.Hashed := by
  have whole : plog.aligned = 4096 * (plog.logicalLength / 4096) := by
    simp only [Plog.aligned, Plog.part, sectorSize]
    omega
  unfold Plog.invalidate Plog.openStart
  refine shaped.of_lengths rfl rfl ?_
  rw [shaped.sealed_eq_aligned, whole, Nat.mul_div_cancel_left _ (by decide)]
  dsimp only
  rw [List.length_replicate, length_openBlock]

theorem Plog.authenticateSector_shaped {chunks : List VerifiedChunk} {state : Plog × Bool}
    (shaped : state.1.Shaped) (hashed : state.1.Hashed) (start : Nat) :
    (Plog.authenticateSector env chunks state start).1.Shaped ∧
      (Plog.authenticateSector env chunks state start).1.Hashed := by
  unfold Plog.authenticateSector
  dsimp only
  cases authenticatedSector start (min (start + sectorSize) state.1.logicalLength) chunks with
  | none => exact ⟨shaped, hashed⟩
  | some sector =>
    dsimp only
    split_ifs
    · dsimp only
      exact shaped.of_lengths rfl (length_copyAt _ _ _) hashed
    · dsimp only
      exact shaped.of_lengths rfl rfl ((length_copyAt _ _ _).trans hashed)

theorem Plog.authenticateSectors_shaped (chunks : List VerifiedChunk) (shaped : plog.Shaped)
    (hashed : plog.Hashed) :
    (Plog.authenticateSectors env chunks plog).1.Shaped ∧
      (Plog.authenticateSectors env chunks plog).1.Hashed := by
  have scanned : ∀ (starts : List Nat) (state : Plog × Bool), state.1.Shaped → state.1.Hashed →
        (starts.foldl (Plog.authenticateSector env chunks) state).1.Shaped ∧
          (starts.foldl (Plog.authenticateSector env chunks) state).1.Hashed := by
    intro starts
    induction starts with
    | nil => exact fun _ held heldHashes => ⟨held, heldHashes⟩
    | cons start starts ih =>
      intro state held heldHashes
      have next := @Plog.authenticateSector_shaped env chunks state held heldHashes start
      rw [List.foldl_cons]
      exact ih _ next.1 next.2
  exact scanned plog.openSectorStarts (plog, true) shaped hashed

theorem Plog.authenticate_shaped (chunks : List VerifiedChunk) (shaped : plog.Shaped)
    (hashed : plog.Hashed) :
    (plog.authenticate env chunks).Shaped ∧ (plog.authenticate env chunks).Hashed := by
  have final := @Plog.authenticateSectors_shaped env plog chunks shaped hashed
  unfold Plog.authenticate
  generalize Plog.authenticateSectors env chunks plog = result at final ⊢
  obtain ⟨scanned, flag⟩ := result
  exact ⟨⟨final.1.aligned, final.1.bufShort, final.1.bufLe, final.1.hashed⟩, final.2⟩

theorem verifyChunks_maintains {kept : PlogWorld → Prop} (chunks : List RecoveredChunk) :
    Maintains kept (verifyChunks env chunks) := by
  induction chunks with
  | nil => exact Maintains.pure
  | cons chunk chunks ih =>
    refine Maintains.bind ?_ fun first =>
    Maintains.bind ih fun rest => Maintains.pure
    refine Maintains.bind Maintains.current fun world => ?_
    split_ifs
    · exact Maintains.pure
    · refine Maintains.bind (Maintains.attempt Maintains.inspect) fun read => ?_
      cases read with
      | error reason => exact Maintains.pure
      | ok data =>
        dsimp only
        split_ifs
        · exact Maintains.pure
        · exact Maintains.pure

theorem recoverHashes_shaped (recoverer : ChunkRecoverer) :
    Maintains ShapedWorld (recoverHashes env recoverer) := by
  refine Maintains.bind Maintains.current fun world => ?_
  dsimp only
  split_ifs with loaded atStart
  · exact Maintains.pure
  · exact Maintains.bind (setPlog_shaped fun _ shaped =>
      (Plog.invalidate_shaped shaped).1) fun _ => Maintains.pure
  · have invalidates : Triple ShapedWorld (setPlog Plog.invalidate)
        (fun _ => RebuiltWorld) (fun _ => ShapedWorld) :=
      Triple.update fun _ shaped => Plog.invalidate_shaped shaped
    refine Triple.bind invalidates fun _ => ?_
    cases recoverer world.plog.id (calcPhysical world.plog.openStart)
        (calcPhysical world.plog.logicalLength) with
    | error reason => exact Triple.raise fun _ rebuilt => rebuilt.1
    | ok chunks =>
      refine Triple.bind ((verifyChunks_maintains chunks).consequence
        (fun _ rebuilt => rebuilt) (fun _ _ rebuilt => rebuilt)
        fun _ _ rebuilt => rebuilt.1) fun verified => ?_
      exact Triple.update fun _ rebuilt =>
      (Plog.authenticate_shaped verified rebuilt.1 rebuilt.2).1

theorem PlogOperation.run_shaped (operation : PlogOperation) :
    Maintains ShapedWorld (operation.run env) := by
  cases operation with
  | write data =>
    exact Maintains.bind (writeLocked_shaped data) fun _ => Maintains.pure
  | ensureAppend offset data => exact ensureAppend_shaped offset data
  | truncateTo logical => exact truncateTo_shaped logical
  | recoverHashes recoverer => exact recoverHashes_shaped recoverer
  | commit => exact commit_shaped

end Rebuilding

section Opening

variable {env : PlogEnv}

/-- What makes a trailer's geometry one of a log. -/
structure TrailerGeometry.Bounded (geometry : TrailerGeometry) : Prop where
  countLt : geometry.count < 255
  raggedLt : geometry.raggedLen < 4096

variable {geometry : TrailerGeometry}

theorem bounded_of_trailerGeometry {trailer : Bytes} {size : Nat}
    (found : trailerGeometry trailer size = some geometry) :
    geometry.Bounded := by
  unfold trailerGeometry at found
  dsimp only at found
  split_ifs at found with _ implausible _
  cases found
  simp only [hashesPerBlock, sectorSize, not_or] at implausible
  exact ⟨Nat.not_le.mp implausible.1, Nat.not_le.mp implausible.2.1⟩

theorem Plog.Shaped.of_geometry {plog : Plog} (bounded : geometry.Bounded)
    (length_eq : plog.logicalLength = geometry.sealed + geometry.raggedLen)
    (bufLength : plog.buf.length = geometry.raggedLen)
    (hashesLength : plog.hashes.length = geometry.count * 16) :
    plog.Shaped := by
  have countLt := bounded.countLt
  have raggedLt := bounded.raggedLt
  have sealed_eq : plog.sealed = 4096 * (255 * geometry.blockIdx + geometry.count) := by
    rw [Plog.sealed, length_eq, bufLength, Nat.add_sub_cancel]
    simp only [TrailerGeometry.sealed, dataPerBlock, hashesPerBlock, sectorSize]
    omega
  have position : (255 * geometry.blockIdx + geometry.count) % 255 =
      geometry.count := by omega
  refine ⟨?_, by omega, by omega, fun _ => ?_⟩
  · rw [sealed_eq]
    exact Nat.mul_mod_right _ _
  · rw [Plog.Hashed, hashesLength, sealed_eq, Nat.mul_div_cancel_left _ (by decide), position]

theorem applyTrailer_shaped {trailer : Bytes} {plog : Plog} (bounded : geometry.Bounded)
    (trailerLength : trailer.length = 4096) (bufLength : plog.buf.length = geometry.raggedLen) :
    (applyTrailer env plog geometry trailer).1.Shaped := by
  have countLt := bounded.countLt
  have hashesLength : (slice trailer openTrailerHeader (geometry.count * hashSize)).length =
        geometry.count * 16 := by
    rw [length_slice, trailerLength]
    simp only [openTrailerHeader, hashSize]
    omega
  unfold applyTrailer
  dsimp only
  split_ifs
  · refine .of_geometry bounded rfl bufLength ?_
    rw [List.length_replicate]
    exact hashesLength
  · exact .of_geometry bounded rfl bufLength hashesLength
  · exact .of_geometry bounded rfl bufLength hashesLength
  · exact .of_geometry bounded rfl bufLength hashesLength

theorem Recovery.shaped {size : Nat} {recovered : Plog} (empty : plog.buf = [])
    (recovers : Recovery env plog size recovered true) : recovered.Shaped := by
  generalize loaded_eq : true = loaded at recovers
  cases recovers with
  | noTrailer => cases loaded_eq
  | noEdge => cases loaded_eq
  | trailer trailerLength found edge =>
    refine applyTrailer_shaped (bounded_of_trailerGeometry found) trailerLength ?_
    unfold TrailerGeometry.Edge at edge
    split_ifs at edge with ragged
    · exact edge
    · rw [edge, empty, List.length_nil]
      omega

theorem reload_shaped :
    Triple (fun world => world.plog.buf = []) (reload env)
      (fun _ => ShapedWorld) (fun _ _ => True) := by
  have sizes : Triple (fun world => world.plog.buf = []) (onStore fileSize)
      (fun _ world => world.plog.buf = []) (fun _ _ => True) :=
    (@onStore_maintains _ fileSize fun plog => plog.buf = []).consequence
      (fun _ held => held) (fun _ _ held => held) fun _ _ _ => trivial
  refine Triple.bind sizes fun size => ?_
  have recovers : Triple (fun world => world.plog.buf = []) (recoverFromTrailer env size)
      (fun recovered world => recovered = true → world.plog.Shaped) (fun _ _ => True) := by
    intro machine empty
    refine (recoverFromTrailer_cases size).weaken ?_
      (fun _ _ _ => trivial) machine rfl
    rintro _ after ⟨-, recovers⟩ rfl
    exact recovers.shaped empty
  refine Triple.bind recovers fun recovered => ?_
  have sets : Triple (fun world => recovered = true → world.plog.Shaped)
      (setPlog fun plog => { plog with loadedFromTrailer := recovered })
      (fun _ world => recovered = true → world.plog.Shaped)
      (fun _ _ => True) := by
    refine Triple.update fun _ held loaded => ?_
    have shaped := held loaded
    exact ⟨shaped.aligned, shaped.bufShort, shaped.bufLe, shaped.hashed⟩
  refine Triple.bind sets fun _ => ?_
  cases recovered with
  | true => exact Triple.pure fun _ shaped => shaped rfl
  | false =>
    exact rebuildOpenBlock_shaped.consequence (fun _ _ => trivial)
      (fun _ _ rebuilt => rebuilt.1) fun _ _ _ => trivial

theorem setPlog_buf {change : Plog → Plog} (same : ∀ plog, (change plog).buf = plog.buf) :
    Maintains (fun world => world.plog.buf = []) (setPlog change) :=
  Maintains.update fun world held => (same world.plog).trans held

/-- A log that was opened has the shape of a log, whatever the file held. -/
theorem openExistingPlog_shaped (id : Nat) :
    Triple (fun _ => True) (openExistingPlog env id) (fun _ => ShapedWorld) (fun _ _ => True) := by
  have anything : ∀ {α : Type} (program : Program PlogWorld α),
      Triple (fun _ => True) program (fun _ _ => True) (fun _ _ => True) := by
    intro α program machine _
    cases program machine <;> exact trivial
  refine Triple.bind (anything _) fun _ => ?_
  refine Triple.bind (anything _) fun _ => ?_
  refine Triple.bind (anything _) fun size => ?_
  have begins : Triple (fun _ : PlogWorld => True) (setPlog fun _ => Plog.fresh id)
      (fun _ world => world.plog.buf = []) (fun _ _ => True) :=
    Triple.update fun _ _ => rfl
  refine Triple.bind begins fun _ => ?_
  have stays : ∀ {α : Type} {program : Program PlogWorld α},
      Maintains (fun world => world.plog.buf = []) program →
        Triple (fun world => world.plog.buf = []) program
          (fun _ world => world.plog.buf = []) (fun _ _ => True) :=
    fun maintains => maintains.consequence (fun _ held => held)
      (fun _ _ held => held) fun _ _ _ => trivial
  split_ifs
  · exact Triple.raise fun _ _ => trivial
  · refine Triple.bind (stays (Maintains.labelled Maintains.inspect)) fun header => ?_
    exact Triple.bind (stays (setPlog_buf fun _ => rfl)) fun _ => reload_shaped

end Opening

theorem PlogReached.shaped {env : PlogEnv} {world : PlogWorld} (reached : PlogReached env world) :
    world.plog.Shaped := by
  induction reached with
  | created id payload store =>
    refine .of_part rfl fun _ => ?_
    simp [Plog.Hashed, Plog.fresh, Plog.sealed]
  | opened id before after faults rest ran =>
    exact (openExistingPlog_shaped id).returned trivial ran
  | operated operation before after _ finishes ih =>
    exact finishes.shaped operation.run_shaped ih
  | damaged before store _ ih => exact ih

end Rose
