import Rose.SteadyCommits

/-!
# Opening a steady log

Opening brings back the committed file the store guards and loads the log from
it.  What is loaded depends only on that file; for a file with an open block it
depends only on the sealed sectors, the ragged edge and the trailer.
-/

namespace Rose

open ListSplice DurableFiles FaultyPrograms

variable {env : PlogEnv} {image payload : Bytes} {world : PlogWorld} {plog : Plog} {id : Nat}

section OpenBlock

/-- The log that is loaded from a file the given log was committed to. -/
def Plog.reopened (plog : Plog) (id : Nat) (payload : Bytes) : Plog :=
  { Plog.fresh id with
    header := payload
    logicalLength := plog.logicalLength
    loadedFromTrailer := true
    buf := plog.buf
    hashes := plog.hashes }

/-- Loading the file gives the committed log back. -/
theorem CommittedBy.reloadedFrom_eq (committed : CommittedBy env plog image) :
    (headerRead id payload image).reloadedFrom env image = .ok (plog.reopened id payload) := by
  have shaped := committed.shaped
  have sealed_eq : plog.sealed = 4096 * (255 * (plog.sealed / 4096 / 255) +
      plog.sealed / 4096 % 255) := by
    have aligned := shaped.aligned
    omega
  have blocks_eq : plog.sealed / dataPerBlock = plog.sealed / 4096 / 255 := by
    rw [dataPerBlock, hashesPerBlock, sectorSize, Nat.div_div_eq_div_mul]
  have end_eq : calcPhysical plog.sealed = 4096 * (256 * (plog.sealed / 4096 / 255) +
      plog.sealed / 4096 % 255 + 1) := by
    rw [sealed_eq, calcPhysical_mul]
    omega
  have hashesLength : plog.hashes.length = 16 * (plog.sealed / 4096 % 255) :=
    (shaped.hashed (.inl committed.trusted)).trans (Nat.mul_comm _ _)
  have notEmpty : plog.sealed / 4096 % 255 ≠ 0 ∨ plog.buf.length ≠ 0 := by
    have isOpen := committed.isOpen
    rw [Plog.hasOpenBlock, decide_eq_true_iff] at isOpen
    omega
  obtain ⟨-, -, -, size_eq, ragged_eq, trailer_eq⟩ := committed
  rw [end_eq, sectorSize] at size_eq trailer_eq
  rw [end_eq] at ragged_eq
  rw [buildOpenTrailer, blocks_eq] at trailer_eq
  rw [Plog.reopened, shaped.logicalLength_eq, sealed_eq]
  exact reloadedFrom_openTrailer hashesLength (Nat.mod_lt _ (by decide)) shaped.bufShort notEmpty
    (size_eq.trans (by omega)) ragged_eq trailer_eq

end OpenBlock

section AnyFile

/-- The length of the log was computed from the size of the file, or is that of
an open block whose trailer ends the file. -/
def Plog.FitsFile (size : Nat) (plog : Plog) : Prop := plog.logicalLength = calcLogical size ∨
    (plog.logicalLength % dataPerBlock ≠ 0 ∧ calcPhysical plog.aligned + 4096 ≤ size)

theorem fitsFile_of_geometry {trailer : Bytes} {size : Nat} {geometry : TrailerGeometry}
    (found : trailerGeometry trailer size = some geometry)
    (length_eq : plog.logicalLength = geometry.sealed + geometry.raggedLen) :
    plog.FitsFile size := by
  unfold trailerGeometry at found
  dsimp only at found
  split_ifs at found with _ implausible misplaced
  cases found
  generalize LittleEndian.decode (slice trailer 8 2) = count at *
  generalize LittleEndian.decode (slice trailer 10 2) % 32768 = ragged at *
  simp only [hashesPerBlock, sectorSize, plogHeaderSize, blockPhysical,
    TrailerGeometry.sealed, dataPerBlock, not_or, not_and, not_lt, ne_eq,
    not_not] at implausible misplaced length_eq
  obtain ⟨nonneg, wholeBlocks⟩ := misplaced
  obtain ⟨blocks, blocks_eq⟩ := Int.dvd_of_emod_eq_zero wholeBlocks
  have quotient : (((size : Int) - (4096 : Nat) - ((count : Int) + 1) *
      (4096 : Nat) - (4096 : Nat)) / (((255 + 1) * 4096 : Nat) : Int)) = blocks := by
    rw [blocks_eq]
    exact Int.mul_ediv_cancel_left _ (by decide)
  rw [quotient] at length_eq
  have aligned_eq : plog.aligned = 4096 * (255 * blocks.toNat + count) := by
    rw [Plog.aligned, Plog.part, sectorSize, length_eq]
    omega
  refine Or.inr ⟨?_, ?_⟩
  · rw [length_eq]
    simp only [dataPerBlock, hashesPerBlock, sectorSize]
    omega
  · rw [aligned_eq, calcPhysical_mul]
    push_cast at blocks_eq
    omega

theorem applyTrailer_length (plog : Plog) (geometry : TrailerGeometry) (trailer : Bytes) :
    (applyTrailer env plog geometry trailer).1.logicalLength =
        geometry.sealed + geometry.raggedLen ∧
      (applyTrailer env plog geometry trailer).1.undoActive = plog.undoActive := by
  unfold applyTrailer
  dsimp only
  split_ifs <;> exact ⟨rfl, rfl⟩

theorem Recovery.fits {size : Nat} {recovered : Plog} {loaded : Bool}
    (recovers : Recovery env plog size recovered loaded) (inactive : plog.undoActive = false)
    (fits : plog.FitsFile size) : recovered.undoActive = false ∧ recovered.FitsFile size := by
  cases recovers with
  | noTrailer => exact ⟨inactive, fits⟩
  | noEdge => exact ⟨inactive, fits⟩
  | trailer _ found _ =>
    obtain ⟨length_eq, active_eq⟩ := applyTrailer_length _ _ _
    exact ⟨active_eq.trans inactive, fitsFile_of_geometry found length_eq⟩

/-- A file that ends with a complete block can be loaded. -/
theorem reloadedFrom_fits {count : Nat}
    (size_eq : image.length = calcPhysical (dataPerBlock * count))
    (inactive : plog.undoActive = false) (fits : plog.FitsFile image.length) :
    ∃ reloaded, plog.reloadedFrom env image = .ok reloaded ∧ reloaded.undoActive = false ∧
      reloaded.FitsFile image.length := by
  have recovers : Recovery env plog image.length (plog.recoveredFrom env image).1
      (plog.recoveredFrom env image).2 :=
    ((recoverFromTrailer_cases image.length).returned rfl
      (recoverFromTrailer_runs ⟨UndoStore.settled image, plog⟩)).2
  obtain ⟨inactive, fits⟩ := recovers.fits inactive fits
  unfold Plog.reloadedFrom
  generalize plog.recoveredFrom env image = recovered at *
  dsimp only
  split_ifs
  · exact ⟨_, rfl, inactive, fits⟩
  · have inside : recovered.1.part > 0 →
        calcPhysical recovered.1.aligned + recovered.1.part ≤ image.length := by
      intro ragged
      have short := recovered.1.part_lt
      rcases fits with length_eq | ⟨-, inside⟩
      · exfalso
        rw [size_eq, calcLogical_calcPhysical] at length_eq
        rw [Plog.part, length_eq, dataPerBlock, hashesPerBlock, sectorSize] at ragged
        omega
      · omega
    obtain ⟨buf, reread⟩ := @rereadFrom_of_inside
      { recovered.1 with loadedFromTrailer := recovered.2 } image inside
    exact ⟨_, reread, inactive, fits⟩

/-- A log that was opened on a file that ends with a complete block. -/
theorem Steady.of_whole {count : Nat} (shaped : world.plog.Shaped)
    (restored : Restored image world.store) (committable : Committable env image)
    (size_eq : image.length = calcPhysical (dataPerBlock * count))
    (inactive : world.plog.undoActive = false) (fits : world.plog.FitsFile image.length) :
    Steady env image world := by
  have content_eq : world.content = image := restored.keeps.view_eq
  have notActive : ¬world.plog.undoActive = true := by
    rw [inactive]
    decide
  have sealed_eq := shaped.sealed_eq_aligned
  refine ⟨shaped, by rw [content_eq]; exact committable.header, ?_, ?_,
    restored.guards env.sha committable, fun active => absurd active notActive,
    fun active => absurd active notActive, restored.reachesTo⟩
  · rw [content_eq, sealed_eq]
    rcases fits with length_eq | ⟨-, inside⟩
    · rw [size_eq, calcLogical_calcPhysical] at length_eq
      rw [size_eq, ← length_eq]
      exact calcPhysical_mono (Nat.sub_le _ _)
    · exact Nat.le_trans (Nat.le_add_right _ _) inside
  · intro _ closed
    rcases fits with length_eq | ⟨isOpen, -⟩
    · rw [content_eq, length_eq, size_eq, calcLogical_calcPhysical]
    · exact absurd closed isOpen

/-- A log that was opened on a file with an open block. -/
theorem Steady.of_committedBy (committed : CommittedBy env plog image)
    (committable : Committable env image) (opened : OpenAt image (plog.reopened id payload) world) :
    Steady env image world := by
  obtain ⟨restored, plog_eq⟩ := opened
  have content_eq : world.content = image := restored.keeps.view_eq
  have shaped := committed.shaped
  have inactive : world.plog.undoActive = false := by
    rw [plog_eq]
    rfl
  have notActive : ¬world.plog.undoActive = true := by
    rw [inactive]
    decide
  have sealed_eq : world.plog.sealed = plog.sealed := by
    rw [plog_eq]
    rfl
  refine ⟨?_, by rw [content_eq]; exact committable.header, ?_, ?_,
    restored.guards env.sha committable, fun active => absurd active notActive,
    fun active => absurd active notActive, restored.reachesTo⟩
  · rw [plog_eq]
    exact ⟨shaped.aligned, shaped.bufShort, shaped.bufLe, fun _ =>
      shaped.hashed (.inl committed.trusted)⟩
  · rw [content_eq, sealed_eq, committed.size_eq]
    exact Nat.le_add_right _ _
  · intro _ closed
    have isClosed : plog.logicalLength % dataPerBlock = 0 := by
      rw [plog_eq] at closed
      exact closed
    have impossible := committed.isOpen.symm.trans
      ((shaped.closed_iff committed.trusted).mpr isClosed)
    cases impossible

variable (guards : Guards env.sha (Committable env) image world.store)
include guards

/-- Opening loads the log that the image gives, and the log is steady. -/
theorem openExistingPlog_reloads (headerFound : readSuperblock env image = .ok payload) :
    ∃ reloaded after, openExistingPlog env id ⟨world, []⟩ = .ok () ⟨after, []⟩ ∧
      (headerRead id payload image).reloadedFrom env image = .ok reloaded ∧
      OpenAt image reloaded after ∧ Steady env image after := by
  have nonempty : image.length ≠ 0 := by
    intro empty
    rw [readSuperblock, if_pos (Or.inl (by rw [empty]; decide))] at headerFound
    cases headerFound
  have committable := guards.isAllowed
  rcases committable.ends with ⟨count, size_eq⟩ | ⟨plog, committed⟩
  · obtain ⟨reloaded, loads, inactive, fits⟩ := @reloadedFrom_fits env image
      (headerRead id payload image) count size_eq rfl (Or.inl rfl)
    obtain ⟨after, ran, opened⟩ := openExistingPlog_runs guards headerFound nonempty loads
    refine ⟨reloaded, after, ran, loads, opened, .of_whole
      ((openExistingPlog_shaped id).returned trivial ran) opened.restored committable size_eq ?_ ?_⟩
    · rw [opened.plog_eq, inactive]
    · rw [opened.plog_eq]
      exact fits
  · obtain ⟨after, ran, opened⟩ := openExistingPlog_runs guards headerFound nonempty
      committed.reloadedFrom_eq
    exact ⟨_, after, ran, committed.reloadedFrom_eq, opened,
      .of_committedBy committed committable opened⟩

/-- Whatever was opened without a fault is steady. -/
theorem openExistingPlog_steady {after : PlogWorld} {rest : List Fault}
    (ran : openExistingPlog env id ⟨world, []⟩ = .ok () ⟨after, rest⟩) :
    Steady env image after := by
  obtain ⟨payload, headerFound⟩ := guards.isAllowed.header
  obtain ⟨_, last, lastRan, -, -, steady⟩ :=
    @openExistingPlog_reloads env image payload world id guards headerFound
  rw [ran] at lastRan
  cases lastRan
  exact steady

end AnyFile

end Rose
