import Rose.PlogCommits
import Rose.PlogLoading
import Rose.UndoJournalSpecs

/-!
# Opening a committed log

Opening restores the file from its journal and then loads the open block from
the trailer, or starts a new block when the file ends with a hash sector.  On a
committed image this returns a log with exactly the committed bytes.
-/

namespace Rose

open ListSplice FixedBlocks DurableFiles FaultyPrograms

variable {env : PlogEnv} {image bytes head payload data : Bytes} {plog : Plog}

/-- The file is the image, without a journal, and the memory is known. -/
structure OpenAt (image : Bytes) (plog : Plog) (world : PlogWorld) :
    Prop where
  restored : Restored image world.store
  plog_eq : world.plog = plog

theorem OpenAt.content_eq {world : PlogWorld} (opened : OpenAt image plog world) :
    world.content = image :=
  opened.restored.keeps.view_eq

theorem calcPhysical_sealed (bytes : Bytes) :
    calcPhysical (4096 * (sectorsOf bytes).length) = sealedEnd bytes :=
  calcPhysical_mul _

namespace CommittedImage

variable (committed : CommittedImage env head bytes image)
include committed

theorem size_open (isOpen : HasOpenBlock bytes) : image.length = sealedEnd bytes + 8192 := by
  rw [committed.size_eq, committedEnd, if_pos isOpen]

theorem size_closed (isClosed : ¬HasOpenBlock bytes) : image.length = sealedEnd bytes := by
  rw [committed.size_eq, committedEnd, if_neg isClosed]

end CommittedImage

/-- A file that ends with a hash sector has no trailer. -/
theorem recoveredFrom_closed (committed : CommittedImage env head bytes image)
    (isClosed : ¬HasOpenBlock bytes) (plain : NoTrailerLookalike env bytes) :
    plog.recoveredFrom env image = (plog, false) := by
  have size_eq := committed.size_closed isClosed
  have wholeBlocks : (sectorsOf bytes).length % 255 = 0 := by
    by_contra partly
    exact isClosed (Or.inl partly)
  refine recoveredFrom_of_plain fun small trailer read => ?_
  obtain ⟨blockIdx, blocks_eq⟩ : ∃ blockIdx, (sectorsOf bytes).length = 255 * (blockIdx + 1) := by
    refine ⟨(sectorsOf bytes).length / 255 - 1, ?_⟩
    rw [size_eq, sealedEnd, plogHeaderSize, sectorSize] at small
    omega
  have position : image.length - sectorSize = hashSectorPhys blockIdx := by
    rw [size_eq, sealedEnd, blocks_eq]
    simp only [hashSectorPhys, plogHeaderSize, blockPhysical, dataPerBlock,
      hashesPerBlock, sectorSize]
    omega
  have size_hash : hashSectorPhys blockIdx + sectorSize = image.length := by
    rw [← position]
    rw [size_eq, sealedEnd, sectorSize]
    omega
  rw [position, committed.stored.readAt_hashSector (by omega)] at read
  cases read
  rw [← size_hash, plain blockIdx (by omega)]

/-- The log a reload leaves behind. -/
def openedPlog (env : PlogEnv) (id : Nat) (payload bytes : Bytes) : Plog :=
  { Plog.fresh id with
    header := payload
    logicalLength := bytes.length
    loadedFromTrailer := decide (HasOpenBlock bytes)
    buf := raggedOf bytes
    hashes := openHashes env (sectorsOf bytes) }

theorem openedPlog_tracks (env : PlogEnv) (id : Nat) (payload bytes : Bytes) :
    (openedPlog env id payload bytes).Tracks env bytes :=
  ⟨rfl, rfl, fun _ => rfl, fun _ _ => rfl⟩

theorem openedPlog_healthy (env : PlogEnv) (id : Nat) (payload bytes : Bytes) :
    (openedPlog env id payload bytes).Healthy :=
  ⟨rfl, rfl⟩

theorem closed_bytes (env : PlogEnv) (isClosed : ¬HasOpenBlock bytes) :
    raggedOf bytes = [] ∧ openHashes env (sectorsOf bytes) = [] ∧
      bytes.length = dataPerBlock * ((sectorsOf bytes).length / 255) := by
  have noRagged : raggedOf bytes = [] := by
    by_contra present
    exact isClosed (Or.inr present)
  have wholeBlocks : (sectorsOf bytes).length % 255 = 0 := by
    by_contra partly
    exact isClosed (Or.inl partly)
  have split := length_sectorsOf bytes
  rw [noRagged] at split
  refine ⟨noRagged, List.eq_nil_of_length_eq_zero ?_, ?_⟩
  · rw [length_openHashes, wholeBlocks]
  · rw [← split, dataPerBlock, hashesPerBlock, sectorSize, List.length_nil]
    omega

/-- The log right after its superblock was read. -/
def headerRead (id : Nat) (payload image : Bytes) : Plog :=
  { Plog.fresh id with
    header := payload, logicalLength := calcLogical image.length }

/-- A file that ends with a ragged edge and the trailer of its block. -/
theorem reloadedFrom_openTrailer {hashes ragged : Bytes} {blocks count id : Nat}
    (hashesLength : hashes.length = 16 * count) (countLt : count < 255)
    (raggedLt : ragged.length < 4096) (notEmpty : count ≠ 0 ∨ ragged.length ≠ 0)
    (size_eq : image.length = 4096 * (256 * blocks + count + 3))
    (ragged_eq : slice image (4096 * (256 * blocks + count + 1)) ragged.length = ragged)
    (trailer_eq : slice image (4096 * (256 * blocks + count + 2)) 4096 =
      openTrailer env blocks hashes ragged) :
    (headerRead id payload image).reloadedFrom env image = .ok { Plog.fresh id with
      header := payload, logicalLength := 4096 * (255 * blocks + count) + ragged.length
      loadedFromTrailer := true, buf := ragged, hashes } := by
  have sealed_eq : blocks * dataPerBlock + count * sectorSize = 4096 * (255 * blocks + count) := by
    simp only [dataPerBlock, hashesPerBlock, sectorSize]
    omega
  have read : readAt image (image.length - sectorSize) sectorSize =
      .ok (openTrailer env blocks hashes ragged) := by
    have position : image.length - sectorSize = 4096 * (256 * blocks + count + 2) := by
      rw [size_eq, sectorSize]
      omega
    rw [position, ← trailer_eq, readAt, if_pos (Or.inr (by rw [size_eq, sectorSize]; omega))]
    rfl
  have raggedRead : readAt image (calcPhysical (blocks * dataPerBlock + count * sectorSize))
      ragged.length = .ok ragged := by
    have position : 255 * blocks + count + (255 * blocks + count) / 255 + 1 =
        256 * blocks + count + 1 := by omega
    rw [sealed_eq, calcPhysical_mul, position, readAt, if_pos (Or.inr (by omega)), ragged_eq]
  have found := @trailerGeometry_openTrailer env _ _ blocks _ hashesLength countLt raggedLt notEmpty
  rw [← size_eq] at found
  have recovers := @recoveredFrom_of_trailer env (headerRead id payload image) _ _ _ _
    (by rw [size_eq, plogHeaderSize, sectorSize]; omega) read found raggedRead rfl
  rw [applyTrailer_openTrailer hashesLength countLt rfl, sealed_eq] at recovers
  exact reloadedFrom_of_recovered recovers

/-- Reloading a committed image recovers its bytes. -/
theorem reloadedFrom_committed {id : Nat} (committed : CommittedImage env head bytes image)
    (plain : NoTrailerLookalike env bytes) :
    (headerRead id payload image).reloadedFrom env image =
      .ok (openedPlog env id payload bytes) := by
  have split := length_sectorsOf bytes
  by_cases isOpen : HasOpenBlock bytes
  · have size_eq := committed.size_open isOpen
    have end_eq : sealedEnd bytes = 4096 * (256 * ((sectorsOf bytes).length / 255) +
        (sectorsOf bytes).length % 255 + 1) := by
      rw [sealedEnd]
      omega
    have sealed_eq : 4096 * (255 * ((sectorsOf bytes).length / 255) +
        (sectorsOf bytes).length % 255) + (raggedOf bytes).length = bytes.length := by omega
    have trailer_eq := committed.trailer_eq isOpen
    have ragged_eq := committed.ragged_eq
    rw [end_eq] at size_eq trailer_eq ragged_eq
    rw [openedPlog, decide_eq_true isOpen, ← sealed_eq]
    exact reloadedFrom_openTrailer (length_openHashes env _) (Nat.mod_lt _ (by decide))
      (length_raggedOf bytes) (isOpen.imp_right fun ragged empty =>
        ragged (List.eq_nil_of_length_eq_zero empty)) (size_eq.trans (by omega)) ragged_eq
      trailer_eq
  · obtain ⟨noRagged, noHashes, length_eq⟩ := closed_bytes env isOpen
    have sizeRead : calcLogical image.length = bytes.length := by
      rw [committed.size_closed isOpen, ← calcPhysical_sealed,
        calcLogical_calcPhysical, ← split, noRagged, List.length_nil, Nat.add_zero]
    rw [reloadedFrom_of_whole (recoveredFrom_closed committed isOpen plain)
      (sizeRead.trans length_eq), openedPlog, decide_eq_false isOpen, noRagged, noHashes,
      ← sizeRead]
    rfl

theorem discardUndoTemp_runs {store : UndoStore} (restored : Restored image store) :
    ∃ after, Runs discardUndoTemp store () after ∧ Restored image after := by
  cases temp : store.temp with
  | none =>
    refine ⟨store, .bind (.inspect rfl) ?_, restored⟩
    rw [temp]
    exact .pure
  | some journal =>
    refine ⟨store.removeTemp.syncDirectory, .bind (.inspect rfl) ?_, restored.keeps, ?_⟩
    · rw [temp]
      exact .bind .effect .effect
    · change store.journal.sync = _
      rw [restored.journal_eq]
      rfl

/-- Opening reloads the image the store guards, once its superblock is read. -/
theorem openExistingPlog_runs {allowed : Bytes → Prop} {id : Nat} {world : PlogWorld}
    (guards : Guards env.sha allowed image world.store)
    (headerFound : readSuperblock env image = .ok payload) (nonempty : image.length ≠ 0)
    (reloads : (headerRead id payload image).reloadedFrom env image = .ok plog) :
    ∃ after, Runs (openExistingPlog env id) world () after ∧ OpenAt image plog after := by
  obtain ⟨store, restores⟩ := restoreUndo_runs guards
  obtain ⟨clean, cleans, restored⟩ :=
    discardUndoTemp_runs ((restoreUndo_triple guards).returned rfl restores)
  have size_eq : clean.file.view.length = image.length :=
    congrArg List.length restored.keeps.view_eq
  have header := (congrArg (readSuperblock env) restored.keeps.view_eq).trans headerFound
  have loads : (headerRead id payload image).reloadedFrom env clean.file.view = .ok plog := by
    rw [restored.keeps.view_eq]
    exact reloads
  refine ⟨⟨clean, plog⟩, .bind (.labelled (.within restores)) (.bind (.labelled (.within cleans))
    (.bind (.within (.inspect rfl)) (.bind .update ?_))), restored, rfl⟩
  rw [size_eq, if_neg nonempty]
  exact .bind (.labelled (.inspect header)) (.bind .update (reload_runs loads))

theorem Stored.readSuperblock_eq (stored : Stored env (superblock env payload) bytes image)
    (fits : payload.length ≤ plogHeaderMaxPayload) (parses : env.parses payload = true) :
    readSuperblock env image = .ok payload := by
  have large := stored.length_le
  obtain ⟨rest, image_eq⟩ := stored.content_eq
  refine Rose.readSuperblock_eq fits parses ?_ (by omega)
  exact slice_eq_field (by rw [image_eq, List.nil_append]) rfl (length_superblock env payload)

theorem openExistingPlog_committedImage {allowed : Bytes → Prop} {id : Nat} {world : PlogWorld}
    (guards : Guards env.sha allowed image world.store)
    (committed : CommittedImage env (superblock env payload) bytes image)
    (fits : payload.length ≤ plogHeaderMaxPayload) (parses : env.parses payload = true)
    (plain : NoTrailerLookalike env bytes) :
    ∃ after, Runs (openExistingPlog env id) world () after ∧
      OpenAt image (openedPlog env id payload bytes) after := by
  have large := committed.stored.length_le
  exact openExistingPlog_runs guards
    (committed.stored.readSuperblock_eq fits parses) (by omega)
    (reloadedFrom_committed committed plain)

end Rose
