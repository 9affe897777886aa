import Rose.PlogRuns
import Rose.PlogStates

/-!
# Scrubbing a log

A scrub walks over the complete blocks and over the sealed sectors of the open
block and compares them with their hashes; repair rebuilds a shard whose scrub
reports damage.  The bytes of the open sector are not walked over.  So a scrub
tells about every byte exactly as long as the file holds all that is walked over
and the open sector is trusted, or other damage is seen.
-/

namespace Rose

open ListSplice FaultyPrograms FallibleActions

section Definitions

/-- The outcome of validating a log's persisted blocks. -/
structure ScrubResult where
  sectorsChecked : Nat
  corruptSectors : List Nat
  badHMACBlocks : List Nat
deriving DecidableEq, Repr

def ScrubResult.healthy (result : ScrubResult) : Bool :=
  result.corruptSectors.isEmpty && result.badHMACBlocks.isEmpty

/-- Read one sector and compare it with its hash. -/
def scrubSector (env : PlogEnv) (content : Bytes) (label : String) (sectorStart : Nat)
    (expected : Bytes) (result : ScrubResult) :
    Except String ScrubResult := do
  let sector ← (readAt content (calcPhysical sectorStart) sectorSize).mapError (label ++ ·)
  let checked := { result with sectorsChecked := result.sectorsChecked + 1 }
  if sectorHash env sector ≠ expected then
    .ok { checked with
      corruptSectors := checked.corruptSectors ++ [sectorStart] }
  else
    .ok checked

/-- Check a complete block: its hash sector, then the sectors it vouches for. -/
def scrubBlock (env : PlogEnv) (plog : Plog) (content : Bytes) (result : ScrubResult)
    (blockIdx : Nat) : Except String ScrubResult := do
  let sector ← (readAt content (hashSectorPhys blockIdx) sectorSize).mapError
    (s!"scrub plog {plog.id} hash sector {blockIdx}: " ++ ·)
  let recorded := slice sector 0 (hashesPerBlock * hashSize)
  let checked :=
    if completedBlockMAC env blockIdx recorded ≠
        slice sector (hashesPerBlock * hashSize) hashSize then
      { result with badHMACBlocks := result.badHMACBlocks ++ [blockIdx] }
    else
      result
  (List.range hashesPerBlock).foldlM
    (fun result pos => scrubSector env content
      s!"scrub plog {plog.id} sector {blockIdx * hashesPerBlock + pos}: "
      ((blockIdx * hashesPerBlock + pos) * sectorSize)
      (slice recorded (pos * hashSize) hashSize) result) checked

/-- Validate every complete block and the sealed sectors of the open one. -/
def scrub (env : PlogEnv) (plog : Plog) (content : Bytes) :
    Except String ScrubResult := do
  let completeBlocks := plog.sealed / dataPerBlock
  let complete ← (List.range completeBlocks).foldlM (scrubBlock env plog content) ⟨0, [], []⟩
  (List.range (plog.hashes.length / hashSize)).foldlM
    (fun result pos => scrubSector env content s!"scrub plog {plog.id} open sector {pos}: "
      (completeBlocks * dataPerBlock + pos * sectorSize)
      (slice plog.hashes (pos * hashSize) hashSize) result) complete

/-- Repair takes the shards whose scrub is not healthy; a scrub that fails ends
the pass over the whole vlog. -/
def repairSelects (env : PlogEnv) (plog : Plog) (content : Bytes) : Bool :=
  match scrub env plog content with
  | .ok result => !result.healthy
  | .error _ => false

/-- The size of the reads of `verify`. -/
def verifyBatch : Nat := 2 ^ 20

/-- The read of one batch. -/
def readBatch (env : PlogEnv) (plog : Plog) (content : Bytes) (batch : Nat) :
    Except String Bytes :=
  readLocked env plog content (batch * verifyBatch : Nat)
    (min verifyBatch (plog.logicalLength - batch * verifyBatch) : Nat)

/-- Read the complete logical stream through the read path. -/
def verify (env : PlogEnv) (plog : Plog) (content : Bytes) :
    Except String Unit :=
  (List.range ((plog.logicalLength + (verifyBatch - 1)) / verifyBatch)).foldlM
    (fun _ batch => do
      let _ ← (readBatch env plog content batch).mapError
        (s!"verify plog {plog.id} at {batch * verifyBatch}: " ++ ·)
      .ok ()) ()

end Definitions

section Walking

variable {env : PlogEnv} {plog : Plog} {content : Bytes}

/-- The sector of the file at a logical offset. -/
def sectorAt (content : Bytes) (logical : Nat) : Bytes :=
  slice content (calcPhysical logical) sectorSize

/-- The hashes the file records for a complete block. -/
def recordedHashes (content : Bytes) (blockIdx : Nat) : Bytes :=
  slice (slice content (hashSectorPhys blockIdx) sectorSize) 0 (hashesPerBlock * hashSize)

/-- A complete block is as its hash sector says, and the hash sector is
authentic. -/
def BlockIntact (env : PlogEnv) (content : Bytes) (blockIdx : Nat) : Prop :=
  completedBlockMAC env blockIdx (recordedHashes content blockIdx) =
      slice (slice content (hashSectorPhys blockIdx) sectorSize)
        (hashesPerBlock * hashSize) hashSize ∧
    ∀ pos ∈ List.range hashesPerBlock, sectorHash env
          (sectorAt content ((blockIdx * hashesPerBlock + pos) * sectorSize)) =
        slice (recordedHashes content blockIdx) (pos * hashSize) hashSize

/-- A sector of the open block is as the hash in memory says. -/
def OpenSectorIntact (env : PlogEnv) (plog : Plog) (content : Bytes) (pos : Nat) : Prop :=
  sectorHash env (sectorAt content (plog.sealed / dataPerBlock * dataPerBlock + pos * sectorSize)) =
    slice plog.hashes (pos * hashSize) hashSize

/-- Everything a scrub walks over agrees with its hashes. -/
def Intact (env : PlogEnv) (plog : Plog) (content : Bytes) : Prop :=
  (∀ blockIdx ∈ List.range (plog.sealed / dataPerBlock), BlockIntact env content blockIdx) ∧
    ∀ pos ∈ List.range (plog.hashes.length / hashSize), OpenSectorIntact env plog content pos

/-- The file holds everything a scrub walks over. -/
def WalkInside (plog : Plog) (content : Bytes) : Prop :=
  (∀ blockIdx ∈ List.range (plog.sealed / dataPerBlock),
      hashSectorPhys blockIdx + sectorSize ≤ content.length) ∧
    ∀ pos ∈ List.range (plog.hashes.length / hashSize),
      calcPhysical (plog.sealed / dataPerBlock * dataPerBlock +
        pos * sectorSize) + sectorSize ≤ content.length

theorem readAt_sector_ok {offset : Nat} (inside : offset + sectorSize ≤ content.length) :
    readAt content offset sectorSize = .ok (slice content offset sectorSize) :=
  if_pos (Or.inr inside)

theorem readAt_sector_error {offset : Nat} (outside : ¬offset + sectorSize ≤ content.length) :
    readAt content offset sectorSize = .error "EOF" := by
  refine if_neg ?_
  rintro (impossible | inside)
  · cases impossible
  · exact outside inside

theorem scrubSector_checks {Entry : Type} (label : Entry → String) (start : Entry → Nat)
    (expected : Entry → Bytes) :
    Checks (fun result entry => scrubSector env content (label entry)
        (start entry) (expected entry) result) ScrubResult.healthy
      (fun entry => calcPhysical (start entry) + sectorSize ≤ content.length)
      (fun entry => sectorHash env (sectorAt content (start entry)) = expected entry) := by
  refine ⟨?_, ?_⟩
  · intro result entry inside
    unfold scrubSector
    rw [readAt_sector_ok inside]
    by_cases good : sectorHash env (sectorAt content (start entry)) = expected entry
    · refine ⟨_, if_neg (not_not.mpr good), ?_⟩
      exact ⟨fun healthy => ⟨healthy, good⟩, fun both => both.1⟩
    · refine ⟨_, if_pos good, ?_⟩
      simp [ScrubResult.healthy, good]
  · intro result entry outside
    unfold scrubSector
    rw [readAt_sector_error outside]
    exact ⟨_, rfl⟩

theorem calcPhysical_le_hashSectorPhys {blockIdx pos : Nat} (posLt : pos < hashesPerBlock) :
    calcPhysical ((blockIdx * hashesPerBlock + pos) * sectorSize) +
      sectorSize ≤ hashSectorPhys blockIdx := by
  have physical := calcPhysical_mul (blockIdx * hashesPerBlock + pos)
  have hashPosition := hashSectorPhys_eq blockIdx
  have size : sectorSize = 4096 := rfl
  have count : hashesPerBlock = 255 := rfl
  rw [count] at posLt physical ⊢
  rw [size, Nat.mul_comm _ 4096]
  omega

theorem scrubBlock_checks :
    Checks (scrubBlock env plog content) ScrubResult.healthy
      (fun blockIdx => hashSectorPhys blockIdx + sectorSize ≤ content.length)
      (BlockIntact env content) := by
  refine ⟨?_, ?_⟩
  · intro result blockIdx inside
    unfold scrubBlock BlockIntact recordedHashes
    rw [readAt_sector_ok inside, mapError_ok, ok_bind]
    generalize slice content (hashSectorPhys blockIdx) sectorSize = sector
    dsimp only
    have sectors : ∀ pos ∈ List.range hashesPerBlock,
        calcPhysical ((blockIdx * hashesPerBlock + pos) * sectorSize) +
          sectorSize ≤ content.length := by
      intro pos member
      have before := @calcPhysical_le_hashSectorPhys blockIdx pos (List.mem_range.mp member)
      omega
    have scans := @scrubSector_checks env content Nat
      (fun pos => s!"scrub plog {plog.id} sector {blockIdx * hashesPerBlock + pos}: ")
      (fun pos => (blockIdx * hashesPerBlock + pos) * sectorSize)
      (fun pos => slice (slice sector 0 (hashesPerBlock * hashSize)) (pos * hashSize) hashSize)
    obtain ⟨final, ran, kept⟩ := scans.foldlM_runs sectors
      (if completedBlockMAC env blockIdx (slice sector 0 (hashesPerBlock * hashSize)) ≠
            slice sector (hashesPerBlock * hashSize) hashSize then
        { result with badHMACBlocks := result.badHMACBlocks ++ [blockIdx] }
      else
        result)
    refine ⟨final, ran, ?_⟩
    rw [kept, ← and_assoc]
    refine and_congr_left fun _ => ?_
    split_ifs with bad
    · simp [ScrubResult.healthy, bad]
    · exact ⟨fun healthy => ⟨healthy, not_not.mp bad⟩, fun both => both.1⟩
  · intro result blockIdx outside
    unfold scrubBlock
    rw [readAt_sector_error outside]
    exact ⟨_, rfl⟩

theorem scrub_runs (inside : WalkInside plog content) :
    ∃ result, scrub env plog content = .ok result ∧
      (result.healthy = true ↔ Intact env plog content) := by
  obtain ⟨complete, ran, kept⟩ :=
    (@scrubBlock_checks env plog content).foldlM_runs inside.1 ⟨0, [], []⟩
  obtain ⟨final, finished, keptAll⟩ := (@scrubSector_checks env content _
    (fun pos => s!"scrub plog {plog.id} open sector {pos}: ")
    (fun pos => plog.sealed / dataPerBlock * dataPerBlock + pos * sectorSize)
    (fun pos => slice plog.hashes (pos * hashSize) hashSize)).foldlM_runs inside.2 complete
  refine ⟨final, bind_eq_ok_iff.mpr ⟨complete, ran, finished⟩, ?_⟩
  rw [keptAll, kept]
  exact ⟨fun both => ⟨both.1.2, both.2⟩, fun both => ⟨⟨rfl, both.1⟩, both.2⟩⟩

/-- A scrub that leaves the file fails. -/
theorem scrub_stops (outside : ¬WalkInside plog content) :
    ∃ reason, scrub env plog content = .error reason := by
  unfold scrub
  dsimp only
  by_cases blocks : ∀ blockIdx ∈ List.range (plog.sealed / dataPerBlock),
      hashSectorPhys blockIdx + sectorSize ≤ content.length
  · obtain ⟨complete, ran, -⟩ :=
      (@scrubBlock_checks env plog content).foldlM_runs blocks ⟨0, [], []⟩
    obtain ⟨pos, member, beyond⟩ : ∃ pos, pos ∈ List.range (plog.hashes.length / hashSize) ∧
          ¬calcPhysical (plog.sealed / dataPerBlock * dataPerBlock +
            pos * sectorSize) + sectorSize ≤ content.length := by
      by_contra all
      refine outside ⟨blocks, fun pos member => ?_⟩
      by_contra beyond
      exact all ⟨pos, member, beyond⟩
    rw [ran]
    exact (@scrubSector_checks env content _
      (fun pos => s!"scrub plog {plog.id} open sector {pos}: ")
      (fun pos => plog.sealed / dataPerBlock * dataPerBlock + pos * sectorSize)
      (fun pos => slice plog.hashes (pos * hashSize) hashSize)).foldlM_stops member beyond complete
  · push Not at blocks
    obtain ⟨blockIdx, member, beyond⟩ := blocks
    obtain ⟨reason, stopped⟩ := (@scrubBlock_checks env plog content).foldlM_stops member
        (Nat.not_le.mpr beyond) ⟨0, [], []⟩
    rw [stopped]
    exact ⟨reason, rfl⟩

theorem repairSelects_iff :
    repairSelects env plog content = true ↔ WalkInside plog content ∧ ¬Intact env plog content := by
  unfold repairSelects
  by_cases inside : WalkInside plog content
  · obtain ⟨result, ran, healthy⟩ := @scrub_runs env plog content inside
    rw [ran, ← healthy]
    simp [inside]
  · obtain ⟨reason, stopped⟩ := @scrub_stops env plog content inside
    rw [stopped]
    simp [inside]

end Walking

section Readability

variable {env : PlogEnv} {plog : Plog} {content : Bytes} {sectorIdx : Nat}

theorem Plog.Shaped.sealed_eq (shaped : plog.Shaped) :
    plog.sealed = 4096 * (plog.sealed / 4096) := by
  have aligned := shaped.aligned
  omega

theorem completeBlocks_eq (plog : Plog) :
    plog.sealed / dataPerBlock = plog.sealed / 4096 / 255 := by
  have block : dataPerBlock = 4096 * 255 := rfl
  rw [block, Nat.div_div_eq_div_mul]

theorem complete_iff (plog : Plog) (blockIdx : Nat) :
    (blockIdx + 1) * dataPerBlock ≤ plog.sealed ↔ blockIdx < plog.sealed / dataPerBlock := by
  rw [Nat.lt_iff_add_one_le, Nat.le_div_iff_mul_le (by decide)]

theorem sealedSize_eq (shaped : plog.Shaped) (below : sectorIdx * sectorSize < plog.sealed) :
    min sectorSize (plog.sealed - sectorIdx * sectorSize) = sectorSize := by
  have aligned := shaped.aligned
  simp only [sectorSize] at below ⊢
  omega

theorem readHashSector_of_intact {blockIdx : Nat}
    (inside : hashSectorPhys blockIdx + sectorSize ≤ content.length)
    (intact : BlockIntact env content blockIdx) :
    readHashSector env plog content blockIdx = .ok (recordedHashes content blockIdx) := by
  unfold readHashSector
  rw [readAt_sector_ok inside, mapError_ok, ok_bind]
  exact if_neg (not_not.mpr intact.1)

theorem readDataSector_complete (shaped : plog.Shaped)
    (below : sectorIdx * sectorSize < plog.sealed)
    (complete : sectorIdx / hashesPerBlock < plog.sealed / dataPerBlock)
    (inside : hashSectorPhys (sectorIdx / hashesPerBlock) + sectorSize ≤ content.length)
    (intact : BlockIntact env content (sectorIdx / hashesPerBlock)) :
    readDataSector env plog content sectorIdx =
      .ok (sectorAt content (sectorIdx * sectorSize)) := by
  have posLt : sectorIdx % hashesPerBlock < hashesPerBlock := Nat.mod_lt _ (by decide)
  have split : sectorIdx / hashesPerBlock * hashesPerBlock +
      sectorIdx % hashesPerBlock = sectorIdx := Nat.div_add_mod' _ _
  have before := @calcPhysical_le_hashSectorPhys
    (sectorIdx / hashesPerBlock) (sectorIdx % hashesPerBlock) posLt
  have matching := intact.2 _ (List.mem_range.mpr posLt)
  rw [split] at before matching
  unfold readDataSector sectorHashFor
  dsimp only
  rw [sealedSize_eq shaped below, readAt_sector_ok (by omega), mapError_ok,
    ok_bind, if_pos ((complete_iff plog _).mpr complete),
    readHashSector_of_intact inside intact, ok_bind, ok_bind]
  exact if_neg (not_not.mpr matching)

/-- A sector of the open block. -/
theorem readDataSector_open (shaped : plog.Shaped) (below : sectorIdx * sectorSize < plog.sealed)
    (isOpen : sectorIdx / hashesPerBlock = plog.sealed / dataPerBlock)
    (recorded : sectorIdx % hashesPerBlock < plog.hashes.length / hashSize)
    (inside : calcPhysical (sectorIdx * sectorSize) + sectorSize ≤ content.length)
    (intact : OpenSectorIntact env plog content (sectorIdx % hashesPerBlock)) :
    readDataSector env plog content sectorIdx =
      .ok (sectorAt content (sectorIdx * sectorSize)) := by
  have split : sectorIdx / hashesPerBlock * hashesPerBlock +
      sectorIdx % hashesPerBlock = sectorIdx := Nat.div_add_mod' _ _
  have position : plog.sealed / dataPerBlock * dataPerBlock +
      sectorIdx % hashesPerBlock * sectorSize = sectorIdx * sectorSize := by
    rw [← isOpen, dataPerBlock, ← Nat.mul_assoc, ← Nat.add_mul, split]
  have known : ¬sectorIdx % hashesPerBlock * hashSize + hashSize >
      plog.hashes.length := by
    simp only [hashSize] at recorded ⊢
    omega
  unfold OpenSectorIntact at intact
  rw [position] at intact
  unfold readDataSector sectorHashFor
  dsimp only
  rw [sealedSize_eq shaped below, readAt_sector_ok inside, mapError_ok,
    ok_bind, if_neg (by rw [complete_iff plog, isOpen]; exact lt_irrefl _),
    if_neg known, ok_bind]
  exact if_neg (not_not.mpr intact)

theorem readDataSector_of_intact (shaped : plog.Shaped) (hashed : plog.Hashed)
    (inside : WalkInside plog content) (intact : Intact env plog content)
    (below : sectorIdx * sectorSize < plog.sealed) :
    readDataSector env plog content sectorIdx =
      .ok (sectorAt content (sectorIdx * sectorSize)) := by
  have blocks := completeBlocks_eq plog
  have whole := shaped.sealed_eq
  unfold Plog.Hashed at hashed
  have early : sectorIdx < plog.sealed / 4096 := by
    simp only [sectorSize] at below
    omega
  have count : hashesPerBlock = 255 := rfl
  by_cases complete : sectorIdx / hashesPerBlock < plog.sealed / dataPerBlock
  · have member := List.mem_range.mpr complete
    exact readDataSector_complete shaped below complete (inside.1 _ member) (intact.1 _ member)
  · have isOpen : sectorIdx / hashesPerBlock = plog.sealed / dataPerBlock := by
      rw [count] at complete ⊢
      omega
    have recorded : sectorIdx % hashesPerBlock < plog.hashes.length / hashSize := by
      have size : hashSize = 16 := rfl
      rw [hashed, size, Nat.mul_div_cancel _ (by decide)]
      rw [count] at isOpen ⊢
      omega
    have member := List.mem_range.mpr recorded
    have position : plog.sealed / dataPerBlock * dataPerBlock +
        sectorIdx % hashesPerBlock * sectorSize = sectorIdx * sectorSize := by
      rw [← isOpen, dataPerBlock, ← Nat.mul_assoc, ← Nat.add_mul, Nat.div_add_mod']
    have sectorInside := inside.2 _ member
    rw [position] at sectorInside
    exact readDataSector_open shaped below isOpen recorded sectorInside (intact.2 _ member)

/-- Every byte of the log can be read. -/
def AllReadable (env : PlogEnv) (plog : Plog) (content : Bytes) : Prop :=
  ∀ index, index < plog.logicalLength → ∃ byte, byteAt env plog content index = some byte

theorem allReadable_of_intact (shaped : plog.Shaped) (trusted : plog.TailTrusted)
    (inside : WalkInside plog content) (intact : Intact env plog content) :
    AllReadable env plog content := by
  intro index early
  have sectorStart : index / sectorSize * sectorSize ≤ index := Nat.div_mul_le_self _ _
  have read : ∃ sector, readSector env plog content (index / sectorSize) = .ok sector := by
    unfold readSector
    split_ifs with isOpen corrupt
    · -- a corrupt buffer is trusted only if it is empty
      have split := shaped.logicalLength_eq
      rcases trusted with clean | empty
      · rw [clean] at corrupt
        cases corrupt
      · rw [empty, List.length_nil] at split
        omega
    · exact ⟨_, rfl⟩
    · exact ⟨_, readDataSector_of_intact shaped (shaped.hashed trusted) inside
        intact (Nat.not_le.mp isOpen)⟩
  obtain ⟨sector, found⟩ := read
  have length_eq := length_of_readSector shaped (by omega) found
  unfold byteAt
  rw [found]
  refine ⟨_, List.getElem?_eq_getElem ?_⟩
  rw [length_eq]
  simp only [sectorSize] at *
  omega

theorem inside_of_readAt {label : String → String} {offset : Nat} {out : Bytes}
    (read : (readAt content offset sectorSize).mapError label = .ok out) :
    offset + sectorSize ≤ content.length := by
  by_contra outside
  rw [readAt_sector_error outside] at read
  cases read

theorem inside_of_readDataSector {out : Bytes} (shaped : plog.Shaped)
    (below : sectorIdx * sectorSize < plog.sealed)
    (read : readDataSector env plog content sectorIdx = .ok out) :
    calcPhysical (sectorIdx * sectorSize) + sectorSize ≤ content.length ∧
      (sectorIdx / hashesPerBlock < plog.sealed / dataPerBlock →
        hashSectorPhys (sectorIdx / hashesPerBlock) + sectorSize ≤ content.length) := by
  unfold readDataSector at read
  dsimp only at read
  rw [sealedSize_eq shaped below] at read
  obtain ⟨sector, fetched, rest⟩ := bind_eq_ok_iff.mp read
  obtain ⟨expected, found, -⟩ := bind_eq_ok_iff.mp rest
  refine ⟨inside_of_readAt fetched, fun complete => ?_⟩
  unfold sectorHashFor at found
  dsimp only at found
  rw [if_pos ((complete_iff plog _).mpr complete)] at found
  obtain ⟨recorded, hashes, -⟩ := bind_eq_ok_iff.mp found
  obtain ⟨hashSector, hashFetched, -⟩ := bind_eq_ok_iff.mp hashes
  exact inside_of_readAt hashFetched

theorem AllReadable.readDataSector (readable : AllReadable env plog content) (shaped : plog.Shaped)
    (below : sectorIdx * sectorSize < plog.sealed) :
    ∃ out, readDataSector env plog content sectorIdx = .ok out := by
  have split := shaped.logicalLength_eq
  obtain ⟨byte, found⟩ := readable (sectorIdx * sectorSize) (by omega)
  unfold byteAt at found
  rw [Nat.mul_div_cancel _ (by decide), readSector_sealed_eq below] at found
  cases read : Rose.readDataSector env plog content sectorIdx with
  | error reason =>
    rw [read] at found
    cases found
  | ok out => exact ⟨out, rfl⟩

/-- If every byte can be read, the file holds all a scrub walks over. -/
theorem AllReadable.walkInside (readable : AllReadable env plog content) (shaped : plog.Shaped)
    (hashed : plog.Hashed) : WalkInside plog content := by
  have whole := shaped.sealed_eq
  have blocks := completeBlocks_eq plog
  have count : hashesPerBlock = 255 := rfl
  have size : sectorSize = 4096 := rfl
  refine ⟨?_, ?_⟩
  · intro blockIdx member
    have complete := List.mem_range.mp member
    have below : blockIdx * hashesPerBlock * sectorSize < plog.sealed := by
      rw [count, size]
      omega
    obtain ⟨out, read⟩ := readable.readDataSector shaped below
    have inside := (inside_of_readDataSector shaped below read).2
    rw [Nat.mul_div_cancel _ (by decide)] at inside
    exact inside complete
  · intro pos member
    have recorded := List.mem_range.mp member
    have hashWidth : hashSize = 16 := rfl
    unfold Plog.Hashed at hashed
    rw [hashed, hashWidth, Nat.mul_div_cancel _ (by decide)] at recorded
    have below : (plog.sealed / dataPerBlock * hashesPerBlock + pos) *
        sectorSize < plog.sealed := by
      rw [blocks, count, size]
      omega
    obtain ⟨out, read⟩ := readable.readDataSector shaped below
    have inside := (inside_of_readDataSector shaped below read).1
    rw [Nat.add_mul, Nat.mul_assoc] at inside
    exact inside

theorem not_allReadable_of_untrusted (shaped : plog.Shaped) (untrusted : ¬plog.TailTrusted) :
    ¬AllReadable env plog content := by
  intro readable
  have split := shaped.logicalLength_eq
  have aligned := shaped.aligned
  obtain ⟨corrupt, present⟩ : plog.bufCorrupt = true ∧ plog.buf ≠ [] := by
    unfold Plog.TailTrusted at untrusted
    push Not at untrusted
    exact ⟨by simpa using untrusted.1, untrusted.2⟩
  have nonempty := List.length_pos_of_ne_nil present
  obtain ⟨byte, found⟩ := readable plog.sealed (by omega)
  have atOpen : plog.sealed ≤ plog.sealed / sectorSize * sectorSize := by
    simp only [sectorSize]
    omega
  unfold byteAt readSector at found
  rw [if_pos atOpen, corrupt] at found
  cases found

theorem AllReadable.readLocked (readable : AllReadable env plog content) (shaped : plog.Shaped)
    (fits : plog.logicalLength < 2 ^ 63) {offset length : Nat}
    (inside : offset + length ≤ plog.logicalLength) :
    ∃ out, readLocked env plog content offset length = .ok out := by
  refine ⟨(List.range length).map
    fun index => (byteAt env plog content (offset + index)).getD 0, ?_⟩
  refine (readLocked_eq_ok_iff shaped).mpr ⟨by omega, inside, by simp, fun index early => ?_⟩
  obtain ⟨byte, found⟩ := readable (offset + index) (by omega)
  rw [List.getElem?_map, List.getElem?_range early, found]
  simp [found]

theorem allReadable_of_readLocked (shaped : plog.Shaped)
    (reads : ∀ offset length : Nat, offset + length ≤ plog.logicalLength →
      ∃ out, readLocked env plog content offset length = .ok out) :
    AllReadable env plog content := by
  intro index early
  obtain ⟨out, read⟩ := reads index 1 (by omega)
  obtain ⟨-, -, length_eq, bytes⟩ := (readLocked_eq_ok_iff shaped).mp read
  have found := bytes 0 Nat.one_pos
  rw [Nat.add_zero, List.getElem?_eq_getElem (by omega)] at found
  exact ⟨_, found⟩

theorem verify_eq_ok (reads : ∀ batch ∈
      List.range ((plog.logicalLength + (verifyBatch - 1)) / verifyBatch),
    ∃ out, readBatch env plog content batch = .ok out) :
    verify env plog content = .ok () := by
  unfold verify
  generalize List.range ((plog.logicalLength + (verifyBatch - 1)) / verifyBatch)
    = batches at reads ⊢
  induction batches with
  | nil => rfl
  | cons batch batches ih =>
    rw [List.forall_mem_cons] at reads
    obtain ⟨out, read⟩ := reads.1
    rw [List.foldlM_cons, read, mapError_ok, ok_bind, ok_bind]
    exact ih reads.2

theorem AllReadable.verify (readable : AllReadable env plog content) (shaped : plog.Shaped)
    (fits : plog.logicalLength < 2 ^ 63) :
    verify env plog content = .ok () := by
  refine verify_eq_ok fun batch member => ?_
  have early := List.mem_range.mp member
  rw [Nat.lt_div_iff_mul_lt (by decide)] at early
  refine readable.readLocked shaped fits ?_
  omega

end Readability

/-- A healthy scrub vouches for all reads, and repair selects a shard with a
byte that cannot be read. -/
structure ScrubTells (env : PlogEnv) (plog : Plog) (content : Bytes) : Prop where
  healthy : ∀ result, scrub env plog content = .ok result → result.healthy = true →
      verify env plog content = .ok () ∧
        ∀ offset length : Nat, offset + length ≤ plog.logicalLength →
          ∃ out, readLocked env plog content offset length = .ok out
  selected : ∀ (offset length : Nat) (reason : String), offset + length ≤ plog.logicalLength →
      readLocked env plog content offset length = .error reason →
        repairSelects env plog content = true

theorem ScrubTells.selects {env : PlogEnv} {plog : Plog} {content : Bytes}
    (tells : ScrubTells env plog content) (shaped : plog.Shaped)
    (unreadable : ¬AllReadable env plog content) :
    repairSelects env plog content = true := by
  by_contra unselected
  refine unreadable (allReadable_of_readLocked shaped fun offset length within => ?_)
  cases read : readLocked env plog content offset length with
  | ok out => exact ⟨out, rfl⟩
  | error reason =>
    exact absurd (tells.selected offset length reason within read) unselected

/-- The scrub walks inside the file, and the open sector is trusted unless
other damage is seen. -/
def ScrubCovers (env : PlogEnv) (plog : Plog) (content : Bytes) : Prop :=
  WalkInside plog content ∧ (plog.TailTrusted ∨ ¬Intact env plog content)

/-- In every state of a log, a scrub tells about every byte exactly if it covers
them. -/
theorem scrub_tells_iff_covers {env : PlogEnv} {world : PlogWorld} (reached : PlogReached env world)
    (fits : world.plog.logicalLength < 2 ^ 63) :
    ScrubTells env world.plog world.content ↔ ScrubCovers env world.plog world.content := by
  have shaped := reached.shaped
  constructor
  · intro tells
    by_cases trusted : world.plog.TailTrusted
    · refine ⟨?_, .inl trusted⟩
      by_cases readable : AllReadable env world.plog world.content
      · exact readable.walkInside shaped (shaped.hashed trusted)
      · exact (repairSelects_iff.mp (tells.selects shaped readable)).1
    · have unreadable := @not_allReadable_of_untrusted env world.plog world.content shaped trusted
      have seen := repairSelects_iff.mp (tells.selects shaped unreadable)
      exact ⟨seen.1, .inr seen.2⟩
  · rintro ⟨inside, seen⟩
    have readable : Intact env world.plog world.content →
        AllReadable env world.plog world.content := by
      intro intact
      rcases seen with trusted | damaged
      · exact allReadable_of_intact shaped trusted inside intact
      · exact absurd intact damaged
    refine ⟨?_, ?_⟩
    · intro result ran healthy
      obtain ⟨found, foundRan, healthy_iff⟩ := @scrub_runs env world.plog world.content inside
      rw [ran] at foundRan
      cases foundRan
      have all := readable (healthy_iff.mp healthy)
      exact ⟨all.verify shaped fits, fun _ _ => all.readLocked shaped fits⟩
    · intro offset length reason within failed
      refine repairSelects_iff.mpr ⟨inside, fun intact => ?_⟩
      obtain ⟨out, read⟩ := (readable intact).readLocked shaped fits within
      rw [failed] at read
      cases read

/-- A committed log of a sealed and an open sector, opened again. -/
theorem scrub_tells_of_reopened_log :
    ∃ world : PlogWorld, PlogReached constantEnv world ∧ world.plog.logicalLength = 5000 ∧
      ScrubTells constantEnv world.plog world.content := by
  obtain ⟨offset, left, wrote⟩ := twoSectors_written
  obtain ⟨_, rest, commits⟩ := twoSectors_committed
  have size : twoSectors.length = 5000 := List.length_replicate
  obtain ⟨run, last, -, -, -, -, -, -, opens, yields⟩ :=
    committed_data_reopens (by rw [size]; decide) wrote commits
  have reached : PlogReached constantEnv last.world := .opened 7 _ _ [] [] opens
  have length_eq : last.world.plog.logicalLength = 5000 := yields.1.trans size
  have readable : AllReadable constantEnv last.world.plog last.world.content :=
    allReadable_of_readLocked reached.shaped fun offset length inside =>
      ⟨_, yields.2 offset length (yields.1 ▸ inside)⟩
  have trusted : last.world.plog.TailTrusted := by
    by_contra untrusted
    exact not_allReadable_of_untrusted reached.shaped untrusted readable
  exact ⟨_, reached, length_eq, (scrub_tells_iff_covers reached (by omega)).mpr
    ⟨readable.walkInside reached.shaped (reached.shaped.hashed trusted), .inl trusted⟩⟩

section Damaged

/-- The trailer of a log of one byte, with other bytes in place of its MAC. -/
def damagedTrailer : Bytes := trailerFront [] 1 ++ (List.replicate 16 1 ++ List.replicate 4068 0)

/-- The file of a log of one byte with that trailer. -/
def damagedImage : Bytes :=
  superblock constantEnv [] ++ ([7] ++ List.replicate 4095 0) ++ damagedTrailer

theorem length_damagedTrailer : damagedTrailer.length = 4096 := by
  have front : (trailerFront [] 1).length = 12 := by decide +kernel
  rw [damagedTrailer, List.length_append, List.length_append,
    List.length_replicate, List.length_replicate, front]

theorem length_damagedImage : damagedImage.length = 12288 := by
  simp only [damagedImage, List.length_append, length_superblock,
    length_damagedTrailer, List.length_replicate, List.length_cons,
    List.length_nil]

/-- The geometry in the trailer is that of the log. -/
def damagedGeometry : TrailerGeometry := ⟨0, 0, 1, true⟩

theorem trailerGeometry_damaged : trailerGeometry damagedTrailer 12288 = some damagedGeometry := by
  decide +kernel

theorem damagedTrailer_mac (front ragged : Bytes) :
    openBlockMAC constantEnv 0 front ragged ≠ slice damagedTrailer 12 16 := by
  have other : slice damagedTrailer 12 16 = List.replicate 16 1 := by
    decide +kernel
  rw [other]
  unfold openBlockMAC
  change List.take 16 (List.replicate 32 0) ≠ _
  decide

theorem readAt_damagedTrailer :
    readAt damagedImage (12288 - sectorSize) sectorSize = .ok damagedTrailer := by
  have inside : 12288 - sectorSize + sectorSize ≤ damagedImage.length := by
    rw [length_damagedImage]
    decide
  have frontLength : (superblock constantEnv [] ++
      ([7] ++ List.replicate 4095 0)).length = 12288 - sectorSize := by
    simp only [List.length_append, length_superblock, List.length_replicate,
      List.length_cons, List.length_nil, sectorSize]
  have split : damagedImage = (superblock constantEnv [] ++
      ([7] ++ List.replicate 4095 0)) ++ (damagedTrailer ++ []) := by
    rw [List.append_nil]
    rfl
  rw [readAt_sector_ok inside]
  exact congrArg Except.ok (slice_eq_field split frontLength length_damagedTrailer)

theorem readAt_damagedRagged : readAt damagedImage (calcPhysical 0) 1 = .ok [7] := by
  have position : (superblock constantEnv []).length = calcPhysical 0 := by
    rw [length_superblock]
    exact (calcPhysical_mul 0).symm
  have inside : calcPhysical 0 + 1 ≤ damagedImage.length := by
    rw [← position, length_superblock, length_damagedImage]
    decide
  have split : damagedImage = superblock constantEnv [] ++
      ([7] ++ (List.replicate 4095 0 ++ damagedTrailer)) := by
    rw [damagedImage, List.append_assoc, List.append_assoc]
  rw [readAt, if_pos (Or.inr inside)]
  exact congrArg Except.ok (slice_eq_field split position rfl)

/-- The log as it is opened on that file: its byte is not trusted. -/
def damagedPlog : Plog :=
  { headerRead 1 [] damagedImage with
    buf := [7], logicalLength := 1, bufCorrupt := true,
    loadedFromTrailer := true }

theorem applyTrailer_damaged :
    applyTrailer constantEnv
        { headerRead 1 [] damagedImage with buf := [7] } damagedGeometry
        damagedTrailer =
      ({ damagedPlog with loadedFromTrailer := false }, true) :=
  applyTrailer_poisons rfl (damagedTrailer_mac _ _)

theorem reloadedFrom_damagedImage :
    (headerRead 1 [] damagedImage).reloadedFrom constantEnv damagedImage = .ok damagedPlog := by
  have large : ¬damagedImage.length < plogHeaderSize + 2 * sectorSize := by
    rw [length_damagedImage]
    decide
  have read := readAt_damagedTrailer
  have found := trailerGeometry_damaged
  rw [← length_damagedImage] at read found
  have recovers := @recoveredFrom_of_trailer constantEnv (headerRead 1 [] damagedImage) _ _ _ _
    large read found readAt_damagedRagged rfl
  rw [applyTrailer_damaged] at recovers
  exact reloadedFrom_of_recovered recovers

theorem openExistingPlog_damagedImage :
    ∃ world, PlogReached constantEnv world ∧ world.content = damagedImage ∧
      world.plog = damagedPlog := by
  let closed : PlogWorld := ⟨UndoStore.settled damagedImage, Plog.fresh 1⟩
  have restored : Restored damagedImage closed.store :=
    ⟨⟨rfl, fun _ issued => absurd issued List.not_mem_nil⟩, rfl⟩
  have guards : Guards constantEnv.sha (fun _ => True) damagedImage
      closed.store :=
    restored.guards constantEnv.sha trivial
  have large : damagedImage.length ≠ 0 := by
    rw [length_damagedImage]
    decide
  have headerFound : readSuperblock constantEnv damagedImage = .ok [] := by
    refine readSuperblock_eq (by decide) rfl ?_ (by rw [length_damagedImage]; decide)
    have split : damagedImage = [] ++ (superblock constantEnv [] ++
        (([7] ++ List.replicate 4095 0) ++ damagedTrailer)) := by
      rw [damagedImage, List.append_assoc, List.nil_append]
    exact slice_eq_field split rfl (length_superblock constantEnv [])
  obtain ⟨opened, ran, atDamaged⟩ := openExistingPlog_runs guards
    headerFound large reloadedFrom_damagedImage
  exact ⟨opened, .opened 1 closed opened [] [] ran, atDamaged.content_eq, atDamaged.plog_eq⟩

/-- Opening that file gives a log that a scrub finds healthy although its byte
cannot be read. -/
theorem scrub_misses_damaged_tail :
    ∃ world result, PlogReached constantEnv world ∧ world.content = damagedImage ∧
        scrub constantEnv world.plog world.content = .ok result ∧ result.healthy = true ∧
            ¬ScrubTells constantEnv world.plog world.content := by
  obtain ⟨world, reached, content_eq, plog_eq⟩ := openExistingPlog_damagedImage
  have untrusted : ¬damagedPlog.TailTrusted := by
    rintro (trusted | empty)
    · cases trusted
    · cases empty
  have ran : scrub constantEnv damagedPlog damagedImage = .ok ⟨0, [], []⟩ := by
    have noBlocks : damagedPlog.sealed / dataPerBlock = 0 := rfl
    have noHashes : damagedPlog.hashes.length / hashSize = 0 := rfl
    unfold scrub
    rw [noBlocks, noHashes]
    rfl
  refine ⟨world, _, reached, content_eq, by rw [plog_eq, content_eq]; exact ran,
    rfl, fun tells => ?_⟩
  have shaped := reached.shaped
  rw [plog_eq] at tells shaped
  rw [content_eq] at tells
  have selected := tells.selects shaped (not_allReadable_of_untrusted shaped untrusted)
  unfold repairSelects at selected
  rw [ran] at selected
  cases selected

end Damaged

end Rose
