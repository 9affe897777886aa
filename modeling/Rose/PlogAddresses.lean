import Rose.PlogRuns
import Rose.SteadyOperations

/-!
# Where the bytes of a log lie in its file

The address maps are inverse to each other on data and leave out the superblock
and the hash sectors, up to the length at which 64-bit integers overflow.  The
one buffer that a write assembles from the ragged edge on agrees with them: each
sealed byte and each hash sector lands at its address, whatever the log held
before and however long the data is.
-/

namespace Rose

open ListSplice FixedBlocks DurableFiles FaultyPrograms

section Addresses

def InHashSector (blockIdx phys : Nat) : Prop :=
  hashSectorPhys blockIdx ≤ phys ∧ phys < hashSectorPhys blockIdx + sectorSize

theorem calcPhysical_lt {low high : Nat} (lowLt : low < high) :
    calcPhysical low < calcPhysical high := by
  simp only [calcPhysical, dataPerBlock, blockPhysical, hashesPerBlock, sectorSize, plogHeaderSize]
  omega

theorem calcLogical_mono {low high : Nat} (lowLe : low ≤ high) :
    calcLogical low ≤ calcLogical high := by
  have closed : ∀ phys, calcLogical phys = (phys - plogHeaderSize) / blockPhysical * dataPerBlock +
      min ((phys - plogHeaderSize) % blockPhysical) dataPerBlock := by
    intro phys
    unfold calcLogical
    dsimp only
    split_ifs <;> omega
  rw [closed, closed]
  simp only [dataPerBlock, blockPhysical, hashesPerBlock, sectorSize, plogHeaderSize]
  omega

theorem exists_calcPhysical_iff {phys : Nat} :
    (∃ logical, calcPhysical logical = phys) ↔
      plogHeaderSize ≤ phys ∧ ∀ blockIdx, ¬InHashSector blockIdx phys := by
  simp only [InHashSector, hashSectorPhys, calcPhysical, dataPerBlock, blockPhysical,
    hashesPerBlock, sectorSize, plogHeaderSize]
  constructor
  · rintro ⟨logical, rfl⟩
    exact ⟨by omega, fun blockIdx => by omega⟩
  · rintro ⟨afterHeader, outside⟩
    have notHashes := outside ((phys - 4096) / 1048576)
    exact ⟨(phys - 4096) / 1048576 * 1044480 + (phys - 4096) % 1048576, by omega⟩

/-- Every address below 2^63 is that of an addressable byte. -/
theorem calcPhysical_lt_iff {logical : Nat} :
    calcPhysical logical < 0x8000000000000000 ↔ logical < addressable := by
  simp only [calcPhysical, addressable, dataPerBlock, blockPhysical, hashesPerBlock, sectorSize,
    plogHeaderSize]
  omega

theorem calcLogical64_calcPhysical64 {logical : Nat} (below : logical < addressable) :
    calcLogical64 (calcPhysical64 logical) = logical := by
  have fits := calcPhysical_lt_iff.mpr below
  rw [calcPhysical64_eq below, calcLogical64_eq (by omega) (by omega), Int.toNat_natCast,
    calcLogical_calcPhysical]

theorem exists_calcPhysical64_iff {phys : Nat} (fits : phys < 0x8000000000000000) :
    (∃ logical : Nat, logical < addressable ∧ calcPhysical64 logical = phys) ↔
      plogHeaderSize ≤ phys ∧ ∀ blockIdx, ¬InHashSector blockIdx phys := by
  rw [← exists_calcPhysical_iff]
  constructor
  · rintro ⟨logical, below, position⟩
    rw [calcPhysical64_eq below] at position
    exact ⟨logical, by exact_mod_cast position⟩
  · rintro ⟨logical, rfl⟩
    have below := calcPhysical_lt_iff.mp fits
    exact ⟨logical, below, calcPhysical64_eq below⟩

/-- The first byte that is not addressable has a negative address, as the hash sector before it
has; the smallest offset has a larger logical offset than zero. -/
theorem address_maps_overflow :
    calcPhysical64 addressable < 0 ∧ calcLogical64 (calcPhysical64 addressable) ≠ addressable ∧
      ¬calcPhysical64 (addressable - 1) < calcPhysical64 addressable ∧
      hashSectorPhys64 (0x80000000000 - 1) < 0 ∧
      ¬calcLogical64 (-0x8000000000000000) ≤ calcLogical64 0 := by
  decide

end Addresses

section Writes

variable {env : PlogEnv} {world after : PlogWorld} {data added : Bytes}

/-- The batched write of a log holds the sealed sectors, interleaved. -/
theorem writeLocked_interleaves (shaped : world.plog.Shaped) :
    Triple (· = world) (writeLocked env data)
      (fun _ after => ∃ final added, Interleaved env world.content
          ⟨world.plog.sealed, world.plog.hashes, []⟩ (world.plog.sealed / 4096)
            (sectorsOf (world.plog.buf ++ data)) final added ∧
        after.content = overwrite 0 world.content (calcPhysical world.plog.sealed) added)
      (fun _ _ => True) := by
  have batch : world.plog.bufCorrupt = false → ∃ added, Interleaved env world.content
      ⟨world.plog.sealed, world.plog.hashes, []⟩ (world.plog.sealed / 4096)
        (sectorsOf (world.plog.buf ++ data)) _ added := fun trusted =>
    interleaved_foldl (fullSectors_sectorsOf _) world.content (shaped.counts trusted)
  refine writeLocked_rule (fun _ => trivial) ?_ ((protectPrefixLocked_journalOnly env world
    _).stopping fun _ _ _ => trivial) (fun _ _ _ _ => trivial) ?_
  · intro trusted _ short
    obtain ⟨added, interleaved⟩ := batch trusted
    have noSectors : sectorsOf (world.plog.buf ++ data) = [] := by
      have split := length_sectorsOf (world.plog.buf ++ data)
      rw [List.length_append] at split
      rw [sectorSize] at short
      exact List.eq_nil_of_length_eq_zero (by omega)
    have nothing : added = [] := by
      have written := interleaved.written
      rw [noSectors, List.nil_append] at written
      exact written.symm
    refine ⟨_, added, interleaved, ?_⟩
    rw [nothing, overwrite, if_pos rfl]
    rfl
  · intro trusted _ full middle protection
    obtain ⟨added, interleaved⟩ := batch trusted
    refine ⟨_, added, interleaved, ?_⟩
    have written := interleaved.written
    rw [List.nil_append] at written
    rw [sealData_foldl env shaped.bufShort full]
    dsimp only
    rw [written, ← protection.content_eq]
    exact DurableFile.view_issue _ _

theorem slice_of_readAt {content out : Bytes} {offset count : Nat}
    (read : readAt content offset count = .ok out) : slice content offset count = out := by
  rw [readAt] at read
  split_ifs at read
  cases read
  rfl

/-- Each byte that a write seals and each hash sector that it completes stands at
its address, and no other byte of the file is overwritten. -/
structure AtAddresses (env : PlogEnv) (before : PlogWorld) (data : Bytes) (after : PlogWorld) :
    Prop where
  batched : ∃ written, after.content =
    overwrite 0 before.content (calcPhysical before.plog.sealed) written
  bytesAt : ∀ logical, before.plog.sealed ≤ logical → logical < after.plog.sealed →
    after.content[calcPhysical logical]? =
      (before.plog.buf ++ data)[logical - before.plog.sealed]?
  hashesAt : ∀ blockIdx, before.plog.sealed / dataPerBlock ≤ blockIdx →
    blockIdx < after.plog.sealed / dataPerBlock →
      slice after.content (hashSectorPhys blockIdx) sectorSize = hashSector env blockIdx
        (slice (before.plog.hashes ++ sectorHashes env (sectorsOf (before.plog.buf ++ data)))
          (hashesPerBlock * hashSize * (blockIdx - before.plog.sealed / dataPerBlock))
          (hashesPerBlock * hashSize))
  otherwise : ∀ phys, phys < before.content.length →
    (∀ logical, before.plog.sealed ≤ logical → logical < after.plog.sealed →
      calcPhysical logical ≠ phys) →
    (∀ blockIdx, before.plog.sealed / dataPerBlock ≤ blockIdx →
      blockIdx < after.plog.sealed / dataPerBlock → ¬InHashSector blockIdx phys) →
        after.content[phys]? = before.content[phys]?

theorem Interleaved.atAddresses {count : Nat} {final : SealState}
    (sealed_eq : world.plog.sealed = 4096 * count)
    (afterSealed : after.plog.sealed =
      4096 * (count + (sectorsOf (world.plog.buf ++ data)).length))
    (interleaved : Interleaved env world.content ⟨world.plog.sealed, world.plog.hashes, []⟩ count
      (sectorsOf (world.plog.buf ++ data)) final added)
    (content_eq : after.content =
      overwrite 0 world.content (calcPhysical world.plog.sealed) added) :
    AtAddresses env world data after := by
  have blocks : ∀ sectors, 4096 * sectors / dataPerBlock = sectors / 255 := by
    intro sectors
    rw [dataPerBlock, hashesPerBlock, sectorSize]
    omega
  have ends := interleaved.ends
  refine ⟨⟨added, content_eq⟩, ?_, ?_, ?_⟩
  · intro logical fromSealed below
    obtain ⟨sector, found, byte_eq⟩ := @getElem?_sectorsOf (world.plog.buf ++ data)
      (logical - world.plog.sealed) (by omega)
    have read := slice_of_readAt (interleaved.sectorAt _ _ found)
    have position := calcPhysical_sectors (count + (logical - world.plog.sealed) / 4096)
      ((logical - world.plog.sealed) % 4096) (Nat.mod_lt _ (by decide))
    rw [← calcPhysical_mul] at position
    rw [← byte_eq, ← read, getElem?_slice, if_pos (Nat.mod_lt _ (by decide)), ← position,
      content_eq, sealed_eq]
    congr 2
    omega
  · intro blockIdx fromBlock below
    rw [sealed_eq, blocks] at fromBlock
    rw [afterSealed, blocks] at below
    rw [sealed_eq, blocks, content_eq, sealed_eq]
    exact slice_of_readAt (interleaved.hashesAt blockIdx fromBlock below)
  · intro phys inFile noByte noHash
    have outside : ¬(calcPhysical (4096 * count) ≤ phys ∧
        phys < calcPhysical (4096 * count) + added.length) := by
      rintro ⟨fromStart, beforeEnd⟩
      rw [ends] at beforeEnd
      by_cases hashed : ∃ blockIdx, InHashSector blockIdx phys
      · obtain ⟨blockIdx, low, high⟩ := hashed
        refine noHash blockIdx ?_ ?_ ⟨low, high⟩
        · rw [sealed_eq, blocks]
          rw [hashSectorPhys_eq, sectorSize] at high
          rw [calcPhysical_mul] at fromStart
          omega
        · rw [afterSealed, blocks]
          rw [hashSectorPhys_eq] at low
          rw [calcPhysical_mul] at beforeEnd
          omega
      · obtain ⟨logical, rfl⟩ := exists_calcPhysical_iff.mpr
          ⟨Nat.le_trans (le_calcPhysical _) fromStart, fun blockIdx inside => hashed ⟨_, inside⟩⟩
        refine noByte logical ?_ ?_ rfl
        · rw [sealed_eq]
          exact Nat.not_lt.mp fun early => Nat.not_lt.mpr fromStart (calcPhysical_lt early)
        · rw [afterSealed]
          exact Nat.not_le.mp fun late => Nat.not_lt.mpr (calcPhysical_mono late) beforeEnd
    rw [content_eq, sealed_eq]
    by_cases empty : added = []
    · rw [overwrite, if_pos empty]
    · rw [getElem?_overwrite _ _ _ _ _ empty, if_neg outside, if_pos (by omega),
        List.getElem?_eq_getElem inFile, Option.getD_some]

/-- The address maps, as far as 64 bits reach, describe where every write puts
its bytes. -/
theorem writes_agree_with_addresses (env : PlogEnv) :
    (∀ logical : Nat, logical < addressable → calcPhysical64 logical = calcPhysical logical ∧
        calcLogical64 (calcPhysical64 logical) = logical) ∧
      (∀ low high : Nat, low < high → high < addressable →
        calcPhysical64 low < calcPhysical64 high) ∧
      (∀ phys : Nat, phys < 0x8000000000000000 →
        ((∃ logical : Nat, logical < addressable ∧ calcPhysical64 logical = phys) ↔
          plogHeaderSize ≤ phys ∧ ∀ blockIdx, ¬InHashSector blockIdx phys)) ∧
      (∀ blockIdx : Nat, blockIdx + 1 < 0x80000000000 →
        hashSectorPhys64 blockIdx = hashSectorPhys blockIdx) ∧
      (∀ low high : Int, -0x7FFFFFFFFFFFF000 ≤ low → low ≤ high → high < 0x8000000000000000 →
        calcLogical64 low ≤ calcLogical64 high) ∧
      ∀ (world : PlogWorld) (data : Bytes), world.plog.Shaped →
        (∀ shielded, world.plog.bufCorrupt = false → world.plog.openUnverified = false →
          Runs (protectPrefixLocked env (calcPhysical (blockStartOf world.plog.logicalLength)))
            world () shielded →
              ∃ after, Runs (writeLocked env data) world world.plog.logicalLength after) ∧
        ∀ faults offset after, writeLocked env data ⟨world, faults⟩ = .ok offset after →
          offset = world.plog.logicalLength ∧ after.world.plog.Shaped ∧
            after.world.plog.logicalLength = world.plog.logicalLength + data.length ∧
              AtAddresses env world data after.world := by
  refine ⟨fun _ below => ⟨calcPhysical64_eq below, calcLogical64_calcPhysical64 below⟩, ?_,
    fun _ => exists_calcPhysical64_iff, fun _ => hashSectorPhys64_eq, ?_,
    fun world data shaped => ⟨?_, ?_⟩⟩
  · intro low high lowLt below
    rw [calcPhysical64_eq below, calcPhysical64_eq (by omega)]
    exact_mod_cast calcPhysical_lt lowLt
  · intro low high bounded lowLe fits
    rw [calcLogical64_eq bounded (by omega), calcLogical64_eq (by omega) fits]
    exact_mod_cast calcLogical_mono (Int.toNat_le_toNat lowLe)
  · intro shielded bufTrusted openTrusted protects
    have trusted : ¬(world.plog.bufCorrupt = true ∨ world.plog.openUnverified = true) := by
      rw [bufTrusted, openTrusted]
      decide
    obtain ⟨after, runs, -⟩ := @writeLocked_runs env data world trusted shielded protects
    exact ⟨after, runs⟩
  · intro faults offset after ran
    obtain ⟨offset_eq, appended⟩ := (writeLocked_appends shaped).returned rfl ran
    obtain ⟨_, added, interleaved, content_eq⟩ := (writeLocked_interleaves shaped).returned rfl ran
    refine ⟨offset_eq, appended.shaped, appended.length_eq,
      interleaved.atAddresses ?_ ?_ content_eq⟩
    · have aligned := shaped.aligned
      omega
    · have split := length_sectorsOf (world.plog.buf ++ data)
      have short := length_raggedOf (world.plog.buf ++ data)
      have before := shaped.logicalLength_eq
      have aligned := shaped.aligned
      have length_eq := appended.length_eq
      have afterLength := appended.shaped.logicalLength_eq
      have afterShort := appended.shaped.bufShort
      have afterAligned := appended.shaped.aligned
      rw [List.length_append] at split
      omega

/-- A log in use that is still empty. -/
def emptyLog : PlogWorld :=
  ⟨UndoStore.settled (superblock constantEnv []), { Plog.fresh 1 with undoActive := true }⟩

theorem full_sector_is_placed :
    ∃ after, writeLocked constantEnv (List.replicate 4096 7) ⟨emptyLog, []⟩ = .ok 0 after ∧
      AtAddresses constantEnv emptyLog (List.replicate 4096 7) after.world := by
  obtain ⟨runs, places⟩ := (writes_agree_with_addresses constantEnv).2.2.2.2.2 emptyLog
    (List.replicate 4096 7) ⟨rfl, by decide, Nat.le_refl _, fun _ => rfl⟩
  have protects : Runs (protectPrefixLocked constantEnv
      (calcPhysical (blockStartOf emptyLog.plog.logicalLength))) emptyLog () emptyLog := by
    refine .bind .current ?_
    rw [if_pos ⟨rfl, Nat.zero_le _⟩]
    exact .pure
  obtain ⟨after, ran⟩ := runs _ rfl rfl protects
  exact ⟨_, ran, (places _ _ _ ran).2.2.2⟩

end Writes

end Rose
