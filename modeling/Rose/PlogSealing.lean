import Rose.PlogAppends
import Rose.PlogBytes

/-!
# Appending to a log in any state

Sealing a sector writes it after the sealed ones and adds its hash to those of
the open block, or to the hash sector that closes the block.  Whatever could be
read before can still be read, also in a log with damaged sectors, and the new
bytes can be read.
-/

namespace Rose

open ListSplice FallibleActions

variable {env : PlogEnv} {plog : Plog} {content : Bytes}

/-- The log while its sectors are sealed: nothing is buffered. -/
def Plog.sealing (plog : Plog) (state : SealState) : Plog := plog.sealedWith (state, [])

theorem Plog.sealed_sealing (plog : Plog) (state : SealState) :
    (plog.sealing state).sealed = state.logicalLength := by
  simp [Plog.sealing, Plog.sealedWith, Plog.sealed]

/-- Sealing sectors keeps what could be read and makes the sectors readable. -/
structure SealsAfter (env : PlogEnv) (plog : Plog) (content : Bytes) (state : SealState)
    (count : Nat) (sectors : List Bytes) (final : SealState) (added : Bytes) : Prop where
  counts : final.Counts (count + sectors.length)
  written : final.writeBuf = state.writeBuf ++ added
  old : ∀ sectorIdx out, sectorIdx < count →
    readDataSector env (plog.sealing state) content sectorIdx = .ok out →
      readDataSector env (plog.sealing final)
        (overwrite 0 content (calcPhysical (4096 * count)) added) sectorIdx = .ok out
  new : ∀ position sector, sectors[position]? = some sector →
    readDataSector env (plog.sealing final)
      (overwrite 0 content (calcPhysical (4096 * count)) added) (count + position) = .ok sector

section Batch

variable {sectors : List Bytes} {state final : SealState} {count : Nat} {added : Bytes}

/-- The hash recorded for a sector of the block that was open, or of a later one. -/
theorem Interleaved.sectorHashFor_eq {sectorIdx : Nat} (counts : state.Counts count)
    (batch : Interleaved env content state count sectors final added)
    (fromBlock : 255 * (count / 255) ≤ sectorIdx) (below : sectorIdx < count + sectors.length) :
    sectorHashFor env (plog.sealing final)
      (overwrite 0 content (calcPhysical (4096 * count)) added) sectorIdx =
        .ok (some (slice (state.hashes ++ sectorHashes env sectors)
          (16 * (sectorIdx - 255 * (count / 255))) 16)) := by
  refine sectorHashFor_recorded ?_ ?_ batch.hashes_eq batch.hashesAt fromBlock below
  · rw [Plog.sealed_sealing, batch.counts.length_eq]
  · rw [List.length_append, counts.hashesLength, sectorHashes, length_hashes_flatten]
    omega

theorem Interleaved.readDataSector_old {sectorIdx : Nat} {out : Bytes}
    (counts : state.Counts count)
    (batch : Interleaved env content state count sectors final added)
    (earlier : sectorIdx < count)
    (read : readDataSector env (plog.sealing state) content sectorIdx = .ok out) :
    readDataSector env (plog.sealing final)
      (overwrite 0 content (calcPhysical (4096 * count)) added) sectorIdx = .ok out := by
  have sealed_eq := (plog.sealed_sealing state).trans counts.length_eq
  have finalSealed := (plog.sealed_sealing final).trans batch.counts.length_eq
  have kept : ReadsKept (calcPhysical (plog.sealing state).sealed) content
      (overwrite 0 content (calcPhysical (4096 * count)) added) := by
    rw [sealed_eq]
    exact readsKept_overwrite _ _ (Nat.le_refl _)
  have aligned : (plog.sealing state).sealed % 4096 = 0 := by
    rw [sealed_eq, Nat.mul_mod_right]
  have whole : ∀ total, sectorIdx < total →
      min sectorSize (4096 * total - sectorIdx * sectorSize) = sectorSize := by
    intro total inside
    simp only [sectorSize]
    omega
  obtain ⟨stored, expected, found, authentic⟩ := readDataSector_eq_ok_iff.mp read
  refine readDataSector_eq_ok_iff.mpr ⟨?_, expected, ?_, authentic⟩
  · have inside := @sectorPhys_inside sectorIdx _ aligned
      (by rw [sealed_eq, show sectorSize = 4096 from rfl]; omega)
    rw [sealed_eq, whole count earlier] at stored
    rw [sealed_eq, whole count earlier, ← sealed_eq] at inside
    rw [finalSealed, whole _ (by omega)]
    exact kept _ _ _ inside stored
  · by_cases isOpen : 255 * (count / 255) ≤ sectorIdx
    · -- The same hashes are recorded in memory before and found after the batch.
      have before := @Interleaved.sectorHashFor_eq env plog content [] state state count []
        sectorIdx counts (interleaved_nil content counts) isOpen earlier
      have inside : 16 * (sectorIdx - 255 * (count / 255)) + 16 ≤ state.hashes.length := by
        rw [counts.hashesLength]
        omega
      rw [overwrite, if_pos rfl, found, slice_append_left inside] at before
      rw [batch.sectorHashFor_eq counts isOpen (by omega), before, slice_append_left inside]
    · refine kept.sectorHashFor_complete aligned ?_ (by rw [sealed_eq, finalSealed]; omega) found
      rw [sealed_eq]
      simp only [dataPerBlock, hashesPerBlock, sectorSize]
      omega

theorem Interleaved.readDataSector_new {position : Nat} {sector : Bytes}
    (counts : state.Counts count)
    (batch : Interleaved env content state count sectors final added)
    (found : sectors[position]? = some sector) :
    readDataSector env (plog.sealing final)
      (overwrite 0 content (calcPhysical (4096 * count)) added) (count + position) =
        .ok sector := by
  have inside := (List.getElem?_eq_some_iff.mp found).1
  have stored := batch.sectorAt position sector found
  have whole : min sectorSize (4096 * (count + sectors.length) - (count + position) * sectorSize) =
      sectorSize := by
    simp only [sectorSize]
    omega
  have start : 16 * (count + position - 255 * (count / 255)) =
      state.hashes.length + 16 * position := by
    rw [counts.hashesLength]
    omega
  refine readDataSector_eq_ok_iff.mpr
    ⟨?_, _, batch.sectorHashFor_eq counts (by omega) (by omega), ?_⟩
  · rw [Plog.sealed_sealing, batch.counts.length_eq, whole, Nat.mul_comm (count + position)]
    exact stored
  · rintro _ ⟨rfl⟩
    rw [start, slice_append_right, slice_sectorHashes found]

theorem sealsAfter_foldl (full : FullSectors sectors) (content : Bytes)
    (counts : state.Counts count) :
    ∃ added, SealsAfter env plog content state count sectors
      (sectors.foldl (sealSector env) state) added := by
  obtain ⟨added, batch⟩ := @interleaved_foldl env sectors full content _ _ counts
  exact ⟨added, batch.counts, batch.written,
    fun _ _ earlier read => batch.readDataSector_old counts earlier read,
    fun _ _ found => batch.readDataSector_new counts found⟩

end Batch

theorem readDataSector_congr {other : Plog} (sealed_eq : other.sealed = plog.sealed)
    (hashes_eq : other.hashes = plog.hashes) (id_eq : other.id = plog.id) (content : Bytes)
    (sectorIdx : Nat) :
    readDataSector env other content sectorIdx = readDataSector env plog content sectorIdx := by
  unfold readDataSector sectorHashFor readHashSector checkSector
  rw [sealed_eq, hashes_eq, id_eq]

theorem readSector_sealed_eq {sectorIdx : Nat} (below : sectorIdx * sectorSize < plog.sealed) :
    readSector env plog content sectorIdx = readDataSector env plog content sectorIdx := by
  rw [readSector, if_neg (Nat.not_le.mpr below)]

theorem readSector_open_eq {sectorIdx : Nat} (trusted : plog.bufCorrupt = false)
    (above : plog.sealed ≤ sectorIdx * sectorSize) :
    readSector env plog content sectorIdx = .ok plog.buf := by
  rw [readSector, if_pos above, trusted]
  rfl

/-- A log and file to which data was appended. -/
structure Appended (env : PlogEnv) (plog : Plog) (content data : Bytes) (after : Plog)
    (afterContent : Bytes) : Prop where
  shaped : after.Shaped
  length_eq : after.logicalLength = plog.logicalLength + data.length
  trusted : after.bufCorrupt = false
  old : ∀ index byte, index < plog.logicalLength → byteAt env plog content index = some byte →
      byteAt env after afterContent index = some byte
  new : ∀ index, index < data.length →
    byteAt env after afterContent (plog.logicalLength + index) = data[index]?

variable {data : Bytes}

/-- It is enough to know the sealed bytes and those from the open sector on. -/
theorem Appended.of_tail {after : Plog} {afterContent : Bytes}
    (shaped : plog.Shaped) (trusted : plog.bufCorrupt = false)
    (afterShaped : after.Shaped)
    (length_eq : after.logicalLength = plog.logicalLength + data.length)
    (afterTrusted : after.bufCorrupt = false)
    (front : ∀ index byte, index < plog.sealed → byteAt env plog content index = some byte →
        byteAt env after afterContent index = some byte)
    (tail : ∀ index, index < (plog.buf ++ data).length →
      byteAt env after afterContent (plog.sealed + index) = (plog.buf ++ data)[index]?) :
    Appended env plog content data after afterContent := by
  have split := shaped.logicalLength_eq
  refine ⟨afterShaped, length_eq, afterTrusted, ?_, ?_⟩
  · intro index byte inside readable
    by_cases isSealed : index < plog.sealed
    · exact front index byte isSealed readable
    · have inBuf : index - plog.sealed < plog.buf.length := by omega
      have position : plog.sealed + (index - plog.sealed) = index := by omega
      have there := tail (index - plog.sealed) (by rw [List.length_append]; omega)
      rw [position, List.getElem?_append_left inBuf] at there
      rw [there, ← readable]
      unfold byteAt
      rw [readSector_open_eq trusted]
      · congr 1
        have aligned := shaped.aligned
        have short := shaped.bufShort
        simp only [sectorSize]
        omega
      · have aligned := shaped.aligned
        have short := shaped.bufShort
        simp only [sectorSize]
        omega
  · intro index inside
    have there := tail (plog.buf.length + index) (by rw [List.length_append]; omega)
    rw [← Nat.add_assoc, ← split, List.getElem?_append_right (by omega),
      Nat.add_sub_cancel_left] at there
    exact there

/-- Data kept in the open sector. -/
theorem appended_buffer (shaped : plog.Shaped) (trusted : plog.bufCorrupt = false)
    (short : plog.buf.length + data.length < 4096) :
    Appended env plog content data (plog.buffer data) content := by
  obtain ⟨aligned, bufShort, bufLe, hashesLength⟩ := shaped
  have sealed_eq : (plog.buffer data).sealed = plog.sealed := by
    simp only [Plog.buffer, Plog.sealed, List.length_append]
    omega
  have length_eq : (plog.buf ++ data).length = plog.buf.length + data.length := List.length_append
  have afterShaped : (plog.buffer data).Shaped := by
    refine ⟨by rw [sealed_eq]; exact aligned, ?_, ?_, ?_⟩
    · change (plog.buf ++ data).length < 4096
      omega
    · change (plog.buf ++ data).length ≤ plog.logicalLength + data.length
      omega
    · rw [Plog.Hashed, sealed_eq]
      exact fun _ => hashesLength (.inl trusted)
  refine .of_tail ⟨aligned, bufShort, bufLe, hashesLength⟩ trusted afterShaped
    rfl trusted ?_ ?_
  · intro index byte inside readable
    have below : index / sectorSize * sectorSize < plog.sealed :=
      Nat.lt_of_le_of_lt (Nat.div_mul_le_self _ _) inside
    rw [← readable]
    unfold byteAt
    rw [readSector_sealed_eq below, readSector_sealed_eq (by rw [sealed_eq]; exact below),
      readDataSector_congr sealed_eq rfl rfl]
  · intro index inside
    have above : (plog.buffer data).sealed ≤ (plog.sealed + index) / sectorSize * sectorSize := by
      rw [sealed_eq]
      simp only [sectorSize]
      omega
    have trustedAfter : (plog.buffer data).bufCorrupt = false := trusted
    unfold byteAt
    rw [readSector_open_eq trustedAfter above]
    change (plog.buf ++ data)[(plog.sealed + index) % sectorSize]? = _
    congr 1
    simp only [sectorSize]
    omega

theorem getElem?_sectorsOf {bytes : Bytes} {index : Nat}
    (inside : index < 4096 * (sectorsOf bytes).length) :
    ∃ sector, (sectorsOf bytes)[index / 4096]? = some sector ∧
      sector[index % 4096]? = bytes[index]? := by
  have bound : index / 4096 < (sectorsOf bytes).length := by omega
  refine ⟨_, List.getElem?_eq_getElem bound, ?_⟩
  rw [← slice_bytes_sector (List.getElem?_eq_getElem bound), getElem?_slice,
    if_pos (by simp only [sectorSize]; omega)]
  congr 1
  simp only [sectorSize]
  omega

theorem getElem?_raggedOf {bytes : Bytes} {index : Nat}
    (above : 4096 * (sectorsOf bytes).length ≤ index) (inside : index < bytes.length) :
    (raggedOf bytes)[index % 4096]? = bytes[index]? := by
  have split := length_sectorsOf bytes
  have short := length_raggedOf bytes
  rw [← slice_bytes_ragged, getElem?_slice, if_pos (by simp only [sectorSize]; omega)]
  congr 1
  omega

theorem Plog.Shaped.counts (shaped : plog.Shaped) (trusted : plog.bufCorrupt = false) :
    (⟨plog.sealed, plog.hashes, []⟩ : SealState).Counts (plog.sealed / 4096) := by
  have aligned := shaped.aligned
  exact ⟨by dsimp only; omega, shaped.hashed (.inl trusted)⟩

/-- Data sealed by the batched write. -/
theorem appended_sealData (shaped : plog.Shaped) (trusted : plog.bufCorrupt = false)
    (seals : 4096 ≤ plog.buf.length + data.length) :
    Appended env plog content data (plog.sealedWith (sealData env plog data))
      (overwrite 0 content (calcPhysical plog.sealed) (sealData env plog data).1.writeBuf) := by
  have bytesLength := length_sectorsOf (plog.buf ++ data)
  have rest := length_raggedOf (plog.buf ++ data)
  have total : (plog.buf ++ data).length = plog.buf.length + data.length := List.length_append
  have split := shaped.logicalLength_eq
  obtain ⟨count, sealed_eq⟩ : ∃ count, plog.sealed = 4096 * count :=
    ⟨plog.sealed / 4096, by have aligned := shaped.aligned; omega⟩
  have counts := shaped.counts trusted
  rw [sealed_eq, Nat.mul_div_cancel_left _ (by decide), ← sealed_eq] at counts
  obtain ⟨added, finalCounts, written, old, new⟩ := @sealsAfter_foldl env plog _ _ count
    (fullSectors_sectorsOf (plog.buf ++ data)) content counts
  rw [sealData_foldl env shaped.bufShort seals]
  rw [List.nil_append] at written
  dsimp only
  rw [written]
  generalize (sectorsOf (plog.buf ++ data)).foldl (sealSector env)
    ⟨plog.sealed, plog.hashes, []⟩ = final at finalCounts old new ⊢
  rw [← sealed_eq] at old new
  have finalLength := finalCounts.length_eq
  have afterSealed : (plog.sealedWith
      (final, raggedOf (plog.buf ++ data))).sealed = final.logicalLength :=
    Nat.add_sub_cancel _ _
  have sameSectors := @readDataSector_congr env (plog.sealing final)
    (plog.sealedWith (final, raggedOf (plog.buf ++ data)))
    (by rw [afterSealed, Plog.sealed_sealing]) rfl rfl
  have startSectors := @readDataSector_congr env plog (plog.sealing ⟨plog.sealed, plog.hashes, []⟩)
    (by rw [Plog.sealed_sealing]) rfl rfl
  have trustedAfter : (plog.sealedWith
      (final, raggedOf (plog.buf ++ data))).bufCorrupt = false := trusted
  refine .of_tail shaped trusted ⟨?_, rest, Nat.le_add_left _ _, ?_⟩ ?_ trusted ?_ ?_
  · rw [afterSealed]
    omega
  · rw [Plog.Hashed, afterSealed, finalLength, Nat.mul_div_cancel_left _ (by decide)]
    exact fun _ => finalCounts.hashesLength
  · change final.logicalLength + (raggedOf (plog.buf ++ data)).length = _
    omega
  · intro index byte inside readable
    have below : index / sectorSize * sectorSize < plog.sealed :=
      Nat.lt_of_le_of_lt (Nat.div_mul_le_self _ _) inside
    have early : index / sectorSize < count := by
      simp only [sectorSize] at below ⊢
      omega
    unfold byteAt at readable ⊢
    rw [readSector_sealed_eq below] at readable
    rw [readSector_sealed_eq (by rw [afterSealed]; omega), sameSectors]
    cases read : readDataSector env plog content (index / sectorSize) with
    | error reason =>
      rw [read] at readable
      cases readable
    | ok out =>
      rw [read] at readable
      rw [old _ out early (by rw [startSectors]; exact read)]
      exact readable
  · intro index inside
    have position : (plog.sealed + index) / sectorSize = count + index / 4096 := by
      simp only [sectorSize]
      omega
    have within : (plog.sealed + index) % sectorSize = index % 4096 := by
      simp only [sectorSize]
      omega
    unfold byteAt
    rw [position, within]
    by_cases isSealed :
        index < 4096 * (sectorsOf (plog.buf ++ data)).length
    · obtain ⟨sector, found, byte_eq⟩ := getElem?_sectorsOf isSealed
      rw [readSector_sealed_eq (by rw [afterSealed]; simp only [sectorSize]; omega),
        sameSectors, new _ sector found]
      exact byte_eq
    · rw [readSector_open_eq trustedAfter (by rw [afterSealed]; simp only [sectorSize]; omega)]
      exact getElem?_raggedOf (Nat.not_lt.mp isSealed) inside

end Rose
