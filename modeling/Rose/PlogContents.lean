import Rose.PlogLayout
import Rose.PlogReads

/-!
# Logs that hold given bytes

A file stores the sealed part of a byte string when it starts with the
superblock and the layout of the string's full sectors.  The memory of a log
tracks the string when its length and, as far as it is trusted, its buffer and
its hashes are those of the string.  Reads of such a log return the string.
-/

namespace Rose

open ListSplice FixedBlocks FallibleActions

structure Stored (env : PlogEnv) (head bytes content : Bytes) : Prop where
  headLength : head.length = 4096
  isPrefix : head ++ layout env (sectorsOf bytes) <+: content

structure Plog.Tracks (env : PlogEnv) (plog : Plog) (bytes : Bytes) :
    Prop where
  length_eq : plog.logicalLength = bytes.length
  bufLength : plog.buf.length = (raggedOf bytes).length
  buf_eq : plog.bufCorrupt = false → plog.buf = raggedOf bytes
  hashes_eq : plog.bufCorrupt = false → plog.openUnverified = false →
    plog.hashes = openHashes env (sectorsOf bytes)

/-- The log trusts all its bytes. -/
structure Plog.Healthy (plog : Plog) : Prop where
  bufTrusted : plog.bufCorrupt = false
  openTrusted : plog.openUnverified = false

variable {env : PlogEnv} {plog : Plog} {head bytes content sector : Bytes} {index : Nat}

theorem Plog.Tracks.sealed_eq (tracks : plog.Tracks env bytes) :
    plog.sealed = 4096 * (sectorsOf bytes).length := by
  have split := length_sectorsOf bytes
  rw [Plog.sealed, tracks.length_eq, tracks.bufLength]
  omega

theorem slice_bytes_sector (found : (sectorsOf bytes)[index]? = some sector) :
    slice bytes (index * sectorSize) sectorSize = sector := by
  have cut := slice_flatten (raggedOf bytes) (fullSectors_sectorsOf bytes) found
  rw [sectorsOf_append_raggedOf] at cut
  rw [Nat.mul_comm]
  exact cut

theorem slice_bytes_ragged (bytes : Bytes) :
    slice bytes (4096 * (sectorsOf bytes).length) sectorSize = raggedOf bytes := by
  have short := length_raggedOf bytes
  have cut := slice_append_right (sectorsOf bytes).flatten (raggedOf bytes) 0 sectorSize
  rw [sectorsOf_append_raggedOf,
    length_flatten_blocks (fullSectors_sectorsOf bytes), Nat.add_zero] at cut
  rw [cut, slice, List.drop_zero, List.take_of_length_le]
  exact Nat.le_of_lt short

namespace Stored

variable (stored : Stored env head bytes content)
include stored

theorem content_eq : ∃ rest, content = head ++ (layout env (sectorsOf bytes) ++ rest) := by
  obtain ⟨rest, rest_eq⟩ := stored.isPrefix
  exact ⟨rest, by rw [← rest_eq, List.append_assoc]⟩

theorem length_le :
    4096 * ((sectorsOf bytes).length + (sectorsOf bytes).length / 255 + 1) ≤ content.length := by
  have shorter := stored.isPrefix.length_le
  rw [List.length_append, stored.headLength, length_layout (fullSectors_sectorsOf bytes)] at shorter
  omega

theorem readAt_front {offset count : Nat} {out : Bytes}
    (read : readAt (head ++ layout env (sectorsOf bytes)) offset count = .ok out) :
    readAt content offset count = .ok out := by
  obtain ⟨rest, rfl⟩ := stored.isPrefix
  unfold readAt at read ⊢
  split_ifs at read with inside
  cases read
  rcases inside with none | inside
  · rw [if_pos (Or.inl none), none, slice_zero_count, slice_zero_count]
  · rw [if_pos (Or.inr (by rw [List.length_append]; omega)), slice_append_left inside]

theorem interleaved :
    overwrite 0 head (calcPhysical (4096 * 0)) (layout env (sectorsOf bytes)) =
      head ++ layout env (sectorsOf bytes) := by
  rw [calcPhysical_mul, ← overwrite_end 0 head, stored.headLength]

theorem readAt_sector (found : (sectorsOf bytes)[index]? = some sector) :
    readAt content (calcPhysical (index * sectorSize)) sectorSize = .ok sector := by
  have laid := (@layout_interleaved env _ (fullSectors_sectorsOf bytes) head).sectorAt _ _ found
  rw [stored.interleaved, Nat.zero_add, Nat.mul_comm] at laid
  exact stored.readAt_front laid

theorem readAt_hashSector {blockIdx : Nat}
    (complete : 255 * (blockIdx + 1) ≤ (sectorsOf bytes).length) :
    readAt content (hashSectorPhys blockIdx) sectorSize =
      .ok (hashSector env blockIdx (blockHashes env (sectorsOf bytes) blockIdx)) := by
  have laid := (@layout_interleaved env _ (fullSectors_sectorsOf bytes) head).hashesAt blockIdx
    (by omega) (by omega)
  rw [stored.interleaved, Nat.zero_div, Nat.sub_zero, List.nil_append, ← blockHashes_eq] at laid
  exact stored.readAt_front laid

end Stored

/-- The recorded hash of a sealed sector is that of the sector. -/
theorem sectorHashFor_eq (tracks : plog.Tracks env bytes) (healthy : plog.Healthy)
    (stored : Stored env head bytes content) (found : (sectorsOf bytes)[index]? = some sector) :
    sectorHashFor env plog content index = .ok (some (sectorHash env sector)) := by
  have inside := (List.getElem?_eq_some_iff.mp found).1
  have recorded := @sectorHashFor_recorded env content plog (sectorHashes env (sectorsOf bytes)) 0
    _ index tracks.sealed_eq (length_hashes_flatten env _) ?_ ?_ (Nat.zero_le _) inside
  · rw [recorded, Nat.mul_zero, Nat.sub_zero, slice_sectorHashes found]
  · rw [tracks.hashes_eq healthy.bufTrusted healthy.openTrusted, openHashes_eq, Nat.sub_zero]
  · intro blockIdx _ complete
    rw [Nat.sub_zero, ← blockHashes_eq]
    exact stored.readAt_hashSector (by omega)

theorem readSector_sealed (content : Bytes) (tracks : plog.Tracks env bytes)
    (inside : index < (sectorsOf bytes).length) :
    readSector env plog content index = readDataSector env plog content index ∧
    min sectorSize (plog.sealed - index * sectorSize) = sectorSize := by
  have sealed_eq := tracks.sealed_eq
  constructor
  · rw [readSector, if_neg]
    rw [sealed_eq, show sectorSize = 4096 from rfl]
    omega
  · rw [sealed_eq, show sectorSize = 4096 from rfl]
    omega

section

variable (tracks : plog.Tracks env bytes)
include tracks

theorem readSector_ragged (beyond : (sectorsOf bytes).length ≤ index)
    (inside : index * sectorSize < plog.logicalLength) :
    index = (sectorsOf bytes).length ∧ plog.sealed ≤ index * sectorSize := by
  have sealed_eq := tracks.sealed_eq
  have split := length_sectorsOf bytes
  have short := length_raggedOf bytes
  rw [tracks.length_eq, show sectorSize = 4096 from rfl] at inside
  rw [sealed_eq, show sectorSize = 4096 from rfl]
  omega

theorem readSector_sound (stored : Stored env head bytes content)
    (inside : index * sectorSize < plog.logicalLength)
    (ran : readSector env plog content index = .ok sector) :
    sector = slice bytes (index * sectorSize) sectorSize := by
  by_cases isSealed : index < (sectorsOf bytes).length
  · obtain ⟨fromFile, size⟩ := readSector_sealed content tracks isSealed
    rw [fromFile] at ran
    have found := List.getElem?_eq_getElem isSealed
    rw [slice_bytes_sector found]
    have fetched := (readDataSector_eq_ok_iff.mp ran).1
    rw [size, stored.readAt_sector found] at fetched
    cases fetched
    rfl
  · obtain ⟨index_eq, atEnd⟩ := readSector_ragged tracks (by omega) inside
    rw [readSector, if_pos atEnd] at ran
    split_ifs at ran with corrupt
    cases ran
    rw [tracks.buf_eq (Bool.eq_false_iff.mpr corrupt), index_eq, Nat.mul_comm]
    exact (slice_bytes_ragged bytes).symm

theorem readSector_eq (healthy : plog.Healthy) (stored : Stored env head bytes content)
    (inside : index * sectorSize < plog.logicalLength) :
    readSector env plog content index = .ok (slice bytes (index * sectorSize) sectorSize) := by
  by_cases isSealed : index < (sectorsOf bytes).length
  · obtain ⟨fromFile, size⟩ := readSector_sealed content tracks isSealed
    have found := List.getElem?_eq_getElem isSealed
    rw [fromFile, slice_bytes_sector found, readDataSector_eq_ok_iff, size]
    exact ⟨stored.readAt_sector found, _, sectorHashFor_eq tracks healthy stored found,
      fun _ same => Option.some.inj same⟩
  · obtain ⟨index_eq, atEnd⟩ := readSector_ragged tracks (by omega) inside
    rw [readSector, if_pos atEnd, healthy.bufTrusted,
      tracks.buf_eq healthy.bufTrusted, index_eq, Nat.mul_comm,
      show sectorSize = 4096 from rfl]
    exact congrArg Except.ok (slice_bytes_ragged bytes).symm

end

/-- A log yields bytes when it has their length and every read inside it
returns them. -/
def Yields (env : PlogEnv) (plog : Plog) (content bytes : Bytes) : Prop :=
  plog.logicalLength = bytes.length ∧ ∀ offset length : Nat, offset + length ≤ bytes.length →
      readLocked env plog content offset length = .ok (slice bytes offset length)

theorem Plog.Tracks.yields (tracks : plog.Tracks env bytes) (healthy : plog.Healthy)
    (stored : Stored env head bytes content) (fits : bytes.length < 2 ^ 63) :
    Yields env plog content bytes := by
  have length_eq := tracks.length_eq
  refine ⟨length_eq, fun offset length inside => ?_⟩
  exact readLocked_eq length_eq.symm (fun index below => readSector_eq tracks healthy stored below)
    (by omega) (by omega)

theorem Yields.unique {other : Bytes} (yields : Yields env plog content bytes)
    (otherYields : Yields env plog content other) :
    bytes = other := by
  have sameLength : bytes.length = other.length := yields.1.symm.trans otherYields.1
  have first := yields.2 0 bytes.length (by omega)
  have second := otherYields.2 0 bytes.length (by omega)
  rw [second] at first
  injection first with same
  have whole : ∀ list : Bytes, slice list 0 list.length = list := fun list => by
    rw [slice, List.drop_zero, List.take_length]
  rw [whole, sameLength, whole] at same
  exact same.symm

end Rose
