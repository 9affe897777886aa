import Rose.PlogContents

/-!
# Committed log files

A commit leaves a file that starts with the superblock and the layout of the
sealed sectors.  If a block is open, its ragged edge and its trailer follow, and
the trailer reads back as the geometry it was built from.  Otherwise the file
ends with the last hash sector, which must not be taken for a trailer.
-/

namespace Rose

open ListSplice FixedBlocks

/-- Whether bytes leave a block open. -/
def HasOpenBlock (bytes : Bytes) : Prop := (sectorsOf bytes).length % 255 ≠ 0 ∨ raggedOf bytes ≠ []

instance (bytes : Bytes) : Decidable (HasOpenBlock bytes) :=
  inferInstanceAs (Decidable (_ ∨ _))

/-- Where the sealed sectors of bytes end in the file. -/
def sealedEnd (bytes : Bytes) : Nat :=
  4096 * ((sectorsOf bytes).length + (sectorsOf bytes).length / 255 + 1)

def committedEnd (bytes : Bytes) : Nat :=
  if HasOpenBlock bytes then sealedEnd bytes + 8192 else sealedEnd bytes

/-- The trailer a commit of the bytes leaves. -/
def committedTrailer (env : PlogEnv) (bytes : Bytes) : Bytes :=
  openTrailer env ((sectorsOf bytes).length / 255)
    (openHashes env (sectorsOf bytes)) (raggedOf bytes)

structure CommittedImage (env : PlogEnv) (head bytes image : Bytes) :
    Prop where
  stored : Stored env head bytes image
  size_eq : image.length = committedEnd bytes
  ragged_eq : slice image (sealedEnd bytes) (raggedOf bytes).length = raggedOf bytes
  trailer_eq : HasOpenBlock bytes →
    slice image (sealedEnd bytes + 4096) 4096 = committedTrailer env bytes

/-- No hash sector of the bytes has the magic and geometry of a trailer. -/
def NoTrailerLookalike (env : PlogEnv) (bytes : Bytes) : Prop :=
  ∀ blockIdx, 255 * (blockIdx + 1) ≤ (sectorsOf bytes).length →
    trailerGeometry (hashSector env blockIdx (blockHashes env (sectorsOf bytes) blockIdx))
      (hashSectorPhys blockIdx + sectorSize) = none

variable {env : PlogEnv} {bytes image head : Bytes}

section TrailerFormat

variable {hashes ragged : Bytes} {blockIdx count : Nat}

@[simp]
theorem length_openTrailerMagic : openTrailerMagic.length = 8 := by
  decide

theorem length_trailerFront (hashes : Bytes) (raggedLen : Nat) :
    (trailerFront hashes raggedLen).length = 12 + hashes.length := by
  simp [trailerFront]
  omega

theorem openTrailer_eq (env : PlogEnv) (blockIdx : Nat) (ragged : Bytes)
    (short : hashes.length ≤ 4064) :
    ∃ padding, openTrailer env blockIdx hashes ragged = trailerFront hashes ragged.length ++
        (openBlockMAC env blockIdx (trailerFront hashes ragged.length) ragged ++ padding) := by
  rw [openTrailer, resize, List.take_of_length_le]
  · exact ⟨_, List.append_assoc _ _ _⟩
  · rw [List.length_append, length_trailerFront, length_openBlockMAC,
      show sectorSize = 4096 from rfl]
    omega

theorem length_openTrailer (env : PlogEnv) (blockIdx : Nat) (hashes ragged : Bytes) :
    (openTrailer env blockIdx hashes ragged).length = 4096 :=
  length_resize _ _ _

/-- The field that stores the ragged length. -/
def raggedField (raggedLen : Nat) : Nat :=
  if raggedLen > 0 then raggedLen + 32768 else raggedLen

section

variable (short : hashes.length ≤ 4064)
include short

theorem slice_openTrailer_magic :
    slice (openTrailer env blockIdx hashes ragged) 0 8 = openTrailerMagic := by
  obtain ⟨padding, trailer_eq⟩ := openTrailer_eq env blockIdx ragged short
  exact slice_eq_field (by rw [trailer_eq, trailerFront, List.nil_append,
    List.append_assoc, List.append_assoc, List.append_assoc]) rfl
    length_openTrailerMagic

theorem slice_openTrailer_count :
    slice (openTrailer env blockIdx hashes ragged) 8 2 =
      LittleEndian.encode 2 (hashes.length / hashSize) := by
  obtain ⟨padding, trailer_eq⟩ := openTrailer_eq env blockIdx ragged short
  exact slice_eq_field (by rw [trailer_eq, trailerFront, List.append_assoc,
    List.append_assoc, List.append_assoc]) length_openTrailerMagic (by simp)

theorem slice_openTrailer_ragged :
    slice (openTrailer env blockIdx hashes ragged) 10 2 =
      LittleEndian.encode 2 (raggedField ragged.length) := by
  obtain ⟨padding, trailer_eq⟩ := openTrailer_eq env blockIdx ragged short
  rw [trailerFront, List.append_assoc _ _ hashes, List.append_assoc _ _ (_ ++ _),
    List.append_assoc _ hashes] at trailer_eq
  exact slice_eq_field trailer_eq (by simp) (by simp)

theorem slice_openTrailer_hashes :
    slice (openTrailer env blockIdx hashes ragged) 12 hashes.length = hashes := by
  obtain ⟨padding, trailer_eq⟩ := openTrailer_eq env blockIdx ragged short
  exact slice_eq_field (by rw [trailer_eq, trailerFront, List.append_assoc]) (by simp) rfl

theorem slice_openTrailer_front :
    slice (openTrailer env blockIdx hashes ragged) 0 (12 + hashes.length) =
      trailerFront hashes ragged.length := by
  obtain ⟨padding, trailer_eq⟩ := openTrailer_eq env blockIdx ragged short
  exact slice_eq_field (by rw [trailer_eq, List.nil_append]) rfl (length_trailerFront _ _)

theorem slice_openTrailer_mac :
    slice (openTrailer env blockIdx hashes ragged) (12 + hashes.length) 16 =
      openBlockMAC env blockIdx (trailerFront hashes ragged.length) ragged := by
  obtain ⟨padding, trailer_eq⟩ := openTrailer_eq env blockIdx ragged short
  exact slice_eq_field trailer_eq (length_trailerFront _ _) (length_openBlockMAC env _ _ _)

end

variable (hashesLength : hashes.length = 16 * count) (countLt : count < 255)
include hashesLength countLt

/-- A trailer at its place reads back as the geometry it was built from. -/
theorem trailerGeometry_openTrailer (raggedLt : ragged.length < 4096)
    (notEmpty : count ≠ 0 ∨ ragged.length ≠ 0) :
    trailerGeometry (openTrailer env blockIdx hashes ragged) (4096 * (256 * blockIdx + count + 3)) =
        some ⟨blockIdx, count, ragged.length,
          decide (ragged.length > 0)⟩ := by
  have short : hashes.length ≤ 4064 := by omega
  have countRead : LittleEndian.decode
      (LittleEndian.encode 2 (hashes.length / hashSize)) = count := by
    rw [hashesLength, show hashSize = 16 from rfl, Nat.mul_div_cancel_left _ (by decide),
      LittleEndian.decode_encode_of_lt (by omega)]
  have fieldRead : LittleEndian.decode (LittleEndian.encode 2 (raggedField ragged.length)) =
        raggedField ragged.length := by
    rw [LittleEndian.decode_encode_of_lt]
    unfold raggedField
    split_ifs <;> omega
  have lengthRead : raggedField ragged.length % 32768 = ragged.length := by
    unfold raggedField
    split_ifs <;> omega
  have flagRead : (raggedField ragged.length ≥ 32768) ↔ ragged.length > 0 := by
    unfold raggedField
    split_ifs <;> omega
  have start : ((4096 * (256 * blockIdx + count + 3) : Nat) : Int) -
      (sectorSize : Nat) - ((count : Int) + 1) * (sectorSize : Nat) -
        (plogHeaderSize : Nat) = (blockIdx : Int) * (blockPhysical : Nat) := by
    simp only [sectorSize, plogHeaderSize, blockPhysical, hashesPerBlock]
    push_cast
    omega
  have noRest : (blockIdx : Int) * (blockPhysical : Nat) %
      (blockPhysical : Nat) = 0 := Int.mul_emod_left _ _
  have wholeBlocks : ((blockIdx : Int) * (blockPhysical : Nat) /
      (blockPhysical : Nat)).toNat = blockIdx := by
    rw [Int.mul_ediv_cancel _ (by decide), Int.toNat_natCast]
  have nonneg : ¬(blockIdx : Int) * (blockPhysical : Nat) < 0 :=
    Int.not_lt.mpr (Int.mul_nonneg (Int.natCast_nonneg _) (Int.natCast_nonneg _))
  unfold trailerGeometry
  simp only [slice_openTrailer_magic short, slice_openTrailer_count short,
    slice_openTrailer_ragged short, countRead, fieldRead, lengthRead, start,
    noRest, wholeBlocks, flagRead]
  rw [if_neg (fun different => different rfl),
    if_neg (by simp only [hashesPerBlock, sectorSize]; omega),
    if_neg (by simp only [ne_eq, not_true_eq_false, or_false]; exact nonneg)]

/-- A trailer that authenticates hands over its hashes and length. -/
theorem applyTrailer_openTrailer {plog : Plog} (buf_eq : plog.buf = ragged) :
    applyTrailer env plog ⟨blockIdx, count, ragged.length, decide (ragged.length > 0)⟩
      (openTrailer env blockIdx hashes ragged) =
        ({ plog with
          logicalLength :=
            blockIdx * dataPerBlock + count * sectorSize + ragged.length
          hashes := hashes }, true) := by
  have short : hashes.length ≤ 4064 := by omega
  have hashesRead : slice (openTrailer env blockIdx hashes ragged)
      openTrailerHeader (count * hashSize) = hashes := by
    rw [show count * hashSize = hashes.length by
      rw [hashesLength, Nat.mul_comm]; rfl]
    exact slice_openTrailer_hashes short
  have hashesEnd : openTrailerHeader + count * hashSize = 12 + hashes.length := by
    rw [hashesLength, Nat.mul_comm]
    rfl
  have covered : (if decide (ragged.length > 0) then plog.buf else []) = ragged := by
    rw [buf_eq]
    split_ifs with present
    · rfl
    · exact (List.eq_nil_of_length_eq_zero (by simpa using present)).symm
  unfold applyTrailer
  simp only [TrailerGeometry.hashesEnd, TrailerGeometry.sealed, hashesRead,
    hashesEnd, covered, slice_openTrailer_front short]
  rw [if_neg]
  intro different
  exact different (slice_openTrailer_mac short).symm

end TrailerFormat

section SuperblockFormat

variable {payload content : Bytes}

theorem length_superblock (env : PlogEnv) (payload : Bytes) :
    (superblock env payload).length = 4096 := by
  rw [superblock, List.length_append, superblockFront, length_resize,
    List.length_take, env.hmac.length_sum]
  rfl

theorem superblockFront_eq (fits : payload.length ≤ plogHeaderMaxPayload) :
    ∃ padding, superblockFront payload =
      plogMagic ++ (LittleEndian.encode 2 plogFormatVersion ++
        (LittleEndian.encode 4 payload.length ++ (payload ++ padding))) := by
  have magicLength : plogMagic.length = 8 := by decide
  rw [superblockFront, resize, List.take_of_length_le]
  · generalize List.replicate _ (0 : UInt8) = padding
    exact ⟨padding, by simp only [List.append_assoc]⟩
  · simp only [plogHeaderMaxPayload, plogHeaderHMACOffset, sectorSize, hashSize] at fits ⊢
    simp only [List.length_append, magicLength, LittleEndian.length_encode]
    omega

/-- The superblock of a log reads back. -/
theorem readSuperblock_eq (fits : payload.length ≤ plogHeaderMaxPayload)
    (parses : env.parses payload = true)
    (content_eq : slice content 0 4096 = superblock env payload) (size : 4096 ≤ content.length) :
    readSuperblock env content = .ok payload := by
  obtain ⟨padding, front_eq⟩ := superblockFront_eq fits
  have frontLength : (superblockFront payload).length = 4080 := length_resize _ _ _
  have magicLength : plogMagic.length = 8 := by decide
  have macLength : ((env.hmac.sum (superblockFront payload)).take hashSize).length = 16 := by
    rw [List.length_take, env.hmac.length_sum]
    rfl
  have whole : superblock env payload = plogMagic ++
      (LittleEndian.encode 2 plogFormatVersion ++
        (LittleEndian.encode 4 payload.length ++ (payload ++
          (padding ++ (env.hmac.sum (superblockFront payload)).take hashSize)))) := by
    rw [superblock]
    nth_rewrite 1 [front_eq]
    simp only [List.append_assoc]
  have magicRead : slice (superblock env payload) 0 8 = plogMagic :=
    slice_eq_field (by rw [whole, List.nil_append]) rfl magicLength
  have versionRead : slice (superblock env payload) 8 2 = LittleEndian.encode 2 plogFormatVersion :=
    slice_eq_field whole magicLength (by simp)
  have countRead : slice (superblock env payload) 10 4 = LittleEndian.encode 4 payload.length :=
    slice_eq_field (by rw [whole, ← List.append_assoc]) (by simp [magicLength]) (by simp)
  have payloadRead : slice (superblock env payload) 14 payload.length = payload :=
    slice_eq_field (by rw [whole, ← List.append_assoc, ← List.append_assoc])
      (by simp [magicLength]) rfl
  have frontRead : slice (superblock env payload) 0 plogHeaderHMACOffset =
      superblockFront payload :=
    slice_eq_field (by rw [superblock, List.nil_append]) rfl frontLength
  have macRead : slice (superblock env payload) plogHeaderHMACOffset
      hashSize = (env.hmac.sum (superblockFront payload)).take hashSize :=
    slice_eq_field (by rw [superblock, List.append_nil]) frontLength macLength
  have count : LittleEndian.decode (LittleEndian.encode 4 payload.length) = payload.length := by
    rw [LittleEndian.decode_encode_of_lt]
    have bound : plogHeaderMaxPayload < 256 ^ 4 := by decide
    omega
  have version : LittleEndian.decode
      (LittleEndian.encode 2 plogFormatVersion) = plogFormatVersion := by
    decide
  unfold readSuperblock
  simp only [show plogHeaderSize = 4096 from rfl, content_eq, magicRead,
    versionRead, countRead, count, version, frontRead, macRead, payloadRead,
    parses]
  rw [if_neg (by rintro (short | different)
                 · omega
                 · exact different rfl),
    if_neg (fun different => different rfl),
    if_neg (fun different => different rfl), if_neg (by omega)]
  rfl

end SuperblockFormat

end Rose
