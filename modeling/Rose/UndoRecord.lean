import Rose.ChunkPlacements
import Rose.LittleEndian

/-!
# The undo record

The rollback journal of a data file holds one record: a header with the start
of the saved suffix, the size of the file it was taken from and the digest of
the file's first sector, then the suffix, then a digest of everything before.
Reading checks the length, the geometry and the digest, in this order.
-/

namespace Rose

open ListSplice

def sectorSize : Nat := 4096

def undoHeaderSize : Nat := 56

def undoMagic : Bytes := "ROSEUND1".toUTF8.data.toList

/-- A digest function with the output size of SHA-256. -/
structure Sha256 where
  sum : Bytes → Bytes
  length_sum : ∀ data, (sum data).length = 32

/-- The signed reading of a 64-bit word. -/
def int64 (word : Nat) : Int :=
  if word < 2 ^ 63 then word else word - 2 ^ 64

theorem int64_of_lt {word : Nat} (fits : word < 2 ^ 63) : int64 word = word := by
  rw [int64, if_pos fits]

structure UndoRecord where
  identity : Bytes
  start : Nat
  size : Nat
  payload : Bytes
deriving DecidableEq, Repr

/-- A record whose fields fit the format. -/
structure UndoRecord.Valid (record : UndoRecord) : Prop where
  identitySize : record.identity.length = 32
  startLe : record.start ≤ record.size
  payloadSize : record.payload.length = record.size - record.start
  fits : record.size < 2 ^ 63

def undoHeader (identity : Bytes) (start size : Nat) : Bytes :=
  undoMagic ++ LittleEndian.encode 8 start ++ LittleEndian.encode 8 size ++ identity

/-- A journal with its closing digest. -/
def sealUndo (sha : Sha256) (body : Bytes) : Bytes := body ++ sha.sum body

def UndoRecord.body (record : UndoRecord) : Bytes :=
  undoHeader record.identity record.start record.size ++ record.payload

def decodeUndo (sha : Sha256) (content : Bytes) : Except String UndoRecord :=
  let header := slice content 0 undoHeaderSize
  let start := int64 (LittleEndian.decode (slice header 8 8))
  let size := int64 (LittleEndian.decode (slice header 16 8))
  let body := slice content 0 (content.length - 32)
  if content.length < undoHeaderSize + 32 then
    .error "short undo journal"
  else if slice header 0 8 ≠ undoMagic ∨ start < 0 ∨ size < start ∨
      size - start ≠ (content.length : Int) - undoHeaderSize - 32 then
    .error "invalid undo journal geometry"
  else if sha.sum body ≠ slice content (content.length - 32) 32 then
    .error "undo journal checksum mismatch"
  else
    .ok ⟨slice header 24 32, start.toNat, size.toNat,
      slice content undoHeaderSize (size - start).toNat⟩

@[simp]
theorem length_undoMagic : undoMagic.length = 8 := by
  decide

theorem length_undoHeader {identity : Bytes} (identitySize : identity.length = 32)
    (start size : Nat) :
    (undoHeader identity start size).length = undoHeaderSize := by
  simp [undoHeader, undoHeaderSize, identitySize]

theorem slice_undoHeader_magic (identity : Bytes) (start size : Nat) :
    slice (undoHeader identity start size) 0 8 = undoMagic :=
  slice_eq_field
    (by rw [undoHeader, List.append_assoc, List.append_assoc,
      List.nil_append]) List.length_nil (by simp)

theorem slice_undoHeader_start (identity : Bytes) (start size : Nat) :
    slice (undoHeader identity start size) 8 8 = LittleEndian.encode 8 start :=
  slice_eq_field (by rw [undoHeader, List.append_assoc, List.append_assoc])
    length_undoMagic (by simp)

theorem slice_undoHeader_size (identity : Bytes) (start size : Nat) :
    slice (undoHeader identity start size) 16 8 = LittleEndian.encode 8 size :=
  slice_eq_field (by rw [undoHeader, List.append_assoc]) (by simp) (by simp)

theorem slice_undoHeader_identity {identity : Bytes} (identitySize : identity.length = 32)
    (start size : Nat) :
    slice (undoHeader identity start size) 24 32 = identity :=
  slice_eq_field (by rw [List.append_nil, undoHeader]) (by simp) identitySize

/-- A sealed valid record reads back. -/
theorem decodeUndo_sealUndo (sha : Sha256) {record : UndoRecord} (valid : record.Valid) :
    decodeUndo sha (sealUndo sha record.body) = .ok record := by
  obtain ⟨identitySize, startLe, payloadSize, fits⟩ := valid
  have headerSize := length_undoHeader identitySize record.start record.size
  have digestSize := sha.length_sum record.body
  have bodySize : record.body.length = undoHeaderSize + (record.size - record.start) := by
    rw [UndoRecord.body, List.length_append, headerSize, payloadSize]
  have contentSize : (sealUndo sha record.body).length = record.body.length + 32 := by
    rw [sealUndo, List.length_append, digestSize]
  have bodyFits : sealUndo sha record.body = undoHeader record.identity record.start record.size ++
        (record.payload ++ sha.sum record.body) := by
    rw [sealUndo, UndoRecord.body, List.append_assoc]
  have header : slice (sealUndo sha record.body) 0 undoHeaderSize =
      undoHeader record.identity record.start record.size :=
    slice_eq_field (by rw [bodyFits, List.nil_append]) List.length_nil headerSize
  have body : slice (sealUndo sha record.body) 0 record.body.length = record.body :=
    slice_eq_field (by rw [sealUndo, List.nil_append]) List.length_nil rfl
  have digest : slice (sealUndo sha record.body) record.body.length 32 = sha.sum record.body :=
    slice_eq_field (by rw [sealUndo, List.append_nil]) rfl digestSize
  have payload : slice (sealUndo sha record.body) undoHeaderSize
      (record.size - record.start) = record.payload :=
    slice_eq_field bodyFits headerSize payloadSize
  have startRead : int64 (LittleEndian.decode
      (LittleEndian.encode 8 record.start)) = record.start := by
    rw [LittleEndian.decode_encode_of_lt (by omega), int64_of_lt (by omega)]
  have sizeRead : int64 (LittleEndian.decode
      (LittleEndian.encode 8 record.size)) = record.size := by
    rw [LittleEndian.decode_encode_of_lt (by omega), int64_of_lt (by omega)]
  have span : ((record.size : Int) - record.start).toNat = record.size - record.start := by omega
  have geometry : ¬(undoMagic ≠ undoMagic ∨ (record.start : Int) < 0 ∨
      (record.size : Int) < record.start ∨
      (record.size : Int) - record.start ≠
        ((record.body.length + 32 : Nat) : Int) - undoHeaderSize - 32) := by
    rw [bodySize]
    simp only [ne_eq, not_true_eq_false, false_or]
    omega
  simp only [decodeUndo, contentSize, Nat.add_sub_cancel, header, body, digest,
    slice_undoHeader_magic, slice_undoHeader_start, slice_undoHeader_size,
    slice_undoHeader_identity identitySize, startRead, sizeRead, span, payload]
  rw [if_neg (by omega), if_neg geometry,
    if_neg (fun different => different rfl), Int.toNat_natCast,
    Int.toNat_natCast]

end Rose
