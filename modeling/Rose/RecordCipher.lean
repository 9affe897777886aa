import Mathlib.Algebra.Order.Ring.Int
import Rose.ChunkPlacements
import Rose.CounterMode

/-!
# The cipher of chunk records

Every record is encrypted with AES in counter mode from a start block of its
own.  A slice of a record is decrypted without the bytes before it: the counter
is moved on by the blocks that are skipped, with the carry from its low half to
its high half added by hand.
-/

namespace Rose

open ListSplice CounterMode

/-- The 16 bytes of a block, read as one big-endian number. -/
abbrev CipherBlock := BitVec 128

def CipherBlock.bytes (block : CipherBlock) : Bytes :=
  (List.range 16).map fun i => UInt8.ofBitVec (block.extractLsb' (8 * (15 - i)) 8)

def addCounter (counter : CipherBlock) (n : UInt64) : CipherBlock :=
  let lo := UInt64.ofBitVec (counter.extractLsb' 0 64)
  let hi := UInt64.ofBitVec (counter.extractLsb' 64 64)
  let lo2 := lo + n
  (if lo2 < lo then hi + 1 else hi).toBitVec ++ lo2.toBitVec

/-- The stream of a cipher in counter mode, its counter incremented as one
number. -/
def xorCTR (block : CipherBlock → CipherBlock) (stream : Stream CipherBlock) (data : Bytes) :
    Bytes × Stream CipherBlock :=
  xorKeyStream (fun counter => (block counter).bytes) (· + 1) stream data

/-- Combine a part of a record with the key stream from `recordOffset` on. -/
def applyAES128CTR (aes : CipherBlock → CipherBlock → CipherBlock)
    (vlogKey chunkStream : CipherBlock) (recordOffset : Int) (buf : Bytes) :
    Except String Bytes :=
  if recordOffset < 0 then
    .error s!"negative record offset {recordOffset}"
  else if buf.length = 0 then
    .ok buf
  else
    let blockSkip := UInt64.ofNat (recordOffset / 16).toNat
    let byteSkip := (recordOffset % 16).toNat
    let fresh : Stream CipherBlock := ⟨addCounter chunkStream blockSkip, []⟩
    let stream :=
      if byteSkip ≠ 0 then (xorCTR (aes vlogKey) fresh (List.replicate byteSkip 0)).2 else fresh
    .ok (xorCTR (aes vlogKey) stream buf).1

/-- Apply the cipher to consecutive slices, each at its own offset. -/
def applyToSlices (aes : CipherBlock → CipherBlock → CipherBlock)
    (vlogKey chunkStream : CipherBlock) : Int → List Bytes → Except String Bytes
  | _, [] => .ok []
  | recordOffset, piece :: rest => do
    let first ← applyAES128CTR aes vlogKey chunkStream recordOffset piece
    let others ← applyToSlices aes vlogKey chunkStream (recordOffset + piece.length) rest
    .ok (first ++ others)

variable {aes : CipherBlock → CipherBlock → CipherBlock} {vlogKey chunkStream : CipherBlock}

@[simp] theorem CipherBlock.length_bytes (block : CipherBlock) : block.bytes.length = 16 := by
  simp [CipherBlock.bytes]

/-- The carry by hand is the carry of the whole number. -/
theorem addCounter_eq (counter : CipherBlock) (n : UInt64) :
    addCounter counter n = counter + BitVec.ofNat 128 n.toNat := by
  have small := n.toNat_lt
  have bound := counter.isLt
  have low : (counter.extractLsb' 0 64).toNat = counter.toNat % 2 ^ 64 := by simp
  have high : (counter.extractLsb' 64 64).toNat = counter.toNat / 2 ^ 64 := by
    rw [BitVec.extractLsb'_toNat, Nat.shiftRight_eq_div_pow]
    omega
  apply BitVec.eq_of_toNat_eq
  unfold addCounter
  simp only [BitVec.toNat_append, UInt64.toNat_toBitVec, BitVec.toNat_add, BitVec.toNat_ofNat]
  rw [← Nat.shiftLeft_add_eq_or_of_lt (UInt64.toNat_lt _), Nat.shiftLeft_eq]
  split_ifs with carries
  all_goals
    rw [UInt64.lt_iff_toNat_lt] at carries
    simp only [UInt64.toNat_add, UInt64.toNat_ofBitVec, low, high, UInt64.toNat_one] at carries ⊢
    omega

theorem iterate_increment (counter : CipherBlock) (count : Nat) :
    (· + 1)^[count] counter = counter + BitVec.ofNat 128 count := by
  induction count with
  | zero => simp
  | succ count ih =>
    rw [Function.iterate_succ_apply', ih, BitVec.add_assoc]
    congr 1
    apply BitVec.eq_of_toNat_eq
    simp

/-- A part of a record combined with the key stream from `offset` on, where all
bytes before it have been passed over. -/
def recordXor (aes : CipherBlock → CipherBlock → CipherBlock) (vlogKey chunkStream : CipherBlock)
    (offset : Nat) (data : Bytes) : Bytes :=
  (xorCTR (aes vlogKey)
    (advance (fun counter => (aes vlogKey counter).bytes) (· + 1) offset ⟨chunkStream, []⟩) data).1

@[simp] theorem length_recordXor (offset : Nat) (data : Bytes) :
    (recordXor aes vlogKey chunkStream offset data).length = data.length :=
  length_xorKeyStream

@[simp] theorem recordXor_twice (offset : Nat) (data : Bytes) :
    recordXor aes vlogKey chunkStream offset (recordXor aes vlogKey chunkStream offset data) =
      data :=
  xorKeyStream_twice

theorem recordXor_append (offset : Nat) (front back : Bytes) :
    recordXor aes vlogKey chunkStream offset (front ++ back) =
      recordXor aes vlogKey chunkStream offset front ++
        recordXor aes vlogKey chunkStream (offset + front.length) back := by
  unfold recordXor
  rw [advance_add]
  exact xorKeyStream_append front back

theorem recordXor_slice (offset : Nat) {record front middle back : Bytes}
    (split : record = front ++ (middle ++ back)) :
    slice (recordXor aes vlogKey chunkStream offset record) front.length middle.length =
      recordXor aes vlogKey chunkStream (offset + front.length) middle := by
  rw [split, recordXor_append, recordXor_append]
  exact slice_eq_field rfl (length_recordXor _ _) (length_recordXor _ _)

/-- Seeking reaches the stream that passing over all bytes before reaches. -/
theorem applyAES128CTR_eq {offset : Nat} (fits : offset < 2 ^ 63) (buf : Bytes) :
    applyAES128CTR aes vlogKey chunkStream offset buf =
      .ok (recordXor aes vlogKey chunkStream offset buf) := by
  have skipped : (UInt64.ofNat (offset / 16)).toNat = offset / 16 := by
    rw [UInt64.toNat_ofNat']
    omega
  have fresh : (⟨addCounter chunkStream (UInt64.ofNat (offset / 16)), []⟩ : Stream CipherBlock) =
      advance (fun counter => (aes vlogKey counter).bytes) (· + 1) (16 * (offset / 16))
        ⟨chunkStream, []⟩ := by
    rw [addCounter_eq, skipped, ← iterate_increment]
    exact (advance_blocks (fun counter => (aes vlogKey counter).length_bytes) _ _).symm
  have seeks := @advance_add _ (fun counter => (aes vlogKey counter).bytes) (· + 1)
    (16 * (offset / 16)) (offset % 16) ⟨chunkStream, []⟩
  rw [Nat.div_add_mod] at seeks
  unfold applyAES128CTR recordXor
  rw [if_neg (by omega)]
  split_ifs with empty
  · rw [List.eq_nil_of_length_eq_zero empty]
    rfl
  · change Except.ok (xorCTR (aes vlogKey) (if offset % 16 ≠ 0 then (xorCTR (aes vlogKey)
      ⟨addCounter chunkStream (UInt64.ofNat (offset / 16)), []⟩
        (List.replicate (offset % 16) 0)).2 else ⟨addCounter chunkStream
          (UInt64.ofNat (offset / 16)), []⟩) buf).1 = _
    rw [fresh, seeks]
    split_ifs with unaligned
    · rw [xorCTR, xorCTR, xorKeyStream_snd, List.length_replicate]
      rfl
    · rw [not_not.mp unaligned]
      rfl

theorem applyToSlices_eq {front : Nat} {pieces : List Bytes}
    (fits : front + pieces.flatten.length < 2 ^ 63) :
    applyToSlices aes vlogKey chunkStream front pieces =
      .ok (recordXor aes vlogKey chunkStream front pieces.flatten) := by
  induction pieces generalizing front with
  | nil => rfl
  | cons piece rest ih =>
    rw [List.flatten_cons, List.length_append] at fits
    have later := @ih (front + piece.length) (by omega)
    rw [Int.natCast_add] at later
    rw [applyToSlices, applyAES128CTR_eq (by omega), later, List.flatten_cons, recordXor_append]
    rfl

/-- Slices of a record are encrypted as the whole record is, and applying the
cipher twice gives the bytes back. -/
theorem applyAES128CTR_random_access (aes : CipherBlock → CipherBlock → CipherBlock)
    (vlogKey chunkStream : CipherBlock) (record : Bytes) (fits : record.length < 2 ^ 63) :
    (∃ whole, applyAES128CTR aes vlogKey chunkStream 0 record = .ok whole ∧
      (∀ front middle back, record = front ++ (middle ++ back) →
        applyAES128CTR aes vlogKey chunkStream front.length middle =
          .ok (slice whole front.length middle.length)) ∧
      ∀ pieces : List Bytes, pieces.flatten = record →
        applyToSlices aes vlogKey chunkStream 0 pieces = .ok whole) ∧
    ∀ (recordOffset : Int) (buf : Bytes), 0 ≤ recordOffset → recordOffset < 2 ^ 63 →
      ∃ out, applyAES128CTR aes vlogKey chunkStream recordOffset buf = .ok out ∧
        applyAES128CTR aes vlogKey chunkStream recordOffset out = .ok buf := by
  refine ⟨⟨_, applyAES128CTR_eq (by decide) record, ?_, ?_⟩, ?_⟩
  · intro front middle back split
    rw [split, List.length_append, List.length_append] at fits
    rw [recordXor_slice 0 split, Nat.zero_add]
    exact applyAES128CTR_eq (by omega) middle
  · rintro pieces rfl
    exact @applyToSlices_eq aes vlogKey chunkStream 0 pieces (by omega)
  · intro recordOffset buf nonneg below
    obtain ⟨offset, rfl⟩ := Int.eq_ofNat_of_zero_le nonneg
    refine ⟨_, applyAES128CTR_eq (by omega) buf, ?_⟩
    rw [applyAES128CTR_eq (by omega), recordXor_twice]

theorem wrapped_counter_gives_slices :
    ∃ whole, applyAES128CTR (· ^^^ ·) 5 (-1) 0 (List.replicate 40 7) = .ok whole ∧
      applyAES128CTR (· ^^^ ·) 5 (-1) 17 (List.replicate 23 7) = .ok (slice whole 17 23) := by
  obtain ⟨⟨whole, encrypts, slices, -⟩, -⟩ :=
    applyAES128CTR_random_access (· ^^^ ·) 5 (-1) (List.replicate 40 7) (by decide)
  exact ⟨whole, encrypts, slices (List.replicate 17 7) (List.replicate 23 7) [] (by decide)⟩

end Rose
