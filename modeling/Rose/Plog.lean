import Rose.FixedBlocks
import Rose.PlogGeometry

/-!
# Physical logs

The in-memory state of a log and the formats it writes: the superblock, the
hash sector that closes a block, and the trailer that a commit leaves behind an
open block.  Reading checks every sealed sector against its recorded hash.
-/

namespace Rose

open ListSplice

/-- The digests a log uses, and which superblock payloads parse. -/
structure PlogEnv where
  sha : Sha256
  hmac : Sha256
  parses : Bytes → Bool

structure Plog where
  id : Nat
  undoActive : Bool
  undoStart : Nat
  logicalLength : Nat
  loadedFromTrailer : Bool
  openUnverified : Bool
  buf : Bytes
  bufCorrupt : Bool
  hashes : Bytes
  header : Bytes
deriving DecidableEq, Repr

/-- The length of the sealed sectors. -/
def Plog.sealed (plog : Plog) : Nat := plog.logicalLength - plog.buf.length

def sectorHash (env : PlogEnv) (data : Bytes) : Bytes := (env.sha.sum data).take hashSize

def completedBlockMAC (env : PlogEnv) (blockIdx : Nat) (hashes : Bytes) :
    Bytes :=
  (env.hmac.sum (LittleEndian.encode 8 blockIdx ++ hashes)).take hashSize

def openBlockMAC (env : PlogEnv) (blockIdx : Nat) (front ragged : Bytes) :
    Bytes :=
  (env.hmac.sum (LittleEndian.encode 8 blockIdx ++ (front ++ ragged))).take hashSize

section Superblock

def plogMagic : Bytes := "ROSEPLG1".toUTF8.data.toList

def plogFormatVersion : Nat := 4

def plogHeaderHMACOffset : Nat := sectorSize - hashSize

def plogHeaderMaxPayload : Nat := plogHeaderHMACOffset - 14

def superblockFront (payload : Bytes) : Bytes := resize 0 plogHeaderHMACOffset
    (plogMagic ++ LittleEndian.encode 2 plogFormatVersion ++
      LittleEndian.encode 4 payload.length ++ payload)

/-- The first sector of a log with this header payload. -/
def superblock (env : PlogEnv) (payload : Bytes) : Bytes := superblockFront payload ++
    (env.hmac.sum (superblockFront payload)).take hashSize

def readSuperblock (env : PlogEnv) (content : Bytes) : Except String Bytes :=
  let sec := slice content 0 plogHeaderSize
  let version := LittleEndian.decode (slice sec 8 2)
  let count := LittleEndian.decode (slice sec 10 4)
  if content.length < plogHeaderSize ∨ slice sec 0 8 ≠ plogMagic then
    .error "unrecognized plog format (missing superblock magic)"
  else if version ≠ plogFormatVersion then
    .error s!"plog format version {version} unsupported (want 4)"
  else if (env.hmac.sum (slice sec 0 plogHeaderHMACOffset)).take hashSize ≠
      slice sec plogHeaderHMACOffset hashSize then
    .error "plog superblock corrupt"
  else if count > plogHeaderMaxPayload then
    .error "plog superblock corrupt"
  else if env.parses (slice sec 14 count) then
    .ok (slice sec 14 count)
  else
    .error "unmarshal plog header"

end Superblock

section Sealing

/-- What sealing sectors changes, with the bytes to be written. -/
structure SealState where
  logicalLength : Nat
  hashes : Bytes
  writeBuf : Bytes
deriving DecidableEq, Repr

/-- The sector that closes a block. -/
def hashSector (env : PlogEnv) (blockIdx : Nat) (hashes : Bytes) : Bytes :=
  hashes ++ completedBlockMAC env blockIdx hashes

/-- Seal one sector; the 255th of a block is followed by the hash sector. -/
def sealSector (env : PlogEnv) (state : SealState) (sector : Bytes) :
    SealState :=
  let length := state.logicalLength + sectorSize
  let hashes := state.hashes ++ sectorHash env sector
  if hashes.length = hashesPerBlock * hashSize then
    ⟨length, [], state.writeBuf ++ sector ++ hashSector env (length / dataPerBlock - 1) hashes⟩
  else
    ⟨length, hashes, state.writeBuf ++ sector⟩

/-- Seal the full sectors of the data and return what is left. -/
def sealLoop (env : PlogEnv) (state : SealState) (data : Bytes) : SealState × Bytes :=
  if sectorSize ≤ data.length then
    sealLoop env (sealSector env state (data.take sectorSize)) (data.drop sectorSize)
  else
    (state, data)
termination_by data.length
decreasing_by
  rw [List.length_drop, sectorSize] at *
  omega

end Sealing

section Trailer

def openTrailerMagic : Bytes := "ROSEOPB1".toUTF8.data.toList

def openTrailerHeader : Nat := 12

/-- The part of the trailer before its MAC.  A ragged edge sets the top bit of
its length field. -/
def trailerFront (hashes : Bytes) (raggedLen : Nat) : Bytes :=
  openTrailerMagic ++ LittleEndian.encode 2 (hashes.length / hashSize) ++ LittleEndian.encode 2
      (if raggedLen > 0 then raggedLen + 32768 else raggedLen) ++ hashes

def openTrailer (env : PlogEnv) (blockIdx : Nat) (hashes ragged : Bytes) :
    Bytes :=
  resize 0 sectorSize (trailerFront hashes ragged.length ++
    openBlockMAC env blockIdx (trailerFront hashes ragged.length) ragged)

def buildOpenTrailer (env : PlogEnv) (plog : Plog) : Bytes :=
  openTrailer env (plog.sealed / dataPerBlock) plog.hashes plog.buf

/-- The fields of a sector that has the magic and geometry of a trailer. -/
structure TrailerGeometry where
  blockIdx : Nat
  count : Nat
  raggedLen : Nat
  authenticatesRagged : Bool
deriving DecidableEq, Repr

namespace TrailerGeometry

def sealed (geometry : TrailerGeometry) : Nat :=
  geometry.blockIdx * dataPerBlock + geometry.count * sectorSize

def hashesEnd (geometry : TrailerGeometry) : Nat := openTrailerHeader + geometry.count * hashSize

end TrailerGeometry

/-- Whether the last sector of a file of this size could be a trailer. -/
def trailerGeometry (trailer : Bytes) (size : Nat) : Option TrailerGeometry :=
  let count := LittleEndian.decode (slice trailer 8 2)
  let raggedField := LittleEndian.decode (slice trailer 10 2)
  let raggedLen := raggedField % 32768
  let blockStartPhys : Int := (size : Int) - sectorSize - (count + 1) * sectorSize
  let dataRelStart := blockStartPhys - plogHeaderSize
  if slice trailer 0 8 ≠ openTrailerMagic then
    none
  else if count ≥ hashesPerBlock ∨ raggedLen ≥ sectorSize ∨ (count = 0 ∧ raggedLen = 0) then
    none
  else if dataRelStart < 0 ∨ dataRelStart % blockPhysical ≠ 0 then
    none
  else
    some ⟨(dataRelStart / blockPhysical).toNat, count, raggedLen,
      decide (raggedField ≥ 32768)⟩

/-- Take over the geometry and the hashes of a trailer.  A bad MAC poisons them
when it was to cover a ragged edge, and is otherwise no trailer at all. -/
def applyTrailer (env : PlogEnv) (plog : Plog) (geometry : TrailerGeometry) (trailer : Bytes) :
    Plog × Bool :=
  let hashes := slice trailer openTrailerHeader (geometry.count * hashSize)
  let ragged := if geometry.authenticatesRagged then plog.buf else []
  let want := openBlockMAC env geometry.blockIdx (slice trailer 0 geometry.hashesEnd) ragged
  let loaded := { plog with
    logicalLength := geometry.sealed + geometry.raggedLen, hashes := hashes }
  if want ≠ slice trailer geometry.hashesEnd hashSize then
    if geometry.authenticatesRagged then
      ({ loaded with
        bufCorrupt := true, hashes := List.replicate hashes.length 0 }, true)
    else
      (loaded, false)
  else
    (loaded, true)

end Trailer

end Rose
