import Rose.PlogPrograms

/-!
# Recovering hashes from the catalog

Without a trailer nothing vouches for the open block of a log.  The catalog knows
the chunks that lie in it, with hashes of their content: a sector that validated
chunks cover completely gets its hash back, and the open sector is trusted if
such chunks cover it.
-/

namespace Rose

open ListSplice FaultyPrograms

/-- A record of the catalog that should lie in a log. -/
structure RecoveredChunk where
  logicalStart : Int
  length : Int
  payloadOffset : Int
  hash : Bytes
  validate : Option (Bytes → Bool)

/-- The chunks of a log between two physical offsets. -/
abbrev ChunkRecoverer := Nat → Nat → Nat → Except String (List RecoveredChunk)

/-- Read from `cur` to `stop` without checking any hash. -/
def readUnverifiedLoop (content : Bytes) (stop : Nat) :
    Nat → Nat → Except String Bytes
  | 0, cur => if cur < stop then .error "read makes no progress" else .ok []
  | rounds + 1, cur =>
    if cur < stop then do
      let sectorStart := cur / sectorSize * sectorSize
      let posInSector := cur - sectorStart
      let count := min (sectorSize - posInSector) (stop - cur)
      let part ← readAt content (calcPhysical sectorStart + posInSector) count
      let rest ← readUnverifiedLoop content stop rounds (cur + count)
      .ok (part ++ rest)
    else
      .ok []

def readLogicalUnverified (content : Bytes) (offset length : Nat) :
    Except String Bytes :=
  readUnverifiedLoop content (offset + length) length offset

namespace RecoveredChunk

/-- The chunk does not lie in a log of this length. -/
def Outside (chunk : RecoveredChunk) (logicalLength : Nat) : Prop :=
  chunk.logicalStart < 0 ∨ chunk.length ≤ 0 ∨ chunk.length > logicalLength - chunk.logicalStart

instance (chunk : RecoveredChunk) (logicalLength : Nat) :
    Decidable (chunk.Outside logicalLength) :=
  inferInstanceAs (Decidable (_ ∨ _))

/-- Whether the bytes in the file are the chunk's. -/
def accepts (env : PlogEnv) (chunk : RecoveredChunk) (data : Bytes) : Bool :=
  match chunk.validate with
  | some valid => valid data
  | none =>
    decide (0 ≤ chunk.payloadOffset ∧ chunk.payloadOffset ≤ data.length) &&
      decide ((env.sha.sum (data.drop chunk.payloadOffset.toNat)).take 15 = chunk.hash)

end RecoveredChunk

/-- A chunk with its bytes, if they could be validated. -/
abbrev VerifiedChunk := RecoveredChunk × Option Bytes

def verifyChunk (env : PlogEnv) (chunk : RecoveredChunk) :
    Program PlogWorld VerifiedChunk := do
  let world ← current
  if chunk.Outside world.plog.logicalLength then
    pure (chunk, none)
  else do
    let read ← attempt (inspect "read" fun world =>
      readLogicalUnverified world.content chunk.logicalStart.toNat chunk.length.toNat)
    match read with
    | .error _ => pure (chunk, none)
    | .ok data =>
      if chunk.accepts env data then
        pure (chunk, some data)
      else
        pure (chunk, none)

def verifyChunks (env : PlogEnv) :
    List RecoveredChunk → Program PlogWorld (List VerifiedChunk)
  | [] => pure []
  | chunk :: chunks => do
      let first ← verifyChunk env chunk
      let rest ← verifyChunks env chunks
      pure (first :: rest)

/-- Lay the chunks over the bytes from `start` to `stop`; a chunk that reaches
into them and was not validated spoils them. -/
def coverSector (start stop : Nat) :
    List VerifiedChunk → List (Option UInt8) → Option (List (Option UInt8))
  | [], sector => some sector
  | (chunk, verified) :: chunks, sector =>
    if chunk.logicalStart ≥ stop ∨ chunk.logicalStart + chunk.length ≤ start then
      coverSector start stop chunks sector
    else
      match verified with
      | none => none
      | some data =>
        let low := max start chunk.logicalStart.toNat
        let high := min stop (chunk.logicalStart + chunk.length).toNat
        coverSector start stop chunks (copyAt sector (low - start)
          ((slice data (low - chunk.logicalStart.toNat) (high - low)).map some))

/-- The bytes from `start` to `stop`, if validated chunks cover all of them. -/
def authenticatedSector (start stop : Nat) (chunks : List VerifiedChunk) :
    Option Bytes :=
  match coverSector start stop chunks (List.replicate (stop - start) none) with
  | none => none
  | some sector =>
    if sector.all Option.isSome then some (sector.filterMap id) else none

namespace Plog

/-- The start of the open block. -/
def openStart (plog : Plog) : Nat := blockStartOf plog.aligned

/-- Drop all evidence for the open block. -/
def invalidate (plog : Plog) : Plog :=
  { plog with
    hashes := List.replicate
      ((plog.aligned - plog.openStart) / sectorSize * hashSize) 0
    bufCorrupt := decide (plog.part > 0)
    openUnverified := decide (plog.openStart < plog.logicalLength) }

/-- Take over one sector of the open block; the flag says whether all sectors
were validated so far. -/
def authenticateSector (env : PlogEnv) (chunks : List VerifiedChunk) (state : Plog × Bool)
    (start : Nat) : Plog × Bool :=
  let plog := state.1
  match authenticatedSector start (min (start + sectorSize) plog.logicalLength) chunks with
  | none => (plog, false)
  | some sector =>
    if start = plog.aligned then
      ({ plog with buf := copyAt plog.buf 0 sector, bufCorrupt := false }, state.2)
    else
      let position := (start - plog.openStart) / sectorSize * hashSize
      ({ plog with
        hashes := copyAt plog.hashes position (sectorHash env sector) },
        state.2)

/-- Where the sectors of the open block start. -/
def openSectorStarts (plog : Plog) : List Nat :=
  (List.range ((plog.logicalLength - plog.openStart + (sectorSize - 1)) /
    sectorSize)).map fun pos => plog.openStart + pos * sectorSize

def authenticateSectors (env : PlogEnv) (chunks : List VerifiedChunk) (plog : Plog) : Plog × Bool :=
  plog.openSectorStarts.foldl (authenticateSector env chunks) (plog, true)

/-- Take over every sector of the open block that validated chunks cover. -/
def authenticate (env : PlogEnv) (chunks : List VerifiedChunk) (plog : Plog) :
    Plog :=
  let result := authenticateSectors env chunks plog
  { result.1 with openUnverified := !result.2 }

end Plog

/-- Authenticate the open block by the catalog.  The evidence is dropped before
the catalog is asked. -/
def recoverHashes (env : PlogEnv) (recoverer : ChunkRecoverer) :
    Program PlogWorld Unit := do
  let world ← current
  let plog := world.plog
  if plog.loadedFromTrailer then
    pure ()
  else do
    setPlog Plog.invalidate
    if plog.openStart = plog.logicalLength then
      pure ()
    else
      match recoverer plog.id (calcPhysical plog.openStart) (calcPhysical plog.logicalLength) with
      | .error reason => raise reason
      | .ok chunks => do
          let verified ← verifyChunks env chunks
          setPlog fun plog => plog.authenticate env verified

end Rose
