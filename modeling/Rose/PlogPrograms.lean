import Rose.PlogReads
import Rose.UndoJournal

/-!
# The operations of a physical log

Appending, truncating, committing and opening a log, as programs over the file
with its undo journal and the log's memory.  Memory is updated where the source
updates it, so that an operation cut short leaves what the source would leave.
-/

namespace Rose

open ListSplice DurableFiles FaultyPrograms

/-- The store on disk and the log in memory. -/
structure PlogWorld where
  store : UndoStore
  plog : Plog

/-- The bytes of the file as reads see them. -/
def PlogWorld.content (world : PlogWorld) : Bytes := world.store.file.view

variable {α : Type}

/-- Run a program on the store. -/
def onStore (program : Program UndoStore α) : Program PlogWorld α :=
  within PlogWorld.store (fun store world => { world with store := store }) program

def setPlog (change : Plog → Plog) : Program PlogWorld Unit :=
  update fun world => { world with plog := change world.plog }

def readFile (offset count : Nat) : Program PlogWorld Bytes :=
  inspect "read" fun world => readAt world.content offset count

def readPlog (env : PlogEnv) (offset length : Int) :
    Program PlogWorld Bytes :=
  inspect "read" fun world =>
    readLocked env world.plog world.content offset length

/-- Save the file from `start` on, unless the journal already does. -/
def protectPrefixLocked (env : PlogEnv) (start : Nat) :
    Program PlogWorld Unit := do
  let world ← current
  if world.plog.undoActive ∧ world.plog.undoStart ≤ start then
    pure ()
  else do
    labelled s!"protect plog {world.plog.id} prefix: " (onStore (saveUndo env.sha start))
    setPlog fun plog => { plog with undoActive := true, undoStart := start }

section Appending

/-- The log after data that fits into the open sector. -/
def Plog.buffer (plog : Plog) (data : Bytes) : Plog :=
  { plog with
    buf := plog.buf ++ data
    logicalLength := plog.logicalLength + data.length }

/-- Seal the open sector and every full sector after it. -/
def sealData (env : PlogEnv) (plog : Plog) (data : Bytes) : SealState × Bytes :=
  let space := sectorSize - plog.buf.length
  let first : SealState := ⟨plog.logicalLength - plog.buf.length, plog.hashes, []⟩
  sealLoop env (sealSector env first (plog.buf ++ data.take space)) (data.drop space)

/-- The log after sealing, with the rest of the data in the open sector. -/
def Plog.sealedWith (plog : Plog) (result : SealState × Bytes) : Plog :=
  { plog with
    logicalLength := result.1.logicalLength + result.2.length
    hashes := result.1.hashes
    buf := result.2 }

/-- Append data and return where it starts.  The memory of the log changes only
if the batched write succeeds. -/
def writeLocked (env : PlogEnv) (data : Bytes) : Program PlogWorld Nat := do
  let world ← current
  let plog := world.plog
  if plog.bufCorrupt ∨ plog.openUnverified then
    raise s!"plog {plog.id} open sector: bitrot detected"
  else if plog.buf.length + data.length < sectorSize then do
    setPlog fun plog => plog.buffer data
    pure plog.logicalLength
  else do
    protectPrefixLocked env (calcPhysical (blockStartOf plog.logicalLength))
    labelled s!"write plog {plog.id}: " (onStore
      (writeFile (calcPhysical plog.sealed) (sealData env plog data).1.writeBuf))
    setPlog fun after => after.sealedWith (sealData env plog data)
    pure plog.logicalLength

/-- Check that the log already holds the front part of the data. -/
def checkOverlap (env : PlogEnv) (offset : Int) (expected : Bytes) :
    Program PlogWorld Unit :=
  if expected.length = 0 then
    pure ()
  else do
    let world ← current
    let existing ← readPlog env offset expected.length
    if existing ≠ expected then
      raise (s!"ensure append plog {world.plog.id}: " ++
        s!"existing bytes differ at offset {offset}")
    else
      pure ()

/-- Make the data present at `offset` without appending any of it twice. -/
def ensureAppend (env : PlogEnv) (offset : Int) (data : Bytes) :
    Program PlogWorld Unit := do
  let world ← current
  let plog := world.plog
  if offset < 0 ∨ offset > plog.logicalLength then
    raise (s!"ensure append plog {plog.id}: offset {offset} " ++
      s!"beyond length {plog.logicalLength}")
  else do
    let overlap := min (plog.logicalLength - offset.toNat) data.length
    checkOverlap env offset (data.take overlap)
    if overlap = data.length then
      pure ()
    else do
      let _ ← writeLocked env (data.drop overlap)
      pure ()

end Appending

section Truncating

/-- The length of the open sector, from the length of the log alone. -/
def Plog.part (plog : Plog) : Nat := plog.logicalLength % sectorSize

def Plog.aligned (plog : Plog) : Nat := plog.logicalLength - plog.part

/-- The log while its open sector is read: the buffer has the right length, but
nothing vouches for its bytes. -/
def Plog.awaiting (plog : Plog) : Plog :=
  { plog with
    buf := resize 0 plog.part plog.buf
    bufCorrupt := decide (plog.part > 0) }

/-- The log with its open sector read and no hash known. -/
def Plog.rebuilt (plog : Plog) (buf : Bytes) : Plog :=
  { plog with
    buf := buf
    hashes := List.replicate
      ((plog.aligned - blockStartOf plog.aligned) / sectorSize * hashSize) 0
    openUnverified :=
      decide (blockStartOf plog.aligned < plog.logicalLength) }

def readOpenSector (plog : Plog) : Program PlogWorld Bytes :=
  if plog.part > 0 then
    readFile (calcPhysical plog.aligned) plog.part
  else
    pure []

/-- Load the geometry of the open block without trusting its bytes. -/
def rebuildOpenBlock : Program PlogWorld Unit := do
  let world ← current
  setPlog Plog.awaiting
  let buf ← labelled s!"reload plog {world.plog.id} open sector: " (readOpenSector world.plog)
  setPlog fun plog => plog.rebuilt buf

/-- Trust bytes of the open block that were read before the cut. -/
def Plog.bless (env : PlogEnv) (plog : Plog) (verified : Bytes) : Plog :=
  let parts := FixedBlocks.splitBlocks sectorSize verified
  { plog with
    hashes := copyAt plog.hashes 0 (parts.1.map (sectorHash env)).flatten
    buf := copyAt plog.buf 0 parts.2
    bufCorrupt := false
    openUnverified := false
    loadedFromTrailer := true }

/-- Without verified bytes the open block stays untrusted. -/
def Plog.judge (env : PlogEnv) (plog : Plog) :
    Except String Bytes → Plog
  | .ok verified => plog.bless env verified
  | .error _ => { plog with loadedFromTrailer := false }

/-- Cut the file and the memory of the log at `logical`. -/
def cutTo (env : PlogEnv) (logical : Nat) : Program PlogWorld Unit := do
  let world ← current
  let blockStart := blockStartOf logical
  let verified ← attempt (readPlog env blockStart ((logical - blockStart : Nat) : Int))
  protectPrefixLocked env (calcPhysical blockStart)
  labelled s!"truncate plog {world.plog.id}: " (onStore (truncateFile (calcPhysical logical)))
  setPlog fun plog => { plog with logicalLength := logical }
  rebuildOpenBlock
  setPlog fun plog => plog.judge env verified

def truncateTo (env : PlogEnv) (logical : Int) : Program PlogWorld Unit := do
  let world ← current
  let plog := world.plog
  if logical < 0 then
    raise s!"truncate plog {plog.id}: negative target {logical}"
  else if logical > plog.logicalLength then
    raise (s!"truncate plog {plog.id}: target {logical} " ++ s!"beyond length {plog.logicalLength}")
  else if logical = plog.logicalLength then
    pure ()
  else
    cutTo env logical.toNat

end Truncating

section Committing

/-- Whether a commit leaves a trailer. -/
def Plog.hasOpenBlock (plog : Plog) : Bool :=
  decide (plog.hashes.length > 0 ∨ plog.buf.length > 0)

/-- Where the file of a committed log ends. -/
def Plog.physicalEnd (plog : Plog) : Nat :=
  if plog.hasOpenBlock then
    calcPhysical plog.sealed + 2 * sectorSize
  else
    calcPhysical plog.logicalLength

def writeRagged (plog : Plog) : Program PlogWorld Unit :=
  if plog.buf.length > 0 then
    labelled s!"commit plog {plog.id} ragged edge: "
      (onStore (writeFile (calcPhysical plog.sealed) plog.buf))
  else
    pure ()

/-- Write the ragged edge and the trailer of the open block. -/
def writeOpenBlock (env : PlogEnv) (plog : Plog) : Program PlogWorld Unit :=
  if plog.hasOpenBlock then do
    protectPrefixLocked env (calcPhysical (blockStartOf plog.sealed))
    writeRagged plog
    labelled s!"commit plog {plog.id} open trailer: "
      (onStore (writeFile (calcPhysical plog.sealed + sectorSize) (buildOpenTrailer env plog)))
  else
    pure ()

/-- Retire the journal; a failure also ends the protection. -/
def retireUndo : Program PlogWorld Unit := do
  let retired ← attempt (onStore commitUndo)
  setPlog fun plog => { plog with undoActive := false }
  match retired with
  | .ok _ => pure ()
  | .error reason => raise reason

def commit (env : PlogEnv) : Program PlogWorld Unit := do
  let world ← current
  let plog := world.plog
  if plog.bufCorrupt ∨ plog.openUnverified then
    raise s!"commit plog {plog.id} open sector: bitrot detected"
  else do
    writeOpenBlock env plog
    labelled s!"commit plog {plog.id} physical length: " (onStore (truncateFile plog.physicalEnd))
    retireUndo
    setPlog fun after =>
      if plog.hasOpenBlock then
        { after with loadedFromTrailer := true }
      else
        after

end Committing

section Opening

def Plog.fresh (id : Nat) : Plog := ⟨id, false, 0, 0, false, false, [], false, [], []⟩

/-- Read the ragged edge a trailer describes. -/
def readRagged (geometry : TrailerGeometry) : Program PlogWorld Bool :=
  if geometry.raggedLen > 0 then do
    let read ← attempt (readFile (calcPhysical geometry.sealed) geometry.raggedLen)
    match read with
    | .ok ragged => do
        setPlog fun plog => { plog with buf := ragged }
        pure true
    | .error _ => do
        setPlog fun plog => { plog with buf := [] }
        pure false
  else
    pure true

def loadTrailer (env : PlogEnv) (geometry : TrailerGeometry) (trailer : Bytes) :
    Program PlogWorld Bool := do
  let read ← readRagged geometry
  if read then do
    let world ← current
    setPlog fun plog => (applyTrailer env plog geometry trailer).1
    pure (applyTrailer env world.plog geometry trailer).2
  else
    pure false

def recoverFromTrailer (env : PlogEnv) (size : Nat) :
    Program PlogWorld Bool :=
  if size < plogHeaderSize + 2 * sectorSize then
    pure false
  else do
    let read ← attempt (readFile (size - sectorSize) sectorSize)
    match read with
    | .error _ => pure false
    | .ok trailer =>
      match trailerGeometry trailer size with
      | none => pure false
      | some geometry => loadTrailer env geometry trailer

def reload (env : PlogEnv) : Program PlogWorld Unit := do
  let size ← onStore fileSize
  let recovered ← recoverFromTrailer env size
  setPlog fun plog => { plog with loadedFromTrailer := recovered }
  if recovered then
    pure ()
  else
    rebuildOpenBlock

/-- Open a log that exists.  Whatever memory there was belongs to an earlier
process. -/
def openExistingPlog (env : PlogEnv) (id : Nat) : Program PlogWorld Unit := do
  labelled s!"restore plog {id} prefix: " (onStore (restoreUndo env.sha))
  labelled s!"clean plog {id} temporary journal: " (onStore discardUndoTemp)
  let size ← onStore fileSize
  setPlog fun _ => Plog.fresh id
  if size = 0 then
    raise s!"open plog {id}: new file requires a header"
  else do
    let header ← labelled s!"open plog {id}: "
      (inspect "unrecognized plog format (missing superblock magic)"
        fun world => readSuperblock env world.content)
    setPlog fun plog => { plog with
      header := header, logicalLength := calcLogical size }
    reload env

end Opening

end Rose
