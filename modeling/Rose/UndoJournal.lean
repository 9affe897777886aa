import Rose.DurableFiles
import Rose.FaultyPrograms
import Rose.UndoRecord

/-!
# The undo journal of a data file

Before a data file is appended to or cut destructively, the suffix that may be
lost is saved in a journal beside it.  Restoring copies the suffix back, and
committing retires the journal.  Every file operation is an effect that may
fail or crash; a failed sync leaves what it should have made durable unsynced.
-/

namespace Rose

open ListSplice DurableFiles FaultyPrograms

/-- A journal file; what was not synced may come back as anything. -/
structure Journal where
  content : Bytes
  synced : Bool
deriving DecidableEq, Repr

/-- A data file with its journal and the temporary replacement of it. -/
structure UndoStore where
  file : DurableFile
  journal : DurableEntry (Option Journal)
  temp : Option Journal

namespace UndoStore

/-- A durable file with no journal beside it. -/
def settled (image : Bytes) : UndoStore := ⟨⟨image, []⟩, DurableEntry.settled none, none⟩

def issue (store : UndoStore) (op : FileOp) : UndoStore :=
  { store with file := store.file.issue op }

def syncFile (store : UndoStore) : UndoStore :=
  { store with file := store.file.sync }

def syncDirectory (store : UndoStore) : UndoStore :=
  { store with journal := store.journal.sync }

def removeJournal (store : UndoStore) : UndoStore :=
  { store with journal := store.journal.set none }

def removeTemp (store : UndoStore) : UndoStore :=
  { store with temp := none }

def setTemp (store : UndoStore) (content : Bytes) (synced : Bool) :
    UndoStore :=
  { store with temp := some ⟨content, synced⟩ }

def appendTemp (store : UndoStore) (data : Bytes) : UndoStore :=
  { store with
    temp := store.temp.map fun temp => ⟨temp.content ++ data, false⟩ }

def syncTemp (store : UndoStore) : UndoStore :=
  { store with temp := store.temp.map fun temp => ⟨temp.content, true⟩ }

/-- Rename the temporary file to the journal. -/
def renameTemp (store : UndoStore) : UndoStore :=
  match store.temp with
  | none => store
  | some temp =>
    { store with journal := store.journal.set (some temp), temp := none }

/-- A power loss: unsynced file operations may be lost or torn, the journal is
one of those a crash may leave, and the temporary file may be anything. -/
structure PowerLoss (before after : UndoStore) : Prop where
  file : before.file.Crash after.file
  journal : ∃ survivor ∈ before.journal.candidates, after.journal = DurableEntry.settled survivor ∨
      ∃ journal content, survivor = some journal ∧ journal.synced = false ∧
        after.journal = DurableEntry.settled (some ⟨content, true⟩)

end UndoStore

/-- Read and check the journal; no journal is not an error. -/
def readUndo (sha : Sha256) (store : UndoStore) : Except String (Option UndoRecord) :=
  match store.journal.current with
  | none => .ok none
  | some journal => (decodeUndo sha journal.content).map some

def openUndo (sha : Sha256) : Program UndoStore (Option UndoRecord) :=
  inspect "open undo journal" (readUndo sha)

def undoSyncDirectory : Program UndoStore Unit :=
  effect "sync directory" UndoStore.syncDirectory fun _ store => store

def undoSyncFile : Program UndoStore Unit :=
  effect "sync file" UndoStore.syncFile fun _ store => store

def fileSize : Program UndoStore Nat := inspect "stat" fun store => .ok store.file.view.length

/-- The digest of the first sector, or of what lies before `start`. -/
def identityOf (sha : Sha256) (start : Nat) (content : Bytes) :
    Except String Bytes :=
  let count := min start sectorSize
  if content.length < count then
    .error "EOF"
  else
    .ok (sha.sum (slice content 0 count))

def undoIdentity (sha : Sha256) (start : Nat) : Program UndoStore Bytes :=
  inspect "read identity" fun store => identityOf sha start store.file.view

def checkIdentity (stored identity : Bytes) : Program UndoStore Unit :=
  if identity ≠ stored then
    raise "undo journal belongs to different file identity"
  else
    pure ()

/-- A write to the data file; when it fails, a front part may have been
written. -/
def writeFile (offset : Nat) (data : Bytes) : Program UndoStore Unit :=
  effect "write" (fun store => store.issue (.write offset data))
    fun progress store => store.issue (.write offset (data.take progress))

def truncateFile (size : Nat) : Program UndoStore Unit :=
  effect "truncate" (fun store => store.issue (.truncate size)) fun _ store => store

def writeTemp (data : Bytes) : Program UndoStore Unit :=
  effect "write journal" (fun store => store.appendTemp data)
    fun progress store => store.appendTemp (data.take progress)

/-- Copy `count` bytes of the data file into the temporary journal. -/
def copyFileToTemp (start count : Nat) : Program UndoStore Bytes := do
  let copied ← inspect "read" fun store =>
    .ok (slice store.file.view start count)
  writeTemp copied
  if copied.length < count then raise "EOF" else pure copied

/-- A replaced journal must belong to the same file. -/
def checkOldIdentity (old : Option UndoRecord) (identity : Bytes) :
    Program UndoStore Unit :=
  match old with
  | none => pure ()
  | some record => checkIdentity record.identity identity

/-- Copy the old record's payload, if there is one. -/
def copySavedToTemp (old : Option UndoRecord) : Program UndoStore Bytes :=
  match old with
  | none => pure []
  | some record => do
      writeTemp record.payload
      pure record.payload

/-- Fill the temporary file with the journal for `start`: what the file still
holds up to the old record's start, then the old record's payload. -/
def fillTemp (sha : Sha256) (start size : Nat) (old : Option UndoRecord) :
    Program UndoStore Unit := do
  let identity ← undoIdentity sha start
  checkOldIdentity old identity
  writeTemp (undoHeader identity start size)
  let copied ← copyFileToTemp start ((old.map UndoRecord.start).getD size - start)
  let saved ← copySavedToTemp old
  writeTemp (sha.sum (undoHeader identity start size ++ (copied ++ saved)))

/-- Make the temporary file durable and rename it to the journal. -/
def publishTemp : Program UndoStore Unit := do
  effect "sync journal" UndoStore.syncTemp fun _ store => store
  effect "close journal" id fun _ store => store
  effect "rename" UndoStore.renameTemp fun _ store => store
  undoSyncDirectory

/-- Write a new journal that saves the file from `start` on. -/
def writeUndo (sha : Sha256) (start : Int) (size : Nat) (old : Option UndoRecord) :
    Program UndoStore Unit :=
  if start < 0 ∨ size < start then
    raise s!"undo start {start} outside baseline size {size}"
  else do
    effect "create journal" (fun store => store.setTemp [] false) fun _ store => store
    ensuring
      (do
        fillTemp sha start.toNat size old
        publishTemp)
      UndoStore.removeTemp

/-- A journal that already reaches down to `start` only has to be made durable:
it may have been renamed by a call whose directory sync then failed. -/
def keepUndo (sha : Sha256) (old : UndoRecord) : Program UndoStore Unit := do
  let identity ← undoIdentity sha old.start
  checkIdentity old.identity identity
  undoSyncDirectory

def saveUndo (sha : Sha256) (start : Int) : Program UndoStore Unit := do
  let old ← openUndo sha
  match old with
  | none => do
      let size ← fileSize
      writeUndo sha start size none
  | some record =>
    if (record.start : Int) ≤ start then
      keepUndo sha record
    else do
      let _ ← fileSize
      writeUndo sha start record.size (some record)

/-- Copy the saved suffix back and retire the journal. -/
def replayUndo (sha : Sha256) (record : UndoRecord) :
    Program UndoStore Unit := do
  let identity ← undoIdentity sha record.start
  checkIdentity record.identity identity
  writeFile record.start record.payload
  truncateFile record.size
  undoSyncFile
  effect "remove journal" UndoStore.removeJournal fun _ store => store
  undoSyncDirectory

def restoreUndo (sha : Sha256) : Program UndoStore Unit := do
  let record ← openUndo sha
  match record with
  | none => undoSyncDirectory
  | some record => replayUndo sha record

/-- Removing a journal that is not there is not an error: an earlier call may
have removed it and failed to sync the directory. -/
def commitUndo : Program UndoStore Unit := do
  undoSyncFile
  effect "remove journal" UndoStore.removeJournal fun _ store => store
  undoSyncDirectory

def discardUndoTemp : Program UndoStore Unit := do
  let store ← inspect "stat journal" (.ok : UndoStore → Except String UndoStore)
  match store.temp with
  | none => pure ()
  | some _ => do
      effect "remove temporary journal" UndoStore.removeTemp fun _ store => store
      undoSyncDirectory

end Rose
