import Rose.PlogSealing

/-!
# What an append leaves in any state

The journal step of an append touches only the journal, and the batched write
starts behind the sealed sectors.  So from any state of the log and of the file,
an append that stops leaves the log's memory as it was, apart from the record of
the journal, and every byte that could be read still can be.
-/

namespace Rose

open ListSplice DurableFiles FaultyPrograms FallibleActions

section Journal

variable {file : DurableFile}

/-- The file beside which a journal is kept. -/
def UndoStore.Holds (file : DurableFile) (store : UndoStore) : Prop := store.file = file

theorem checkIdentity_maintains {kept : UndoStore → Prop} (stored identity : Bytes) :
    Maintains kept (checkIdentity stored identity) := by
  unfold checkIdentity
  split_ifs
  · exact Maintains.raise
  · exact Maintains.pure

theorem undoSyncDirectory_maintains : Maintains (UndoStore.Holds file) undoSyncDirectory :=
  Maintains.effect (fun _ held => held) fun _ _ held => held

theorem writeTemp_maintains (data : Bytes) : Maintains (UndoStore.Holds file) (writeTemp data) :=
  Maintains.effect (fun _ held => held) fun _ _ held => held

theorem renameTemp_holds {store : UndoStore} (held : UndoStore.Holds file store) :
    UndoStore.Holds file store.renameTemp := by
  unfold UndoStore.renameTemp
  cases store.temp with
  | none => exact held
  | some temp => exact held

theorem publishTemp_maintains : Maintains (UndoStore.Holds file) publishTemp := by
  refine Maintains.bind (Maintains.effect (fun _ held => held) fun _ _ held => held) fun _ => ?_
  refine Maintains.bind (Maintains.effect (fun _ held => held) fun _ _ held => held) fun _ => ?_
  refine Maintains.bind (Maintains.effect (fun _ => renameTemp_holds)
    fun _ _ held => held) fun _ => ?_
  exact undoSyncDirectory_maintains

theorem fillTemp_maintains (sha : Sha256) (start size : Nat) (old : Option UndoRecord) :
    Maintains (UndoStore.Holds file) (fillTemp sha start size old) := by
  refine Maintains.bind Maintains.inspect fun identity => ?_
  refine Maintains.bind ?_ fun _ => ?_
  · cases old with
    | none => exact Maintains.pure
    | some record => exact checkIdentity_maintains _ _
  refine Maintains.bind (writeTemp_maintains _) fun _ => ?_
  refine Maintains.bind ?_ fun copied => ?_
  · refine Maintains.bind Maintains.inspect fun copied => ?_
    refine Maintains.bind (writeTemp_maintains _) fun _ => ?_
    split_ifs
    · exact Maintains.raise
    · exact Maintains.pure
  refine Maintains.bind ?_ fun saved => writeTemp_maintains _
  cases old with
  | none => exact Maintains.pure
  | some record =>
    exact Maintains.bind (writeTemp_maintains _) fun _ => Maintains.pure

theorem writeUndo_maintains (sha : Sha256) (start : Int) (size : Nat) (old : Option UndoRecord) :
    Maintains (UndoStore.Holds file) (writeUndo sha start size old) := by
  unfold writeUndo
  split_ifs
  · exact Maintains.raise
  · refine Maintains.bind (Maintains.effect (fun _ held => held) fun _ _ held => held) fun _ => ?_
    refine Maintains.ensuring ?_ fun _ held => held
    exact Maintains.bind (fillTemp_maintains _ _ _ _) fun _ => publishTemp_maintains

theorem saveUndo_maintains (sha : Sha256) (start : Int) :
    Maintains (UndoStore.Holds file) (saveUndo sha start) := by
  refine Maintains.bind Maintains.inspect fun old => ?_
  cases old with
  | none =>
    exact Maintains.bind Maintains.inspect fun _ => writeUndo_maintains _ _ _ _
  | some record =>
    dsimp only
    split_ifs
    · refine Maintains.bind Maintains.inspect fun identity => ?_
      exact Maintains.bind (checkIdentity_maintains _ _) fun _ => undoSyncDirectory_maintains
    · exact Maintains.bind Maintains.inspect fun _ => writeUndo_maintains _ _ _ _

end Journal

/-- The log's memory without the record of its journal. -/
def Plog.unjournaled (plog : Plog) : Plog :=
  { plog with undoActive := false, undoStart := 0 }

/-- Only the journal and its record may have changed. -/
structure JournalOnly (before after : PlogWorld) : Prop where
  content_eq : after.content = before.content
  memory_eq : after.plog.unjournaled = before.plog.unjournaled

theorem protectPrefixLocked_journalOnly (env : PlogEnv) (world : PlogWorld) (start : Nat) :
    Triple (· = world) (protectPrefixLocked env start) (fun _ after => JournalOnly world after)
      (fun _ after => JournalOnly world after) := by
  have stores := (saveUndo_maintains env.sha (start : Int)).consequence
    (show ∀ store, store = world.store → UndoStore.Holds world.store.file store from
      fun _ same => congrArg UndoStore.file same)
    (fun _ _ held => held) fun _ _ held => held
  refine protectPrefixLocked_rule (fun _ _ => ⟨rfl, rfl⟩) (stores.weaken ?_ ?_)
    fun _ _ _ held => held
  · exact fun _ store file_eq => ⟨congrArg DurableFile.view file_eq, rfl⟩
  · exact fun _ store file_eq => ⟨congrArg DurableFile.view file_eq, rfl⟩

section Frames

variable {env : PlogEnv} {plog : Plog} {content other : Bytes}

theorem ReadsKept.byteAt {index : Nat} {byte : UInt8}
    (kept : ReadsKept (calcPhysical plog.sealed) content other) (aligned : plog.sealed % 4096 = 0)
    (readable : byteAt env plog content index = some byte) :
    byteAt env plog other index = some byte := by
  unfold Rose.byteAt readSector at readable ⊢
  split_ifs at readable ⊢ with isOpen corrupt
  · exact readable
  · cases read : Rose.readDataSector env plog content (index / sectorSize) with
    | error reason =>
      rw [read] at readable
      cases readable
    | ok sector =>
      rw [read] at readable
      rw [kept.readDataSector aligned rfl rfl (Nat.not_le.mp isOpen) read]
      exact readable

end Frames

section Unjournaled

variable {env : PlogEnv} {plog other after : Plog} {content data afterContent : Bytes}

theorem Plog.Shaped.unjournaled_iff : plog.unjournaled.Shaped ↔ plog.Shaped :=
  ⟨fun shaped => ⟨shaped.aligned, shaped.bufShort, shaped.bufLe,
    shaped.hashed⟩, fun shaped => ⟨shaped.aligned, shaped.bufShort,
    shaped.bufLe, shaped.hashed⟩⟩

theorem Plog.Shaped.of_unjournaled (shaped : plog.Shaped)
    (same : other.unjournaled = plog.unjournaled) : other.Shaped := by
  rw [← unjournaled_iff, same, unjournaled_iff]
  exact shaped

theorem sealed_of_unjournaled (same : other.unjournaled = plog.unjournaled) :
    other.sealed = plog.sealed := by
  have sealed_eq := congrArg Plog.sealed same
  exact sealed_eq

theorem byteAt_of_unjournaled (same : other.unjournaled = plog.unjournaled) (content : Bytes)
    (index : Nat) :
    byteAt env other content index = byteAt env plog content index := by
  have byte_eq := congrArg (fun plog => byteAt env plog content index) same
  exact byte_eq

theorem Appended.of_unjournaled (appended : Appended env plog content data after afterContent)
    (same : other.unjournaled = after.unjournaled) :
    Appended env plog content data other afterContent := by
  refine ⟨appended.shaped.of_unjournaled same, ?_, ?_, ?_, ?_⟩
  · exact (congrArg Plog.logicalLength same).trans appended.length_eq
  · exact (congrArg Plog.bufCorrupt same).trans appended.trusted
  · intro index byte inside readable
    rw [byteAt_of_unjournaled same]
    exact appended.old index byte inside readable
  · intro index inside
    rw [byteAt_of_unjournaled same]
    exact appended.new index inside

end Unjournaled

/-- What an append that stops leaves. -/
structure Unappended (before after : PlogWorld) : Prop where
  memory_eq : after.plog.unjournaled = before.plog.unjournaled
  kept : ReadsKept (calcPhysical before.plog.sealed) before.content after.content

namespace Unappended

variable {env : PlogEnv} {first second third : PlogWorld}

theorem refl (world : PlogWorld) : Unappended world world := ⟨rfl, readsKept_refl _ _⟩

theorem trans (before : Unappended first second) (after : Unappended second third) :
    Unappended first third := by
  refine ⟨after.memory_eq.trans before.memory_eq, ?_⟩
  intro offset count out inside read
  refine after.kept offset count out ?_ (before.kept offset count out inside read)
  rw [sealed_of_unjournaled before.memory_eq]
  exact inside

variable (unappended : Unappended first second)
include unappended

theorem shaped (before : first.plog.Shaped) : second.plog.Shaped :=
  before.of_unjournaled unappended.memory_eq

theorem length_eq : second.plog.logicalLength = first.plog.logicalLength := by
  have logicalLength_eq := congrArg Plog.logicalLength unappended.memory_eq
  exact logicalLength_eq

theorem byteAt_eq (before : first.plog.Shaped) {index : Nat} {byte : UInt8}
    (readable : byteAt env first.plog first.content index = some byte) :
    byteAt env second.plog second.content index = some byte := by
  rw [byteAt_of_unjournaled unappended.memory_eq]
  exact unappended.kept.byteAt before.aligned readable

end Unappended

theorem JournalOnly.unappended {before after : PlogWorld} (journalOnly : JournalOnly before after) :
    Unappended before after := by
  refine ⟨journalOnly.memory_eq, ?_⟩
  rw [journalOnly.content_eq]
  exact readsKept_refl _ _

section Appending

variable {env : PlogEnv} {world : PlogWorld} {data : Bytes}

theorem unappended_write {offset : Nat} (above : calcPhysical world.plog.sealed ≤ offset) :
    Unappended world { world with store := world.store.issue (.write offset data) } := by
  refine ⟨rfl, ?_⟩
  change ReadsKept _ world.content (world.store.file.issue (.write offset data)).view
  rw [DurableFile.view_issue]
  exact readsKept_overwrite _ _ above

/-- From any state, an append that returns has appended, and one that stops has
kept what could be read. -/
theorem writeLocked_appends (shaped : world.plog.Shaped) :
    Triple (· = world) (writeLocked env data)
      (fun offset after => offset = world.plog.logicalLength ∧
        Appended env world.plog world.content data after.plog after.content)
      (fun _ after => Unappended world after) := by
  refine writeLocked_rule (fun _ => .refl world) ?_ ((protectPrefixLocked_journalOnly env world
    _).stopping fun _ _ held => held.unappended) ?_ ?_
  · intro trusted _ short
    exact ⟨rfl, appended_buffer shaped trusted short⟩
  · intro middle protection progress _
    refine protection.unappended.trans (unappended_write ?_)
    rw [sealed_of_unjournaled protection.memory_eq]
  · intro trusted _ full middle protection
    refine ⟨rfl, ?_⟩
    have appended := @appended_sealData env world.plog world.content data shaped trusted full
    have content_eq : middle.store.file.view = world.content := protection.content_eq
    change Appended env world.plog world.content data _ (middle.store.file.issue _).view
    rw [DurableFile.view_issue, content_eq]
    refine appended.of_unjournaled ?_
    have sealedSame := congrArg
      (fun plog => (plog.sealedWith (sealData env world.plog data)).unjournaled)
      protection.memory_eq
    exact sealedSame

end Appending

end Rose
