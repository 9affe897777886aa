import Rose.UndoJournal

/-!
# What the undo journal guards

A journal entry covers an image when restoring from it would produce the image:
without a journal the file itself keeps the image, and with one the file keeps
the image below the record's start and the record holds the rest.  A store
guards an image when its current journal covers it and every journal a crash
may bring back covers it too, or else covers another allowed image while the
file itself keeps the first one, as between the two steps that retire a
journal.
-/

namespace Rose

open ListSplice DurableFiles FaultyPrograms

/-- The record that saves `image` from `start` on. -/
def savedRecord (sha : Sha256) (image : Bytes) (start : Nat) : UndoRecord :=
  ⟨sha.sum (slice image 0 (min start sectorSize)), start, image.length, image.drop start⟩

theorem savedRecord_valid (sha : Sha256) {image : Bytes} {start : Nat}
    (startLe : start ≤ image.length) (fits : image.length < 2 ^ 63) :
    (savedRecord sha image start).Valid :=
  ⟨sha.length_sum _, startLe, List.length_drop, fits⟩

/-- A durable journal that reads back as the record of `image`. -/
structure Journal.Saves (sha : Sha256) (image : Bytes) (start : Nat) (journal : Journal) :
    Prop where
  synced : journal.synced = true
  startLe : start ≤ image.length
  decoded : decodeUndo sha journal.content = .ok (savedRecord sha image start)

def Covers (sha : Sha256) (image : Bytes) (file : DurableFile) :
    Option Journal → Prop
  | none => file.Keeps image
  | some journal => ∃ start, journal.Saves sha image start ∧ file.KeepsBelow start image

structure Guards (sha : Sha256) (allowed : Bytes → Prop) (image : Bytes) (store : UndoStore) :
    Prop where
  isAllowed : allowed image
  current : Covers sha image store.file store.journal.current
  candidates : ∀ entry ∈ store.journal.candidates, Covers sha image store.file entry ∨
      (store.file.Keeps image ∧ ∃ other, allowed other ∧ Covers sha other store.file entry)

/-- Every journal a crash may leave saves `image` from `limit` or from below. -/
def ProtectsFrom (sha : Sha256) (image : Bytes) (limit : Nat) (store : UndoStore) : Prop :=
  ∀ entry ∈ store.journal.candidates, ∃ journal start,
    entry = some journal ∧ start ≤ limit ∧ journal.Saves sha image start ∧
      store.file.KeepsBelow start image

variable {sha : Sha256} {allowed : Bytes → Prop} {image other : Bytes} {file after : DurableFile}
  {store : UndoStore} {entry : Option Journal} {limit : Nat} {op : FileOp}

namespace Covers

section

variable (covers : Covers sha image file entry)
include covers

theorem of_keeps (keeps : file.Keeps image → after.Keeps image)
    (keepsBelow : ∀ limit, file.KeepsBelow limit image → after.KeepsBelow limit image) :
    Covers sha image after entry := by
  cases entry with
  | none => exact keeps covers
  | some journal =>
    obtain ⟨start, saves, below⟩ := covers
    exact ⟨start, saves, keepsBelow start below⟩

theorem crash (crash : file.Crash after) : Covers sha image after entry :=
  covers.of_keeps (·.crash crash) fun _ below => below.crash crash

theorem sync : Covers sha image file.sync entry :=
  covers.of_keeps (·.sync) fun _ below => below.sync

theorem issue_preserves (preserves : op.Preserves image) :
    Covers sha image (file.issue op) entry := by
  cases entry with
  | none => exact DurableFile.Keeps.issue covers preserves
  | some journal =>
    obtain ⟨start, saves, below⟩ := covers
    exact ⟨start, saves, below.issue (preserves.harmlessBelow saves.startLe)⟩

end

theorem issue_of_keeps (covers : Covers sha other file entry) (keeps : file.Keeps image)
    (preserves : op.Preserves image) :
    Covers sha other (file.issue op) entry := by
  cases entry with
  | none =>
    have same : image = other := keeps.disk_eq.symm.trans covers.disk_eq
    exact DurableFile.Keeps.issue covers (same ▸ preserves)
  | some journal =>
    obtain ⟨start, saves, below⟩ := covers
    exact ⟨start, saves, below.issue (keeps.harmlessBelow below preserves)⟩

end Covers

namespace Guards

variable (guards : Guards sha allowed image store)
include guards

theorem congr {next : UndoStore} (file_eq : next.file = store.file)
    (journal_eq : next.journal = store.journal) : Guards sha allowed image next := by
  refine ⟨guards.isAllowed, ?_, ?_⟩
  · rw [file_eq, journal_eq]
    exact guards.current
  · rw [file_eq, journal_eq]
    exact guards.candidates

theorem issue (preserves : op.Preserves image) : Guards sha allowed image (store.issue op) := by
  refine ⟨guards.isAllowed, guards.current.issue_preserves preserves, fun entry possible => ?_⟩
  rcases guards.candidates entry possible with
    covers | ⟨keeps, other, otherAllowed, covers⟩
  · exact Or.inl (covers.issue_preserves preserves)
  · exact Or.inr ⟨keeps.issue preserves, other, otherAllowed, covers.issue_of_keeps keeps preserves⟩

theorem syncFile : Guards sha allowed image store.syncFile := by
  refine ⟨guards.isAllowed, guards.current.sync, fun entry possible => ?_⟩
  rcases guards.candidates entry possible with
    covers | ⟨keeps, other, otherAllowed, covers⟩
  · exact Or.inl covers.sync
  · exact Or.inr ⟨keeps.sync, other, otherAllowed, covers.sync⟩

theorem syncDirectory : Guards sha allowed image store.syncDirectory :=
  ⟨guards.isAllowed, guards.current,
    DurableEntry.forall_candidates_sync_iff.mpr (Or.inl guards.current)⟩

theorem setJournal (covers : Covers sha image store.file entry) :
    Guards sha allowed image
      { store with journal := store.journal.set entry } :=
  ⟨guards.isAllowed, covers, DurableEntry.forall_candidates_set_iff.mpr
      ⟨guards.candidates, Or.inl covers⟩⟩

theorem mono {wider : Bytes → Prop} (includes : ∀ other, allowed other → wider other) :
    Guards sha wider image store := by
  refine ⟨includes _ guards.isAllowed, guards.current, fun entry possible => ?_⟩
  rcases guards.candidates entry possible with
    covers | ⟨keeps, other, otherAllowed, covers⟩
  · exact Or.inl covers
  · exact Or.inr ⟨keeps, other, includes other otherAllowed, covers⟩

theorem covers_allowed (possible : entry ∈ store.journal.candidates) :
    ∃ other, allowed other ∧ Covers sha other store.file entry := by
  rcases guards.candidates entry possible with
    covers | ⟨-, other, otherAllowed, covers⟩
  · exact ⟨image, guards.isAllowed, covers⟩
  · exact ⟨other, otherAllowed, covers⟩

theorem issue_truncate_size :
    Guards sha allowed image (store.issue (.truncate store.file.view.length)) := by
  have keepsCut : ∀ {other : Bytes} {entry : Option Journal},
      Covers sha other store.file entry → Covers sha other
        (store.file.issue (.truncate store.file.view.length)) entry := by
    intro other entry covers
    cases entry with
    | none =>
      have cut : (FileOp.truncate store.file.view.length).Preserves other :=
        congrArg List.length covers.view_eq
      exact DurableFile.Keeps.issue covers cut
    | some journal =>
      obtain ⟨start, saves, below⟩ := covers
      have cut : (FileOp.truncate store.file.view.length).HarmlessBelow
          start other := below.agree_view.limitLe
      exact ⟨start, saves, below.issue cut⟩
  refine ⟨guards.isAllowed, keepsCut guards.current, fun entry possible => ?_⟩
  rcases guards.candidates entry possible with
    covers | ⟨keeps, other, otherAllowed, covers⟩
  · exact Or.inl (keepsCut covers)
  · exact Or.inr ⟨keepsCut (show Covers sha image store.file none from keeps), other, otherAllowed,
      keepsCut covers⟩

theorem retire (viewAllowed : allowed store.file.view) :
    Guards sha allowed store.file.view store.syncFile.removeJournal := by
  have keeps : store.file.sync.Keeps store.file.view := DurableFile.keeps_of_view_eq rfl
  refine ⟨viewAllowed, keeps, DurableEntry.forall_candidates_set_iff.mpr
    ⟨fun entry possible => Or.inr ⟨keeps, ?_⟩, Or.inl keeps⟩⟩
  obtain ⟨other, otherAllowed, covers⟩ := guards.covers_allowed possible
  exact ⟨other, otherAllowed, covers.sync⟩

theorem powerLoss {next : UndoStore} (loss : store.PowerLoss next) :
    ∃ recovered, Guards sha allowed recovered next := by
  obtain ⟨survivor, possible, survived⟩ := loss.journal
  obtain ⟨recovered, recoveredAllowed, covers⟩ := guards.covers_allowed possible
  have settled : next.journal = DurableEntry.settled survivor := by
    rcases survived with same | ⟨journal, content, rfl, unsynced, -⟩
    · exact same
    · obtain ⟨start, saves, -⟩ := covers
      rw [saves.synced] at unsynced
      cases unsynced
  have nextCovers := covers.crash loss.file
  refine ⟨recovered, recoveredAllowed, ?_, ?_⟩
  · rw [settled]
    exact nextCovers
  · rw [settled]
    exact List.forall_mem_singleton.mpr (Or.inl nextCovers)

end Guards

namespace ProtectsFrom

variable (protects : ProtectsFrom sha image limit store)
include protects

theorem guards (imageAllowed : allowed image) : Guards sha allowed image store := by
  have covers : ∀ entry ∈ store.journal.candidates, Covers sha image store.file entry := by
    intro entry possible
    obtain ⟨journal, start, rfl, -, saves, below⟩ := protects entry possible
    exact ⟨start, saves, below⟩
  exact ⟨imageAllowed, covers _ store.journal.current_mem,
    fun entry possible => Or.inl (covers entry possible)⟩

theorem of_keepsBelow {next : UndoStore} (journal_eq : next.journal = store.journal)
    (keepsBelow : ∀ start, start ≤ limit → start ≤ image.length →
      store.file.KeepsBelow start image → next.file.KeepsBelow start image) :
    ProtectsFrom sha image limit next := by
  intro entry possible
  rw [journal_eq] at possible
  obtain ⟨journal, start, rfl, startLe, saves, below⟩ := protects entry possible
  exact ⟨journal, start, rfl, startLe, saves, keepsBelow start startLe saves.startLe below⟩

theorem issue (harmless : op.HarmlessBelow limit image) :
    ProtectsFrom sha image limit (store.issue op) :=
  protects.of_keepsBelow rfl fun _ startLe _ below =>
    below.issue (harmless.mono startLe)

theorem issue_preserves (preserves : op.Preserves image) :
    ProtectsFrom sha image limit (store.issue op) :=
  protects.of_keepsBelow rfl fun _ _ inImage below =>
    below.issue (preserves.harmlessBelow inImage)

theorem syncFile : ProtectsFrom sha image limit store.syncFile :=
  protects.of_keepsBelow rfl fun _ _ _ below => below.sync

theorem congr {next : UndoStore} (file_eq : next.file = store.file)
    (journal_eq : next.journal = store.journal) : ProtectsFrom sha image limit next :=
  protects.of_keepsBelow journal_eq fun _ _ _ below => file_eq ▸ below

theorem setJournal {journal : Journal} {start : Nat} (startLe : start ≤ limit)
    (saves : journal.Saves sha image start) (below : store.file.KeepsBelow start image) :
    ProtectsFrom sha image limit
      { store with journal := store.journal.set (some journal) } :=
  DurableEntry.forall_candidates_set_iff.mpr ⟨protects, journal, start, rfl, startLe, saves, below⟩

theorem powerLoss {next : UndoStore} (loss : store.PowerLoss next) :
    ProtectsFrom sha image limit next := by
  obtain ⟨survivor, possible, survived⟩ := loss.journal
  obtain ⟨journal, start, rfl, startLe, saves, below⟩ := protects survivor possible
  have settled : next.journal = DurableEntry.settled (some journal) := by
    rcases survived with same | ⟨other, content, same, unsynced, -⟩
    · exact same
    · cases same
      rw [saves.synced] at unsynced
      cases unsynced
  intro entry left
  rw [settled] at left
  exact ⟨journal, start, List.mem_singleton.mp left, startLe, saves, below.crash loss.file⟩

end ProtectsFrom

end Rose
