import Rose.UndoInvariant

/-!
# Specifications of the undo programs

Each program is specified from a store that guards an image, under every tape
of faults.  Saving leaves the file alone and, when it returns, protects the
image from the requested start on.  Restoring returns with the image and no
journal.  Wherever either stops, the store still guards the image.
-/

namespace Rose

open ListSplice DurableFiles FaultyPrograms

variable {sha : Sha256} {allowed : Bytes → Prop} {image : Bytes} {store : UndoStore}
  {stopped : Halt → UndoStore → Prop}

/-- What reading the journal of a store that guards `image` finds. -/
def OpenedAs (sha : Sha256) (image : Bytes) (store : UndoStore) :
    Option UndoRecord → Prop
  | none => store.journal.current = none ∧ store.file.Keeps image
  | some record => ∃ journal start, store.journal.current = some journal ∧
      record = savedRecord sha image start ∧
      journal.Saves sha image start ∧ store.file.KeepsBelow start image

theorem Guards.readUndo_eq (guards : Guards sha allowed image store) :
    ∃ found, readUndo sha store = .ok found ∧ OpenedAs sha image store found := by
  have covers := guards.current
  unfold readUndo
  cases entry : store.journal.current with
  | none =>
    rw [entry] at covers
    exact ⟨none, rfl, entry, covers⟩
  | some journal =>
    rw [entry] at covers
    obtain ⟨start, saves, below⟩ := covers
    refine ⟨some (savedRecord sha image start), ?_, journal, start, entry,
      rfl, saves, below⟩
    dsimp only
    rw [saves.decoded]
    rfl

theorem Guards.openUndo_triple (guards : Guards sha allowed image store)
    (stops : ∀ halt, stopped halt store) :
    Triple (fun world => world = store) (openUndo sha)
      (fun found world => world = store ∧ OpenedAs sha image store found)
      stopped := by
  refine (Triple.inspect_at stops).returning fun value world looked => ⟨looked.1, ?_⟩
  obtain ⟨found, read, opened⟩ := guards.readUndo_eq
  rw [read] at looked
  cases looked.2
  exact opened

variable {limit start : Nat}

theorem identityOf_eq {file : DurableFile} (below : file.KeepsBelow limit image)
    (startLe : start ≤ limit) :
    identityOf sha start file.view = .ok (savedRecord sha image start).identity := by
  have agree := below.agree_view
  have limitLe := agree.limitLe
  unfold identityOf
  rw [if_neg (by omega), agree.slice_eq (by omega)]
  rfl

theorem undoIdentity_triple (below : store.file.KeepsBelow limit image) (startLe : start ≤ limit)
    (stops : ∀ halt, stopped halt store) :
    Triple (fun world => world = store) (undoIdentity sha start)
      (fun identity world => world = store ∧
        identity = (savedRecord sha image start).identity) stopped := by
  refine (Triple.inspect_at stops).returning fun value world looked => ⟨looked.1, ?_⟩
  have found := looked.2
  rw [identityOf_eq below startLe] at found
  cases found
  rfl

theorem checkIdentity_triple {stored identity : Bytes} (stops : ∀ halt, stopped halt store) :
    Triple (fun world => world = store) (checkIdentity stored identity)
      (fun _ world => world = store) stopped := by
  unfold checkIdentity
  split_ifs with different
  · exact Triple.raise fun _ same => same ▸ stops _
  · exact Triple.pure fun _ same => same

variable {old : Option UndoRecord}

theorem checkOldIdentity_triple {identity : Bytes} (stops : ∀ halt, stopped halt store) :
    Triple (fun world => world = store) (checkOldIdentity old identity)
      (fun _ world => world = store) stopped := by
  cases old with
  | none => exact Triple.pure fun _ same => same
  | some record => exact checkIdentity_triple stops

/-- The stores that differ from `store` in the temporary file only. -/
def SameButTemp (store after : UndoStore) : Prop :=
  after.file = store.file ∧ after.journal = store.journal

variable {content : Bytes}

theorem writeTemp_triple {data : Bytes} {synced : Bool}
    (stops : ∀ halt after, SameButTemp store after → stopped halt after) :
    Triple (fun world => world = store.setTemp content synced) (writeTemp data)
      (fun _ world => world = store.setTemp (content ++ data) false)
      stopped :=
  Triple.effect_at fun _ halt => stops halt _ ⟨rfl, rfl⟩

theorem copyFileToTemp_triple {synced : Bool} {count : Nat}
    (below : store.file.KeepsBelow limit image) (inside : start + count ≤ limit)
    (stops : ∀ halt after, SameButTemp store after → stopped halt after) :
    Triple (fun world => world = store.setTemp content synced) (copyFileToTemp start count)
      (fun copied world =>
        world = store.setTemp (content ++ slice image start count) false ∧
          copied = slice image start count) stopped := by
  have read : slice store.file.view start count = slice image start count :=
    below.agree_view.slice_eq inside
  refine Triple.bind_fact (Triple.inspect_at fun halt => stops halt _ ⟨rfl, rfl⟩)
    fun copied found => ?_
  have copied_eq : copied = slice image start count := by
    cases found
    exact read
  subst copied_eq
  refine Triple.bind (writeTemp_triple stops) fun _ => ?_
  split_ifs with short
  · exact Triple.raise fun _ same => stops _ _ (same ▸ ⟨rfl, rfl⟩)
  · exact Triple.pure fun _ same => ⟨same, rfl⟩

theorem copySavedToTemp_triple
    (stops : ∀ halt after, SameButTemp store after → stopped halt after) :
    Triple (fun world => world = store.setTemp content false) (copySavedToTemp old)
      (fun saved world =>
        world = store.setTemp (content ++ (old.map UndoRecord.payload).getD []) false ∧
          saved = (old.map UndoRecord.payload).getD []) stopped := by
  cases old with
  | none =>
    refine Triple.pure fun world same => ⟨?_, rfl⟩
    rw [same, Option.map_none, Option.getD_none, List.append_nil]
  | some record =>
    refine Triple.bind (writeTemp_triple stops) fun _ => ?_
    exact Triple.pure fun _ same => ⟨same, rfl⟩

/-- The old record, or without one the file itself, holds the image from
`stop` on, and the file keeps the image below. -/
structure SavedFrom (image : Bytes) (store : UndoStore) (old : Option UndoRecord) : Prop where
  stopLe : (old.map UndoRecord.start).getD image.length ≤ image.length
  below : store.file.KeepsBelow ((old.map UndoRecord.start).getD image.length) image
  saved : (old.map UndoRecord.payload).getD [] =
    image.drop ((old.map UndoRecord.start).getD image.length)

theorem OpenedAs.savedFrom (opened : OpenedAs sha image store old) : SavedFrom image store old := by
  cases old with
  | none =>
    exact ⟨Nat.le_refl _, opened.2.keepsBelow (Nat.le_refl _), (List.drop_length).symm⟩
  | some record =>
    obtain ⟨journal, start, -, rfl, saves, below⟩ := opened
    exact ⟨saves.startLe, below, rfl⟩

/-- Combining the unchanged part with the saved part gives the record of the
image from the lower start on. -/
theorem fillTemp_triple (savedFrom : SavedFrom image store old)
    (startLe : start ≤ (old.map UndoRecord.start).getD image.length)
    (stops : ∀ halt after, SameButTemp store after → stopped halt after) :
    Triple (fun world => world = store.setTemp [] false) (fillTemp sha start image.length old)
      (fun _ world =>
        world = store.setTemp (sealUndo sha (savedRecord sha image start).body) false)
      stopped := by
  obtain ⟨stopLe, below, saved_eq⟩ := savedFrom
  have payload : slice image start ((old.map UndoRecord.start).getD image.length - start) ++
        (old.map UndoRecord.payload).getD [] = image.drop start := by
    rw [saved_eq, slice]
    nth_rewrite 2 [← Nat.add_sub_cancel' startLe]
    rw [← List.drop_drop, List.take_append_drop]
  have tempBelow : (store.setTemp [] false).file.KeepsBelow
      ((old.map UndoRecord.start).getD image.length) image := below
  refine Triple.bind_fact (undoIdentity_triple tempBelow startLe
    fun halt => stops halt _ ⟨rfl, rfl⟩) ?_
  rintro identity rfl
  refine Triple.bind (checkOldIdentity_triple
    fun halt => stops halt _ ⟨rfl, rfl⟩) fun _ => ?_
  refine Triple.bind (writeTemp_triple stops) fun _ => ?_
  refine Triple.bind_fact (copyFileToTemp_triple below (by omega) stops) ?_
  rintro copied rfl
  refine Triple.bind_fact (copySavedToTemp_triple stops) ?_
  rintro saved rfl
  refine (writeTemp_triple stops).returning fun _ world written => ?_
  rw [written, List.nil_append, List.append_assoc, List.append_assoc,
    ← List.append_assoc (slice _ _ _), payload, ← List.append_assoc]
  rfl

theorem publishTemp_triple (stops : ∀ halt after, SameButTemp store after → stopped halt after)
    (renamed : ∀ halt after, after.file = store.file →
      after.journal = store.journal.set (some ⟨content, true⟩) →
      stopped halt after) :
    Triple (fun world => world = store.setTemp content false) publishTemp
      (fun _ world => world.file = store.file ∧
        world.journal = DurableEntry.settled (some ⟨content, true⟩))
      stopped := by
  refine Triple.bind (Triple.effect_at fun _ halt => stops halt _ ⟨rfl, rfl⟩) fun _ => ?_
  refine Triple.bind (Triple.effect_at fun _ halt => stops halt _ ⟨rfl, rfl⟩) fun _ => ?_
  refine Triple.bind (Triple.effect_at fun _ halt => stops halt _ ⟨rfl, rfl⟩) fun _ => ?_
  exact Triple.effect_last (fun _ halt => renamed halt _ rfl rfl) ⟨rfl, rfl⟩

theorem savedJournal_saves (sha : Sha256) (startLe : start ≤ image.length)
    (fits : image.length < 2 ^ 63) :
    Journal.Saves sha image start ⟨sealUndo sha (savedRecord sha image start).body, true⟩ :=
  ⟨rfl, startLe, decodeUndo_sealUndo sha (savedRecord_valid sha startLe fits)⟩

/-- Where writing a journal may stop: before the rename, or after it. -/
def WriteStopped (sha : Sha256) (image : Bytes) (store : UndoStore) (start : Int)
    (after : UndoStore) : Prop :=
  after.file = store.file ∧ (after.journal = store.journal ∨
    ∃ journal, after.journal = store.journal.set (some journal) ∧
      journal.Saves sha image start.toNat ∧
      store.file.KeepsBelow start.toNat image)

theorem writeUndo_triple {start : Int} (savedFrom : SavedFrom image store old)
    (startLe : start ≤ image.length → start ≤ (old.map UndoRecord.start).getD image.length)
    (fits : image.length < 2 ^ 63) :
    Triple (fun world => world = store) (writeUndo sha start image.length old)
      (fun _ after => after.file = store.file ∧
        ∃ journal, after.journal = DurableEntry.settled (some journal) ∧
          journal.Saves sha image start.toNat ∧
          store.file.KeepsBelow start.toNat image)
      (fun _ after => WriteStopped sha image store start after) := by
  unfold writeUndo
  have stopLe := savedFrom.stopLe
  split_ifs with outside
  · exact Triple.raise fun _ same => same ▸ ⟨rfl, Or.inl rfl⟩
  · have below := savedFrom.below.mono (show start.toNat ≤ _ by omega)
    have saves := savedJournal_saves sha (show start.toNat ≤ image.length by omega) fits
    have stops : ∀ (halt : Halt) (after : UndoStore),
        SameButTemp store after → WriteStopped sha image store start after :=
      fun _ _ same => ⟨same.1, Or.inl same.2⟩
    refine Triple.bind (Triple.effect_at fun _ halt =>
      stops halt _ ⟨rfl, rfl⟩) fun _ => ?_
    refine Triple.ensuring ?_ (fun _ _ held => held) fun _ _ held => held
    refine Triple.bind (fillTemp_triple savedFrom (by omega) stops) fun _ => ?_
    refine (publishTemp_triple stops
      fun _ _ file_eq journal_eq => ⟨file_eq, Or.inr
        ⟨_, journal_eq, saves, below⟩⟩).returning fun _ _ published => ?_
    exact ⟨published.1, _, published.2, saves, below⟩

variable {journal : Journal}

theorem keepUndo_triple (current_eq : store.journal.current = some journal)
    (below : store.file.KeepsBelow start image) :
    Triple (fun world => world = store) (keepUndo sha (savedRecord sha image start))
      (fun _ after => after.file = store.file ∧ after.journal = DurableEntry.settled (some journal))
      (fun _ after => after = store) := by
  refine Triple.bind_fact (undoIdentity_triple below (Nat.le_refl _)
    fun _ => rfl) fun identity _ => ?_
  refine Triple.bind (checkIdentity_triple fun _ => rfl) fun _ => ?_
  exact Triple.effect_last (fun _ _ => rfl) ⟨rfl, congrArg DurableEntry.settled current_eq⟩

theorem protectsFrom_settled (journal_eq : store.journal = DurableEntry.settled (some journal))
    (startLe : start ≤ limit) (saves : journal.Saves sha image start)
    (below : store.file.KeepsBelow start image) :
    ProtectsFrom sha image limit store := by
  intro entry possible
  rw [journal_eq] at possible
  exact ⟨journal, start, List.mem_singleton.mp possible, startLe, saves, below⟩

/-- What a call of `saveUndo` keeps, whether it returns or stops. -/
structure SaveKeeps (sha : Sha256) (allowed : Bytes → Prop) (image : Bytes)
    (store after : UndoStore) : Prop where
  file_eq : after.file = store.file
  guards : Guards sha allowed image after
  protects : ∀ limit, ProtectsFrom sha image limit store → ProtectsFrom sha image limit after

variable {after : UndoStore}

theorem SaveKeeps.of_same (guards : Guards sha allowed image store)
    (file_eq : after.file = store.file) (journal_eq : after.journal = store.journal) :
    SaveKeeps sha allowed image store after :=
  ⟨file_eq, guards.congr file_eq journal_eq, fun _ protects => protects.congr file_eq journal_eq⟩

theorem WriteStopped.saveKeeps {start : Int} (stopped : WriteStopped sha image store start after)
    (guards : Guards sha allowed image store)
    (lower : ∀ limit, ProtectsFrom sha image limit store → start.toNat ≤ limit) :
    SaveKeeps sha allowed image store after := by
  obtain ⟨file_eq, same | ⟨journal, journal_eq, saves, below⟩⟩ := stopped
  · exact SaveKeeps.of_same guards file_eq same
  · have covers : Covers sha image store.file (some journal) := ⟨_, saves, below⟩
    exact ⟨file_eq, (guards.setJournal covers).congr file_eq journal_eq,
      fun limit protects => (protects.setJournal (lower limit protects) saves
        below).congr file_eq journal_eq⟩

theorem Journal.Saves.start_eq {first second : Nat} (saves : journal.Saves sha image first)
    (also : journal.Saves sha image second) :
    first = second := by
  have same := saves.decoded.symm.trans also.decoded
  injection same with same
  exact congrArg UndoRecord.start same

theorem OpenedAs.start_le (opened : OpenedAs sha image store old)
    (protects : ProtectsFrom sha image limit store) :
    ∃ record, old = some record ∧ record.start ≤ limit := by
  obtain ⟨journal, start, current_eq, startLe, saves, -⟩ := protects _ store.journal.current_mem
  cases old with
  | none =>
    rw [opened.1] at current_eq
    cases current_eq
  | some record =>
    obtain ⟨other, otherStart, other_eq, rfl, otherSaves, -⟩ := opened
    rw [current_eq] at other_eq
    cases other_eq
    refine ⟨_, rfl, ?_⟩
    rw [otherSaves.start_eq saves]
    exact startLe

theorem fileSize_triple (stops : ∀ halt, stopped halt store) :
    Triple (fun world => world = store) fileSize
      (fun size world => world = store ∧ size = store.file.view.length)
      stopped := by
  refine (Triple.inspect_at stops).returning fun value world looked => ⟨looked.1, ?_⟩
  cases looked.2
  rfl

theorem SaveKeeps.of_settled (guards : Guards sha allowed image store)
    (file_eq : after.file = store.file)
    (journal_eq : after.journal = DurableEntry.settled (some journal))
    (saves : journal.Saves sha image start) (below : store.file.KeepsBelow start image)
    (lower : ∀ limit, ProtectsFrom sha image limit store → start ≤ limit) :
    SaveKeeps sha allowed image store after := by
  have protects : ∀ limit, start ≤ limit →
      ProtectsFrom sha image limit after := fun limit startLe =>
    protectsFrom_settled journal_eq startLe saves (file_eq ▸ below)
  exact ⟨file_eq, (protects start (Nat.le_refl _)).guards guards.isAllowed,
    fun limit held => protects limit (lower limit held)⟩

/-- Saving never touches the file and loses no protection.  When it returns,
the image is protected from the requested start on. -/
theorem saveUndo_triple (guards : Guards sha allowed image store) (fits : image.length < 2 ^ 63)
    (start : Int) :
    Triple (fun world => world = store) (saveUndo sha start)
      (fun _ after => SaveKeeps sha allowed image store after ∧
        ProtectsFrom sha image start.toNat after)
      (fun _ after => SaveKeeps sha allowed image store after) := by
  have unchanged := SaveKeeps.of_same guards rfl rfl
  have written : ∀ old, OpenedAs sha image store old →
      (∀ record, old = some record → start < record.start) →
      Triple (fun world => world = store) (writeUndo sha start image.length old)
        (fun _ after => SaveKeeps sha allowed image store after ∧
          ProtectsFrom sha image start.toNat after)
        (fun _ after => SaveKeeps sha allowed image store after) := by
    intro old opened lower
    have belowAll : ∀ limit, ProtectsFrom sha image limit store → start.toNat ≤ limit := by
      intro limit protects
      obtain ⟨record, old_eq, recordLe⟩ := opened.start_le protects
      have := lower record old_eq
      omega
    refine (writeUndo_triple opened.savedFrom ?_ fits).weaken ?_
      fun _ after stopped => stopped.saveKeeps guards belowAll
    · intro inside
      cases old with
      | none => exact inside
      | some record => exact Int.le_of_lt (lower record rfl)
    · rintro _ after ⟨file_eq, journal, journal_eq, saves, below⟩
      exact ⟨SaveKeeps.of_settled guards file_eq journal_eq saves below
        belowAll, protectsFrom_settled journal_eq (Nat.le_refl _) saves
        (file_eq ▸ below)⟩
  refine Triple.bind_fact (guards.openUndo_triple fun _ => unchanged) fun old opened => ?_
  cases old with
  | none =>
    refine Triple.bind_fact (fileSize_triple fun _ => unchanged) ?_
    rintro size rfl
    rw [opened.2.view_eq]
    exact written none opened fun record absurd => by cases absurd
  | some record =>
    have found := opened
    obtain ⟨journal, saved, current_eq, rfl, saves, below⟩ := found
    dsimp only
    split_ifs with reaches
    · have reached : (saved : Int) ≤ start := reaches
      refine (keepUndo_triple current_eq below).weaken ?_ fun _ _ same => same ▸ unchanged
      rintro _ after ⟨file_eq, journal_eq⟩
      refine ⟨SaveKeeps.of_settled guards file_eq journal_eq saves below
        fun limit protects => ?_, protectsFrom_settled journal_eq (by omega)
        saves (file_eq ▸ below)⟩
      obtain ⟨record, same, recordLe⟩ := opened.start_le protects
      cases same
      exact recordLe
    · refine Triple.bind_fact (fileSize_triple fun _ => unchanged) fun _ _ => ?_
      refine written _ opened ?_
      rintro record same
      cases same
      omega

theorem preserves_saved_take (image : Bytes) (start count : Nat) :
    (FileOp.write start ((image.drop start).take count)).Preserves image := by
  intro index after before
  rw [List.length_take, List.length_drop] at before
  rw [List.getElem?_take, if_pos (by omega), List.getElem?_drop, Nat.add_sub_cancel' after]

theorem preserves_saved (image : Bytes) (start : Nat) :
    (FileOp.write start (image.drop start)).Preserves image := by
  have whole := preserves_saved_take image start (image.drop start).length
  rwa [List.take_length] at whole

/-- Writing the saved suffix back and cutting at the old size gives the image. -/
theorem restored_view {file : DurableFile} (below : file.KeepsBelow start image)
    (startLe : start ≤ image.length) :
    ((file.issue (.write start (image.drop start))).issue
      (.truncate image.length)).view = image := by
  have agree := below.agree_view
  have limitLe := agree.limitLe
  rw [DurableFile.view_issue, DurableFile.view_issue, FileOp.apply, FileOp.apply]
  apply List.ext_getElem?
  intro index
  rw [getElem?_resize]
  by_cases inside : index < image.length
  · rw [if_pos inside]
    have entry : (overwrite 0 file.view start (image.drop start))[index]? = image[index]? := by
      by_cases empty : image.drop start = []
      · rw [overwrite, if_pos empty]
        exact agree.bytes index (Nat.lt_of_lt_of_le inside (List.drop_eq_nil_iff.mp empty))
      · rw [getElem?_overwrite _ _ _ _ _ empty, List.length_drop]
        by_cases low : index < start
        · rw [if_neg (by omega), if_pos (by omega), ← agree.bytes index low,
            List.getElem?_eq_getElem (by omega), Option.getD_some]
        · rw [if_pos (by omega), List.getElem?_drop, Nat.add_sub_cancel' (by omega)]
    rw [entry, List.getElem?_eq_getElem inside, Option.getD_some]
  · rw [if_neg inside, List.getElem?_eq_none (by omega)]

/-- A replay that has not removed the journal yet: the image is guarded,
protected from wherever it was, and still in the file if it was there. -/
structure Replaying (sha : Sha256) (allowed : Bytes → Prop) (image : Bytes)
    (store after : UndoStore) : Prop where
  guards : Guards sha allowed image after
  protects : ∀ limit, ProtectsFrom sha image limit store → ProtectsFrom sha image limit after
  keeps : store.file.Keeps image → after.file.Keeps image

namespace Replaying

theorem refl (guards : Guards sha allowed image store) : Replaying sha allowed image store store :=
  ⟨guards, fun _ protects => protects, fun keeps => keeps⟩

variable {after : UndoStore} (replaying : Replaying sha allowed image store after)
include replaying

theorem issue {op : FileOp} (preserves : op.Preserves image) :
    Replaying sha allowed image store (after.issue op) :=
  ⟨replaying.guards.issue preserves, fun limit protects =>
    (replaying.protects limit protects).issue_preserves preserves,
    fun keeps => (replaying.keeps keeps).issue preserves⟩

theorem syncFile : Replaying sha allowed image store after.syncFile :=
  ⟨replaying.guards.syncFile, fun limit protects =>
    (replaying.protects limit protects).syncFile,
    fun keeps => (replaying.keeps keeps).sync⟩

end Replaying

/-- What a call of `restoreUndo` that does not return leaves. -/
def RestoreStopped (sha : Sha256) (allowed : Bytes → Prop) (image : Bytes)
    (store after : UndoStore) : Prop :=
  Replaying sha allowed image store after ∨
    (Guards sha allowed image after ∧ after.file.Keeps image ∧ after.journal.current = none)

theorem RestoreStopped.guards {after : UndoStore}
    (stopped : RestoreStopped sha allowed image store after) :
    Guards sha allowed image after :=
  stopped.elim Replaying.guards And.left

/-- The file is the image, durably, and no journal can come back. -/
structure Restored (image : Bytes) (store : UndoStore) : Prop where
  keeps : store.file.Keeps image
  journal_eq : store.journal = DurableEntry.settled none

theorem Restored.guards (restored : Restored image store) (sha : Sha256)
    (imageAllowed : allowed image) :
    Guards sha allowed image store := by
  refine ⟨imageAllowed, ?_, ?_⟩
  · rw [restored.journal_eq]
    exact restored.keeps
  · rw [restored.journal_eq]
    exact List.forall_mem_singleton.mpr (Or.inl restored.keeps)

theorem replayUndo_triple (guards : Guards sha allowed image store) {start : Nat}
    (startLe : start ≤ image.length) (below : store.file.KeepsBelow start image) :
    Triple (fun world => world = store) (replayUndo sha (savedRecord sha image start))
      (fun _ after => Restored image after)
      (fun _ after => RestoreStopped sha allowed image store after) := by
  have entered := Replaying.refl guards
  have written := entered.issue (preserves_saved image start)
  have cut : (FileOp.truncate image.length).Preserves image := rfl
  have truncated := written.issue cut
  have synced := truncated.syncFile
  have keeps := DurableFile.keeps_of_view_eq (restored_view below startLe)
  have removed := synced.guards.setJournal (show Covers sha image _ none from keeps)
  refine Triple.bind_fact (undoIdentity_triple below (Nat.le_refl _)
    fun _ => Or.inl entered) fun identity _ => ?_
  refine Triple.bind (checkIdentity_triple fun _ => Or.inl entered) fun _ => ?_
  refine Triple.bind (Triple.effect_at fun progress _ => Or.inl
    (entered.issue (preserves_saved_take image start progress)))
    fun _ => ?_
  refine Triple.bind (Triple.effect_at fun _ _ => Or.inl written) fun _ => ?_
  refine Triple.bind (Triple.effect_at fun _ _ => Or.inl truncated) fun _ => ?_
  refine Triple.bind (Triple.effect_at fun _ _ => Or.inl synced) fun _ => ?_
  exact Triple.effect_last (fun _ _ => Or.inr ⟨removed, keeps, rfl⟩) ⟨keeps, rfl⟩

theorem restoreUndo_triple (guards : Guards sha allowed image store) :
    Triple (fun world => world = store) (restoreUndo sha) (fun _ after => Restored image after)
      (fun _ after => RestoreStopped sha allowed image store after) := by
  have entered := Replaying.refl guards
  refine Triple.bind_fact (guards.openUndo_triple fun _ => Or.inl entered) fun found opened => ?_
  cases found with
  | none =>
    exact Triple.effect_last (fun _ _ => Or.inl entered)
      ⟨opened.2, congrArg DurableEntry.settled opened.1⟩
  | some record =>
    obtain ⟨journal, start, -, rfl, saves, below⟩ := opened
    exact replayUndo_triple guards saves.startLe below

theorem checkIdentity_runs (identity : Bytes) :
    Runs (checkIdentity identity identity) store () store := by
  rw [checkIdentity, if_neg fun different => different rfl]
  exact .pure

theorem restoreUndo_runs (guards : Guards sha allowed image store) :
    ∃ after, Runs (restoreUndo sha) store () after := by
  obtain ⟨found, read, opened⟩ := guards.readUndo_eq
  cases found with
  | none => exact ⟨_, .bind (.inspect read) .effect⟩
  | some record =>
    obtain ⟨journal, start, -, rfl, saves, below⟩ := opened
    exact ⟨_, .bind (.inspect read) (.bind (.inspect (identityOf_eq below (Nat.le_refl _)))
      (.bind (checkIdentity_runs _)
        (.bind .effect (.bind .effect (.bind .effect (.bind .effect .effect))))))⟩

theorem commitUndo_triple :
    Triple (fun world => world = store) commitUndo (fun _ after => Restored store.file.view after)
      (fun _ after => after = store ∨ after = store.syncFile ∨
        after = store.syncFile.removeJournal) := by
  refine Triple.bind (Triple.effect_at fun _ _ => Or.inl rfl) fun _ => ?_
  refine Triple.bind (Triple.effect_at fun _ _ => Or.inr (Or.inl rfl)) fun _ => ?_
  exact Triple.effect_last (fun _ _ => Or.inr (Or.inr rfl)) ⟨DurableFile.keeps_of_view_eq rfl, rfl⟩

section Progress

variable {temp : UndoStore} {start : Nat}

theorem copyFileToTemp_runs {count : Nat} (inside : start + count ≤ temp.file.view.length) :
    ∃ copied after, Runs (copyFileToTemp start count) temp copied after :=
  ⟨_, _, .bind (.inspect rfl) (.bind .effect (by
    rw [if_neg (by rw [length_slice]; omega)]
    exact .pure))⟩

theorem saveUndo_runs (noJournal : store.journal.current = none)
    (startLe : start ≤ store.file.view.length) :
    ∃ after, Runs (saveUndo sha start) store () after := by
  have read : readUndo sha store = .ok none := by
    rw [readUndo, noJournal]
  have identified : identityOf sha start store.file.view =
      .ok (sha.sum (slice store.file.view 0 (min start sectorSize))) := by
    rw [identityOf, if_neg (by omega)]
  have inside : start + (store.file.view.length - start) ≤ store.file.view.length := by omega
  obtain ⟨copied, copy, copies⟩ :=
    @copyFileToTemp_runs ((store.setTemp [] false).appendTemp _) start _ inside
  have fills : Runs (fillTemp sha start store.file.view.length none) (store.setTemp [] false) ()
      (copy.appendTemp _) :=
    .bind (.inspect identified) (.bind .pure (.bind .effect (.bind copies (.bind .pure .effect))))
  exact ⟨_, .bind (.inspect read) (.bind (.inspect rfl) (by
    rw [writeUndo, if_neg (by omega), Int.toNat_natCast]
    exact .bind .effect (.ensuring (.bind fills
      (.bind .effect (.bind .effect (.bind .effect .effect)))))))⟩

end Progress

end Rose
