import Rose.PlogCommitting

/-!
# Opening a physical log again

Opening may itself be cut short.  Whatever it did until then, the store can
still be recovered; and once nothing fails any more it returns the bytes of one
of the committed contents.
-/

namespace Rose

open ListSplice FixedBlocks DurableFiles FaultyPrograms

variable {env : PlogEnv} {head bytes payload : Bytes} {id : Nat} {contents : Bytes → Prop}
  {world : PlogWorld}

section Stopped

variable {start kept stopped : UndoStore → Prop}

theorem onStore_triple {α : Type} {program : Program UndoStore α} {post : α → UndoStore → Prop}
    {halted : Halt → UndoStore → Prop} (triple : Triple kept program post halted) :
    Triple (fun world => kept world.store) (onStore program)
      (fun value world => post value world.store) fun halt world => halted halt world.store :=
  Triple.within fun _ held => triple.consequence (fun _ same => same ▸ held)
    (fun _ _ held => held) fun _ _ held => held

theorem setPlog_maintains {change : Plog → Plog} :
    Maintains (fun world => kept world.store) (setPlog change) :=
  Maintains.update fun _ held => held

/-- Loading leaves the store alone. -/
theorem reload_maintains : Maintains (fun world => kept world.store) (reload env) := by
  have stays : ∀ {α : Type} {program : Program PlogWorld α}, (∀ world,
      Triple (· = world) program
        (fun _ after => after.store = world.store) (fun _ after => after.store = world.store)) →
      Maintains (fun world => kept world.store) program := by
    intro α program same machine held
    exact (same machine.world).weaken
      (fun _ _ store_eq => store_eq ▸ held) (fun _ _ store_eq => store_eq ▸ held) machine rfl
  refine Maintains.bind (onStore_triple Maintains.inspect) fun size => ?_
  refine Maintains.bind (stays fun world => (recoverFromTrailer_cases size).returning
    fun _ _ held => held.1) fun recovered => ?_
  refine Maintains.bind setPlog_maintains fun _ => ?_
  split_ifs
  · exact Maintains.pure
  · refine stays fun world => (@rebuildOpenBlock_triple world
      (fun _ after => after.store = world.store) (fun _ _ => rfl)
      fun _ _ _ held => held).returning ?_
    rintro _ _ ⟨buf, -, rfl⟩
    rfl

theorem discardUndoTemp_maintains (removes : ∀ store, kept store → kept store.removeTemp)
    (syncs : ∀ store, kept store → kept store.syncDirectory) :
    Maintains kept discardUndoTemp := by
  refine Maintains.bind Maintains.inspect fun store => ?_
  cases store.temp with
  | none => exact Maintains.pure
  | some journal =>
    exact Maintains.bind (Triple.effect removes (fun _ _ held => held) fun _ _ held => held)
      fun _ => Triple.effect syncs (fun _ _ held => held) fun _ _ held => held

/-- Opening restores the file, discards what is left of a journal and reads the
superblock; after that the store is left alone. -/
theorem openExistingPlog_rule {headed : UndoStore → Prop}
    (restores : Triple start (restoreUndo env.sha) (fun _ => kept) fun _ => stopped)
    (removes : ∀ store, kept store → kept store.removeTemp)
    (syncs : ∀ store, kept store → kept store.syncDirectory)
    (stops : ∀ store, kept store → stopped store)
    (finds : ∀ store payload, kept store → readSuperblock env store.file.view = .ok payload →
      headed store)
    (headedStops : ∀ store, headed store → stopped store) :
    Triple (fun world => start world.store) (openExistingPlog env id)
      (fun _ world => headed world.store) fun _ world => stopped world.store := by
  have stays : ∀ {α : Type} {program : Program PlogWorld α} {held : UndoStore → Prop},
      (∀ store, held store → stopped store) → Maintains (fun world => held world.store) program →
        Triple (fun world => held world.store) program (fun _ world => held world.store)
          fun _ world => stopped world.store :=
    fun stops maintains => maintains.stopping fun _ _ held => stops _ held
  have cleans := discardUndoTemp_maintains removes syncs
  refine Triple.bind (Triple.labelled (onStore_triple restores) fun _ _ held => held) fun _ =>
    Triple.bind (stays stops (Maintains.labelled (onStore_triple cleans))) fun _ =>
      Triple.bind (stays stops (onStore_triple Maintains.inspect)) fun size =>
        Triple.bind (stays stops setPlog_maintains) fun _ => ?_
  split_ifs
  · exact Triple.raise fun _ held => stops _ held
  · exact Triple.bind (Triple.labelled (Triple.inspect
      (fun _ header held found => finds _ header held found) (fun _ _ held => stops _ held)
      fun _ held => stops _ held) fun _ _ held => held) fun _ =>
        stays headedStops (Maintains.bind setPlog_maintains fun _ => reload_maintains)

end Stopped

section Guarded

variable {allowed : Bytes → Prop}

/-- The store guards some allowed image. -/
def UndoStore.Guarded (env : PlogEnv) (allowed : Bytes → Prop) (store : UndoStore) : Prop :=
  ∃ image, Guards env.sha allowed image store

theorem openExistingPlog_maintains :
    Maintains (fun world => world.store.Guarded env allowed) (openExistingPlog env id) := by
  have restores : Maintains (UndoStore.Guarded env allowed) (restoreUndo env.sha) := by
    rintro machine ⟨image, guards⟩
    exact (restoreUndo_triple guards).weaken
      (fun _ _ restored => ⟨image, restored.guards env.sha guards.isAllowed⟩)
      (fun _ _ stopped => ⟨image, stopped.guards⟩) machine rfl
  refine openExistingPlog_rule restores ?_ ?_ (fun _ held => held) (fun _ _ held _ => held)
    fun _ held => held
  · rintro store ⟨image, guards⟩
    exact ⟨image, guards.congr rfl rfl⟩
  · rintro store ⟨image, guards⟩
    exact ⟨image, guards.syncDirectory⟩

end Guarded

theorem CommittedImage.bytesLength_le {image : Bytes}
    (committed : CommittedImage env head bytes image) :
    bytes.length ≤ image.length := by
  have split := length_sectorsOf bytes
  have short := length_raggedOf bytes
  have size_eq := committed.size_eq
  unfold committedEnd sealedEnd at size_eq
  split_ifs at size_eq with isOpen <;> omega

/-- Opening a recoverable store starts a session on one of the contents. -/
theorem openExistingPlog_recovers (id : Nat)
    (recoverable : Recoverable env (superblock env payload) contents world.store)
    (plain : ∀ content, contents content → NoTrailerLookalike env content)
    (payloadFits : payload.length ≤ plogHeaderMaxPayload) (parses : env.parses payload = true) :
    ∃ recovered after, openExistingPlog env id ⟨world, []⟩ = .ok () ⟨after, []⟩ ∧
      contents recovered ∧
      Session env (superblock env payload) (fun content => content = recovered) recovered after ∧
      Yields env after.plog after.content recovered := by
  obtain ⟨image, guards⟩ := recoverable
  obtain ⟨recovered, isContent, committed, fits⟩ := guards.isAllowed
  obtain ⟨after, ran, opened⟩ := @openExistingPlog_committedImage env image recovered payload _ id
    world guards committed payloadFits parses (plain recovered isContent)
  refine ⟨recovered, after, ran, isContent, Session.of_openAt opened committed rfl fits, ?_⟩
  rw [opened.plog_eq, opened.content_eq]
  refine (openedPlog_tracks env id payload recovered).yields
    (openedPlog_healthy env id payload recovered) committed.stored ?_
  exact Nat.lt_of_le_of_lt committed.bytesLength_le fits

end Rose
