import Rose.LabelledRuns
import Rose.UndoJournalSpecs

/-!
# Runs of the undo journal

A run interleaves calls of `saveUndo` and `restoreUndo`, each under any tape of
faults, with writes and truncations at or above the protected start and with
power losses.  A call that crashes leaves the store where it was cut, and a
power loss may follow.  From every state of such a run, restoring gives the
file the run started from.
-/

namespace Rose

open DurableFiles FaultyPrograms LabelledRuns

inductive UndoAction where
  | saveUndo (start : Int)
  | restoreUndo
  | write (offset : Nat) (data : Bytes)
  | truncate (size : Nat)
  | powerLoss

/-- The actions that only use the journal. -/
def UndoAction.leavesFile : UndoAction → Bool
  | write _ _ => false
  | truncate _ => false
  | _ => true

/-- A store with the lowest start that was saved and not retired since. -/
structure TrackedUndo where
  store : UndoStore
  protectedStart : Option Nat

/-- The protected start after a successful save. -/
def TrackedUndo.lowered (tracked : TrackedUndo) (start : Int) : Nat :=
  min (tracked.protectedStart.getD start.toNat) start.toNat

inductive UndoStep (sha : Sha256) :
    TrackedUndo → UndoAction → TrackedUndo → Prop
  | saved (before : TrackedUndo) (start : Int) (faults : List Fault) (after : Machine UndoStore)
      (ran : saveUndo sha start ⟨before.store, faults⟩ = .ok () after) :
      UndoStep sha before (.saveUndo start) ⟨after.world, some (before.lowered start)⟩
  | saveStopped (before : TrackedUndo) (start : Int) (faults : List Fault)
      (halt : Halt) (after : Machine UndoStore)
      (ran : saveUndo sha start ⟨before.store, faults⟩ = .error halt after) :
      UndoStep sha before (.saveUndo start) ⟨after.world, before.protectedStart⟩
  | restored (before : TrackedUndo) (faults : List Fault) (after : Machine UndoStore)
      (ran : restoreUndo sha ⟨before.store, faults⟩ = .ok () after) :
      UndoStep sha before .restoreUndo ⟨after.world, none⟩
  | restoreStopped (before : TrackedUndo) (faults : List Fault)
      (halt : Halt) (after : Machine UndoStore)
      (ran : restoreUndo sha ⟨before.store, faults⟩ = .error halt after) :
      UndoStep sha before .restoreUndo
        ⟨after.world, if after.world.journal.current = none then none
          else before.protectedStart⟩
  | write (before : TrackedUndo) (limit offset : Nat) (data : Bytes)
      (isProtected : before.protectedStart = some limit)
      (above : limit ≤ offset) :
      UndoStep sha before (.write offset data)
        ⟨before.store.issue (.write offset data), before.protectedStart⟩
  | truncate (before : TrackedUndo) (limit size : Nat)
      (isProtected : before.protectedStart = some limit)
      (above : limit ≤ size) :
      UndoStep sha before (.truncate size)
        ⟨before.store.issue (.truncate size), before.protectedStart⟩
  | powerLoss (before : TrackedUndo) (after : UndoStore) (loss : before.store.PowerLoss after) :
      UndoStep sha before .powerLoss ⟨after, before.protectedStart⟩

/-- The store guards the baseline and protects it from the tracked start on. -/
structure TrackedUndo.Guarded (sha : Sha256) (baseline : Bytes) (tracked : TrackedUndo) : Prop where
  guards : Guards sha (fun image => image = baseline) baseline tracked.store
  protects : ∀ limit, tracked.protectedStart = some limit →
    ProtectsFrom sha baseline limit tracked.store

variable {sha : Sha256} {baseline image : Bytes}

theorem settled_guarded (sha : Sha256) (baseline : Bytes) :
    TrackedUndo.Guarded sha baseline ⟨UndoStore.settled baseline, none⟩ := by
  have keeps : DurableFile.Keeps ⟨baseline, []⟩ baseline :=
    ⟨rfl, fun _ issued => absurd issued List.not_mem_nil⟩
  refine ⟨⟨rfl, keeps, ?_⟩, fun limit absurd => by cases absurd⟩
  exact List.forall_mem_singleton.mpr (Or.inl keeps)

theorem Guards.powerLoss_baseline {store after : UndoStore}
    (guards : Guards sha (fun image => image = baseline) baseline store)
    (loss : store.PowerLoss after) :
    Guards sha (fun image => image = baseline) baseline after := by
  obtain ⟨recovered, recoveredGuards⟩ := guards.powerLoss loss
  have same := recoveredGuards.isAllowed
  exact same ▸ recoveredGuards

/-- Every step keeps the baseline guarded. -/
theorem UndoStep.guarded {before after : TrackedUndo} {action : UndoAction}
    (fits : baseline.length < 2 ^ 63) (guarded : before.Guarded sha baseline)
    (step : UndoStep sha before action after) :
    after.Guarded sha baseline := by
  obtain ⟨guards, protects⟩ := guarded
  cases step with
  | saved start faults last ran =>
    obtain ⟨kept, reached⟩ := (saveUndo_triple guards fits start).returned rfl ran
    refine ⟨kept.guards, ?_⟩
    rintro limit ⟨⟩
    unfold TrackedUndo.lowered
    cases tracked : before.protectedStart with
    | none => simpa using reached
    | some low =>
      rcases Nat.le_total low start.toNat with lower | higher
      · rw [Option.getD_some, Nat.min_eq_left lower]
        exact kept.protects low (protects low tracked)
      · rw [Option.getD_some, Nat.min_eq_right higher]
        exact reached
  | saveStopped start faults halt last ran =>
    have kept := (saveUndo_triple guards fits start).halted rfl ran
    exact ⟨kept.guards, fun limit tracked =>
      kept.protects limit (protects limit tracked)⟩
  | restored faults last ran =>
    have restored := (restoreUndo_triple guards).returned rfl ran
    exact ⟨restored.guards sha rfl, fun limit absurd => by cases absurd⟩
  | restoreStopped faults halt last ran =>
    have stopped := (restoreUndo_triple guards).halted rfl ran
    refine ⟨stopped.guards, fun limit tracked => ?_⟩
    dsimp only at tracked
    split_ifs at tracked with retired
    rcases stopped with replaying | ⟨-, -, gone⟩
    · exact replaying.protects limit (protects limit tracked)
    · exact absurd gone retired
  | write limit offset data isProtected above =>
    have kept := (protects limit isProtected).issue (FileOp.harmlessBelow_write data baseline above)
    refine ⟨kept.guards rfl, fun other tracked => ?_⟩
    cases isProtected.symm.trans tracked
    exact kept
  | truncate limit size isProtected above =>
    have kept := (protects limit isProtected).issue
      (show (FileOp.truncate size).HarmlessBelow limit baseline from above)
    refine ⟨kept.guards rfl, fun other tracked => ?_⟩
    cases isProtected.symm.trans tracked
    exact kept
  | powerLoss last loss =>
    exact ⟨guards.powerLoss_baseline loss, fun limit tracked =>
      (protects limit tracked).powerLoss loss⟩

/-- The file keeps an image that the store also guards. -/
structure TrackedUndo.Resting (sha : Sha256) (image : Bytes) (tracked : TrackedUndo) : Prop where
  guards : Guards sha (fun other => other = image) image tracked.store
  keeps : tracked.store.file.Keeps image

/-- Steps that only use the journal do not change a file at rest. -/
theorem UndoStep.resting {before after : TrackedUndo} {action : UndoAction}
    (fits : image.length < 2 ^ 63) (resting : before.Resting sha image)
    (step : UndoStep sha before action after) (leaves : action.leavesFile = true) :
    after.Resting sha image := by
  obtain ⟨guards, keeps⟩ := resting
  cases step with
  | saved start faults last ran =>
    have kept := ((saveUndo_triple guards fits start).returned rfl ran).1
    exact ⟨kept.guards, kept.file_eq ▸ keeps⟩
  | saveStopped start faults halt last ran =>
    have kept := (saveUndo_triple guards fits start).halted rfl ran
    exact ⟨kept.guards, kept.file_eq ▸ keeps⟩
  | restored faults last ran =>
    have restored := (restoreUndo_triple guards).returned rfl ran
    exact ⟨restored.guards sha rfl, restored.keeps⟩
  | restoreStopped faults halt last ran =>
    have stopped := (restoreUndo_triple guards).halted rfl ran
    refine ⟨stopped.guards, ?_⟩
    rcases stopped with replaying | ⟨-, kept, -⟩
    · exact replaying.keeps keeps
    · exact kept
  | write limit offset data isProtected above => cases leaves
  | truncate limit size isProtected above => cases leaves
  | powerLoss last loss =>
    exact ⟨guards.powerLoss_baseline loss, keeps.crash loss.file⟩

/-- No saving, restoring or power loss changes what the file reads as. -/
def StaysAt (sha : Sha256) (image : Bytes) (store : UndoStore) : Prop :=
  ∀ run, IsRun (UndoStep sha) ⟨store, none⟩ run →
    AllSteps (fun _ action => action.leavesFile = true) ⟨store, none⟩ run →
      AllStates (fun tracked => tracked.store.file.view = image) ⟨store, none⟩ run

theorem Restored.staysAt {store : UndoStore} (fits : image.length < 2 ^ 63)
    (restored : Restored image store) :
    StaysAt sha image store := by
  intro run isRun leaves
  have resting : AllStates (TrackedUndo.Resting sha image) ⟨store, none⟩ run :=
    isRun.allStates_of_allSteps (fun _ _ _ held step => UndoStep.resting fits held step)
      ⟨restored.guards sha rfl, restored.keeps⟩ leaves
  exact ⟨resting.1.keeps.view_eq, fun entry visited => (resting.2 entry visited).keeps.view_eq⟩

/-- After any run on a durable baseline, restoring returns when no operation
fails; whenever it returns the file is the baseline, and neither restoring
again nor a crash changes it.  After a commit that returned, they do not change
the committed file either. -/
theorem undo_run_restores_baseline (sha : Sha256) (baseline : Bytes)
    (fits : baseline.length < 2 ^ 63) (run : List (UndoAction × TrackedUndo))
    (isRun : IsRun (UndoStep sha) ⟨UndoStore.settled baseline, none⟩ run) :
    let store := (lastState ⟨UndoStore.settled baseline, none⟩ run).store
    (∃ after, restoreUndo sha ⟨store, []⟩ = .ok () after) ∧
    (∀ faults after, restoreUndo sha ⟨store, faults⟩ = .ok () after →
      StaysAt sha baseline after.world) ∧
    (∀ faults after, commitUndo ⟨store, faults⟩ = .ok () after → store.file.view.length < 2 ^ 63 →
        StaysAt sha store.file.view after.world) := by
  intro store
  have guarded : TrackedUndo.Guarded sha baseline
      (lastState ⟨UndoStore.settled baseline, none⟩ run) :=
    (isRun.allStates (fun _ _ _ held step => UndoStep.guarded fits held step)
      (settled_guarded sha baseline)).lastState
  refine ⟨?_, ?_, ?_⟩
  · obtain ⟨after, ran⟩ := restoreUndo_runs guarded.guards
    exact ⟨_, ran⟩
  · intro faults after ran
    exact ((restoreUndo_triple guarded.guards).returned rfl ran).staysAt fits
  · intro faults after ran viewFits
    exact (commitUndo_triple.returned rfl ran).staysAt viewFits

/-- A digest that ignores its input. -/
def constantSha : Sha256 := ⟨fun _ => List.replicate 32 0, fun _ => List.length_replicate⟩

/-- Saving from offset one, overwriting what follows and cutting the file. -/
theorem undo_run_restores_after_overwrite :
    ∃ saved : Machine UndoStore, saveUndo constantSha 1 ⟨UndoStore.settled [1, 2, 3], []⟩ =
        .ok () saved ∧
      ∃ after, restoreUndo constantSha
        ⟨(saved.world.issue (.write 1 [9, 9])).issue (.truncate 1), []⟩ = .ok () after ∧
        StaysAt constantSha [1, 2, 3] after.world := by
  obtain ⟨saved, ran⟩ : ∃ saved : Machine UndoStore,
      saveUndo constantSha 1 ⟨UndoStore.settled [1, 2, 3], []⟩ = .ok () saved := ⟨_, rfl⟩
  have isRun : IsRun (UndoStep constantSha) ⟨UndoStore.settled [1, 2, 3], none⟩
      [(.saveUndo 1, ⟨saved.world, some 1⟩),
        (.write 1 [9, 9], ⟨saved.world.issue (.write 1 [9, 9]), some 1⟩),
        (.truncate 1,
          ⟨(saved.world.issue (.write 1 [9, 9])).issue (.truncate 1), some 1⟩)] :=
    ⟨UndoStep.saved _ 1 [] saved ran, UndoStep.write _ 1 1 [9, 9] rfl (Nat.le_refl _),
      UndoStep.truncate _ 1 1 rfl (Nat.le_refl _), trivial⟩
  obtain ⟨⟨after, restored⟩, stays, -⟩ :=
    undo_run_restores_baseline constantSha [1, 2, 3] (by decide) _ isRun
  exact ⟨saved, ran, after, restored, stays [] after restored⟩

end Rose
