import Rose.PublicationCoordinator

/-!
# Only durable prefixes are recorded

An adapter records lengths and makes prefixes durable.  When its sync reports a
prefix that is durable by then and no other effect takes durability away, every
length that a publication records is that of a durable prefix, whichever effects
fail and wherever a failure is injected.
-/

namespace Rose

/-- The lengths that a world has recorded and the prefixes durable in it. -/
structure PrefixView (World : Type) where
  recorded : World → Nat → Int
  durable : World → Nat → Int → Prop

namespace PrefixView

variable {World Failure : Type} (view : PrefixView World)

/-- Nothing new is recorded and nothing durable is lost. -/
structure Undisturbed (before after : World) : Prop where
  recorded : ∀ vlog, view.recorded after vlog = view.recorded before vlog
  durable : ∀ vlog length, view.durable before vlog length → view.durable after vlog length

/-- Each recorded length is the one at the start or is durable. -/
def RecordedFrom (start world : World) : Prop :=
  ∀ vlog, view.recorded world vlog = view.recorded start vlog ∨
    view.durable world vlog (view.recorded world vlog)

/-- A prefix that waits to be recorded is durable. -/
def PendingDurable (transaction : PublicationTransaction Failure) (world : World) : Prop :=
  transaction.phase = .recordPrefix → ∀ vlog, transaction.vlogs[transaction.index]? = some vlog →
      view.durable world vlog transaction.pending

variable {view}

theorem Undisturbed.refl (world : World) : view.Undisturbed world world :=
  ⟨fun _ => rfl, fun _ _ kept => kept⟩

theorem RecordedFrom.undisturbed {start before after : World}
    (recorded : view.RecordedFrom start before) (same : view.Undisturbed before after) :
    view.RecordedFrom start after := by
  intro vlog
  rw [same.recorded]
  rcases recorded vlog with initial | durable
  · exact Or.inl initial
  · exact Or.inr (same.durable vlog _ durable)

theorem PendingDurable.undisturbed {before after : World}
    {transaction : PublicationTransaction Failure}
    (pending : view.PendingDurable transaction before) (same : view.Undisturbed before after) :
    view.PendingDurable transaction after := by
  intro phase vlog found
  exact same.durable vlog _ (pending phase vlog found)

end PrefixView

variable {World Failure : Type}

/-- What an adapter and its hook have to do for the recorded lengths to be
durable. -/
structure Coordinator.RecordsDurably (coordinator : Coordinator World Failure)
    (view : PrefixView World) : Prop where
  admitVlogs : ∀ world, view.Undisturbed world (coordinator.publication.admitVlogs world).2
  sync : ∀ vlog world, view.Undisturbed world (coordinator.publication.sync vlog world).2
  synced : ∀ vlog world length after,
    coordinator.publication.sync vlog world = (.ok length, after) → view.durable after vlog length
  recordKeeps : ∀ vlog length world other amount, view.durable world other amount →
      view.durable (coordinator.publication.recordPrefix vlog length world).2 other amount
  recordOther : ∀ vlog length world other, other ≠ vlog →
    view.recorded (coordinator.publication.recordPrefix vlog length world).2
      other = view.recorded world other
  recordOwn : ∀ vlog length world,
    view.recorded (coordinator.publication.recordPrefix vlog length world).2
        vlog = view.recorded world vlog ∨
      view.recorded (coordinator.publication.recordPrefix vlog length world).2 vlog = length
  verify : ∀ world, view.Undisturbed world (coordinator.publication.verify world).2
  publish : ∀ world, view.Undisturbed world (coordinator.publication.publish world).2
  hook : ∀ hook, coordinator.hook = some hook → ∀ point world,
    view.Undisturbed world (hook point world).2

/-- The invariant of a publication's steps. -/
structure PublicationProgress.RecordedDurably (view : PrefixView World) (start : World)
    (progress : PublicationProgress World Failure) : Prop where
  recorded : view.RecordedFrom start progress.world
  pending : view.PendingDurable progress.transaction progress.world

namespace Coordinator.RecordsDurably

variable {coordinator : Coordinator World Failure} {view : PrefixView World} {start : World}
  {progress : PublicationProgress World Failure}

theorem checkpoint (durably : coordinator.RecordsDurably view) (point : PublicationPoint)
    (holds : progress.RecordedDurably view start) :
    (coordinator.checkpoint point progress).RecordedDurably view start := by
  unfold Coordinator.checkpoint
  cases hooked : coordinator.hook with
  | none => exact holds
  | some hook =>
    have same := durably.hook hook hooked point progress.world
    dsimp only
    split
    case _ world asked =>
        rw [asked] at same
        exact ⟨holds.recorded.undisturbed same, holds.pending.undisturbed same⟩
    case _ reason world asked =>
        rw [asked] at same
        exact ⟨holds.recorded.undisturbed same, holds.pending.undisturbed same⟩

section

variable {world : World} (holds : progress.RecordedDurably view start)
  (same : view.Undisturbed progress.world world)
include holds same

theorem moved {transaction : PublicationTransaction Failure}
    {trace : List (PublicationEffect Failure)} (elsewhere : transaction.phase ≠ .recordPrefix) :
    PublicationProgress.RecordedDurably view start ⟨transaction, world, trace⟩ :=
  ⟨holds.recorded.undisturbed same, fun phase => absurd phase elsewhere⟩

theorem failed {reason : Failure} {effect : PublicationEffect Failure} :
    (Coordinator.fails progress reason effect world).RecordedDurably view
      start :=
  ⟨holds.recorded.undisturbed same, holds.pending.undisturbed same⟩

end

section

variable (durably : coordinator.RecordsDurably view)
include durably

theorem recordedFrom {world : World} {vlog : Nat} {length : Int}
    (recorded : view.RecordedFrom start world) (durable : view.durable world vlog length) :
    view.RecordedFrom start (coordinator.publication.recordPrefix vlog length world).2 := by
  have keeps := durably.recordKeeps vlog length world
  intro other
  by_cases own : other = vlog
  · subst own
    rcases durably.recordOwn other length world with old | new
    · rw [old]
      exact (recorded other).imp_right (keeps other _)
    · rw [new]
      exact Or.inr (keeps other length durable)
  · rw [durably.recordOther vlog length world other own]
    exact (recorded other).imp_right (keeps other _)

theorem perform (holds : progress.RecordedDurably view start) :
    (coordinator.perform progress).RecordedDurably view start := by
  unfold Coordinator.perform
  dsimp only
  cases phase : progress.transaction.phase with
  | admission =>
    have same := durably.admitVlogs progress.world
    dsimp only
    split
    case _ reason world admitted =>
        rw [admitted] at same
        exact failed holds same
    case _ ids world admitted =>
        rw [admitted] at same
        refine moved holds same ?_
        dsimp only
        split_ifs <;> decide
  | syncPrefix =>
    dsimp only
    cases found : progress.transaction.vlogs[progress.transaction.index]? with
    | none => exact holds
    | some vlog =>
      have same := durably.sync vlog progress.world
      dsimp only
      split
      case _ reason world synced =>
          rw [synced] at same
          exact failed holds same
      case _ length world synced =>
          rw [synced] at same
          refine durably.checkpoint _ ⟨holds.recorded.undisturbed same, ?_⟩
          intro _ other isOther
          have own : some other = some vlog := isOther.symm.trans found
          cases own
          exact durably.synced vlog progress.world length world synced
  | recordPrefix =>
    dsimp only
    cases found : progress.transaction.vlogs[progress.transaction.index]? with
    | none => exact holds
    | some vlog =>
      have pending := holds.pending phase vlog found
      have recorded := durably.recordedFrom holds.recorded pending
      have keeps := durably.recordKeeps vlog progress.transaction.pending progress.world
      dsimp only
      split
      case _ reason world recording =>
          rw [recording] at recorded keeps
          refine ⟨recorded, fun _ other isOther => ?_⟩
          exact keeps other _ (holds.pending phase other isOther)
      case _ world recording =>
          rw [recording] at recorded
          refine durably.checkpoint _ ⟨recorded, fun impossible => ?_⟩
          dsimp only [Coordinator.moves] at impossible
          split_ifs at impossible
  | verify =>
    have same := durably.verify progress.world
    dsimp only
    split
    case _ reason world verified =>
        rw [verified] at same
        exact failed holds same
    case _ world verified =>
        rw [verified] at same
        exact durably.checkpoint _ (moved holds same (by simp))
  | publish =>
    have same := durably.publish progress.world
    dsimp only
    split
    case _ reason world published =>
        rw [published] at same
        exact failed holds same
    case _ world published =>
        rw [published] at same
        exact durably.checkpoint _ (moved holds same (by simp))
  | done => exact holds

theorem steps (count : Nat) (holds : progress.RecordedDurably view start) :
    (coordinator.steps count progress).RecordedDurably view start := by
  induction count generalizing progress with
  | zero => exact holds
  | succ count ih =>
    refine ih ?_
    unfold Coordinator.step
    cases progress.transaction.err with
    | some reason => exact holds
    | none => exact durably.perform holds

end

theorem initial (view : PrefixView World) (world : World) :
    (PublicationProgress.initial world :
      PublicationProgress World Failure).RecordedDurably view world :=
  ⟨fun _ => Or.inl rfl, fun phase => by cases phase⟩

end Coordinator.RecordsDurably

end Rose
