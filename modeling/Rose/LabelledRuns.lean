import Mathlib.Data.List.Basic

/-!
# Runs of a labelled transition relation

A run is recorded as the list of its labels with the states they lead to.  The
rules of this file turn facts about one step into facts about every state of a
run.  The last one is an exact characterization: when a guard on the state
before a step decides whether the step keeps a property, a run keeps the
property throughout exactly when every step of it meets the guard.
-/

namespace Rose.LabelledRuns

variable {State Label : Type*}

/-- The labels and successor states of a run that starts in `state`. -/
def IsRun (step : State → Label → State → Prop) :
    State → List (Label × State) → Prop
  | _, [] => True
  | state, (label, next) :: rest =>
    step state label next ∧ IsRun step next rest

/-- Every state of a run, the first one included, satisfies `property`. -/
def AllStates (property : State → Prop) (state : State) (run : List (Label × State)) : Prop :=
  property state ∧ ∀ entry ∈ run, property entry.2

/-- Every step of a run meets `guard` in the state before it. -/
def AllSteps (guard : State → Label → Prop) :
    State → List (Label × State) → Prop
  | _, [] => True
  | state, (label, next) :: rest =>
    guard state label ∧ AllSteps guard next rest

instance instDecidableAllSteps (guard : State → Label → Prop)
    [∀ state label, Decidable (guard state label)] :
    (state : State) → (run : List (Label × State)) → Decidable (AllSteps guard state run)
  | _, [] => .isTrue trivial
  | state, (label, next) :: rest =>
    have := instDecidableAllSteps guard next rest
    inferInstanceAs (Decidable (guard state label ∧ AllSteps guard next rest))

/-- The state a run ends in. -/
def lastState (state : State) (run : List (Label × State)) : State :=
  (run.map Prod.snd).getLastD state

theorem allStates_cons_iff (property : State → Prop) (state next : State) (label : Label)
    (rest : List (Label × State)) :
    AllStates property state ((label, next) :: rest) ↔
      property state ∧ AllStates property next rest := by
  simp [AllStates]

theorem lastState_cons (state next : State) (label : Label) (rest : List (Label × State)) :
    lastState state ((label, next) :: rest) = lastState next rest := by
  unfold lastState
  rw [List.map_cons, List.getLastD_cons]

theorem isRun_append_iff (step : State → Label → State → Prop) (state : State)
    (earlier later : List (Label × State)) :
    IsRun step state (earlier ++ later) ↔ IsRun step state earlier ∧
        IsRun step (lastState state earlier) later := by
  induction earlier generalizing state with
  | nil => simp [IsRun, lastState]
  | cons entry earlier ih =>
    obtain ⟨label, next⟩ := entry
    rw [List.cons_append, IsRun, IsRun, ih, lastState_cons, and_assoc]

theorem allSteps_append_iff (guard : State → Label → Prop) (state : State)
    (earlier later : List (Label × State)) :
    AllSteps guard state (earlier ++ later) ↔ AllSteps guard state earlier ∧
        AllSteps guard (lastState state earlier) later := by
  induction earlier generalizing state with
  | nil => simp [AllSteps, lastState]
  | cons entry earlier ih =>
    obtain ⟨label, next⟩ := entry
    rw [List.cons_append, AllSteps, AllSteps, ih, lastState_cons, and_assoc]

variable {step : State → Label → State → Prop} {guard : State → Label → Prop}
  {property invariant : State → Prop} {state : State} {run : List (Label × State)}

theorem AllSteps.and {first second : State → Label → Prop} (left : AllSteps first state run)
    (right : AllSteps second state run) :
    AllSteps (fun before label => first before label ∧ second before label) state run := by
  induction run generalizing state with
  | nil => trivial
  | cons entry rest ih =>
    exact ⟨⟨left.1, right.1⟩, ih left.2 right.2⟩

theorem AllSteps.mp {first second : State → Label → Prop}
    (implied : AllSteps (fun before label => first before label → second before label) state run)
    (holds : AllSteps first state run) : AllSteps second state run := by
  induction run generalizing state with
  | nil => trivial
  | cons entry rest ih => exact ⟨implied.1 holds.1, ih implied.2 holds.2⟩

theorem AllStates.lastState (holds : AllStates property state run) :
    property (lastState state run) := by
  unfold LabelledRuns.lastState
  rcases List.eq_nil_or_concat run with rfl | ⟨front, entry, rfl⟩
  · exact holds.1
  · simpa using holds.2 entry (by simp)

/-- What every step from a state with the property shows is shown by every
step of a run through such states. -/
theorem IsRun.allSteps_of_allStates (isRun : IsRun step state run)
    (states : AllStates property state run)
    (shows : ∀ before label after, property before → step before label after → guard before label) :
    AllSteps guard state run := by
  induction run generalizing state with
  | nil => trivial
  | cons entry rest ih =>
    obtain ⟨label, next⟩ := entry
    obtain ⟨taken, isRest⟩ := isRun
    obtain ⟨holds, later⟩ := (allStates_cons_iff _ _ _ _ _).mp states
    exact ⟨shows state label next holds taken, ih isRest later⟩

/-- An invariant of the initial state kept by every guarded step holds in every
state of a guarded run. -/
theorem IsRun.allStates_of_allSteps (keeps : ∀ state label next, invariant state →
      step state label next → guard state label → invariant next)
    {state : State} {run : List (Label × State)} (isRun : IsRun step state run)
    (initial : invariant state)
    (guarded : AllSteps guard state run) :
    AllStates invariant state run := by
  induction run generalizing state with
  | nil => exact ⟨initial, by simp⟩
  | cons entry rest ih =>
    obtain ⟨label, next⟩ := entry
    rw [allStates_cons_iff]
    exact ⟨initial, ih isRun.2 (keeps state label next initial isRun.1 guarded.1) guarded.2⟩

/-- An invariant kept by every step holds in every state of a run. -/
theorem IsRun.allStates
    (keeps : ∀ state label next, invariant state → step state label next → invariant next)
    (isRun : IsRun step state run)
    (initial : invariant state) :
    AllStates invariant state run := by
  induction run generalizing state with
  | nil => exact ⟨initial, by simp⟩
  | cons entry rest ih =>
    obtain ⟨label, next⟩ := entry
    rw [allStates_cons_iff]
    exact ⟨initial, ih isRun.2 (keeps state label next initial isRun.1)⟩

/-- When the guard decides whether a step keeps the property, a run keeps the
property in all its states exactly when all its steps meet the guard. -/
theorem IsRun.allStates_iff_allSteps (implied : ∀ state, invariant state → property state)
    (keeps : ∀ state label next, invariant state → step state label next →
      guard state label → invariant next)
    (breaks : ∀ state label next, invariant state → step state label next →
      ¬guard state label → ¬property next)
    (isRun : IsRun step state run) (initial : invariant state) :
    AllStates property state run ↔ AllSteps guard state run := by
  induction run generalizing state with
  | nil =>
    exact ⟨fun _ => trivial, fun _ => ⟨implied state initial, by simp⟩⟩
  | cons entry rest ih =>
    obtain ⟨label, next⟩ := entry
    rw [allStates_cons_iff]
    by_cases guarded : guard state label
    · have nextInvariant := keeps state label next initial isRun.1 guarded
      rw [ih isRun.2 nextInvariant]
      exact ⟨fun holds => ⟨guarded, holds.2⟩, fun holds => ⟨implied state initial, holds.2⟩⟩
    · constructor
      · intro holds
        exact absurd holds.2.1 (breaks state label next initial isRun.1 guarded)
      · intro holds
        exact absurd holds.1 guarded

section Records

variable {Record : Type*} (move : State → Record → Label → State → Record)

/-- A run with a record that moves along with its steps. -/
def recorded : State → Record → List (Label × State) → List (Label × (State × Record))
  | _, _, [] => []
  | state, record, (label, next) :: rest =>
    (label, next, move state record label next) ::
      recorded next (move state record label next) rest

theorem IsRun.recorded (record : Record) (isRun : IsRun step state run) :
    IsRun (fun before label after => step before.1 label after.1 ∧
        after.2 = move before.1 before.2 label after.1)
      (state, record) (recorded move state record run) := by
  induction run generalizing state record with
  | nil => trivial
  | cons entry rest ih => exact ⟨⟨isRun.1, rfl⟩, ih _ isRun.2⟩

end Records

end Rose.LabelledRuns
