import Mathlib.Data.List.Basic

/-!
# Sequencing of fallible computations

Inversion rules for a successful sequence: it splits into a successful first
part and a successful rest.  They are stated for pure computations with errors
and for computations that also thread a state, which is kept on an error.
-/

namespace Rose.FallibleActions

universe u

variable {ε σ : Type u} {α β : Type u}

theorem bind_eq_ok_iff {first : Except ε α} {next : α → Except ε β} {result : β} :
    (first >>= next) = .ok result ↔ ∃ value, first = .ok value ∧ next value = .ok result := by
  cases first with
  | error reason =>
    constructor
    · intro impossible
      cases impossible
    · rintro ⟨value, impossible, -⟩
      cases impossible
  | ok value =>
    constructor
    · intro continued
      exact ⟨value, rfl, continued⟩
    · rintro ⟨other, same, continued⟩
      cases same
      exact continued

theorem ok_bind (value : α) (next : α → Except ε β) : (Except.ok value >>= next) = next value :=
  rfl

section Errors

variable {reason : ε}

theorem bind_ne_error {first : Except ε α} {next : α → Except ε β} (firstNe : first ≠ .error reason)
    (nextNe : ∀ value, next value ≠ .error reason) :
    (first >>= next) ≠ .error reason := by
  cases first with
  | error other =>
    intro same
    cases same
    exact firstNe rfl
  | ok value => exact nextNe value

theorem foldlM_ne_error {step : α → β → Except ε α}
    (stepNe : ∀ value item, step value item ≠ .error reason) (items : List β) (start : α) :
    items.foldlM step start ≠ .error reason := by
  induction items generalizing start with
  | nil => exact fun impossible => by cases impossible
  | cons item items ih =>
    rw [List.foldlM_cons]
    exact bind_ne_error (stepNe start item) ih

end Errors

theorem mapError_eq_ok_iff {ε' : Type u} {ran : Except ε α} {convert : ε → ε'} {value : α} :
    ran.mapError convert = .ok value ↔ ran = .ok value := by
  cases ran with
  | error reason => simp [Except.mapError]
  | ok value => simp [Except.mapError]

theorem mapError_ok {ε' : Type u} (value : α) (convert : ε → ε') :
    (Except.ok value : Except ε α).mapError convert = .ok value :=
  rfl

theorem run_bind_eq_ok_iff {first : EStateM ε σ α} {next : α → EStateM ε σ β} {before after : σ}
    {result : β} :
    (first >>= next) before = .ok result after ↔ ∃ value middle, first before = .ok value middle ∧
        next value middle = .ok result after := by
  change EStateM.bind first next before = _ ↔ _
  unfold EStateM.bind
  cases first before with
  | error reason middle =>
    constructor
    · intro impossible
      cases impossible
    · rintro ⟨value, other, impossible, -⟩
      cases impossible
  | ok value middle =>
    constructor
    · intro continued
      exact ⟨value, middle, rfl, continued⟩
    · rintro ⟨otherValue, otherMiddle, same, continued⟩
      cases same
      exact continued

theorem map_eq_ok_iff {first : Except ε α} {convert : α → β} {result : β} :
    first.map convert = .ok result ↔ ∃ value, first = .ok value ∧ convert value = result := by
  cases first with
  | error reason => simp [Except.map]
  | ok value => simp [Except.map]

section Checks

/-- How a step of a scan fares: it needs its entry to be readable, and then
keeps the flag exactly if the entry is good. -/
structure Checks (step : σ → α → Except ε σ) (flag : σ → Bool) (readable good : α → Prop) :
    Prop where
  runs : ∀ state entry, readable entry → ∃ next, step state entry = .ok next ∧
    (flag next = true ↔ flag state = true ∧ good entry)
  stops : ∀ state entry, ¬readable entry → ∃ reason, step state entry = .error reason

variable {step : σ → α → Except ε σ} {flag : σ → Bool} {readable good : α → Prop}

/-- A scan over readable entries keeps the flag exactly if all are good. -/
theorem Checks.foldlM_runs (checks : Checks step flag readable good) {entries : List α}
    (allReadable : ∀ entry ∈ entries, readable entry) (state : σ) :
    ∃ final, entries.foldlM step state = .ok final ∧
      (flag final = true ↔ flag state = true ∧ ∀ entry ∈ entries, good entry) := by
  induction entries generalizing state with
  | nil => exact ⟨state, rfl, by simp⟩
  | cons entry entries ih =>
    rw [List.forall_mem_cons] at allReadable
    obtain ⟨next, ran, kept⟩ := checks.runs state entry allReadable.1
    obtain ⟨final, finished, keptAll⟩ := ih allReadable.2 next
    refine ⟨final, ?_, ?_⟩
    · rw [List.foldlM_cons]
      exact bind_eq_ok_iff.mpr ⟨next, ran, finished⟩
    · rw [keptAll, kept, List.forall_mem_cons, and_assoc]

/-- A scan stops at an entry that is not readable. -/
theorem Checks.foldlM_stops (checks : Checks step flag readable good) {entries : List α} {entry : α}
    (member : entry ∈ entries) (unreadable : ¬readable entry) (state : σ) :
    ∃ reason, entries.foldlM step state = .error reason := by
  induction entries generalizing state with
  | nil => cases member
  | cons first entries ih =>
    rw [List.foldlM_cons]
    cases ran : step state first with
    | error reason => exact ⟨reason, rfl⟩
    | ok next =>
      rcases List.mem_cons.mp member with rfl | later
      · obtain ⟨reason, stopped⟩ := checks.stops state entry unreadable
        rw [stopped] at ran
        cases ran
      · exact ih later next

end Checks

section Outcomes

/-- What an action with a state ends in: `returned` with a result, `failed`
with an error. -/
def Ends (action : EStateM ε σ α) (before : σ) (returned : α → σ → Prop) (failed : σ → Prop) :
    Prop :=
  match action before with
  | .ok value after => returned value after
  | .error _ after => failed after

namespace Ends

variable {before : σ} {returned : α → σ → Prop} {failed : σ → Prop}

theorem pure {value : α} (holds : returned value before) :
    Ends (pure value : EStateM ε σ α) before returned failed :=
  holds

theorem throw {reason : ε} (holds : failed before) :
    Ends (throw reason : EStateM ε σ α) before returned failed :=
  holds

theorem bind {first : EStateM ε σ α} {next : α → EStateM ε σ β} {finished : β → σ → Prop}
    (head : Ends first before returned failed)
    (rest : ∀ value middle, returned value middle → Ends (next value) middle finished failed) :
    Ends (first >>= next) before finished failed := by
  change match EStateM.bind first next before with
    | .ok value after => finished value after
    | .error _ after => failed after
  unfold Ends at head
  unfold EStateM.bind
  cases outcome : first before with
  | ok value middle =>
    rw [outcome] at head
    exact rest value middle head
  | error reason middle =>
    rw [outcome] at head
    exact head

theorem mono {action : EStateM ε σ α} {wider : α → σ → Prop} {alsoFailed : σ → Prop}
    (ends : Ends action before returned failed)
    (onReturn : ∀ value after, returned value after → wider value after)
    (onFailure : ∀ after, failed after → alsoFailed after) :
    Ends action before wider alsoFailed := by
  unfold Ends at ends ⊢
  cases outcome : action before with
  | ok value after =>
    rw [outcome] at ends
    exact onReturn value after ends
  | error reason after =>
    rw [outcome] at ends
    exact onFailure after ends

theorem bind_get {next : σ → EStateM ε σ α} (rest : Ends (next before) before returned failed) :
    Ends (get >>= next) before returned failed :=
  rest

end Ends

/-- Whatever an action ends in, `relation` leads there from where it began. -/
def Along (relation : σ → σ → Prop) (action : EStateM ε σ α) : Prop :=
  ∀ before, Ends action before (fun _ after => relation before after) (relation before)

namespace Along

variable {relation : σ → σ → Prop} {action : EStateM ε σ α}

theorem bind [IsTrans σ relation] {next : α → EStateM ε σ β} (first : Along relation action)
    (rest : ∀ value, Along relation (next value)) :
    Along relation (action >>= next) := by
  intro before
  refine (first before).bind fun value middle reached => ?_
  exact (rest value middle).mono (fun _ _ => Trans.trans reached) (fun _ => Trans.trans reached)

variable [Std.Refl relation]

theorem pure (value : α) : Along relation (pure value : EStateM ε σ α) :=
  fun before => Std.Refl.refl (r := relation) before

theorem throw (reason : ε) : Along relation (throw reason : EStateM ε σ α) :=
  fun before => Std.Refl.refl (r := relation) before

theorem get : Along relation (get : EStateM ε σ σ) :=
  fun before => Std.Refl.refl (r := relation) before

/-- An action that changes nothing moves along every reflexive relation. -/
theorem of_still (still : Along Eq action) : Along relation action :=
  fun before => (still before).mono (fun _ _ same => same ▸ Std.Refl.refl (r := relation) before)
    (fun _ same => same ▸ Std.Refl.refl (r := relation) before)

end Along

/-- From a state with the invariant an action ends in such a state, and what it
returns has a property. -/
def Keeps (invariant : σ → Prop) (action : EStateM ε σ α) (result : α → Prop) : Prop :=
  ∀ before, invariant before →
    Ends action before (fun value after => invariant after ∧ result value) invariant

namespace Keeps

variable {invariant : σ → Prop} {action : EStateM ε σ α} {result : α → Prop}

theorem pure {value : α} (holds : result value) :
    Keeps invariant (pure value : EStateM ε σ α) result :=
  fun _ holdsBefore => ⟨holdsBefore, holds⟩

theorem throw (reason : ε) : Keeps invariant (throw reason : EStateM ε σ α) result :=
  fun _ holdsBefore => holdsBefore

theorem bind {next : α → EStateM ε σ β} {final : β → Prop} (first : Keeps invariant action result)
    (rest : ∀ value, result value → Keeps invariant (next value) final) :
    Keeps invariant (action >>= next) final :=
  fun before holds => (first before holds).bind
    fun value middle ⟨kept, holdsValue⟩ => rest value holdsValue middle kept

theorem bind_get {next : σ → EStateM ε σ α}
    (rest : ∀ state, invariant state → Keeps invariant (next state) result) :
    Keeps invariant (get >>= next) result :=
  fun before holds => rest before holds before holds

theorem of_modify {update : σ → σ} (kept : ∀ before, invariant before → invariant (update before)) :
    Keeps invariant (modify update : EStateM ε σ PUnit) fun _ => True :=
  fun before holds => ⟨kept before holds, trivial⟩

theorem of_still (still : Along Eq action) : Keeps invariant action fun _ => True :=
  fun before holds => (still before).mono
    (fun _ _ same => ⟨same ▸ holds, trivial⟩) (fun _ same => same ▸ holds)

theorem ends {before : σ} (keeps : Keeps invariant action fun _ => True)
    (holds : invariant before) :
    Ends action before (fun _ after => invariant after) invariant :=
  (keeps before holds).mono (fun _ _ => And.left) fun _ => id

theorem foldlM {γ : Type u} {step : α → γ → EStateM ε σ α} {items : List γ}
    (steps : ∀ value, ∀ item ∈ items, Keeps invariant (step value item) fun _ => True) (start : α) :
    Keeps invariant (items.foldlM step start) fun _ => True := by
  induction items generalizing start with
  | nil => exact pure trivial
  | cons item items ih =>
    rw [List.foldlM_cons]
    refine bind (steps start item (by simp)) fun value _ => ?_
    exact ih (fun other next member =>
      steps other next (List.mem_cons_of_mem item member)) value

end Keeps

end Outcomes

/-- What every step of a loop keeps holds after the loop. -/
theorem foldlM_ok_invariant {step : α → β → Except ε α} {items : List β}
    {invariant : α → Prop}
    (keeps : ∀ before item after, item ∈ items → invariant before →
      step before item = .ok after → invariant after)
    {start final : α} (initial : invariant start)
    (done : items.foldlM step start = .ok final) : invariant final := by
  induction items generalizing start with
  | nil =>
    cases done
    exact initial
  | cons item items ih =>
    rw [List.foldlM_cons, bind_eq_ok_iff] at done
    obtain ⟨middle, stepped, rest⟩ := done
    refine ih (fun before later after member =>
      keeps before later after (List.mem_cons_of_mem _ member)) ?_ rest
    exact keeps start item middle (by simp) initial stepped

end Rose.FallibleActions
