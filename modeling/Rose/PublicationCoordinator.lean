import Rose.LabelledRuns

/-!
# The order of a publication

A publication admits a list of vlogs, makes each of them durable and records
the prefix that became so, verifies the final placements and publishes.  The
coordinator performs one effect per step and stops at the first failure, also
at one injected between two effects.  The effects themselves belong to an
adapter; here the trace of the calls is related to the one script that a
successful publication follows.
-/

namespace Rose

/-- The effects of a publication over the state they act on. -/
structure Publication (World Failure : Type) where
  admitVlogs : World → Except Failure (List Nat) × World
  sync : Nat → World → Except Failure Int × World
  recordPrefix : Nat → Int → World → Except Failure Unit × World
  verify : World → Except Failure Unit × World
  publish : World → Except Failure Unit × World

/-- The places between effects where a failure may be injected. -/
inductive PublicationPoint
  | shardsSynced
  | prefixRecorded
  | placementsVerified
  | namespacePublished
deriving DecidableEq, Repr

inductive PublicationPhase
  | admission
  | syncPrefix
  | recordPrefix
  | verify
  | publish
  | done
deriving DecidableEq, Repr

/-- The control state of one publication. -/
structure PublicationTransaction (Failure : Type) where
  phase : PublicationPhase
  vlogs : List Nat
  index : Nat
  pending : Int
  err : Option Failure

structure Coordinator (World Failure : Type) where
  publication : Publication World Failure
  hook : Option (PublicationPoint → World → Except Failure Unit × World)

/-- An effect that was performed, with its result. -/
inductive PublicationEffect (Failure : Type)
  | admitted (result : Except Failure (List Nat))
  | synced (vlog : Nat) (result : Except Failure Int)
  | recorded (vlog : Nat) (length : Int) (result : Except Failure Unit)
  | verified (result : Except Failure Unit)
  | published (result : Except Failure Unit)

/-- A publication in progress, with the effects it has performed. -/
structure PublicationProgress (World Failure : Type) where
  transaction : PublicationTransaction Failure
  world : World
  trace : List (PublicationEffect Failure)

/-- The zero transaction, which starts at admission. -/
def PublicationProgress.initial {World Failure : Type} (world : World) :
    PublicationProgress World Failure :=
  ⟨⟨.admission, [], 0, 0, none⟩, world, []⟩

namespace Coordinator

variable {World Failure : Type} (coordinator : Coordinator World Failure)

/-- The hook is asked after an effect that has a point. -/
def checkpoint (point : PublicationPoint) (progress : PublicationProgress World Failure) :
    PublicationProgress World Failure :=
  match coordinator.hook with
  | none => progress
  | some hook =>
    match hook point progress.world with
    | (.ok (), world) => { progress with world }
    | (.error reason, world) =>
      { progress with
        world
        transaction := { progress.transaction with err := some reason } }

/-- A failed effect ends the transaction where it is. -/
def fails (progress : PublicationProgress World Failure) (reason : Failure)
    (effect : PublicationEffect Failure) (world : World) :
    PublicationProgress World Failure :=
  { transaction := { progress.transaction with err := some reason }
    world
    trace := progress.trace ++ [effect] }

/-- A successful effect moves the transaction on. -/
def moves (progress : PublicationProgress World Failure)
    (transaction : PublicationTransaction Failure) (effect : PublicationEffect Failure)
    (world : World) :
    PublicationProgress World Failure :=
  { transaction, world, trace := progress.trace ++ [effect] }

/-- The effect of the phase that an unfinished transaction is in. -/
def perform (progress : PublicationProgress World Failure) :
    PublicationProgress World Failure :=
  let current := progress.transaction
  match current.phase with
  | .admission =>
    match coordinator.publication.admitVlogs progress.world with
    | (.error reason, world) =>
      fails progress reason (.admitted (.error reason)) world
    | (.ok ids, world) =>
      moves progress
        { current with
          vlogs := ids
          phase := if ids = [] then .verify else .syncPrefix }
        (.admitted (.ok ids)) world
  | .syncPrefix =>
    match current.vlogs[current.index]? with
    | none => progress
    | some vlog =>
      match coordinator.publication.sync vlog progress.world with
      | (.error reason, world) =>
        fails progress reason (.synced vlog (.error reason)) world
      | (.ok length, world) =>
        coordinator.checkpoint .shardsSynced
          (moves progress
            { current with pending := length, phase := .recordPrefix }
            (.synced vlog (.ok length)) world)
  | .recordPrefix =>
    match current.vlogs[current.index]? with
    | none => progress
    | some vlog =>
      match coordinator.publication.recordPrefix vlog current.pending progress.world with
      | (.error reason, world) =>
        fails progress reason (.recorded vlog current.pending (.error reason)) world
      | (.ok (), world) =>
        coordinator.checkpoint .prefixRecorded
          (moves progress
            { current with
              index := current.index + 1
              phase := if current.index + 1 = current.vlogs.length
                then .verify else .syncPrefix }
            (.recorded vlog current.pending (.ok ())) world)
  | .verify =>
    match coordinator.publication.verify progress.world with
    | (.error reason, world) =>
      fails progress reason (.verified (.error reason)) world
    | (.ok (), world) =>
      coordinator.checkpoint .placementsVerified
        (moves progress { current with phase := .publish } (.verified (.ok ())) world)
  | .publish =>
    match coordinator.publication.publish progress.world with
    | (.error reason, world) =>
      fails progress reason (.published (.error reason)) world
    | (.ok (), world) =>
      coordinator.checkpoint .namespacePublished
        (moves progress { current with phase := .done } (.published (.ok ())) world)
  | .done => progress

/-- One step: nothing after an error or at the end. -/
def step (progress : PublicationProgress World Failure) :
    PublicationProgress World Failure :=
  match progress.transaction.err with
  | some _ => progress
  | none => coordinator.perform progress

/-- Some number of steps. -/
def steps : Nat → PublicationProgress World Failure → PublicationProgress World Failure
  | 0, progress => progress
  | count + 1, progress => steps count (coordinator.step progress)

/-- The steps until the transaction is done or has failed. -/
def commit (world : World) : PublicationProgress World Failure :=
  let admitted := coordinator.step (.initial world)
  coordinator.steps (2 * admitted.transaction.vlogs.length + 2) admitted

end Coordinator

namespace PublicationEffect

variable {Failure : Type}

/-- The same call with a failure for its result. -/
def failure (reason : Failure) :
    PublicationEffect Failure → PublicationEffect Failure
  | .admitted _ => .admitted (.error reason)
  | .synced vlog _ => .synced vlog (.error reason)
  | .recorded vlog length _ => .recorded vlog length (.error reason)
  | .verified _ => .verified (.error reason)
  | .published _ => .published (.error reason)

def failed : PublicationEffect Failure → Bool
  | .admitted (.error _) | .synced _ (.error _) | .recorded _ _ (.error _)
  | .verified (.error _) | .published (.error _) => true
  | _ => false

def isAdmitted : PublicationEffect Failure → Bool
  | .admitted _ => true
  | _ => false

def isSynced (vlog : Nat) : PublicationEffect Failure → Bool
  | .synced other _ => decide (other = vlog)
  | _ => false

def isRecorded (vlog : Nat) : PublicationEffect Failure → Bool
  | .recorded other _ _ => decide (other = vlog)
  | _ => false

def isVerified : PublicationEffect Failure → Bool
  | .verified _ => true
  | _ => false

def isPublished : PublicationEffect Failure → Bool
  | .published _ => true
  | _ => false

end PublicationEffect

section Script

variable {Failure : Type}

/-- Each vlog is synced and recorded with the length that its sync returned. -/
def recordings : List Nat → List Int → List (PublicationEffect Failure)
  | vlog :: vlogs, length :: lengths =>
    .synced vlog (.ok length) :: .recorded vlog length (.ok ()) :: recordings vlogs lengths
  | _, _ => []

/-- The effects up to the verification of the placements. -/
def preparation (ids : List Nat) (lengths : List Int) : List (PublicationEffect Failure) :=
  .admitted (.ok ids) :: (recordings ids lengths ++ [.verified (.ok ())])

/-- The effects of a successful publication. -/
def publicationScript (ids : List Nat) (lengths : List Int) : List (PublicationEffect Failure) :=
  preparation ids lengths ++ [.published (.ok ())]

/-- A trace goes along the script, but its last effect may have failed. -/
def OnScript (trace : List (PublicationEffect Failure)) : Prop :=
  ∃ ids lengths full, lengths.length = ids.length ∧ full <+: publicationScript ids lengths ∧
    (trace = full ∨ ∃ front expected reason, full = front ++ [expected] ∧
      trace = front ++ [expected.failure reason])

variable {ids : List Nat} {lengths : List Int}

theorem recordings_append (more : List Int) (within : lengths.length ≤ ids.length) :
    (recordings ids (lengths ++ more) : List (PublicationEffect Failure)) =
      recordings ids lengths ++ recordings (ids.drop lengths.length) more := by
  induction lengths generalizing ids with
  | nil =>
    cases ids with
    | nil => rfl
    | cons id ids => rfl
  | cons length lengths ih =>
    cases ids with
    | nil => simp at within
    | cons id ids =>
      have shorter : lengths.length ≤ ids.length := by simpa using within
      simp [recordings, ih shorter]

theorem recordings_snoc {vlog : Nat} (length : Int) (found : ids[lengths.length]? = some vlog) :
    (recordings ids (lengths ++ [length]) : List (PublicationEffect Failure)) =
      recordings ids lengths ++ [.synced vlog (.ok length), .recorded vlog length (.ok ())] := by
  obtain ⟨inside, isVlog⟩ := List.getElem?_eq_some_iff.mp found
  rw [recordings_append [length] (Nat.le_of_lt inside), List.drop_eq_getElem_cons inside, isVlog]
  cases ids.drop (lengths.length + 1) with
  | nil => rfl
  | cons next later => rfl

/-- What a transaction that has not failed has done, phase by phase. -/
inductive Proceeding : PublicationTransaction Failure →
    List (PublicationEffect Failure) → Prop
  | start (pending : Int) : Proceeding ⟨.admission, [], 0, pending, none⟩ []
  | syncing (ids : List Nat) (lengths : List Int) (pending : Int)
      (inside : lengths.length < ids.length) :
      Proceeding ⟨.syncPrefix, ids, lengths.length, pending, none⟩
        (.admitted (.ok ids) :: recordings ids lengths)
  | recording (ids : List Nat) (lengths : List Int) (vlog : Nat)
      (pending : Int) (found : ids[lengths.length]? = some vlog) :
      Proceeding ⟨.recordPrefix, ids, lengths.length, pending, none⟩
        (.admitted (.ok ids) :: (recordings ids lengths ++ [.synced vlog (.ok pending)]))
  | verifying (ids : List Nat) (lengths : List Int) (pending : Int)
      (all : lengths.length = ids.length) :
      Proceeding ⟨.verify, ids, lengths.length, pending, none⟩
        (.admitted (.ok ids) :: recordings ids lengths)
  | publishing (ids : List Nat) (lengths : List Int) (pending : Int)
      (all : lengths.length = ids.length) :
      Proceeding ⟨.publish, ids, lengths.length, pending, none⟩ (preparation ids lengths)
  | done (ids : List Nat) (lengths : List Int) (pending : Int) (all : lengths.length = ids.length) :
      Proceeding ⟨.done, ids, lengths.length, pending, none⟩ (publicationScript ids lengths)

variable {transaction : PublicationTransaction Failure} {trace : List (PublicationEffect Failure)}

theorem exists_script_of_recordings (within : lengths.length ≤ ids.length) :
    ∃ all : List Int, all.length = ids.length ∧
      (.admitted (.ok ids) :: recordings ids lengths :
        List (PublicationEffect Failure)) <+: publicationScript ids all := by
  refine ⟨lengths ++ List.replicate (ids.length - lengths.length) 0, ?_, ?_⟩
  · simp
    omega
  · unfold publicationScript preparation
    rw [recordings_append _ within]
    exact ⟨recordings (ids.drop lengths.length) (List.replicate (ids.length - lengths.length) 0) ++
        [.verified (.ok ()), .published (.ok ())], by simp⟩

theorem Proceeding.isPrefix (proceeding : Proceeding transaction trace) :
    ∃ ids lengths, lengths.length = ids.length ∧ trace <+: publicationScript ids lengths := by
  cases proceeding with
  | start pending => exact ⟨[], [], rfl, List.nil_prefix⟩
  | syncing ids lengths pending inside =>
    exact ⟨ids, exists_script_of_recordings (Nat.le_of_lt inside)⟩
  | recording ids lengths vlog pending found =>
    have inside := (List.getElem?_eq_some_iff.mp found).1
    obtain ⟨all, length, begins⟩ := exists_script_of_recordings
      (show (lengths ++ [pending]).length ≤ ids.length by
        rw [List.length_append]
        exact inside)
    refine ⟨ids, all, length, List.IsPrefix.trans ?_ begins⟩
    rw [recordings_snoc pending found]
    exact ⟨[.recorded vlog pending (.ok ())], by simp⟩
  | verifying ids lengths pending all =>
    exact ⟨ids, exists_script_of_recordings (Nat.le_of_eq all)⟩
  | publishing ids lengths pending all =>
    exact ⟨ids, lengths, all, List.prefix_append _ _⟩
  | done ids lengths pending all =>
    exact ⟨ids, lengths, all, List.prefix_refl _⟩

end Script

section Steps

variable {World Failure : Type}

/-- A publication goes on, or has stopped after a trace along the script. -/
def PublicationProgress.Sound (progress : PublicationProgress World Failure) : Prop :=
  Proceeding progress.transaction progress.trace ∨
    (progress.transaction.err ≠ none ∧ OnScript progress.trace)

variable {progress : PublicationProgress World Failure}

theorem Proceeding.onScript {transaction : PublicationTransaction Failure}
    {trace : List (PublicationEffect Failure)} (proceeding : Proceeding transaction trace) :
    OnScript trace := by
  obtain ⟨ids, lengths, count, begins⟩ := proceeding.isPrefix
  exact ⟨ids, lengths, trace, count, begins, Or.inl rfl⟩

theorem PublicationProgress.Sound.onScript (sound : progress.Sound) : OnScript progress.trace := by
  rcases sound with proceeding | ⟨-, onScript⟩
  · exact proceeding.onScript
  · exact onScript

namespace Coordinator

variable {coordinator : Coordinator World Failure}

/-- The transaction is done or has failed. -/
def Finished (progress : PublicationProgress World Failure) : Prop :=
  progress.transaction.phase = .done ∨ progress.transaction.err ≠ none

/-- The effects that an admitted transaction still has to perform. -/
def remaining (transaction : PublicationTransaction Failure) : Nat :=
  match transaction.phase with
  | .admission => 0
  | .syncPrefix => 2 * (transaction.vlogs.length - transaction.index) + 2
  | .recordPrefix => 2 * (transaction.vlogs.length - transaction.index) + 1
  | .verify => 2
  | .publish => 1
  | .done => 0

/-- What a step of an unfinished transaction comes to: it stops, or it goes on
with less to do than a transaction that had been admitted. -/
def Proceeds (before : PublicationTransaction Failure)
    (progress : PublicationProgress World Failure) : Prop :=
  (progress.transaction.err ≠ none ∧ OnScript progress.trace) ∨
    (Proceeding progress.transaction progress.trace ∧ progress.transaction.phase ≠ .admission ∧
      (before.phase ≠ .admission → remaining progress.transaction < remaining before))

variable {before : PublicationTransaction Failure}

theorem Proceeds.sound (proceeds : Proceeds before progress) : progress.Sound := by
  rcases proceeds with stopped | ⟨proceeding, -⟩
  · exact Or.inr stopped
  · exact Or.inl proceeding

theorem Proceeds.checkpoint (proceeds : Proceeds before progress) (point : PublicationPoint) :
    Proceeds before (coordinator.checkpoint point progress) := by
  unfold Coordinator.checkpoint
  split
  · exact proceeds
  · split
    · exact proceeds
    · exact Or.inl ⟨by simp, proceeds.sound.onScript⟩

theorem proceeds_of_failure {next : PublicationTransaction Failure}
    {trace : List (PublicationEffect Failure)} {effect : PublicationEffect Failure}
    {reason : Failure} (proceeding : Proceeding next (trace ++ [effect]))
    (stopped : progress.transaction.err = some reason)
    (traced : progress.trace = trace ++ [effect.failure reason]) :
    Proceeds before progress := by
  obtain ⟨ids, lengths, count, begins⟩ := proceeding.isPrefix
  exact Or.inl ⟨by simp [stopped], ids, lengths, _, count, begins,
    Or.inr ⟨trace, effect, reason, rfl, traced⟩⟩

theorem perform_proceeds (proceeding : Proceeding progress.transaction progress.trace)
    (unfinished : progress.transaction.phase ≠ .done) :
    Proceeds progress.transaction (coordinator.perform progress) := by
  obtain ⟨transaction, world, trace⟩ := progress
  cases proceeding with
  | start pending =>
    have next : ∀ ids, Proceeding ⟨if ids = [] then .verify else .syncPrefix, ids, 0, pending, none⟩
        ([] ++ [(.admitted (.ok ids) : PublicationEffect Failure)]) := by
      intro ids
      cases ids with
      | nil => exact .verifying [] [] pending rfl
      | cons id ids => exact .syncing (id :: ids) [] pending (by simp)
    dsimp only [perform]
    split
    · exact proceeds_of_failure (next []) rfl rfl
    · refine Or.inr ⟨next _, ?_, fun admitted => absurd rfl admitted⟩
      dsimp only [moves]
      split_ifs <;> simp
  | syncing ids lengths pending inside =>
    have found := List.getElem?_eq_getElem inside
    have next : ∀ length, Proceeding ⟨.recordPrefix, ids, lengths.length, length, none⟩
        ((.admitted (.ok ids) :: recordings ids lengths) ++
          [(.synced ids[lengths.length] (.ok length) : PublicationEffect Failure)]) :=
      fun length => .recording ids lengths _ length found
    dsimp only [perform]
    rw [found]
    dsimp only
    split
    · exact proceeds_of_failure (next 0) rfl rfl
    · exact Proceeds.checkpoint (Or.inr ⟨next _, by simp [moves], by simp [moves, remaining]⟩) _
  | recording ids lengths vlog pending found =>
    have inside := (List.getElem?_eq_some_iff.mp found).1
    have whole := @recordings_snoc Failure _ _ _ pending found
    have count : (lengths ++ [pending]).length = lengths.length + 1 := by simp
    have next : Proceeding
        ⟨if lengths.length + 1 = ids.length then .verify else .syncPrefix,
          ids, lengths.length + 1, pending, none⟩
        ((.admitted (.ok ids) :: (recordings ids lengths ++ [.synced vlog (.ok pending)])) ++
            [(.recorded vlog pending (.ok ()) : PublicationEffect Failure)]) := by
      have same : ((.admitted (.ok ids) ::
          (recordings ids lengths ++ [.synced vlog (.ok pending)])) ++
            [(.recorded vlog pending (.ok ()) :
              PublicationEffect Failure)]) =
          .admitted (.ok ids) :: recordings ids (lengths ++ [pending]) := by
        rw [whole]
        simp
      rw [same, ← count]
      split_ifs with last
      · exact .verifying ids (lengths ++ [pending]) pending last
      · exact .syncing ids (lengths ++ [pending]) pending (by omega)
    dsimp only [perform]
    rw [found]
    dsimp only
    split
    · exact proceeds_of_failure next rfl rfl
    · refine Proceeds.checkpoint (Or.inr ⟨next, ?_⟩) _
      dsimp only [moves]
      split_ifs with last
      · exact ⟨by simp, fun _ => by simp only [remaining]; omega⟩
      · exact ⟨by simp, fun _ => by simp only [remaining]; omega⟩
  | verifying ids lengths pending all =>
    have next : Proceeding ⟨.publish, ids, lengths.length, pending, none⟩
        ((.admitted (.ok ids) :: recordings ids lengths) ++
          [(.verified (.ok ()) : PublicationEffect Failure)]) :=
      .publishing ids lengths pending all
    dsimp only [perform]
    split
    · exact proceeds_of_failure next rfl rfl
    · exact Proceeds.checkpoint (Or.inr ⟨next, by simp [moves], by simp [moves, remaining]⟩) _
  | publishing ids lengths pending all =>
    have next : Proceeding ⟨.done, ids, lengths.length, pending, none⟩
        (preparation ids lengths ++ [(.published (.ok ()) : PublicationEffect Failure)]) :=
      .done ids lengths pending all
    dsimp only [perform]
    split
    · exact proceeds_of_failure next rfl rfl
    · exact Proceeds.checkpoint (Or.inr ⟨next, by simp [moves], by simp [moves, remaining]⟩) _
  | done ids lengths pending all => exact absurd rfl unfinished

theorem steps_of_finished (count : Nat) (finished : Finished progress) :
    coordinator.steps count progress = progress := by
  have stays : coordinator.step progress = progress := by
    unfold step
    rcases finished with done | failed
    · split
      · rfl
      · unfold perform
        simp only [done]
    · split
      · rfl
      · rename_i none
        exact absurd none failed
  induction count with
  | zero => rfl
  | succ count ih => rw [steps, stays, ih]

theorem step_proceeds (sound : progress.Sound) (unfinished : ¬Finished progress) :
    Proceeds progress.transaction (coordinator.step progress) := by
  have running : progress.transaction.err = none := by
    by_contra failed
    exact unfinished (Or.inr failed)
  unfold step
  rw [running]
  rcases sound with proceeding | ⟨impossible, -⟩
  · exact perform_proceeds proceeding fun done => unfinished (Or.inl done)
  · exact absurd running impossible

theorem steps_sound (count : Nat) (sound : progress.Sound) :
    (coordinator.steps count progress).Sound := by
  induction count generalizing progress with
  | zero => exact sound
  | succ count ih =>
    by_cases finished : Finished progress
    · rw [steps_of_finished _ finished]
      exact sound
    · exact ih (step_proceeds sound finished).sound

theorem remaining_pos {transaction : PublicationTransaction Failure}
    (admitted : transaction.phase ≠ .admission) (unfinished : transaction.phase ≠ .done) :
    0 < remaining transaction := by
  unfold remaining
  split <;> first | omega | contradiction

theorem remaining_le (transaction : PublicationTransaction Failure) :
    remaining transaction ≤ 2 * transaction.vlogs.length + 2 := by
  unfold remaining
  split <;> omega

theorem finished_of_remaining (count : Nat) (sound : progress.Sound)
    (admitted : progress.transaction.phase ≠ .admission)
    (enough : remaining progress.transaction ≤ count) :
    Finished (coordinator.steps count progress) := by
  induction count generalizing progress with
  | zero =>
    by_contra unfinished
    have positive := remaining_pos admitted fun done => unfinished (Or.inl done)
    omega
  | succ count ih =>
    by_cases finished : Finished progress
    · rw [steps_of_finished _ finished]
      exact finished
    have proceeds := @step_proceeds _ _ _ coordinator sound finished
    rw [steps]
    rcases proceeds with ⟨failed, -⟩ | ⟨proceeding, later, less⟩
    · rw [steps_of_finished _ (Or.inr failed)]
      exact Or.inr failed
    · have less := less admitted
      exact ih (Or.inl proceeding) later (by omega)

/-- The steps of a commit suffice. -/
theorem commit_finished (world : World) : Finished (coordinator.commit world) := by
  have started : (PublicationProgress.initial world : PublicationProgress World Failure).Sound :=
    Or.inl (.start 0)
  have unfinished : ¬Finished (PublicationProgress.initial world :
      PublicationProgress World Failure) := by
    simp [Finished, PublicationProgress.initial]
  unfold commit
  rcases @step_proceeds _ _ _ coordinator started unfinished with
    ⟨failed, -⟩ | ⟨proceeding, admitted, -⟩
  · dsimp only
    rw [steps_of_finished _ (Or.inr failed)]
    exact Or.inr failed
  · exact finished_of_remaining _ (Or.inl proceeding) admitted (remaining_le _)

end Coordinator

end Steps

section Order

variable {Failure : Type}

/-- What the trace of a publication shows: it publishes only after everything
before succeeded, performs each effect once, records for a vlog what its own
sync returned, and stops at a failure. -/
structure PublicationOrdered (trace : List (PublicationEffect Failure)) :
    Prop where
  published : ∀ front result back, trace = front ++ .published result :: back →
    back = [] ∧ ∃ ids lengths, lengths.length = ids.length ∧ front = preparation ids lengths
  once : trace.countP PublicationEffect.isAdmitted ≤ 1 ∧
    trace.countP PublicationEffect.isVerified ≤ 1 ∧
    trace.countP PublicationEffect.isPublished ≤ 1
  perVlog : ∀ ids, .admitted (.ok ids) ∈ trace → ∀ vlog,
    trace.countP (PublicationEffect.isSynced vlog) ≤ ids.count vlog ∧
      trace.countP (PublicationEffect.isRecorded vlog) ≤ ids.count vlog
  ownLength : ∀ front vlog length result back,
    trace = front ++ .recorded vlog length result :: back →
    ∃ earlier, front = earlier ++ [.synced vlog (.ok length)]
  stops : ∀ front effect back, trace = front ++ effect :: back → effect.failed = true → back = []

variable {ids : List Nat} {lengths : List Int}

variable {effect : PublicationEffect Failure}

theorem mem_recordings (member : effect ∈ recordings ids lengths) :
    ∃ vlog length, effect = .synced vlog (.ok length) ∨
      effect = .recorded vlog length (.ok ()) := by
  induction ids generalizing lengths with
  | nil => cases member
  | cons id ids ih =>
    cases lengths with
    | nil => cases member
    | cons length lengths =>
      simp only [recordings, List.mem_cons] at member
      rcases member with rfl | rfl | later
      · exact ⟨id, length, Or.inl rfl⟩
      · exact ⟨id, length, Or.inr rfl⟩
      · exact ih later

theorem mem_publicationScript (member : effect ∈ publicationScript ids lengths) :
    effect = .admitted (.ok ids) ∨ effect ∈ recordings ids lengths ∨
      effect = .verified (.ok ()) ∨ effect = .published (.ok ()) := by
  simp only [publicationScript, preparation, List.mem_append, List.mem_cons,
    List.not_mem_nil, or_false] at member
  tauto

theorem failed_of_mem_publicationScript (member : effect ∈ publicationScript ids lengths) :
    effect.failed = false := by
  rcases mem_publicationScript member with rfl | recorded | rfl | rfl
  · rfl
  · obtain ⟨vlog, length, rfl | rfl⟩ := mem_recordings recorded
    · rfl
    · rfl
  · rfl
  · rfl

theorem isPublished_of_mem_preparation (member : effect ∈ preparation ids lengths) :
    effect.isPublished = false := by
  simp only [preparation, List.mem_cons, List.mem_append, List.not_mem_nil, or_false] at member
  rcases member with rfl | recorded | rfl
  · rfl
  · obtain ⟨vlog, length, rfl | rfl⟩ := mem_recordings recorded
    · rfl
    · rfl
  · rfl

theorem isPublished_failure (reason : Failure) (effect : PublicationEffect Failure) :
    (effect.failure reason).isPublished = effect.isPublished := by
  cases effect <;> rfl

theorem countP_recordings_eq_zero {kind : PublicationEffect Failure → Bool}
    (neither : ∀ vlog length, kind (.synced vlog (.ok length)) = false ∧
      kind (.recorded vlog length (.ok ())) = false) :
    (recordings ids lengths).countP kind = 0 := by
  rw [List.countP_eq_zero]
  intro effect member
  obtain ⟨vlog, length, rfl | rfl⟩ := mem_recordings member
  · simp [(neither vlog length).1]
  · simp [(neither vlog length).2]

theorem countP_recordings_le (vlog : Nat) :
    (recordings ids lengths : List (PublicationEffect Failure)).countP
        (PublicationEffect.isSynced vlog) ≤ ids.count vlog ∧
      (recordings ids lengths : List (PublicationEffect Failure)).countP
        (PublicationEffect.isRecorded vlog) ≤ ids.count vlog := by
  induction ids generalizing lengths with
  | nil => simp [recordings]
  | cons id ids ih =>
    cases lengths with
    | nil => simp [recordings]
    | cons length lengths =>
      obtain ⟨synced, recorded⟩ := @ih lengths
      simp only [recordings, List.countP_cons, List.count_cons,
        PublicationEffect.isSynced, PublicationEffect.isRecorded,
        decide_eq_true_eq, beq_iff_eq, Bool.false_eq_true, if_false]
      constructor
      · omega
      · omega

variable {trace front : List (PublicationEffect Failure)}

/-- Where a trace along a script stands, the script stands too. -/
theorem exists_split_of_onScript {back : List (PublicationEffect Failure)}
    (onScript : OnScript trace) (split : trace = front ++ effect :: back) :
    ∃ ids lengths expected later, lengths.length = ids.length ∧ later.length = back.length ∧
      front ++ expected :: later <+: publicationScript ids lengths ∧
      (effect = expected ∨ (back = [] ∧ ∃ reason, effect = expected.failure reason)) := by
  obtain ⟨ids, lengths, full, count, begins, agrees⟩ := onScript
  rcases agrees with rfl | ⟨early, expected, reason, rfl, traced⟩
  · rw [split] at begins
    exact ⟨ids, lengths, effect, back, count, rfl, begins, Or.inl rfl⟩
  · rw [split] at traced
    rcases List.eq_nil_or_concat back with rfl | ⟨middle, last, rfl⟩
    · obtain ⟨rfl, same⟩ := List.append_inj' traced rfl
      exact ⟨ids, lengths, expected, [], count, rfl, begins,
        Or.inr ⟨rfl, reason, by simpa using same⟩⟩
    · rw [List.concat_eq_append, ← List.cons_append, ← List.append_assoc] at traced
      obtain ⟨rfl, -⟩ := List.append_inj' traced rfl
      refine ⟨ids, lengths, effect, middle ++ [expected], count, by simp, ?_, Or.inl rfl⟩
      simpa using begins

/-- The publishing effect is the last one of the script. -/
theorem eq_preparation_of_published {later : List (PublicationEffect Failure)}
    {expected : PublicationEffect Failure}
    (begins : front ++ expected :: later <+: publicationScript ids lengths)
    (publishes : expected.isPublished = true) :
    front = preparation ids lengths ∧ later = [] := by
  obtain ⟨rest, whole⟩ := begins
  unfold publicationScript at whole
  rw [List.append_assoc, List.cons_append] at whole
  rcases List.append_eq_append_iff.mp whole with
    ⟨middle, isPreparation, tail⟩ | ⟨middle, isFront, tail⟩
  · cases middle with
    | nil =>
      simp only [List.nil_append, List.cons.injEq] at tail
      refine ⟨by simpa using isPreparation.symm, ?_⟩
      have empty := tail.2
      rw [List.append_eq_nil_iff] at empty
      exact empty.1
    | cons first middle =>
      obtain ⟨rfl, -⟩ := List.cons.inj tail
      have inside : expected ∈ preparation ids lengths := by
        rw [isPreparation]
        simp
      rw [isPublished_of_mem_preparation inside] at publishes
      cases publishes
  · cases middle with
    | nil =>
      simp only [List.nil_append, List.cons.injEq] at tail
      refine ⟨by simpa using isFront, ?_⟩
      have empty := tail.2.symm
      rw [List.append_eq_nil_iff] at empty
      exact empty.1
    | cons first middle => simp at tail

/-- A length is recorded right after the sync that returned it. -/
theorem synced_before_recorded {later tail : List (PublicationEffect Failure)} {vlog : Nat}
    {length : Int} {result : Except Failure Unit}
    (others : ∀ effect ∈ tail, effect.isRecorded vlog = false)
    (begins : front ++ .recorded vlog length result :: later <+: recordings ids lengths ++ tail) :
    ∃ earlier, front = earlier ++ [.synced vlog (.ok length)] := by
  have absent : ∀ {start}, ¬(start ++ .recorded vlog length result :: later <+: tail) := by
    intro start inside
    have none := others _ (inside.subset (List.mem_append_right _ List.mem_cons_self))
    simp [PublicationEffect.isRecorded] at none
  induction ids generalizing lengths front with
  | nil => exact absurd begins absent
  | cons id ids ih =>
    cases lengths with
    | nil => exact absurd begins absent
    | cons first lengths =>
      simp only [recordings, List.cons_append] at begins
      match front with
      | [] =>
        have same := (List.cons_prefix_cons.mp begins).1
        cases same
      | [synced] =>
        obtain ⟨rfl, rest⟩ := List.cons_prefix_cons.mp begins
        have same := (List.cons_prefix_cons.mp rest).1
        cases same
        exact ⟨[], rfl⟩
      | synced :: recorded :: front =>
        obtain ⟨-, rest⟩ := List.cons_prefix_cons.mp begins
        obtain ⟨-, rest⟩ := List.cons_prefix_cons.mp rest
        obtain ⟨earlier, rfl⟩ := ih rest
        exact ⟨synced :: recorded :: earlier, rfl⟩

theorem countP_le_of_onScript (onScript : OnScript trace) (kind : PublicationEffect Failure → Bool)
    (stable : ∀ reason effect, kind (PublicationEffect.failure reason effect) = kind effect) :
    ∃ ids lengths, (∀ admitted, .admitted (.ok admitted) ∈ trace → admitted = ids) ∧
      trace.countP kind ≤ (publicationScript ids lengths).countP kind := by
  obtain ⟨ids, lengths, full, count, begins, agrees⟩ := onScript
  have admits : ∀ admitted, .admitted (.ok admitted) ∈ full → admitted = ids := by
    intro admitted member
    rcases mem_publicationScript (begins.subset member) with
      same | recorded | same | same
    · cases same
      rfl
    · obtain ⟨vlog, length, same | same⟩ := mem_recordings recorded
      · cases same
      · cases same
    · cases same
    · cases same
  refine ⟨ids, lengths, fun admitted member => ?_, ?_⟩
  · rcases agrees with rfl | ⟨front, expected, reason, rfl, rfl⟩
    · exact admits admitted member
    · rcases List.mem_append.mp member with inside | last
      · exact admits admitted (List.mem_append_left _ inside)
      · cases expected <;> simp [PublicationEffect.failure] at last
  · have same : trace.countP kind = full.countP kind := by
      rcases agrees with rfl | ⟨front, expected, reason, rfl, rfl⟩
      · rfl
      · simp [List.countP_append, List.countP_cons, stable]
    rw [same]
    exact begins.sublist.countP_le

theorem PublicationOrdered.of_onScript (onScript : OnScript trace) : PublicationOrdered trace := by
  refine ⟨fun front result back split => ?_, ⟨?_, ?_, ?_⟩, fun ids member vlog => ⟨?_, ?_⟩,
    fun front vlog length result back split => ?_,
    fun front effect back split failed => ?_⟩
  · obtain ⟨ids, lengths, expected, later, count, sameLength, begins, same⟩ :=
      exists_split_of_onScript onScript split
    have publishes : expected.isPublished = true := by
      rcases same with rfl | ⟨-, reason, same⟩
      · rfl
      · have kinds := congrArg PublicationEffect.isPublished same
        rw [isPublished_failure] at kinds
        exact kinds.symm
    obtain ⟨rfl, rfl⟩ := eq_preparation_of_published begins publishes
    exact ⟨List.eq_nil_of_length_eq_zero sameLength.symm, ids, lengths, count,
      rfl⟩
  · obtain ⟨ids, lengths, -, bound⟩ := countP_le_of_onScript onScript PublicationEffect.isAdmitted
      (by rintro reason (_ | _ | _ | _ | _) <;> rfl)
    refine Nat.le_trans bound ?_
    simp [publicationScript, preparation, List.countP_append, List.countP_cons,
      countP_recordings_eq_zero, PublicationEffect.isAdmitted]
  · obtain ⟨ids, lengths, -, bound⟩ := countP_le_of_onScript onScript PublicationEffect.isVerified
      (by rintro reason (_ | _ | _ | _ | _) <;> rfl)
    refine Nat.le_trans bound ?_
    simp [publicationScript, preparation, List.countP_append, List.countP_cons,
      countP_recordings_eq_zero, PublicationEffect.isVerified]
  · obtain ⟨ids, lengths, -, bound⟩ := countP_le_of_onScript onScript
      PublicationEffect.isPublished isPublished_failure
    refine Nat.le_trans bound ?_
    simp [publicationScript, preparation, List.countP_append, List.countP_cons,
      countP_recordings_eq_zero, PublicationEffect.isPublished]
  · obtain ⟨own, lengths, admits, bound⟩ := countP_le_of_onScript onScript
      (PublicationEffect.isSynced vlog)
      (by rintro reason (_ | _ | _ | _ | _) <;> rfl)
    obtain rfl := admits ids member
    refine Nat.le_trans bound ?_
    simpa [publicationScript, preparation, List.countP_append,
      PublicationEffect.isSynced] using (countP_recordings_le vlog).1
  · obtain ⟨own, lengths, admits, bound⟩ := countP_le_of_onScript onScript
      (PublicationEffect.isRecorded vlog)
      (by rintro reason (_ | _ | _ | _ | _) <;> rfl)
    obtain rfl := admits ids member
    refine Nat.le_trans bound ?_
    simpa [publicationScript, preparation, List.countP_append,
      PublicationEffect.isRecorded] using (countP_recordings_le vlog).2
  · obtain ⟨ids, lengths, expected, later, -, -, begins, same⟩ :=
      exists_split_of_onScript onScript split
    obtain ⟨outcome, rfl⟩ : ∃ outcome, expected = .recorded vlog length outcome := by
      rcases same with rfl | ⟨-, reason, same⟩
      · exact ⟨result, rfl⟩
      · cases expected with
        | recorded other amount outcome =>
          cases same
          exact ⟨outcome, rfl⟩
        | _ => cases same
    have script : (publicationScript ids lengths :
        List (PublicationEffect Failure)) = .admitted (.ok ids) ::
          (recordings ids lengths ++ [.verified (.ok ()), .published (.ok ())]) := by
      simp [publicationScript, preparation]
    rw [script] at begins
    cases front with
    | nil =>
      have impossible := (List.cons_prefix_cons.mp begins).1
      cases impossible
    | cons admitted front =>
      obtain ⟨-, rest⟩ := List.cons_prefix_cons.mp begins
      obtain ⟨earlier, rfl⟩ := synced_before_recorded (by simp [PublicationEffect.isRecorded]) rest
      exact ⟨admitted :: earlier, rfl⟩
  · obtain ⟨ids, lengths, expected, later, -, -, begins, same⟩ :=
      exists_split_of_onScript onScript split
    have succeeded := failed_of_mem_publicationScript (begins.subset
      (List.mem_append_right _ List.mem_cons_self))
    rcases same with rfl | ⟨last, -⟩
    · rw [succeeded] at failed
      cases failed
    · exact last

end Order

end Rose
