import Mathlib.Data.List.Basic

/-!
# Programs over a faulty world

A program changes a world through effects that may fail or be cut short by a
crash.  The faults come from a tape that every effect reads one entry of, so a
program is an ordinary function, and quantifying over tapes quantifies over all
failures.  A triple says what holds when a program returns and what holds when
it stops, whether it stopped with an error or in a crash; a triple never
mentions the tape.
-/

namespace Rose.FaultyPrograms

/-- What happens to the next effect: it succeeds, it fails after some progress,
or the machine crashes after some progress. -/
inductive Fault where
  | none
  | fail (progress : Nat)
  | crash (progress : Nat)
deriving DecidableEq, Repr

/-- Why a program stopped before its end. -/
inductive Halt where
  | error (reason : String)
  | crash
deriving DecidableEq, Repr

structure Machine (World : Type) where
  world : World
  faults : List Fault

abbrev Program (World : Type) := EStateM Halt (Machine World)

variable {World Outer α β : Type}

/-- Change the world, or leave it as far as the effect got. -/
def effect (name : String) (apply : World → World) (cut : Nat → World → World) :
    Program World Unit :=
  fun machine =>
    match machine.faults with
    | [] => .ok () ⟨apply machine.world, []⟩
    | .none :: rest => .ok () ⟨apply machine.world, rest⟩
    | .fail progress :: rest =>
      .error (.error name) ⟨cut progress machine.world, rest⟩
    | .crash progress :: rest =>
      .error .crash ⟨cut progress machine.world, rest⟩

/-- Look at the world; the look itself may fail. -/
def inspect (name : String) (look : World → Except String α) :
    Program World α :=
  fun machine =>
    match machine.faults with
    | .fail _ :: rest => .error (.error name) ⟨machine.world, rest⟩
    | .crash _ :: rest => .error .crash ⟨machine.world, rest⟩
    | faults =>
      match look machine.world with
      | .ok value => .ok value ⟨machine.world, faults.tail⟩
      | .error reason =>
        .error (.error reason) ⟨machine.world, faults.tail⟩

/-- Change the part of the world that no fault can reach. -/
def update (apply : World → World) : Program World Unit :=
  fun machine => .ok () ⟨apply machine.world, machine.faults⟩

/-- Read the world without a chance to fail. -/
def current : Program World World := fun machine => .ok machine.world machine

def raise (reason : String) : Program World α := fun machine => .error (.error reason) machine

/-- Clean up after a return or an error, but not after a crash. -/
def ensuring (program : Program World α) (cleanup : World → World) :
    Program World α :=
  fun machine =>
    match program machine with
    | .ok value after => .ok value ⟨cleanup after.world, after.faults⟩
    | .error (.error reason) after =>
      .error (.error reason) ⟨cleanup after.world, after.faults⟩
    | .error .crash after => .error .crash after

/-- Run a program on a part of a larger world. -/
def within (get : Outer → World) (set : World → Outer → Outer) (program : Program World α) :
    Program Outer α :=
  fun machine =>
    match program ⟨get machine.world, machine.faults⟩ with
    | .ok value after =>
      .ok value ⟨set after.world machine.world, after.faults⟩
    | .error halt after =>
      .error halt ⟨set after.world machine.world, after.faults⟩

/-- Put a label before the reason of an error. -/
def labelled (label : String) (program : Program World α) :
    Program World α :=
  fun machine =>
    match program machine with
    | .error (.error reason) after => .error (.error (label ++ reason)) after
    | result => result

/-- Turn an error into a value; a crash still stops. -/
def attempt (program : Program World α) : Program World (Except String α) := fun machine =>
    match program machine with
    | .ok value after => .ok (.ok value) after
    | .error (.error reason) after => .ok (.error reason) after
    | .error .crash after => .error .crash after

/-- The world a program leaves, whether it returns or stops. -/
def worldAfter (program : Program World α) (machine : Machine World) : World :=
  match program machine with
  | .ok _ after => after.world
  | .error _ after => after.world

/-- Why a program stops, if it does not return. -/
def haltOf (program : Program World α) (machine : Machine World) : Option Halt :=
  match program machine with
  | .ok _ _ => none
  | .error halt _ => some halt

theorem returned_of_haltOf {program : Program World α} {machine : Machine World}
    (returns : haltOf program machine = none) :
    ∃ value rest, program machine = .ok value ⟨worldAfter program machine, rest⟩ := by
  unfold haltOf at returns
  unfold worldAfter
  cases ran : program machine with
  | ok value after => exact ⟨value, after.faults, rfl⟩
  | error halt after => simp [ran] at returns

theorem halted_of_haltOf {program : Program World α} {machine : Machine World} {halt : Halt}
    (stops : haltOf program machine = some halt) :
    ∃ rest, program machine = .error halt ⟨worldAfter program machine, rest⟩ := by
  unfold haltOf at stops
  unfold worldAfter
  cases ran : program machine with
  | ok value after => simp [ran] at stops
  | error halt after =>
    rw [ran] at stops
    cases stops
    exact ⟨after.faults, rfl⟩

/-- What a finished run must satisfy. -/
def Meets (post : α → World → Prop) (stopped : Halt → World → Prop) :
    EStateM.Result Halt (Machine World) α → Prop
  | .ok value machine => post value machine.world
  | .error halt machine => stopped halt machine.world

/-- From every world that satisfies `pre` and under every tape of faults, the
program either returns with `post` or stops with `stopped`. -/
def Triple (pre : World → Prop) (program : Program World α) (post : α → World → Prop)
    (stopped : Halt → World → Prop) : Prop :=
  ∀ machine, pre machine.world → Meets post stopped (program machine)

namespace Triple

variable {pre : World → Prop} {post : α → World → Prop} {stopped : Halt → World → Prop}
  {program : Program World α}

section

variable (triple : Triple pre program post stopped)
include triple

theorem returned {machine after : Machine World} {value : α} (holds : pre machine.world)
    (ran : program machine = .ok value after) : post value after.world := by
  have met := triple machine holds
  rwa [ran] at met

theorem halted {machine after : Machine World} {halt : Halt} (holds : pre machine.world)
    (ran : program machine = .error halt after) : stopped halt after.world := by
  have met := triple machine holds
  rwa [ran] at met

theorem consequence {strongPre : World → Prop} {weakPost : α → World → Prop}
    {weakStopped : Halt → World → Prop} (before : ∀ world, strongPre world → pre world)
    (after : ∀ value world, post value world → weakPost value world)
    (halts : ∀ halt world, stopped halt world → weakStopped halt world) :
    Triple strongPre program weakPost weakStopped := by
  intro machine holds
  have met := triple machine (before _ holds)
  cases ran : program machine with
  | ok value last =>
    rw [ran] at met
    exact after value last.world met
  | error halt last =>
    rw [ran] at met
    exact halts halt last.world met

end

section Weakening

variable {weakPost : α → World → Prop} {weakStopped : Halt → World → Prop}
  (triple : Triple pre program post stopped)
include triple

theorem weaken (after : ∀ value world, post value world → weakPost value world)
    (halts : ∀ halt world, stopped halt world → weakStopped halt world) :
    Triple pre program weakPost weakStopped :=
  triple.consequence (fun _ holds => holds) after halts

theorem returning (after : ∀ value world, post value world → weakPost value world) :
    Triple pre program weakPost stopped :=
  triple.weaken after fun _ _ held => held

theorem stopping (halts : ∀ halt world, stopped halt world → weakStopped halt world) :
    Triple pre program post weakStopped :=
  triple.weaken (fun _ _ held => held) halts

end Weakening

/-- What two triples say of a program holds together. -/
theorem and {also : α → World → Prop} {alsoStopped : Halt → World → Prop}
    (triple : Triple pre program post stopped) (other : Triple pre program also alsoStopped) :
    Triple pre program (fun value world => post value world ∧ also value world)
      (fun halt world => stopped halt world ∧ alsoStopped halt world) := by
  intro machine holds
  have met := triple machine holds
  have alsoMet := other machine holds
  cases ran : program machine with
  | ok value last =>
    rw [ran] at met alsoMet
    exact ⟨met, alsoMet⟩
  | error halt last =>
    rw [ran] at met alsoMet
    exact ⟨met, alsoMet⟩

theorem pure {value : α} (holds : ∀ world, pre world → post value world) :
    Triple pre (Pure.pure value : Program World α) post stopped :=
  fun machine before => holds machine.world before

theorem raise {reason : String} (holds : ∀ world, pre world → stopped (.error reason) world) :
    Triple pre (FaultyPrograms.raise reason : Program World α) post stopped :=
  fun machine before => holds machine.world before

theorem bind {middle : β → World → Prop} {first : Program World β} {next : β → Program World α}
    (firstTriple : Triple pre first middle stopped)
    (nextTriple : ∀ value, Triple (middle value) (next value) post stopped) :
    Triple pre (first >>= next) post stopped := by
  intro machine holds
  have met := firstTriple machine holds
  change Meets post stopped (EStateM.bind first next machine)
  unfold EStateM.bind
  cases ran : first machine with
  | ok value after =>
    rw [ran] at met
    exact nextTriple value after met
  | error halt after =>
    rw [ran] at met
    exact met

variable {name : String} {apply : World → World} {cut : Nat → World → World}

theorem effect {post : Unit → World → Prop} (succeeds : ∀ world, pre world → post () (apply world))
    (fails : ∀ world progress, pre world → stopped (.error name) (cut progress world))
    (crashes : ∀ world progress, pre world → stopped .crash (cut progress world)) :
    Triple pre (FaultyPrograms.effect name apply cut) post stopped := by
  intro machine holds
  unfold FaultyPrograms.effect
  cases machine.faults with
  | nil => exact succeeds _ holds
  | cons fault rest =>
    cases fault with
    | none => exact succeeds _ holds
    | fail progress => exact fails _ progress holds
    | crash progress => exact crashes _ progress holds

theorem inspect {look : World → Except String α}
    (succeeds : ∀ world value, pre world → look world = .ok value → post value world)
    (fails : ∀ world reason, pre world → stopped (.error reason) world)
    (crashes : ∀ world, pre world → stopped .crash world) :
    Triple pre (FaultyPrograms.inspect name look) post stopped := by
  intro machine holds
  have looked : ∀ rest : List Fault, Meets post stopped
        (match look machine.world with
        | .ok value => EStateM.Result.ok value ⟨machine.world, rest⟩
        | .error reason => .error (.error reason) ⟨machine.world, rest⟩) := by
    intro rest
    cases found : look machine.world with
    | ok value => exact succeeds _ value holds found
    | error reason => exact fails _ reason holds
  unfold FaultyPrograms.inspect
  cases machine.faults with
  | nil => exact looked _
  | cons fault rest =>
    cases fault with
    | none => exact looked _
    | fail progress => exact fails _ name holds
    | crash progress => exact crashes _ holds

theorem update {post : Unit → World → Prop} (holds : ∀ world, pre world → post () (apply world)) :
    Triple pre (FaultyPrograms.update apply) post stopped :=
  fun machine before => holds machine.world before

theorem current {post : World → World → Prop} (holds : ∀ world, pre world → post world world) :
    Triple pre FaultyPrograms.current post stopped :=
  fun machine before => holds machine.world before

variable {world : World}

/-- The rule for an effect on a known world. -/
theorem effect_at (stops : ∀ progress halt, stopped halt (cut progress world)) :
    Triple (· = world) (FaultyPrograms.effect name apply cut)
      (fun _ after => after = apply world) stopped := by
  apply effect
  · rintro _ rfl
    rfl
  · rintro _ progress rfl
    exact stops progress _
  · rintro _ progress rfl
    exact stops progress _

theorem effect_last {post : Unit → World → Prop}
    (stops : ∀ progress halt, stopped halt (cut progress world))
    (finishes : post () (apply world)) :
    Triple (· = world) (FaultyPrograms.effect name apply cut) post stopped :=
  (effect_at stops).returning fun _ _ reached => reached ▸ finishes

theorem inspect_at {look : World → Except String α} (stops : ∀ halt, stopped halt world) :
    Triple (· = world) (FaultyPrograms.inspect name look)
      (fun value after => after = world ∧ look world = .ok value)
      stopped := by
  apply inspect
  · rintro _ value rfl found
    exact ⟨rfl, found⟩
  · rintro _ reason rfl
    exact stops _
  · rintro _ rfl
    exact stops _

/-- A program that starts by looking at a known world. -/
theorem bind_current {next : World → Program World α}
    (nextTriple : Triple (· = world) (next world) post stopped) :
    Triple (· = world) (FaultyPrograms.current >>= next) post stopped := by
  rintro machine rfl
  exact nextTriple machine rfl

theorem bind_fact {middle : World → Prop} {fact : β → Prop}
    {first : Program World β} {next : β → Program World α}
    (firstTriple : Triple pre first (fun value world => middle world ∧ fact value) stopped)
    (nextTriple : ∀ value, fact value → Triple middle (next value) post stopped) :
    Triple pre (first >>= next) post stopped := by
  refine bind firstTriple fun value machine holds => ?_
  exact nextTriple value holds.2 machine holds.1

/-- A cleanup that keeps what it is entered with keeps a triple. -/
theorem ensuring {cleanup : World → World} (triple : Triple pre program post stopped)
    (keepsPost : ∀ value world, post value world → post value (cleanup world))
    (keepsStopped : ∀ halt world, stopped halt world → stopped halt (cleanup world)) :
    Triple pre (FaultyPrograms.ensuring program cleanup) post stopped := by
  intro machine holds
  have met := triple machine holds
  unfold FaultyPrograms.ensuring
  revert met
  cases program machine with
  | ok value after => exact keepsPost value after.world
  | error halt after =>
    cases halt with
    | crash => exact id
    | error reason => exact keepsStopped _ after.world

theorem labelled {label : String} (triple : Triple pre program post stopped)
    (anyReason : ∀ reason world, stopped (.error reason) world →
      stopped (.error (label ++ reason)) world) :
    Triple pre (FaultyPrograms.labelled label program) post stopped := by
  intro machine holds
  have met := triple machine holds
  unfold FaultyPrograms.labelled
  revert met
  cases program machine with
  | ok value after => exact id
  | error halt after =>
    cases halt with
    | crash => exact id
    | error reason => exact anyReason reason after.world

theorem attempt {post : Except String α → World → Prop}
    (triple : Triple pre program (fun value world => post (.ok value) world)
      (fun halt world => match halt with
        | .error reason => post (.error reason) world
        | .crash => stopped .crash world)) :
    Triple pre (FaultyPrograms.attempt program) post stopped := by
  intro machine holds
  have met := triple machine holds
  unfold FaultyPrograms.attempt
  revert met
  cases program machine with
  | ok value after => exact id
  | error halt after =>
    cases halt with
    | crash => exact id
    | error reason => exact id

/-- A triple of a part of the world is a triple of the whole, for every fixed
rest. -/
theorem within {get : Outer → World} {set : World → Outer → Outer}
    {outerPre : Outer → Prop} {outerPost : α → Outer → Prop}
    {outerStopped : Halt → Outer → Prop}
    (triple : ∀ outer, outerPre outer → Triple (fun world => world = get outer) program
        (fun value world => outerPost value (set world outer))
        (fun halt world => outerStopped halt (set world outer))) :
    Triple outerPre (FaultyPrograms.within get set program) outerPost
      outerStopped := by
  intro machine holds
  have met := triple machine.world holds ⟨get machine.world, machine.faults⟩ rfl
  unfold FaultyPrograms.within
  revert met
  cases program ⟨get machine.world, machine.faults⟩ with
  | ok value after => exact id
  | error halt after => exact id

end Triple

/-- Whether it returns or stops, the program keeps `kept`. -/
def Maintains (kept : World → Prop) (program : Program World α) : Prop :=
  Triple kept program (fun _ => kept) (fun _ => kept)

namespace Maintains

variable {kept : World → Prop} {program : Program World α}

theorem pure {value : α} : Maintains kept (Pure.pure value : Program World α) :=
  Triple.pure fun _ holds => holds

theorem raise {reason : String} : Maintains kept (FaultyPrograms.raise reason : Program World α) :=
  Triple.raise fun _ holds => holds

theorem bind {first : Program World β} {next : β → Program World α}
    (firstMaintains : Maintains kept first) (nextMaintains : ∀ value, Maintains kept (next value)) :
    Maintains kept (first >>= next) :=
  Triple.bind firstMaintains nextMaintains

theorem inspect {name : String} {look : World → Except String α} :
    Maintains kept (FaultyPrograms.inspect name look) :=
  Triple.inspect (fun _ _ holds _ => holds) (fun _ _ holds => holds) fun _ holds => holds

theorem current : Maintains kept FaultyPrograms.current := Triple.current fun _ holds => holds

theorem update {apply : World → World} (keeps : ∀ world, kept world → kept (apply world)) :
    Maintains kept (FaultyPrograms.update apply) :=
  Triple.update keeps

theorem effect {name : String} {apply : World → World} {cut : Nat → World → World}
    (keeps : ∀ world, kept world → kept (apply world))
    (keepsCut : ∀ world progress, kept world → kept (cut progress world)) :
    Maintains kept (FaultyPrograms.effect name apply cut) :=
  Triple.effect keeps keepsCut keepsCut

variable (maintains : Maintains kept program)
include maintains

theorem ensuring {cleanup : World → World} (keeps : ∀ world, kept world → kept (cleanup world)) :
    Maintains kept (FaultyPrograms.ensuring program cleanup) :=
  Triple.ensuring maintains (fun _ => keeps) fun _ => keeps

theorem labelled {label : String} : Maintains kept (FaultyPrograms.labelled label program) :=
  Triple.labelled maintains fun _ _ holds => holds

theorem attempt : Maintains kept (FaultyPrograms.attempt program) :=
  Triple.attempt (maintains.consequence (fun _ holds => holds)
    (fun _ _ holds => holds) fun halt _ holds => by
      cases halt <;> exact holds)

end Maintains

/-- The result of a run in which no effect fails. -/
def Runs (program : Program World α) (world : World) (value : α) (after : World) : Prop :=
  program ⟨world, []⟩ = .ok value ⟨after, []⟩

namespace Runs

variable {program : Program World α} {world middle after : World} {value : α}

theorem pure : Runs (Pure.pure value : Program World α) world value world := rfl

theorem bind {first : Program World β} {next : β → Program World α} {found : β}
    (runsFirst : Runs first world found middle) (runsNext : Runs (next found) middle value after) :
    Runs (first >>= next) world value after := by
  change EStateM.bind first next _ = _
  unfold EStateM.bind
  rw [show first ⟨world, []⟩ = _ from runsFirst]
  exact runsNext

theorem update {apply : World → World} :
    Runs (FaultyPrograms.update apply) world () (apply world) := rfl

theorem effect {name : String} {apply : World → World} {cut : Nat → World → World} :
    Runs (FaultyPrograms.effect name apply cut) world () (apply world) := rfl

theorem current : Runs FaultyPrograms.current world world world := rfl

theorem inspect {name : String} {look : World → Except String α} (found : look world = .ok value) :
    Runs (FaultyPrograms.inspect name look) world value world := by
  unfold Runs FaultyPrograms.inspect
  rw [found]
  rfl

theorem attempt_inspect {name : String} {look : World → Except String α} :
    Runs (attempt (FaultyPrograms.inspect name look)) world (look world) world := by
  unfold Runs FaultyPrograms.attempt FaultyPrograms.inspect
  cases look world with
  | ok value => rfl
  | error reason => rfl

theorem labelled {label : String} (runs : Runs program world value after) :
    Runs (FaultyPrograms.labelled label program) world value after := by
  unfold Runs FaultyPrograms.labelled
  rw [show program ⟨world, []⟩ = _ from runs]

theorem ensuring {cleanup : World → World} (runs : Runs program world value after) :
    Runs (FaultyPrograms.ensuring program cleanup) world value (cleanup after) := by
  unfold Runs FaultyPrograms.ensuring
  rw [show program ⟨world, []⟩ = _ from runs]

theorem within {get : Outer → World} {set : World → Outer → Outer} {outer : Outer}
    (runs : Runs program (get outer) value after) :
    Runs (FaultyPrograms.within get set program) outer value (set after outer) := by
  unfold Runs FaultyPrograms.within
  rw [show program ⟨get outer, []⟩ = _ from runs]

end Runs

end Rose.FaultyPrograms
