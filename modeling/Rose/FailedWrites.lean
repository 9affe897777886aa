import Rose.PlogRetries
import Rose.SteadyOpening

/-!
# A failed append was never issued

Two logs are alike when their memories differ only in the record of the
journal, their files agree up to the end of the sealed sectors, and opening
either would load the same log.  Requests to alike logs are answered alike and
leave alike logs.  An append that fails leaves a log like the one before it.
-/

namespace Rose

open ListSplice DurableFiles FaultyPrograms FallibleActions

section Reads

variable {env : PlogEnv} {plog : Plog} {content other : Bytes} {bound : Nat}

/-- Reads up to `bound` see the same. -/
def ReadsSame (bound : Nat) (content other : Bytes) : Prop :=
  ∀ offset count, offset + count ≤ bound → readAt other offset count = readAt content offset count

theorem readsSame_of_agree (agree : AgreeBelow bound content other)
    (long : bound ≤ content.length) : ReadsSame bound content other := by
  intro offset count inside
  have otherLong := agree.limitLe
  rw [readAt, readAt, if_pos (Or.inr (by omega)), if_pos (Or.inr (by omega)), agree.slice_eq inside]

namespace ReadsSame

variable (same : ReadsSame (calcPhysical plog.sealed) content other)
  (aligned : plog.sealed % 4096 = 0)
include same aligned

theorem sectorHashFor_eq (sectorIdx : Nat) :
    sectorHashFor env plog other sectorIdx = sectorHashFor env plog content sectorIdx := by
  unfold sectorHashFor
  dsimp only
  split_ifs with complete
  · unfold readHashSector
    rw [same _ _ (hashSectorPhys_inside aligned complete)]
  · rfl
  · rfl

theorem readSector_eq (sectorIdx : Nat) :
    readSector env plog other sectorIdx = readSector env plog content sectorIdx := by
  unfold readSector
  split_ifs with isOpen
  · rfl
  · rfl
  · unfold readDataSector
    dsimp only
    rw [same _ _ (sectorPhys_inside aligned (Nat.not_le.mp isOpen)), same.sectorHashFor_eq aligned]

theorem readLoop_eq (stop rounds cur : Nat) :
    readLoop env plog other stop rounds cur = readLoop env plog content stop rounds cur := by
  induction rounds generalizing cur with
  | zero => rfl
  | succ rounds ih =>
    unfold readLoop
    rw [same.readSector_eq aligned]
    simp only [ih]

theorem readLocked_eq (offset length : Int) :
    readLocked env plog other offset length = readLocked env plog content offset length := by
  unfold readLocked
  rw [same.readLoop_eq aligned]

end ReadsSame

theorem readLoop_unjournaled (stop rounds cur : Nat) :
    readLoop env plog.unjournaled content stop rounds cur =
      readLoop env plog content stop rounds cur := by
  have sector_eq : ∀ sectorIdx, readSector env plog.unjournaled content
      sectorIdx = readSector env plog content sectorIdx := fun _ => rfl
  induction rounds generalizing cur with
  | zero => rfl
  | succ rounds ih =>
    unfold readLoop
    rw [sector_eq]
    simp only [ih]

theorem readLocked_of_unjournaled {after : Plog} (same : after.unjournaled = plog.unjournaled)
    (offset length : Int) :
    readLocked env after content offset length = readLocked env plog content offset length := by
  have unjournaled : ∀ other : Plog, readLocked env other.unjournaled content offset length =
        readLocked env other content offset length := by
    intro other
    unfold readLocked
    rw [readLoop_unjournaled]
    rfl
  rw [← unjournaled after, same, unjournaled]

end Reads

section Requests

/-- What the users of a log ask for. -/
inductive LogRequest where
  | read (offset length : Int)
  | write (data : Bytes)
  | commit
  | reopen

/-- What they are told: the bytes, where the data was appended, nothing, or the
length of the log that was opened. -/
inductive LogReply where
  | bytes (result : Except String Bytes)
  | appended (result : Except Halt Nat)
  | committed (result : Except Halt Unit)
  | opened (result : Except Halt Nat)

/-- A program run without faults: its outcome and the world it leaves. -/
def outcome {α : Type} (program : Program PlogWorld α) (world : PlogWorld) :
    Except Halt α × PlogWorld :=
  match program ⟨world, []⟩ with
  | .ok value after => (.ok value, after.world)
  | .error halt after => (.error halt, after.world)

/-- Answer a request.  To reopen, the process drops its memory and opens the
file again. -/
def serve (env : PlogEnv) (id : Nat) (world : PlogWorld) :
    LogRequest → LogReply × PlogWorld
  | .read offset length =>
    (.bytes (readLocked env world.plog world.content offset length), world)
  | .write data =>
    let result := outcome (writeLocked env data) world
    (.appended result.1, result.2)
  | .commit =>
    let result := outcome (Rose.commit env) world
    (.committed result.1, result.2)
  | .reopen =>
    let result := outcome (openExistingPlog env id) world
    (.opened (result.1.map fun _ => result.2.plog.logicalLength), result.2)

/-- The replies to a sequence of requests. -/
def replies (env : PlogEnv) (id : Nat) : PlogWorld → List LogRequest → List LogReply
  | _, [] => []
  | world, request :: requests =>
    (serve env id world request).1 :: replies env id (serve env id world request).2 requests

/-- File offsets are signed 64-bit numbers: whenever the log is committed, its
file must fit. -/
def FitsAlong (env : PlogEnv) (id : Nat) : PlogWorld → List LogRequest → Prop
  | _, [] => True
  | world, request :: requests =>
    world.plog.physicalEnd < 2 ^ 63 ∧ FitsAlong env id (serve env id world request).2 requests

instance instDecidableFitsAlong (env : PlogEnv) (id : Nat) :
    (requests : List LogRequest) → (world : PlogWorld) →
      Decidable (FitsAlong env id world requests)
  | [], _ => .isTrue trivial
  | request :: requests, world =>
    have := instDecidableFitsAlong env id requests (serve env id world request).2
    inferInstanceAs (Decidable (_ ∧ _))

end Requests

section Appending

variable {env : PlogEnv} {image data : Bytes} {world : PlogWorld}

/-- The memory after an append. -/
def Plog.appended (env : PlogEnv) (plog : Plog) (data : Bytes) : Plog :=
  if plog.buf.length + data.length < sectorSize then
    plog.buffer data
  else
    plog.sealedWith (sealData env plog data)

/-- What an append writes behind the sealed sectors. -/
def Plog.appendedBytes (env : PlogEnv) (plog : Plog) (data : Bytes) : Bytes :=
  if plog.buf.length + data.length < sectorSize then
    []
  else
    (sealData env plog data).1.writeBuf

theorem Plog.appended_unjournaled (env : PlogEnv) (plog : Plog) (data : Bytes) :
    (plog.unjournaled.appended env data).unjournaled = (plog.appended env data).unjournaled := by
  have condition : plog.unjournaled.buf = plog.buf := rfl
  unfold Plog.appended
  rw [condition]
  split_ifs <;> rfl

theorem Plog.appendedBytes_unjournaled (env : PlogEnv) (plog : Plog) (data : Bytes) :
    plog.unjournaled.appendedBytes env data = plog.appendedBytes env data :=
  rfl

/-- The log after an append that returned. -/
structure WroteTo (env : PlogEnv) (image data : Bytes) (before after : PlogWorld) : Prop where
  steady : Steady env image after
  memory_eq : after.plog.unjournaled = (before.plog.appended env data).unjournaled
  content_eq : after.content = overwrite 0 before.content
    (calcPhysical before.plog.sealed) (before.plog.appendedBytes env data)

/-- Without a fault, data is appended to a trusted log. -/
theorem writeLocked_appends_runs (steady : Steady env image world)
    (trusted : ¬(world.plog.bufCorrupt = true ∨ world.plog.openUnverified = true)) :
    ∃ after, Runs (writeLocked env data) world world.plog.logicalLength after ∧
      WroteTo env image data world after := by
  have bufTrusted : world.plog.bufCorrupt = false := by
    simp only [not_or, Bool.not_eq_true] at trusted
    exact trusted.1
  have baseLe := Nat.le_trans steady.shaped.blockBase_le steady.long
  obtain ⟨middle, protects, shielded⟩ := steady.backed.protect_runs baseLe
  obtain ⟨after, runs, after_eq⟩ := @writeLocked_runs env data world trusted middle protects
  refine ⟨after, runs, ?_⟩
  split_ifs at after_eq with short
  · rw [after_eq]
    refine ⟨steady.buffer bufTrusted short, ?_, ?_⟩
    · rw [Plog.appended, if_pos short]
    · rw [Plog.appendedBytes, if_pos short, overwrite, if_pos rfl]
      rfl
  · have seals : 4096 ≤ world.plog.buf.length + data.length := Nat.le_of_not_lt short
    have undisturbed := shielded.undisturbed steady
    have content_eq : middle.store.file.view = world.content :=
      congrArg DurableFile.view shielded.file_eq
    rw [after_eq]
    refine ⟨undisturbed.seal steady shielded.active bufTrusted seals, ?_, ?_⟩
    · have sealedSame := congrArg (fun plog : Plog =>
        (plog.sealedWith (sealData env world.plog data)).unjournaled)
        shielded.memory_eq
      rw [Plog.appended, if_neg short]
      exact sealedSame
    · rw [Plog.appendedBytes, if_neg short, ← content_eq]
      exact DurableFile.view_issue _ _

end Appending

section Likeness

variable {env : PlogEnv} {first second : PlogWorld} {firstImage secondImage : Bytes} {id : Nat}

/-- Two committed files from which the same log is loaded: between the ragged
edge and the trailer they may differ. -/
def SameReload (env : PlogEnv) (firstImage secondImage : Bytes) : Prop :=
  firstImage = secondImage ∨ ∃ plog, CommittedBy env plog firstImage ∧
    CommittedBy env plog secondImage ∧ AgreeBelow (calcPhysical plog.sealed) firstImage secondImage

structure Alike (env : PlogEnv) (first second : PlogWorld) : Prop where
  backed : ∃ firstImage secondImage, Steady env firstImage first ∧
    Steady env secondImage second ∧ SameReload env firstImage secondImage
  memory_eq : second.plog.unjournaled = first.plog.unjournaled
  agree : AgreeBelow (calcPhysical first.plog.sealed) first.content second.content

theorem Undisturbed.alike {image : Bytes} (undisturbed : Undisturbed env image first second)
    (steady : Steady env image first) : Alike env first second :=
  ⟨⟨image, image, steady, undisturbed.steady, Or.inl rfl⟩, undisturbed.memory_eq, undisturbed.agree⟩

theorem outcome_of_ok {α : Type} {program : Program PlogWorld α} {world after : PlogWorld}
    {value : α} {rest : List Fault} (ran : program ⟨world, []⟩ = .ok value ⟨after, rest⟩) :
    outcome program world = (.ok value, after) := by
  rw [outcome, ran]

theorem outcome_of_error {α : Type} {program : Program PlogWorld α} {world after : PlogWorld}
    {halt : Halt} {rest : List Fault} (ran : program ⟨world, []⟩ = .error halt ⟨after, rest⟩) :
    outcome program world = (.error halt, after) := by
  rw [outcome, ran]

/-- Alike logs give alike answers. -/
structure AnsweredAlike (env : PlogEnv) {α : Type} (first second : α × PlogWorld) : Prop where
  reply_eq : second.1 = first.1
  alike : Alike env first.2 second.2

namespace Alike

variable (alike : Alike env first second)
include alike

theorem readLocked_eq (offset length : Int) :
    readLocked env second.plog second.content offset length =
      readLocked env first.plog first.content offset length := by
  obtain ⟨firstImage, secondImage, steady, -, -⟩ := alike.backed
  rw [readLocked_of_unjournaled alike.memory_eq]
  exact (readsSame_of_agree alike.agree steady.long).readLocked_eq
    steady.shaped.aligned offset length

theorem trusted_iff :
    (second.plog.bufCorrupt = true ∨ second.plog.openUnverified = true) ↔
      (first.plog.bufCorrupt = true ∨ first.plog.openUnverified = true) := by
  have corrupt_eq := congrArg Plog.bufCorrupt alike.memory_eq
  have unverified_eq := congrArg Plog.openUnverified alike.memory_eq
  change second.plog.bufCorrupt = first.plog.bufCorrupt at corrupt_eq
  change second.plog.openUnverified = first.plog.openUnverified at unverified_eq
  rw [corrupt_eq, unverified_eq]

theorem id_eq : second.plog.id = first.plog.id := by
  have same := congrArg Plog.id alike.memory_eq
  exact same

theorem length_eq : second.plog.logicalLength = first.plog.logicalLength :=
  logicalLength_of_unjournaled alike.memory_eq

theorem sealed_eq : second.plog.sealed = first.plog.sealed := sealed_of_unjournaled alike.memory_eq

omit alike in
theorem agreeBelow_overwrite {limit : Nat} {target file data : Bytes}
    (agree : AgreeBelow limit target file) :
    AgreeBelow (limit + data.length) (overwrite 0 target limit data)
      (overwrite 0 file limit data) := by
  by_cases nothing : data = []
  · rw [nothing, overwrite, overwrite, if_pos rfl, if_pos rfl]
    exact agree
  · refine ⟨?_, fun index below => ?_⟩
    · rw [length_overwrite _ _ _ _ nothing]
      exact Nat.le_max_right _ _
    · rw [getElem?_overwrite _ _ _ _ _ nothing, getElem?_overwrite _ _ _ _ _ nothing]
      by_cases early : index < limit
      · rw [if_neg (by omega), if_pos (by omega), if_neg (by omega),
          if_pos (by omega), agree.bytes index early]
      · rw [if_pos (by omega), if_pos (by omega)]

omit alike in
theorem sealed_appended {image data : Bytes} (steady : Steady env image first)
    (trusted : first.plog.bufCorrupt = false) :
    calcPhysical (first.plog.appended env data).sealed = calcPhysical first.plog.sealed +
        (first.plog.appendedBytes env data).length := by
  unfold Plog.appended Plog.appendedBytes
  split_ifs with short
  · rw [Plog.sealed_buffer steady.shaped]
    rfl
  · exact (sealData_end steady.shaped trusted (Nat.le_of_not_lt short)).symm

omit alike in
theorem writeLocked_refuses {world : PlogWorld} {data : Bytes} {faults : List Fault}
    (untrusted : world.plog.bufCorrupt = true ∨ world.plog.openUnverified = true) :
    writeLocked env data ⟨world, faults⟩ = .error
      (.error s!"plog {world.plog.id} open sector: bitrot detected") ⟨world, faults⟩ := by
  have unfolds : ∀ (next : PlogWorld → Program PlogWorld Nat),
      (current >>= next) ⟨world, faults⟩ = next world ⟨world, faults⟩ :=
    fun _ => rfl
  rw [writeLocked, unfolds, if_pos untrusted]
  rfl

/-- Appending to alike logs. -/
theorem write (data : Bytes) :
    AnsweredAlike env (outcome (writeLocked env data) first)
      (outcome (writeLocked env data) second) := by
  obtain ⟨firstImage, secondImage, steady, otherSteady, sameReload⟩ := alike.backed
  by_cases untrusted : first.plog.bufCorrupt = true ∨
      first.plog.openUnverified = true
  · rw [outcome_of_error (writeLocked_refuses untrusted), outcome_of_error
      (writeLocked_refuses (alike.trusted_iff.mpr untrusted)), alike.id_eq]
    exact ⟨rfl, alike⟩
  have bufTrusted : first.plog.bufCorrupt = false := by
    simp only [not_or, Bool.not_eq_true] at untrusted
    exact untrusted.1
  obtain ⟨firstAfter, firstRan, wrote⟩ :=
    @writeLocked_appends_runs env firstImage data first steady untrusted
  obtain ⟨secondAfter, secondRan, otherWrote⟩ :=
    @writeLocked_appends_runs env secondImage data second otherSteady
      (fun held => untrusted (alike.trusted_iff.mp held))
  rw [outcome_of_ok firstRan, outcome_of_ok secondRan, alike.length_eq]
  have bytes_eq : second.plog.appendedBytes env data = first.plog.appendedBytes env data := by
    rw [← Plog.appendedBytes_unjournaled, alike.memory_eq, Plog.appendedBytes_unjournaled]
  refine ⟨rfl, ⟨firstImage, secondImage, wrote.steady, otherWrote.steady, sameReload⟩, ?_, ?_⟩
  · rw [wrote.memory_eq, otherWrote.memory_eq, ← Plog.appended_unjournaled,
      alike.memory_eq, Plog.appended_unjournaled]
  · rw [sealed_of_unjournaled wrote.memory_eq, sealed_appended steady bufTrusted, wrote.content_eq,
      otherWrote.content_eq, bytes_eq, alike.sealed_eq]
    exact agreeBelow_overwrite alike.agree

omit alike in
theorem commit_refuses {world : PlogWorld}
    (untrusted : world.plog.bufCorrupt = true ∨ world.plog.openUnverified = true) :
    commit env ⟨world, []⟩ = .error
      (.error s!"commit plog {world.plog.id} open sector: bitrot detected") ⟨world, []⟩ := by
  have unfolds : ∀ (next : PlogWorld → Program PlogWorld Unit),
      (current >>= next) ⟨world, []⟩ = next world ⟨world, []⟩ := fun _ => rfl
  rw [Rose.commit, unfolds, if_pos untrusted]
  rfl

omit alike in
theorem committedBy_of_unjournaled {plog other : Plog} {image : Bytes}
    (committed : CommittedBy env plog image) (same : plog.unjournaled = other.unjournaled) :
    CommittedBy env other image := by
  have moves : ∀ plog : Plog, CommittedBy env plog image ↔
      CommittedBy env plog.unjournaled image := by
    intro plog
    constructor
    · intro held
      exact ⟨Plog.Shaped.unjournaled_iff.mpr held.shaped, held.trusted,
        held.isOpen, held.size_eq, held.ragged_eq, held.trailer_eq⟩
    · intro held
      exact ⟨Plog.Shaped.unjournaled_iff.mp held.shaped, held.trusted,
        held.isOpen, held.size_eq, held.ragged_eq, held.trailer_eq⟩
  rw [moves, ← same, ← moves]
  exact committed

omit alike in
/-- Committed files of alike logs load the same log. -/
theorem sameReload_of_recommitted {firstAfter secondAfter : PlogWorld}
    (committed : Recommitted env first firstAfter)
    (otherCommitted : Recommitted env second secondAfter)
    (memory_eq : second.plog.unjournaled = first.plog.unjournaled)
    (agree : AgreeBelow (calcPhysical first.plog.sealed) firstAfter.content secondAfter.content) :
    SameReload env firstAfter.content secondAfter.content := by
  have open_eq := congrArg Plog.hasOpenBlock memory_eq
  change second.plog.hasOpenBlock = first.plog.hasOpenBlock at open_eq
  have end_eq := congrArg Plog.physicalEnd memory_eq
  change second.plog.physicalEnd = first.plog.physicalEnd at end_eq
  cases isOpen : first.plog.hasOpenBlock with
  | true =>
    refine Or.inr ⟨first.plog, committed.committed isOpen, ?_, agree⟩
    exact committedBy_of_unjournaled (otherCommitted.committed (open_eq.trans isOpen)) memory_eq
  | false =>
    have ends : first.plog.physicalEnd = calcPhysical first.plog.sealed := by
      rw [Plog.physicalEnd_of_closed isOpen, Plog.sealed_of_closed isOpen]
    have firstLength := committed.size_eq
    have secondLength := otherCommitted.size_eq
    rw [end_eq] at secondLength
    refine Or.inl (List.ext_getElem? fun index => ?_)
    by_cases inside : index < calcPhysical first.plog.sealed
    · exact (agree.bytes index inside).symm
    · rw [List.getElem?_eq_none (by omega), List.getElem?_eq_none (by omega)]

/-- Committing alike logs. -/
theorem commit (fits : first.plog.physicalEnd < 2 ^ 63) :
    AnsweredAlike env (outcome (Rose.commit env) first) (outcome (Rose.commit env) second) := by
  obtain ⟨firstImage, secondImage, steady, otherSteady, -⟩ := alike.backed
  by_cases untrusted : first.plog.bufCorrupt = true ∨
      first.plog.openUnverified = true
  · rw [outcome_of_error (commit_refuses untrusted), outcome_of_error
      (commit_refuses (alike.trusted_iff.mpr untrusted)), alike.id_eq]
    exact ⟨rfl, alike⟩
  have end_eq := congrArg Plog.physicalEnd alike.memory_eq
  change second.plog.physicalEnd = first.plog.physicalEnd at end_eq
  have open_eq := congrArg Plog.hasOpenBlock alike.memory_eq
  change second.plog.hasOpenBlock = first.plog.hasOpenBlock at open_eq
  obtain ⟨firstAfter, firstRan, committed⟩ := commit_recommits_runs steady fits untrusted
  obtain ⟨secondAfter, secondRan, otherCommitted⟩ :=
    commit_recommits_runs otherSteady (by rw [end_eq]; exact fits)
      (fun held => untrusted (alike.trusted_iff.mp held))
  rw [outcome_of_ok firstRan, outcome_of_ok secondRan]
  have agree : AgreeBelow (calcPhysical first.plog.sealed) firstAfter.content
      secondAfter.content := by
    have otherAgree := otherCommitted.agree
    rw [alike.sealed_eq] at otherAgree
    refine ⟨otherAgree.limitLe, fun index below => ?_⟩
    rw [otherAgree.bytes index below, alike.agree.bytes index below,
      committed.agree.bytes index below]
  have sealed_eq : firstAfter.plog.sealed = first.plog.sealed := by
    rw [sealed_of_unjournaled committed.memory_eq]
    split_ifs <;> rfl
  refine ⟨rfl, ⟨_, _, committed.steady, otherCommitted.steady,
    sameReload_of_recommitted committed otherCommitted alike.memory_eq agree⟩,
    ?_, by rw [sealed_eq]; exact agree⟩
  rw [committed.memory_eq, otherCommitted.memory_eq, open_eq]
  cases first.plog.hasOpenBlock with
  | true =>
    have marked := congrArg (fun plog : Plog => { plog with loadedFromTrailer := true })
      alike.memory_eq
    exact marked
  | false => exact alike.memory_eq

omit alike in
/-- The same log is loaded from either file. -/
theorem reloaded_of_sameReload {payload : Bytes} {firstPlog secondPlog : Plog}
    (same : SameReload env firstImage secondImage)
    (firstLoads : (headerRead id payload firstImage).reloadedFrom env firstImage = .ok firstPlog)
    (secondLoads :
      (headerRead id payload secondImage).reloadedFrom env secondImage = .ok secondPlog)
    (long : calcPhysical firstPlog.sealed ≤ firstImage.length) :
    secondPlog = firstPlog ∧ AgreeBelow (calcPhysical firstPlog.sealed) firstImage secondImage := by
  rcases same with rfl | ⟨plog, committed, otherCommitted, agree⟩
  · rw [firstLoads] at secondLoads
    cases secondLoads
    exact ⟨rfl, AgreeBelow.refl long⟩
  · rw [committed.reloadedFrom_eq] at firstLoads
    rw [otherCommitted.reloadedFrom_eq] at secondLoads
    cases firstLoads
    cases secondLoads
    exact ⟨rfl, agree⟩

omit alike in
theorem SameReload.readSuperblock_eq (same : SameReload env firstImage secondImage) :
    readSuperblock env secondImage = readSuperblock env firstImage := by
  rcases same with rfl | ⟨plog, committed, -, agree⟩
  · rfl
  · refine readSuperblock_congr agree ?_ (le_calcPhysical _)
    rw [committed.size_eq]
    exact Nat.le_add_right _ _

/-- Opening alike logs again. -/
theorem reopen (id : Nat) :
    AnsweredAlike env (outcome (openExistingPlog env id) first)
      (outcome (openExistingPlog env id) second) ∧
    (outcome (openExistingPlog env id) second).2.plog.logicalLength =
      (outcome (openExistingPlog env id) first).2.plog.logicalLength := by
  obtain ⟨firstImage, secondImage, steady, otherSteady, same⟩ := alike.backed
  have guards := steady.backed.guards
  have otherGuards := otherSteady.backed.guards
  obtain ⟨payload, headerFound⟩ := guards.isAllowed.header
  have otherFound : readSuperblock env secondImage = .ok payload := by
    rw [SameReload.readSuperblock_eq same, headerFound]
  obtain ⟨firstPlog, firstAfter, firstRan, firstLoads, firstOpened, firstSteady⟩ :=
    @openExistingPlog_reloads env firstImage payload first id guards headerFound
  obtain ⟨secondPlog, secondAfter, secondRan, secondLoads, secondOpened, secondSteady⟩ :=
    @openExistingPlog_reloads env secondImage payload second id otherGuards otherFound
  have long := firstSteady.long
  rw [firstOpened.content_eq, firstOpened.plog_eq] at long
  obtain ⟨loaded_eq, agree⟩ := reloaded_of_sameReload same firstLoads secondLoads long
  have plog_eq : secondAfter.plog = firstAfter.plog := by
    rw [secondOpened.plog_eq, firstOpened.plog_eq, loaded_eq]
  rw [outcome_of_ok firstRan, outcome_of_ok secondRan]
  refine ⟨⟨rfl, ⟨firstImage, secondImage, firstSteady, secondSteady, same⟩, ?_, ?_⟩, ?_⟩
  · rw [plog_eq]
  · rw [firstOpened.content_eq, secondOpened.content_eq, firstOpened.plog_eq]
    exact agree
  · rw [plog_eq]

theorem serve (id : Nat) (fits : first.plog.physicalEnd < 2 ^ 63) (request : LogRequest) :
    AnsweredAlike env (serve env id first request) (serve env id second request) := by
  cases request with
  | read offset length =>
    exact ⟨congrArg LogReply.bytes (alike.readLocked_eq offset length), alike⟩
  | write data =>
    obtain ⟨reply_eq, after⟩ := alike.write data
    exact ⟨congrArg LogReply.appended reply_eq, after⟩
  | commit =>
    obtain ⟨reply_eq, after⟩ := alike.commit fits
    exact ⟨congrArg LogReply.committed reply_eq, after⟩
  | reopen =>
    obtain ⟨⟨reply_eq, after⟩, length_eq⟩ := alike.reopen id
    refine ⟨?_, after⟩
    unfold Rose.serve
    dsimp only
    rw [reply_eq, length_eq]

theorem replies_eq (id : Nat) (requests : List LogRequest)
    (fits : FitsAlong env id first requests) :
    replies env id second requests = replies env id first requests := by
  induction requests generalizing first second with
  | nil => rfl
  | cons request requests ih =>
    obtain ⟨fitsNow, fitsLater⟩ := fits
    obtain ⟨reply_eq, after⟩ := alike.serve id fitsNow request
    rw [replies, replies, reply_eq, ih after fitsLater]

end Alike

end Likeness

section Reached

/-- The states of a log whose file nothing else writes to.  Operations may fail
or crash on the way, a crash may lose what was not synced, and the log is opened
again; the flag tells whether it is open. -/
inductive UndamagedLog (env : PlogEnv) : Bool → PlogWorld → Prop
  | created (id : Nat) (payload : Bytes) (fits : payload.length ≤ plogHeaderMaxPayload)
      (parses : env.parses payload = true) :
      UndamagedLog env true ⟨UndoStore.settled (superblock env payload),
        openedPlog env id payload []⟩
  | returned (operation : PlogOperation) (before after : PlogWorld)
      (faults rest : List Fault) (isOpen : UndamagedLog env true before)
      (fits : before.plog.physicalEnd < 2 ^ 63)
      (ran : operation.run env ⟨before, faults⟩ = .ok () ⟨after, rest⟩) :
      UndamagedLog env true after
  | failed (operation : PlogOperation) (before after : PlogWorld)
      (reason : String) (faults rest : List Fault)
      (isOpen : UndamagedLog env true before)
      (fits : before.plog.physicalEnd < 2 ^ 63)
      (ran : operation.run env ⟨before, faults⟩ = .error (.error reason) ⟨after, rest⟩) :
      UndamagedLog env true after
  | crashed (operation : PlogOperation) (before after : PlogWorld)
      (faults rest : List Fault) (isOpen : UndamagedLog env true before)
      (fits : before.plog.physicalEnd < 2 ^ 63)
      (ran : operation.run env ⟨before, faults⟩ = .error .crash ⟨after, rest⟩) :
      UndamagedLog env false after
  | closed (world : PlogWorld) (isOpen : UndamagedLog env true world) : UndamagedLog env false world
  | powerLost (before : PlogWorld) (store : UndoStore) (down : UndamagedLog env false before)
      (loss : before.store.PowerLoss store) :
      UndamagedLog env false { before with store := store }
  | opened (id : Nat) (before after : PlogWorld) (rest : List Fault)
      (down : UndamagedLog env false before)
      (ran : openExistingPlog env id ⟨before, []⟩ = .ok () ⟨after, rest⟩) :
      UndamagedLog env true after
  | openStopped (id : Nat) (before after : PlogWorld) (halt : Halt)
      (faults rest : List Fault) (down : UndamagedLog env false before)
      (ran : openExistingPlog env id ⟨before, faults⟩ = .error halt ⟨after, rest⟩) :
      UndamagedLog env false after

variable {env : PlogEnv} {image : Bytes} {world : PlogWorld}

theorem PlogOperation.run_steady (steady : Steady env image world)
    (fits : world.plog.physicalEnd < 2 ^ 63) (operation : PlogOperation) :
    Triple (· = world) (operation.run env)
      (fun _ after => ∃ image, Steady env image after) (Survives env) := by
  cases operation with
  | write data =>
    refine Triple.bind ((writeLocked_steady steady data).stopping
      fun halt _ held => held.steady.survives halt) fun _ => ?_
    exact Triple.pure fun _ held => ⟨image, held⟩
  | ensureAppend offset data =>
    exact (ensureAppend_steady steady offset data).weaken (fun _ _ held => ⟨image, held⟩)
      fun halt _ held => held.survives halt
  | truncateTo logical =>
    exact (truncateTo_steady steady logical).weaken (fun _ _ held => ⟨image, held⟩)
      fun halt _ held => held.survives halt
  | recoverHashes recoverer =>
    exact (steady.of_sameRecord (recoverHashes_sameRecord recoverer)
      (recoverHashes_shaped recoverer)).weaken
      (fun _ _ held => ⟨image, held⟩) fun halt _ held => held.survives halt
  | commit =>
    exact (commit_recommits steady fits).returning fun _ _ held => ⟨_, held.steady⟩

theorem openedPlog_nil_shaped (env : PlogEnv) (id : Nat) (payload : Bytes) :
    (openedPlog env id payload []).Shaped := by
  rw [openedPlog_nil]
  refine .of_part rfl fun _ => ?_
  simp [Plog.Hashed, Plog.fresh, Plog.sealed]

/-- A new log is steady. -/
theorem Steady.created {payload : Bytes} (id : Nat) (fits : payload.length ≤ plogHeaderMaxPayload)
    (parses : env.parses payload = true) :
    Steady env (superblock env payload)
      ⟨UndoStore.settled (superblock env payload), openedPlog env id payload []⟩ := by
  have length_eq := length_superblock env payload
  have start_eq : calcPhysical (dataPerBlock * 0) = 4096 := calcPhysical_mul 0
  have restored : Restored (superblock env payload) (UndoStore.settled (superblock env payload)) :=
    ⟨⟨rfl, fun _ issued => absurd issued List.not_mem_nil⟩, rfl⟩
  have committable : Committable env (superblock env payload) := by
    refine ⟨by rw [length_eq]; decide, ⟨payload, ?_⟩, Or.inl ⟨0, length_eq.trans start_eq.symm⟩⟩
    refine readSuperblock_eq fits parses ?_ (by rw [length_eq])
    have split : superblock env payload = [] ++ (superblock env payload ++ []) := by simp
    exact slice_eq_field split rfl length_eq
  refine .of_whole (openedPlog_nil_shaped env id payload) restored committable
    (length_eq.trans start_eq.symm) rfl (Or.inl ?_)
  · change 0 = calcLogical (superblock env payload).length
    rw [length_eq, ← start_eq, calcLogical_calcPhysical]
    rfl

/-- An open log is steady, and the store of a closed one guards a committed
file. -/
theorem UndamagedLog.steady {running : Bool} (reached : UndamagedLog env running world) :
    if running then ∃ image, Steady env image world
    else world.store.Guarded env (Committable env) := by
  induction reached with
  | created id payload fits parses => exact ⟨_, .created id fits parses⟩
  | returned operation before after faults rest _ fits ran ih =>
    obtain ⟨image, steady⟩ := ih
    exact (operation.run_steady steady fits).returned rfl ran
  | failed operation before after reason faults rest _ fits ran ih =>
    obtain ⟨image, steady⟩ := ih
    exact (operation.run_steady steady fits).halted rfl ran
  | crashed operation before after faults rest _ fits ran ih =>
    obtain ⟨image, steady⟩ := ih
    exact (operation.run_steady steady fits).halted rfl ran
  | closed world _ ih =>
    obtain ⟨image, steady⟩ := ih
    exact ⟨image, steady.backed.guards⟩
  | powerLost before store _ loss ih =>
    obtain ⟨image, guards⟩ := ih
    exact guards.powerLoss loss
  | opened id before after rest _ ran ih =>
    obtain ⟨image, guards⟩ := ih
    exact ⟨image, openExistingPlog_steady guards ran⟩
  | openStopped id before after halt faults rest _ ran ih =>
    have guarded : before.store.Guarded env (Committable env) := ih
    have maintains : Maintains (fun world => world.store.Guarded env (Committable env))
        (openExistingPlog env id) := openExistingPlog_maintains
    have after := Triple.halted maintains guarded ran
    exact after

/-- An append that fails leaves the length of the log and all that can be read.  If
nothing but the log ever changed its file, the append might as well not have
been issued: every read returns what it returned before, and so does every later
sequence of requests that meets no failure. -/
theorem failed_write_was_never_issued {data : Bytes} {faults rest : List Fault} {reason : String}
    {after : PlogWorld} (reached : PlogReached env world)
    (failed : writeLocked env data ⟨world, faults⟩ = .error (.error reason) ⟨after, rest⟩) :
    after.plog.logicalLength = world.plog.logicalLength ∧
      (∀ offset length out, readLocked env world.plog world.content offset length = .ok out →
        readLocked env after.plog after.content offset length = .ok out) ∧
      (UndamagedLog env true world →
        (∀ offset length, readLocked env after.plog after.content offset length =
          readLocked env world.plog world.content offset length) ∧
        ∀ id requests, FitsAlong env id world requests →
          replies env id after requests = replies env id world requests) := by
  have shaped := reached.shaped
  have unappended := (writeLocked_appends shaped).halted rfl failed
  refine ⟨unappended.length_eq, fun offset length out => ?_, fun undamaged => ?_⟩
  · exact readLocked_of_bytes shaped (unappended.shaped shaped) unappended.length_eq.ge
      fun _ _ _ => unappended.byteAt_eq shaped
  · obtain ⟨image, steady⟩ := undamaged.steady
    have alike := ((writeLocked_steady steady data).halted rfl failed).alike steady
    exact ⟨alike.readLocked_eq, alike.replies_eq⟩

/-- The log after 100 bytes of the data were written. -/
def tornData : PlogWorld :=
  worldAfter (writeLocked constantEnv moreBytes) ⟨threeBytes, tornWrite.tail⟩

def laterRequests : List LogRequest := [.read 0 3, .write moreBytes, .commit, .reopen]

theorem threeBytes_undamaged : UndamagedLog constantEnv true threeBytes := by
  have created := @UndamagedLog.created constantEnv 1 [] (by decide) rfl
  rw [openedPlog_nil] at created
  obtain ⟨_, rest, ran⟩ := returned_of_haltOf threeBytes_written
  exact .returned _ newLog _ [] rest created (by decide +kernel) ran

theorem tornData_fails :
    ∃ rest, writeLocked constantEnv moreBytes ⟨threeBytes, tornWrite.tail⟩ =
      .error (.error "write plog 1: write") ⟨tornData, rest⟩ :=
  halted_of_haltOf (by decide +kernel)

theorem torn_write_was_never_issued :
    (∃ rest, writeLocked constantEnv moreBytes ⟨threeBytes, tornWrite.tail⟩ =
      .error (.error "write plog 1: write") ⟨tornData, rest⟩) ∧
      threeBytes.content.length = 4096 ∧ tornData.content.length = 4196 ∧
      replies constantEnv 1 tornData laterRequests =
        replies constantEnv 1 threeBytes laterRequests := by
  obtain ⟨before, torn, fitsAlong⟩ :
      threeBytes.content.length = 4096 ∧ tornData.content.length = 4196 ∧
      FitsAlong constantEnv 1 threeBytes laterRequests := by decide +kernel
  obtain ⟨rest, failed⟩ := tornData_fails
  obtain ⟨-, -, same⟩ := failed_write_was_never_issued threeBytes_reached failed
  exact ⟨⟨rest, failed⟩, before, torn, (same threeBytes_undamaged).2 1 laterRequests fitsAlong⟩

/-- A log of a sector of zeros. -/
def zeroLog : PlogWorld :=
  worldAfter (PlogOperation.run constantEnv (.write (List.replicate 4096 0))) ⟨newLog, []⟩

/-- Its file, cut behind the superblock by someone else. -/
def cutLog : PlogWorld := { zeroLog with store := zeroLog.store.issue (.truncate 4096) }

def tornOverCut : PlogWorld := worldAfter (writeLocked constantEnv moreBytes) ⟨cutLog, [.fail 100]⟩

/-- An append that fails after 100 bytes fills the gap in a cut file with zeros, and a lost sector
of zeros can be read again.  An append that fails also leaves a journal, so that a failure of the
second step of a later append comes too late to stop it. -/
theorem failed_write_has_effects :
    (PlogReached constantEnv cutLog ∧
      (∃ rest, writeLocked constantEnv moreBytes ⟨cutLog, [.fail 100]⟩ =
        .error (.error "write plog 1: write") ⟨tornOverCut, rest⟩) ∧
      readLocked constantEnv cutLog.plog cutLog.content 0 1 = .error "read plog 1 sector 0: EOF" ∧
      readLocked constantEnv tornOverCut.plog tornOverCut.content 0 1 = .ok [0]) ∧
    UndamagedLog constantEnv true threeBytes ∧
      (∃ rest, writeLocked constantEnv moreBytes ⟨threeBytes, tornWrite.tail⟩ =
        .error (.error "write plog 1: write") ⟨tornData, rest⟩) ∧
      haltOf (writeLocked constantEnv moreBytes) ⟨threeBytes, [.none, .fail 0]⟩ =
        some (.error "protect plog 1 prefix: stat") ∧
      haltOf (writeLocked constantEnv moreBytes) ⟨tornData, [.none, .fail 0]⟩ = none := by
  obtain ⟨sealing, stopsOverCut, unread, read, refused, taken⟩ :
      haltOf (PlogOperation.run constantEnv (.write (List.replicate 4096 0))) ⟨newLog, []⟩ =
        none ∧
      haltOf (writeLocked constantEnv moreBytes) ⟨cutLog, [.fail 100]⟩ =
        some (.error "write plog 1: write") ∧
      readLocked constantEnv cutLog.plog cutLog.content 0 1 = .error "read plog 1 sector 0: EOF" ∧
      readLocked constantEnv tornOverCut.plog tornOverCut.content 0 1 = .ok [0] ∧
      haltOf (writeLocked constantEnv moreBytes) ⟨threeBytes, [.none, .fail 0]⟩ =
        some (.error "protect plog 1 prefix: stat") ∧
      haltOf (writeLocked constantEnv moreBytes) ⟨tornData, [.none, .fail 0]⟩ = none := by
    decide +kernel
  have reached : PlogReached constantEnv zeroLog :=
    .operated _ newLog _ (.created 1 [] _) (finishes_of_haltOf sealing)
  exact ⟨⟨.damaged _ _ reached, halted_of_haltOf stopsOverCut, unread, read⟩,
    threeBytes_undamaged, tornData_fails, refused, taken⟩

end Reached

end Rose
