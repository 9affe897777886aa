import Rose.OperationRetries

/-!
# Writes that are sent again

Once the operation of a handle is committed the handle stages nothing: a write
through it is compared with the retained result and acknowledged.  A close then
compares what was staged before the commit, if anything was.  So a client that
sends its whole file again is answered as it should be, but one that sends a
part of the result is not told that its file differs.
-/

namespace Rose

open FallibleActions LabelledRuns ListSplice

section Writes

/-- What a list of writes makes of a file. -/
def writeOver (base : Bytes) (writes : List (Nat × Bytes)) : Bytes :=
  writes.foldl (fun bytes write => overwrite 0 bytes write.1 write.2) base

/-- A write repeats what a file has in its place. -/
def Repeats (bytes : Bytes) (write : Nat × Bytes) : Prop :=
  write.1 + write.2.length ≤ bytes.length ∧ slice bytes write.1 write.2.length = write.2

/-- Some write of a list reaches a position. -/
def Reached (writes : List (Nat × Bytes)) (position : Nat) : Prop :=
  ∃ write ∈ writes, write.1 ≤ position ∧ position < write.1 + write.2.length

instance (writes : List (Nat × Bytes)) (position : Nat) : Decidable (Reached writes position) :=
  inferInstanceAs (Decidable (∃ write ∈ writes, _))

variable {bytes base : Bytes} {writes : List (Nat × Bytes)} {position : Nat}

/-- A repeated write puts the file's own bytes in their place. -/
theorem Repeats.getElem?_overwrite {write : Nat × Bytes} (repeats : Repeats bytes write)
    (inside : position < bytes.length)
    (given : base[position]? = bytes[position]? ∨ (write.1 ≤ position ∧
      position < write.1 + write.2.length)) :
    (overwrite 0 base write.1 write.2)[position]? = bytes[position]? := by
  by_cases empty : write.2 = []
  · rw [overwrite, if_pos empty]
    refine given.resolve_right ?_
    rw [empty, List.length_nil]
    omega
  · rw [ListSplice.getElem?_overwrite _ _ _ _ _ empty]
    split_ifs with reached grown
    · rw [← repeats.2, getElem?_slice, if_pos (by omega), Nat.add_sub_cancel' reached.1]
    · rw [given.resolve_right reached, List.getElem?_eq_getElem inside]
      rfl
    · have outside : base[position]? = none := List.getElem?_eq_none (by omega)
      rw [← given.resolve_right reached, outside]

theorem getElem?_writeOver (repeated : ∀ write ∈ writes, Repeats bytes write)
    (inside : position < bytes.length)
    (given : base[position]? = bytes[position]? ∨ Reached writes position) :
    (writeOver base writes)[position]? = bytes[position]? := by
  induction writes generalizing base with
  | nil =>
    refine given.resolve_right ?_
    rintro ⟨write, impossible, -⟩
    cases impossible
  | cons write writes ih =>
    have first : Repeats bytes write := repeated write (by simp)
    refine ih (fun other member => repeated other (by simp [member])) ?_
    by_cases later : Reached writes position
    · exact Or.inr later
    · refine Or.inl (first.getElem?_overwrite inside (given.imp_right ?_))
      rintro ⟨other, member, reaches⟩
      rcases List.mem_cons.mp member with rfl | older
      · exact reaches
      · exact absurd ⟨other, older, reaches⟩ later

/-- Writes that repeat bytes of a file and leave none of it out make the file. -/
theorem writeOver_eq (repeated : ∀ write ∈ writes, Repeats bytes write)
    (sameLength : (writeOver base writes).length = bytes.length)
    (given : ∀ position < bytes.length, base[position]? = bytes[position]? ∨
      Reached writes position) :
    writeOver base writes = bytes := by
  apply List.ext_getElem?
  intro position
  by_cases inside : position < bytes.length
  · exact getElem?_writeOver repeated inside (given position inside)
  · rw [List.getElem?_eq_none (by omega), List.getElem?_eq_none (by omega)]

theorem length_writeOver_self (repeated : ∀ write ∈ writes, Repeats bytes write)
    (sameLength : base.length = bytes.length) :
    (writeOver base writes).length = bytes.length := by
  induction writes generalizing base with
  | nil => exact sameLength
  | cons write writes ih =>
    refine ih (fun other member => repeated other (by simp [member])) ?_
    by_cases empty : write.2 = []
    · dsimp only
      rw [overwrite, if_pos empty, sameLength]
    · have inside := (repeated write (by simp)).1
      rw [length_overwrite _ _ _ _ empty]
      omega

end Writes

section Records

variable {plain : Bytes → Bytes}

/-- The writes that were sent again, by handle. -/
abbrev Resent := Nat → List (Nat × Bytes)

/-- The write that an exchange acknowledges through a handle. -/
def acknowledgedWrite (number : Nat) : Request plain × Reply → List (Nat × Bytes)
  | (.write handle offset data _ _ _, .acknowledged _) =>
    if handle = number then [(offset, data)] else []
  | _ => []

/-- A write through a handle whose operation has a retained result is noted; the
notes last as long as the handle and the result. -/
def Resent.after (resent : Resent) (before : FileServer) (exchange : Request plain × Reply)
    (after : FileServer) : Resent := fun number =>
  match before.handles.find? number, after.handles.find? number with
  | some old, some new =>
    if before.catalog.resultOf old.mutationKey ≠ none ∧
        after.catalog.resultOf new.mutationKey = before.catalog.resultOf old.mutationKey then
      resent number ++ acknowledgedWrite number exchange
    else []
  | _, _ => []

/-- A run with the writes that were sent again before each of its steps. -/
def withResent (server : FileServer) (run : List ((Request plain × Reply) × FileServer)) :
    List ((Request plain × Reply) × (FileServer × Resent)) :=
  recorded (fun before resent exchange after => Resent.after resent before exchange after)
    server (fun _ => []) run

/-- The file that a handle is to publish.  A handle that was opened on the
result itself starts from nothing, as its client sends the file again. -/
def FileHandle.meant (handle : FileHandle) (version : FileVersion) (plain : Bytes → Bytes)
    (resent : List (Nat × Bytes)) : Bytes :=
  writeOver (if handle.writeTouched = false ∧ handle.fileID = version.id then []
    else handle.staged plain) resent

/-- The handle that a request finishes with success. -/
def finishedHandle : Request plain × Reply → Option Nat
  | (.flush handle _, .finished _) => some handle
  | (.close handle _ _, .finished _) => some handle
  | _ => none

/-- The writing handle that a request finishes while the result of its operation
is retained, and that result. -/
def confirmed (before : FileServer) (exchange : Request plain × Reply) :
    Option (FileHandle × FileVersion) := do
  let handle ← finishedHandle exchange
  let found ← before.handles.find? handle
  if found.writeOpID ≠ 0 ∧ found.unlinked = false then
    return (found, ← before.catalog.resultOf found.writeKey)
  else none

/-- What was written through a handle, before and after the commit, is the
result that its close confirms. -/
def ConfirmsOwnFile (before : FileServer × Resent) (exchange : Request plain × Reply) : Prop :=
  ∀ confirms ∈ confirmed before.1 exchange,
    confirms.1.writeTouched = true ∨ before.2 confirms.1.handle ≠ [] →
    confirms.1.meant confirms.2 plain (before.2 confirms.1.handle) = confirms.2.bytes plain

/-- A client that wrote only after the commit has sent as many bytes as the
result has, and left none out. -/
def ResendsWhole (before : FileServer × Resent) (exchange : Request plain × Reply) : Prop :=
  ∀ confirms ∈ confirmed before.1 exchange,
    confirms.1.writeTouched = false → before.2 confirms.1.handle ≠ [] →
    (confirms.1.meant confirms.2 plain (before.2 confirms.1.handle)).length =
        (confirms.2.bytes plain).length ∧
      ∀ position < (confirms.2.bytes plain).length,
        Reached (before.2 confirms.1.handle) position

instance (before : FileServer × Resent) (exchange : Request plain × Reply) :
    Decidable (ConfirmsOwnFile before exchange) :=
  inferInstanceAs (Decidable (∀ confirms ∈ confirmed before.1 exchange, _))

instance (before : FileServer × Resent) (exchange : Request plain × Reply) :
    Decidable (ResendsWhole before exchange) :=
  inferInstanceAs (Decidable (∀ confirms ∈ confirmed before.1 exchange, _))

/-- What is noted of a handle repeats the result of its operation. -/
def NotesRepeat (plain : Bytes → Bytes) (state : FileServer × Resent) : Prop :=
  ∀ number found version, state.1.handles.find? number = some found →
    state.1.catalog.resultOf found.mutationKey = some version →
    ∀ write ∈ state.2 number, Repeats (version.bytes plain) write

variable {before after : FileServer} {resent : Resent} {exchange : Request plain × Reply}

theorem mem_acknowledgedWrite {number : Nat} {write : Nat × Bytes}
    (member : write ∈ acknowledgedWrite number exchange) :
    ∃ env payload spiller length,
      exchange = (.write number write.1 write.2 env payload spiller, .acknowledged length) := by
  unfold acknowledgedWrite at member
  split at member
  · rename_i handle offset data env payload spiller length
    split_ifs at member with same
    · rw [List.mem_singleton] at member
      subst member same
      exact ⟨env, payload, spiller, length, rfl⟩
    · cases member
  · cases member

theorem NotesRepeat.serves (noted : NotesRepeat plain (before, resent))
    (sound : RetriesSound plain before) (served : before.Serves exchange after) :
    NotesRepeat plain (after, resent.after before exchange after) := by
  intro number new version isNew result write member
  dsimp only [Resent.after] at isNew result member
  rw [isNew] at member
  cases isOld : before.handles.find? number with
  | none =>
    rw [isOld] at member
    cases member
  | some old =>
    rw [isOld] at member
    dsimp only at member
    split_ifs at member with retained
    · rw [retained.2] at result
      rcases List.mem_append.mp member with earlier | own
      · exact noted number old version isOld result write earlier
      · obtain ⟨env, payload, spiller, length, isWrite⟩ := mem_acknowledgedWrite own
        exact (sound.writeChecked served number write.1 write.2 env payload spiller length old
          isWrite isOld).1 version result
    · cases member

theorem asks_of_finishedHandle {handle : Nat} (finishes : finishedHandle exchange = some handle) :
    ∃ key env deadline, exchange.1.Asks handle key env ∧ exchange.2 = .finished deadline := by
  unfold finishedHandle at finishes
  split at finishes
  · rename_i env deadline
    cases finishes
    exact ⟨"", env, deadline, Or.inr ⟨rfl, rfl⟩, rfl⟩
  · rename_i key env deadline
    cases finishes
    exact ⟨key, env, deadline, Or.inl rfl, rfl⟩
  · cases finishes

theorem confirmed_eq_some {found : FileHandle} {version : FileVersion}
    (confirms : confirmed before exchange = some (found, version)) :
    (∃ key env deadline, exchange.1.Asks found.handle key env ∧ exchange.2 = .finished deadline) ∧
      before.handles.find? found.handle = some found ∧ found.writeOpID ≠ 0 ∧
      found.unlinked = false ∧ before.catalog.resultOf found.writeKey = some version := by
  obtain ⟨handle, finishes, rest⟩ := Option.bind_eq_some_iff.mp confirms
  obtain ⟨own, isFound, rest⟩ := Option.bind_eq_some_iff.mp rest
  split_ifs at rest with writing
  · obtain ⟨result, isResult, same⟩ := Option.bind_eq_some_iff.mp rest
    cases same
    obtain ⟨-, rfl⟩ := (KeyedTable.find?_eq_some_iff _ _ _).mp isFound
    exact ⟨asks_of_finishedHandle finishes, isFound, writing.1, writing.2, isResult⟩

/-- A close that succeeds confirms the handle's own file, if the client sent
all of it. -/
theorem NotesRepeat.confirmsOwnFile (noted : NotesRepeat plain (before, resent))
    (sound : RetriesSound plain before) (served : before.Serves exchange after)
    (whole : ResendsWhole (before, resent) exchange) :
    ConfirmsOwnFile (before, resent) exchange := by
  rintro ⟨found, version⟩ confirms written
  obtain ⟨⟨key, env, deadline, asks, finished⟩, isFound, writes, linked, result⟩ :=
    confirmed_eq_some confirms
  have isKey : found.mutationKey = found.writeKey := by
    unfold FileHandle.mutationKey
    rw [if_pos writes]
  have repeated := noted found.handle found version isFound (isKey ▸ result)
  by_cases touched : found.writeTouched = true
  · -- what was staged before the commit has been compared by the close itself
    have staged := (sound.closeChecked served found.handle key env deadline found version asks
      finished isFound writes linked result).1 touched
    unfold FileHandle.meant
    rw [if_neg (by simp [touched]), staged]
    exact writeOver_eq repeated (length_writeOver_self repeated rfl) fun _ _ => Or.inl rfl
  · have untouched : found.writeTouched = false := by simpa using touched
    obtain ⟨sameLength, reached⟩ := whole (found, version) confirms untouched
      (written.resolve_left touched)
    exact writeOver_eq repeated sameLength fun position inside => Or.inr (reached position inside)

end Records

section Runs

variable {plain : Bytes → Bytes}

/-- For every key a run publishes at most one version and its closes report one
deadline; every request treats retries as it should, the closes that are
checked are all closes of a writing handle unless names are taken away, and
where clients send whole files again they are told only of their own file. -/
theorem retries_return_one_result (counter : Nat)
    (run : List ((Request plain × Reply) × FileServer))
    (isRun : IsRun FileServer.Serves (.initial counter) run) :
    (∀ key, (publications key (.initial counter) run).length ≤ 1) ∧
    (∀ key, ∀ first ∈ reports key (.initial counter) run,
      ∀ second ∈ reports key (.initial counter) run, first = second) ∧
    AllSteps (@RetryChecked plain) (.initial counter) run ∧
    (AllSteps (fun _ (exchange : Request plain × Reply) => exchange.1.KeepsNames)
      (.initial counter) run →
      AllStates (FileServer.AllHandles fun handle => handle.unlinked = false)
        (.initial counter) run) ∧
    (AllSteps (@ResendsWhole plain) (.initial counter, fun _ => [])
        (withResent (.initial counter) run) →
      AllSteps (@ConfirmsOwnFile plain) (.initial counter, fun _ => [])
        (withResent (.initial counter) run)) := by
  have sound : AllStates (RetriesSound plain) (.initial counter) run :=
    isRun.allStates (fun _ _ _ kept served => kept.serves served) (.initial counter)
  refine ⟨fun key => length_publications_le isRun .empty,
    fun key => reports_agree isRun .empty, ?_, linked_of_keepsNames isRun, fun whole => ?_⟩
  · exact isRun.allSteps_of_allStates sound fun _ _ _ kept served => kept.retryChecked served
  · have tracked := isRun.recorded (fun before (resent : Resent) exchange after =>
      resent.after before exchange after) fun _ => []
    have noted : AllStates (fun state : FileServer × Resent => RetriesSound plain state.1 ∧
        NotesRepeat plain state) (.initial counter, fun _ => [])
        (withResent (.initial counter) run) := by
      refine tracked.allStates ?_ ⟨.initial counter, ?_⟩
      · rintro ⟨before, resent⟩ exchange ⟨after, moved⟩ ⟨kept, repeated⟩ ⟨served, isMoved⟩
        dsimp only at isMoved
        subst isMoved
        exact ⟨kept.serves served, repeated.serves kept served⟩
      · rintro number found version - - write impossible
        cases impossible
    refine AllSteps.mp (tracked.allSteps_of_allStates noted ?_) whole
    rintro ⟨before, resent⟩ exchange ⟨after, moved⟩ ⟨kept, repeated⟩ ⟨served, -⟩
    exact repeated.confirmsOwnFile kept served

/-- Every hash names the bytes `hi`. -/
def greeting (_ : Bytes) : Bytes := [104, 105]

/-- A cache that is never spilled. -/
def keepCache : CacheSpiller greeting where
  spill cache := (.ok (), cache)
  sound _ := Or.inl rfl

/-- Finishing a file of the bytes `hi`. -/
def greetingFinish : FinishEnv greeting where
  now := 0
  clock := 1
  random := 1
  payload := .exact greeting
  prepared := .ok ⟨[⟨List.replicate 15 7, 1, 0, 2, 2⟩], by simp [HashesFit],
    by simp [AllStored, ChunkPlacement.Stored, greeting], by simp⟩
  retryRetention := 10
  replyLost := false

/-- The bytes `hi` are written and closed, but the answer is lost; after a
restart the client opens its key again, writes and closes. -/
def retriedWrite (data : Bytes) : List (Request greeting) :=
  [.openHandle (ascii ['f']) "k" exampleEnv,
    .write 0 0 [104, 105] exampleEnv (.exact greeting) keepCache,
    .close 0 "k" { greetingFinish with replyLost := true }, .restart 1,
    .openHandle (ascii ['f']) "k" exampleEnv,
    .write 1 0 data exampleEnv (.exact greeting) keepCache,
    .close 1 "k" greetingFinish, .close 1 "k" greetingFinish]

theorem retried_write_publishes_once :
    let run := (FileServer.initial 0).serveAll (retriedWrite [104, 105])
    reports "k" (.initial 0) run = [10, 10] ∧ (publications "k" (.initial 0) run).length = 1 ∧
      AllSteps (@RetryChecked greeting) (.initial 0) run ∧
      AllSteps (@ConfirmsOwnFile greeting) (.initial 0, fun _ => [])
        (withResent (.initial 0) run) := by
  have checked := retries_return_one_result 0 _
    (FileServer.isRun_serveAll (.initial 0) (retriedWrite [104, 105]))
  exact ⟨by decide +kernel, by decide +kernel, checked.2.2.1,
    checked.2.2.2.2 (by decide +kernel)⟩

/-- A retry that sends `h` only is acknowledged, and its close succeeds. -/
theorem shorter_retry_is_confirmed :
    let run := (FileServer.initial 0).serveAll (retriedWrite [104])
    IsRun FileServer.Serves (.initial 0) run ∧
      (run.map fun entry => entry.1.2).drop 5 =
        [.acknowledged 2, .finished 10, .finished 10] ∧
      ¬AllSteps (@ConfirmsOwnFile greeting) (.initial 0, fun _ => [])
        (withResent (.initial 0) run) :=
  ⟨FileServer.isRun_serveAll _ _, by decide +kernel, by decide +kernel⟩

end Runs

end Rose
