import Rose.PlogRuns
import Rose.PlogStates

/-!
# Retrying an append

An append to a known offset compares what the log already holds of the data and
appends the rest.  It can be repeated in any state of the log, after any number
of attempts that failed on the way: the data is there once, what could be read
before reads the same, and an append over different bytes is refused.
-/

namespace Rose

open ListSplice FaultyPrograms FallibleActions

variable {env : PlogEnv} {world : PlogWorld} {data : Bytes}

/-- The bytes at `start` can be read and are the given ones. -/
def HoldsAt (env : PlogEnv) (world : PlogWorld) (start : Nat) (bytes : Bytes) :
    Prop :=
  ∀ index, index < bytes.length →
    byteAt env world.plog world.content (start + index) = bytes[index]?

variable {start : Nat}

theorem holdsAt_of_readLocked (shaped : world.plog.Shaped) {length : Nat} {out : Bytes}
    (read : readLocked env world.plog world.content start length = .ok out) :
    HoldsAt env world start out := by
  obtain ⟨-, -, length_eq, bytes⟩ := (readLocked_eq_ok_iff shaped).mp read
  intro index inside
  exact bytes index (by omega)

theorem holdsAt_of_compared (shaped : world.plog.Shaped) {expected : Bytes}
    (compares : expected.length = 0 ∨
      readLocked env world.plog world.content start expected.length = .ok expected) :
    HoldsAt env world start expected := by
  obtain empty | read := compares
  · intro index inside
    omega
  · exact holdsAt_of_readLocked shaped read

/-- The data is in the log, and what was there before still is. -/
structure EnsuredAppend (env : PlogEnv) (before : PlogWorld) (start : Nat) (data : Bytes)
    (after : PlogWorld) : Prop where
  startLe : start ≤ before.plog.logicalLength
  shaped : after.plog.Shaped
  length_eq : after.plog.logicalLength = max before.plog.logicalLength (start + data.length)
  old : ∀ index byte, index < before.plog.logicalLength →
    byteAt env before.plog before.content index = some byte →
      byteAt env after.plog after.content index = some byte
  holds : HoldsAt env after start data

theorem EnsuredAppend.present (shaped : world.plog.Shaped)
    (inside : start + data.length ≤ world.plog.logicalLength)
    (holds : HoldsAt env world start data) : EnsuredAppend env world start data world :=
  ⟨by omega, shaped, by omega, fun _ _ _ readable => readable, holds⟩

variable {after : PlogWorld}

theorem EnsuredAppend.appended {overlap : Nat} (ends : world.plog.logicalLength = start + overlap)
    (overlapLe : overlap ≤ data.length) (holds : HoldsAt env world start (data.take overlap))
    (appended : Appended env world.plog world.content (data.drop overlap) after.plog after.content)
    :
    EnsuredAppend env world start data after := by
  have length_eq := appended.length_eq
  rw [List.length_drop] at length_eq
  refine ⟨by omega, appended.shaped, by omega, appended.old, ?_⟩
  intro index inside
  by_cases early : index < overlap
  · have there := holds index (by rw [List.length_take]; omega)
    rw [List.getElem?_take_of_lt early, List.getElem?_eq_getElem inside] at there
    rw [List.getElem?_eq_getElem inside]
    exact appended.old _ _ (by omega) there
  · have there := appended.new (index - overlap) (by rw [List.length_drop]; omega)
    have position : world.plog.logicalLength + (index - overlap) = start + index := by omega
    have source : overlap + (index - overlap) = index := by omega
    rw [position, List.getElem?_drop, source] at there
    exact there

theorem ensureAppend_ensured (shaped : world.plog.Shaped) (offset : Int) :
    Triple (· = world) (ensureAppend env offset data)
      (fun _ after => 0 ≤ offset ∧ EnsuredAppend env world offset.toNat data after)
      (fun _ after => Unappended world after) := by
  refine ensureAppend_rule (fun _ => .refl world) (fun _ _ => holdsAt_of_compared shaped) ?_ ?_
  · rintro start rfl inside holds
    exact ⟨by omega, .present shaped inside holds⟩
  · rintro start overlap rfl ends short holds
    refine (writeLocked_appends shaped).returning fun _ _ appended => ⟨by omega, ?_⟩
    exact .appended ends (by omega) holds appended.2

theorem ensureAppend_again (start : Nat) (inside : start + data.length ≤ world.plog.logicalLength) :
    Maintains (fun current => current = world) (ensureAppend env start data) := by
  refine Triple.bind_current ?_
  dsimp only
  rw [if_neg (by omega), Int.toNat_natCast, if_pos (by omega)]
  exact Maintains.bind (checkOverlap_maintains _ _) fun _ => Maintains.pure

theorem ensureAppend_again_completes (inside : start + data.length ≤ world.plog.logicalLength)
    (read : readLocked env world.plog world.content start data.length = .ok data) :
    ensureAppend env start data ⟨world, []⟩ = .ok () ⟨world, []⟩ := by
  have overlap_eq : min (world.plog.logicalLength - start) data.length =
      data.length := by omega
  have compares : Runs (checkOverlap env start data) world () world := by
    unfold checkOverlap
    split_ifs with empty
    · exact .pure
    · refine .bind .current (.bind (.inspect read) ?_)
      rw [if_neg (fun differs => differs rfl)]
      exact .pure
  refine Runs.bind .current ?_
  dsimp only
  rw [if_neg (by omega), Int.toNat_natCast, overlap_eq, if_pos rfl, List.take_length]
  exact .bind compares .pure

theorem ensureAppend_negative {offset : Int} (negative : offset < 0) :
    Triple (· = world) (ensureAppend env offset data)
      (fun _ _ => False) (fun _ after => after = world) := by
  refine Triple.bind_current ?_
  dsimp only
  rw [if_pos (Or.inl negative)]
  exact Triple.raise fun _ same => same

/-- An append over a different byte is refused. -/
theorem ensureAppend_refused (shaped : world.plog.Shaped) {index : Nat} {byte : UInt8}
    (inside : index < data.length)
    (held : byteAt env world.plog world.content (start + index) = some byte)
    (overlaps : start + index < world.plog.logicalLength) (differs : data[index]? ≠ some byte) :
    Triple (· = world) (ensureAppend env start data)
      (fun _ _ => False) (fun _ after => after = world) := by
  have differ : ∀ overlap, index < overlap → ¬HoldsAt env world start (data.take overlap) := by
    intro overlap early holds
    have there := holds index (by rw [List.length_take]; omega)
    rw [List.getElem?_take_of_lt early, held] at there
    exact differs there.symm
  refine ensureAppend_rule (fun _ => rfl) (fun _ _ => holdsAt_of_compared shaped) ?_ ?_
  · intro found offset_eq _ holds
    obtain rfl := Int.ofNat_inj.mp offset_eq
    rw [← List.take_length (l := data)] at holds
    exact differ _ inside holds
  · intro found overlap offset_eq ends short holds
    obtain rfl := Int.ofNat_inj.mp offset_eq
    exact (differ overlap (by omega) holds).elim

/-- Attempts that failed before the append was tried again. -/
inductive FailedAppends (env : PlogEnv) : PlogWorld → PlogWorld → Prop
  | none (world : PlogWorld) : FailedAppends env world world
  | attempt {first tried last : PlogWorld}
      (earlier : FailedAppends env first tried) (offset : Int) (data : Bytes)
      (faults rest : List Fault) (reason : String)
      (ran : ensureAppend env offset data ⟨tried, faults⟩ = .error (.error reason) ⟨last, rest⟩) :
      FailedAppends env first last

theorem FailedAppends.unappended {tried : PlogWorld} (attempts : FailedAppends env world tried)
    (shaped : world.plog.Shaped) :
    Unappended world tried := by
  induction attempts with
  | none => exact .refl world
  | attempt _ offset data faults rest reason ran ih =>
    exact ih.trans ((ensureAppend_ensured (ih.shaped shaped) offset).halted rfl ran)

theorem EnsuredAppend.since {tried : PlogWorld} (ensured : EnsuredAppend env tried start data after)
    (unappended : Unappended world tried) (shaped : world.plog.Shaped) :
    EnsuredAppend env world start data after := by
  have length_eq := unappended.length_eq
  refine ⟨?_, ensured.shaped, ?_, ?_, ensured.holds⟩
  · rw [← length_eq]
    exact ensured.startLe
  · rw [← length_eq]
    exact ensured.length_eq
  · intro index byte inside readable
    rw [← length_eq] at inside
    exact ensured.old index byte inside (unappended.byteAt_eq shaped readable)

/-- If no byte is lost, no read is. -/
theorem readLocked_of_bytes (shaped : world.plog.Shaped) (afterShaped : after.plog.Shaped)
    (grown : world.plog.logicalLength ≤ after.plog.logicalLength)
    (kept : ∀ index byte, index < world.plog.logicalLength →
      byteAt env world.plog world.content index = some byte →
        byteAt env after.plog after.content index = some byte)
    {offset length : Int} {out : Bytes}
    (read : readLocked env world.plog world.content offset length = .ok out) :
    readLocked env after.plog after.content offset length = .ok out := by
  obtain ⟨nonneg, nonnegLength⟩ : 0 ≤ offset ∧ 0 ≤ length := by
    unfold readLocked at read
    split_ifs at read with negative
    omega
  obtain ⟨offset, rfl⟩ := Int.eq_ofNat_of_zero_le nonneg
  obtain ⟨length, rfl⟩ := Int.eq_ofNat_of_zero_le nonnegLength
  obtain ⟨fits, inside, length_eq, bytes⟩ := (readLocked_eq_ok_iff shaped).mp read
  refine (readLocked_eq_ok_iff afterShaped).mpr ⟨fits, by omega, length_eq, fun index early => ?_⟩
  have found : out[index]? = some (out[index]) := List.getElem?_eq_getElem (by omega)
  rw [found]
  exact kept _ _ (by omega) ((bytes index early).trans found)

theorem EnsuredAppend.readLocked_data (ensured : EnsuredAppend env world start data after)
    (fits : start + data.length < 2 ^ 63) :
    readLocked env after.plog after.content start data.length = .ok data := by
  have grown := ensured.length_eq
  exact (readLocked_eq_ok_iff ensured.shaped).mpr ⟨fits, by omega, rfl, ensured.holds⟩

/-- The run ended in the given world, with or without an error. -/
def EndsIn (result : EStateM.Result Halt (Machine PlogWorld) Unit) (world : PlogWorld) : Prop :=
  ∃ rest, result = .ok () ⟨world, rest⟩ ∨ ∃ halt, result = .error halt ⟨world, rest⟩

theorem endsIn_of_maintains {program : Program PlogWorld Unit}
    (maintains : Maintains (fun current => current = world) program)
    (faults : List Fault) : EndsIn (program ⟨world, faults⟩) world := by
  have met := maintains ⟨world, faults⟩ rfl
  cases ran : program ⟨world, faults⟩ with
  | ok value last =>
    rw [ran] at met
    obtain ⟨lastWorld, rest⟩ := last
    cases met
    exact ⟨rest, .inl rfl⟩
  | error halt last =>
    rw [ran] at met
    obtain ⟨lastWorld, rest⟩ := last
    cases met
    exact ⟨rest, .inr ⟨halt, rfl⟩⟩

theorem fails_of_refused {program : Program PlogWorld Unit}
    (refuses : Triple (· = world) program
      (fun _ _ => False) (fun _ after => after = world))
    (faults : List Fault) :
    ∃ halt rest, program ⟨world, faults⟩ = .error halt ⟨world, rest⟩ := by
  have met := refuses ⟨world, faults⟩ rfl
  cases ran : program ⟨world, faults⟩ with
  | ok value last =>
    rw [ran] at met
    exact met.elim
  | error halt last =>
    rw [ran] at met
    obtain ⟨lastWorld, rest⟩ := last
    cases met
    exact ⟨halt, rest, rfl⟩

/-- An append at an offset can be retried.  In any state and after any attempts
that failed, an append that returns has the data in place once and everything
else as it was, another one changes nothing, and an append over a byte that
differs fails and changes nothing. -/
theorem append_at_offset_is_retryable {tried : PlogWorld} (reached : PlogReached env world)
    (attempts : FailedAppends env world tried) (offset : Int) (data : Bytes)
    (fits : offset + data.length < 2 ^ 63) :
    (∀ faults after rest, ensureAppend env offset data ⟨tried, faults⟩ = .ok () ⟨after, rest⟩ →
        after.plog.logicalLength = max world.plog.logicalLength (offset + data.length).toNat ∧
          readLocked env after.plog after.content offset data.length = .ok data ∧
          (∀ start length out, readLocked env world.plog world.content start length = .ok out →
              readLocked env after.plog after.content start length = .ok out) ∧
          ensureAppend env offset data ⟨after, []⟩ = .ok () ⟨after, []⟩ ∧
          ∀ again, EndsIn (ensureAppend env offset data ⟨after, again⟩) after) ∧
      ∀ (index : Nat) (byte : UInt8), index < data.length →
        readLocked env world.plog world.content (offset + index) 1 = .ok [byte] →
          data[index]? ≠ some byte → ∀ faults, ∃ halt rest,
              ensureAppend env offset data ⟨tried, faults⟩ = .error halt ⟨tried, rest⟩ := by
  have shaped := reached.shaped
  have unappended := attempts.unappended shaped
  have triedShaped := unappended.shaped shaped
  refine ⟨?_, ?_⟩
  · intro faults after rest ran
    obtain ⟨nonneg, sinceTried⟩ := (ensureAppend_ensured triedShaped offset).returned rfl ran
    have ensured := sinceTried.since unappended shaped
    obtain ⟨start, rfl⟩ := Int.eq_ofNat_of_zero_le nonneg
    rw [Int.toNat_natCast] at ensured
    have inside : start + data.length ≤ after.plog.logicalLength := by
      rw [ensured.length_eq]
      exact Nat.le_max_right _ _
    have end_eq : ((start : Int) + data.length).toNat = start + data.length := by
      omega
    have readsData := ensured.readLocked_data (by omega)
    refine ⟨?_, readsData, ?_, ensureAppend_again_completes inside readsData,
      endsIn_of_maintains (ensureAppend_again start inside)⟩
    · rw [end_eq]
      exact ensured.length_eq
    · intro offset length out read
      exact readLocked_of_bytes shaped ensured.shaped (by have := ensured.length_eq; omega)
        ensured.old read
  · intro index byte inside read differs faults
    have refuses : Triple (· = tried)
        (ensureAppend env offset data) (fun _ _ => False)
        (fun _ after => after = tried) := by
      by_cases negative : offset < 0
      · exact ensureAppend_negative negative
      · obtain ⟨start, rfl⟩ := Int.eq_ofNat_of_zero_le (Int.not_lt.mp negative)
        obtain ⟨-, overlaps, -, bytes⟩ :=
          (@readLocked_eq_ok_iff env world.plog world.content shaped
            (start + index) 1 [byte]).mp read
        have held := unappended.byteAt_eq shaped (bytes 0 Nat.one_pos)
        rw [Nat.add_zero] at held
        refine ensureAppend_refused triedShaped inside held ?_ differs
        rw [unappended.length_eq]
        omega
    exact fails_of_refused refuses faults

/-- A log without bytes. -/
def newLog : PlogWorld := ⟨UndoStore.settled (superblock constantEnv []), Plog.fresh 1⟩

/-- The log after three bytes, which were not committed. -/
def threeBytes : PlogWorld :=
  worldAfter (PlogOperation.run constantEnv (.write [1, 2, 3])) ⟨newLog, []⟩

theorem threeBytes_written :
    haltOf (PlogOperation.run constantEnv (.write [1, 2, 3])) ⟨newLog, []⟩ = none := by
  decide +kernel

theorem threeBytes_reached : PlogReached constantEnv threeBytes :=
  .operated _ newLog _ (.created 1 [] _) (finishes_of_haltOf threeBytes_written)

/-- The last of these bytes and what is to follow it. -/
def moreBytes : Bytes := 3 :: List.replicate 5000 4

/-- All steps in front of the write go well, and 100 bytes of it are written. -/
def tornWrite : List Fault := List.replicate 13 .none ++ [.fail 100]

def tornAppend : PlogWorld :=
  worldAfter (ensureAppend constantEnv 2 moreBytes) ⟨threeBytes, tornWrite⟩

theorem append_after_failure_is_retryable :
    ∃ after : PlogWorld, PlogReached constantEnv threeBytes ∧
      FailedAppends constantEnv threeBytes tornAppend ∧ tornAppend.content.length = 4196 ∧
        (∃ rest, ensureAppend constantEnv 2 moreBytes ⟨tornAppend, []⟩ = .ok () ⟨after, rest⟩) ∧
          after.plog.logicalLength = 5003 ∧
            readLocked constantEnv after.plog after.content 2 5001 = .ok moreBytes := by
  have size : moreBytes.length = 5001 := congrArg (· + 1) List.length_replicate
  obtain ⟨stops, torn, returns⟩ :
      haltOf (ensureAppend constantEnv 2 moreBytes) ⟨threeBytes, tornWrite⟩ =
        some (.error "write plog 1: write") ∧
      tornAppend.content.length = 4196 ∧
      haltOf (ensureAppend constantEnv 2 moreBytes) ⟨tornAppend, []⟩ = none := by decide +kernel
  obtain ⟨unread, fails⟩ := halted_of_haltOf stops
  have attempts : FailedAppends constantEnv threeBytes tornAppend :=
    .attempt (.none threeBytes) 2 moreBytes _ _ _ fails
  obtain ⟨_, rest, ran⟩ := returned_of_haltOf returns
  have retryable := append_at_offset_is_retryable threeBytes_reached attempts 2 moreBytes
    (by omega)
  obtain ⟨length_eq, read, -, -⟩ := retryable.1 [] _ rest ran
  rw [size] at length_eq read
  exact ⟨_, threeBytes_reached, attempts, torn, ⟨rest, ran⟩, length_eq, read⟩

end Rose
