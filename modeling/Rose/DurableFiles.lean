import Rose.ListSplice

/-!
# Files and directory entries that survive a crash

A file is its durable content together with the operations issued since the
last successful sync.  A crash may lose or tear each of those operations, byte
by byte.  A directory entry is its current value together with every value a
crash may leave, namely those it had since the last successful sync of the
directory.  The lemmas say which part of a file no crash can reach.
-/

namespace Rose.DurableFiles

open ListSplice

inductive FileOp where
  | write (offset : Nat) (data : List UInt8)
  | truncate (size : Nat)
deriving DecidableEq, Repr

namespace FileOp

def apply : FileOp → List UInt8 → List UInt8
  | write offset data, file => overwrite 0 file offset data
  | truncate size, file => resize 0 size file

/-- What an unsynced operation may leave behind: nothing, any subset of its
bytes, or any intermediate size. -/
inductive Torn : FileOp → List UInt8 → List UInt8 → Prop
  | lost (op : FileOp) (file : List UInt8) : Torn op file file
  | write (offset : Nat) (data before after : List UInt8)
      (nonempty : data ≠ []) (grows : before.length ≤ after.length)
      (sizeLe : after.length ≤ max before.length (offset + data.length))
      (bytes : ∀ index, index < after.length → after[index]? = some (before[index]?.getD 0) ∨
          (offset ≤ index ∧ index < offset + data.length ∧ after[index]? = data[index - offset]?)) :
      Torn (write offset data) before after
  | truncate (size middle : Nat) (before : List UInt8) (lower : min size before.length ≤ middle)
      (upper : middle ≤ max size before.length) :
      Torn (truncate size) before (resize 0 middle before)

/-- The whole operation is one of the things it may leave. -/
theorem torn_apply (op : FileOp) (file : List UInt8) : op.Torn file (op.apply file) := by
  cases op with
  | write offset data =>
    by_cases nonempty : data = []
    · rw [apply, overwrite, if_pos nonempty]
      exact Torn.lost _ _
    · have size := length_overwrite 0 file data offset nonempty
      refine Torn.write offset data file _ nonempty ?_ ?_ fun index inside => ?_
      · rw [apply, size]
        omega
      · exact Nat.le_of_eq (by rw [apply, size])
      · rw [apply, size] at inside
        rw [apply, getElem?_overwrite _ _ _ _ _ nonempty]
        by_cases written : offset ≤ index ∧ index < offset + data.length
        · rw [if_pos written]
          exact Or.inr ⟨written.1, written.2, rfl⟩
        · rw [if_neg written, if_pos inside]
          exact Or.inl rfl
  | truncate size =>
    exact Torn.truncate size size file (Nat.min_le_left _ _) (Nat.le_max_left _ _)

/-- An operation that leaves the bytes of `target` below `limit` as they are. -/
def HarmlessBelow (limit : Nat) (target : List UInt8) : FileOp → Prop
  | write offset data => ∀ index, offset ≤ index → index < offset + data.length → index < limit →
        data[index - offset]? = target[index]?
  | truncate size => limit ≤ size

/-- An operation that rewrites what `target` already holds. -/
def Preserves (target : List UInt8) : FileOp → Prop
  | write offset data => ∀ index, offset ≤ index →
      index < offset + data.length → data[index - offset]? = target[index]?
  | truncate size => size = target.length

theorem Preserves.harmlessBelow {target : List UInt8} {op : FileOp}
    (preserves : op.Preserves target) {limit : Nat} (limitLe : limit ≤ target.length) :
    op.HarmlessBelow limit target := by
  cases op with
  | write offset data =>
    exact fun index after before _ => preserves index after before
  | truncate size => exact Nat.le_trans limitLe (Nat.le_of_eq preserves.symm)

theorem HarmlessBelow.mono {target : List UInt8} {op : FileOp} {low high : Nat}
    (harmless : op.HarmlessBelow high target) (lowLe : low ≤ high) :
    op.HarmlessBelow low target := by
  cases op with
  | write offset data =>
    exact fun index after before below =>
    harmless index after before (Nat.lt_of_lt_of_le below lowLe)
  | truncate size => exact Nat.le_trans lowLe harmless

theorem harmlessBelow_write {offset limit : Nat} (data target : List UInt8)
    (above : limit ≤ offset) : (write offset data).HarmlessBelow limit target := by
  intro index after before below
  omega

end FileOp

/-- Two files that hold the same bytes below `limit`. -/
structure AgreeBelow (limit : Nat) (target file : List UInt8) : Prop where
  limitLe : limit ≤ file.length
  bytes : ∀ index, index < limit → file[index]? = target[index]?

variable {limit : Nat} {file : List UInt8}

theorem AgreeBelow.refl (limitLe : limit ≤ file.length) : AgreeBelow limit file file :=
  ⟨limitLe, fun _ _ => rfl⟩

variable {target : List UInt8}

theorem AgreeBelow.mono {low high : Nat} (agree : AgreeBelow high target file)
    (lowLe : low ≤ high) : AgreeBelow low target file :=
  ⟨Nat.le_trans lowLe agree.limitLe,
    fun index below => agree.bytes index (Nat.lt_of_lt_of_le below lowLe)⟩

theorem AgreeBelow.slice_eq {start count : Nat} (agree : AgreeBelow limit target file)
    (inside : start + count ≤ limit) :
    slice file start count = slice target start count := by
  apply List.ext_getElem?
  intro index
  rw [getElem?_slice, getElem?_slice]
  split_ifs with indexLt
  · exact agree.bytes _ (by omega)
  · rfl

variable {after : List UInt8}

theorem FileOp.Torn.agreeBelow {op : FileOp} {before : List UInt8} (torn : op.Torn before after)
    (harmless : op.HarmlessBelow limit target) (agree : AgreeBelow limit target before) :
    AgreeBelow limit target after := by
  have limitLe := agree.limitLe
  cases torn with
  | lost => exact agree
  | write offset data _ _ nonempty grows sizeLe bytes =>
    refine ⟨by omega, fun index below => ?_⟩
    rcases bytes index (by omega) with kept | ⟨after, before, written⟩
    · rw [kept, ← agree.bytes index below, List.getElem?_eq_getElem (by omega), Option.getD_some]
    · rw [written]
      exact harmless index after before below
  | truncate size middle _ lower upper =>
    have sizeLe : limit ≤ size := harmless
    refine ⟨by rw [length_resize]; omega, fun index below => ?_⟩
    rw [getElem?_resize, if_pos (by omega), ← agree.bytes index below,
      List.getElem?_eq_getElem (by omega), Option.getD_some]

theorem FileOp.Torn.eq_of_preserves {op : FileOp} (torn : op.Torn target after)
    (preserves : op.Preserves target) :
    after = target := by
  have agree := torn.agreeBelow (preserves.harmlessBelow (Nat.le_refl _))
    (AgreeBelow.refl (Nat.le_refl _))
  have sizeLe : after.length ≤ target.length := by
    cases torn with
    | lost => exact Nat.le_refl _
    | write offset data _ _ nonempty grows sizeLe bytes =>
      have positive : 0 < data.length := List.length_pos_iff.mpr nonempty
      have last := preserves (offset + data.length - 1) (by omega) (by omega)
      have inTarget : offset + data.length - 1 < target.length := by
        by_contra beyond
        rw [List.getElem?_eq_none (l := target) (by omega), List.getElem?_eq_none_iff] at last
        omega
      omega
    | truncate size middle _ lower upper =>
      have same : size = target.length := preserves
      rw [length_resize]
      omega
  apply List.ext_getElem?
  intro index
  by_cases below : index < target.length
  · exact agree.bytes index below
  · rw [List.getElem?_eq_none (by omega), List.getElem?_eq_none (by omega)]

/-- The contents a list of unsynced operations may leave. -/
def TornAll : List FileOp → List UInt8 → List UInt8 → Prop
  | [], before, after => after = before
  | op :: rest, before, after =>
    ∃ middle, op.Torn before middle ∧ TornAll rest middle after

theorem TornAll.agreeBelow {ops : List FileOp} {before : List UInt8}
    (torn : TornAll ops before after) (harmless : ∀ op ∈ ops, op.HarmlessBelow limit target)
    (agree : AgreeBelow limit target before) :
    AgreeBelow limit target after := by
  induction ops generalizing before with
  | nil =>
    rw [show after = before from torn]
    exact agree
  | cons op rest ih =>
    rw [List.forall_mem_cons] at harmless
    obtain ⟨middle, first, others⟩ := torn
    exact ih others harmless.2 (first.agreeBelow harmless.1 agree)

theorem TornAll.eq_of_preserves {ops : List FileOp} (torn : TornAll ops target after)
    (preserves : ∀ op ∈ ops, op.Preserves target) :
    after = target := by
  induction ops with
  | nil => exact torn
  | cons op rest ih =>
    rw [List.forall_mem_cons] at preserves
    obtain ⟨middle, first, others⟩ := torn
    rw [first.eq_of_preserves preserves.1] at others
    exact ih others preserves.2

/-- A file: what is durable, and what was issued since. -/
structure DurableFile where
  disk : List UInt8
  pending : List FileOp

namespace DurableFile

/-- The content that reads see. -/
def view (file : DurableFile) : List UInt8 :=
  file.pending.foldl (fun content op => op.apply content) file.disk

def issue (file : DurableFile) (op : FileOp) : DurableFile :=
  { file with pending := file.pending ++ [op] }

def sync (file : DurableFile) : DurableFile := ⟨file.view, []⟩

/-- A power loss keeps one of the contents the unsynced operations may leave. -/
def Crash (before after : DurableFile) : Prop :=
  TornAll before.pending before.disk after.disk ∧ after.pending = []

@[simp]
theorem view_issue (file : DurableFile) (op : FileOp) :
    (file.issue op).view = op.apply file.view := by
  simp [view, issue]

theorem tornAll_view (file : DurableFile) : TornAll file.pending file.disk file.view := by
  obtain ⟨disk, pending⟩ := file
  induction pending generalizing disk with
  | nil => rfl
  | cons op rest ih =>
    exact ⟨op.apply disk, op.torn_apply disk, ih (op.apply disk)⟩

/-- No crash can reach what the file holds of `image` below `limit`. -/
structure KeepsBelow (file : DurableFile) (limit : Nat) (image : List UInt8) : Prop where
  agree : AgreeBelow limit image file.disk
  harmless : ∀ op ∈ file.pending, op.HarmlessBelow limit image

/-- The file holds `image`, and so does whatever a crash leaves of it. -/
structure Keeps (file : DurableFile) (image : List UInt8) : Prop where
  disk_eq : file.disk = image
  preserves : ∀ op ∈ file.pending, op.Preserves image

variable {file after : DurableFile} {limit : Nat} {image other : List UInt8}

theorem Keeps.keepsBelow (keeps : file.Keeps image) (limitLe : limit ≤ image.length) :
    file.KeepsBelow limit image := by
  refine ⟨?_, fun op issued => (keeps.preserves op issued).harmlessBelow limitLe⟩
  rw [keeps.disk_eq]
  exact AgreeBelow.refl limitLe

theorem KeepsBelow.mono {low : Nat} (keeps : file.KeepsBelow limit image) (lowLe : low ≤ limit) :
    file.KeepsBelow low image :=
  ⟨keeps.agree.mono lowLe, fun op issued => (keeps.harmless op issued).mono lowLe⟩

theorem Keeps.eq_of_tornAll (keeps : file.Keeps image) {content : List UInt8}
    (torn : TornAll file.pending file.disk content) :
    content = image := by
  rw [keeps.disk_eq] at torn
  exact torn.eq_of_preserves keeps.preserves

theorem Keeps.view_eq (keeps : file.Keeps image) : file.view = image :=
  keeps.eq_of_tornAll file.tornAll_view

theorem KeepsBelow.agree_view (keeps : file.KeepsBelow limit image) :
    AgreeBelow limit image file.view :=
  file.tornAll_view.agreeBelow keeps.harmless keeps.agree

theorem KeepsBelow.issue (keeps : file.KeepsBelow limit image) {op : FileOp}
    (harmless : op.HarmlessBelow limit image) :
    (file.issue op).KeepsBelow limit image := by
  refine ⟨keeps.agree, ?_⟩
  simp only [DurableFile.issue, List.forall_mem_append, List.forall_mem_singleton]
  exact ⟨keeps.harmless, harmless⟩

theorem Keeps.issue (keeps : file.Keeps image) {op : FileOp} (preserves : op.Preserves image) :
    (file.issue op).Keeps image := by
  refine ⟨keeps.disk_eq, ?_⟩
  simp only [DurableFile.issue, List.forall_mem_append, List.forall_mem_singleton]
  exact ⟨keeps.preserves, preserves⟩

theorem keeps_of_view_eq (view_eq : file.view = image) : file.sync.Keeps image :=
  ⟨view_eq, fun _ issued => absurd issued (List.not_mem_nil)⟩

theorem Keeps.sync (keeps : file.Keeps image) : file.sync.Keeps image :=
  keeps_of_view_eq keeps.view_eq

theorem KeepsBelow.sync (keeps : file.KeepsBelow limit image) : file.sync.KeepsBelow limit image :=
  ⟨keeps.agree_view, fun _ issued => absurd issued (List.not_mem_nil)⟩

theorem Keeps.crash (keeps : file.Keeps image) (crash : file.Crash after) : after.Keeps image := by
  refine ⟨keeps.eq_of_tornAll crash.1, fun op issued => ?_⟩
  rw [crash.2] at issued
  cases issued

theorem KeepsBelow.crash (keeps : file.KeepsBelow limit image) (crash : file.Crash after) :
    after.KeepsBelow limit image := by
  refine ⟨crash.1.agreeBelow keeps.harmless keeps.agree, fun op issued => ?_⟩
  rw [crash.2] at issued
  cases issued

/-- What preserves the whole file is harmless to every image the file agrees
with below a limit. -/
theorem Keeps.harmlessBelow (keeps : file.Keeps image) (below : file.KeepsBelow limit other)
    {op : FileOp} (preserves : op.Preserves image) :
    op.HarmlessBelow limit other := by
  have agree := below.agree
  rw [keeps.disk_eq] at agree
  cases op with
  | write offset data =>
    intro index after before inside
    rw [← agree.bytes index inside]
    exact preserves index after before
  | truncate size => exact Nat.le_trans agree.limitLe (Nat.le_of_eq preserves.symm)

end DurableFile

/-- A directory entry: its value, and every value a crash may leave. -/
structure DurableEntry (Value : Type) where
  current : Value
  candidates : List Value
  current_mem : current ∈ candidates

namespace DurableEntry

variable {Value : Type}

/-- A durable entry. -/
def settled (value : Value) : DurableEntry Value := ⟨value, [value], List.mem_singleton.mpr rfl⟩

def set (entry : DurableEntry Value) (value : Value) : DurableEntry Value :=
  ⟨value, entry.candidates ++ [value], by simp⟩

def sync (entry : DurableEntry Value) : DurableEntry Value := settled entry.current

theorem forall_candidates_set_iff {property : Value → Prop} {entry : DurableEntry Value}
    {value : Value} :
    (∀ candidate ∈ (entry.set value).candidates, property candidate) ↔
      (∀ candidate ∈ entry.candidates, property candidate) ∧ property value := by
  simp only [set, List.forall_mem_append, List.forall_mem_singleton]

theorem forall_candidates_sync_iff {property : Value → Prop} {entry : DurableEntry Value} :
    (∀ candidate ∈ entry.sync.candidates, property candidate) ↔ property entry.current := by
  simp only [sync, settled, List.forall_mem_singleton]

end DurableEntry

end Rose.DurableFiles
