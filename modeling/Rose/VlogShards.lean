import Rose.Catalog
import Mathlib.Data.List.Perm.Subperm

/-!
# The copies behind a vlog

A vlog keeps its bytes in several plogs: whole copies when it is mirrored, one
column of every row when it is erasure coded.  An operation is sent to all of
them and succeeds with a quorum of successful answers, in whatever order they
arrive.  A commit that reports a prefix has then made it durable on a quorum.
-/

namespace Rose

open ListSplice

/-- What a plog holds and how much of it has been made durable. -/
structure PlogCopy where
  content : Bytes
  durable : Nat
  durable_le : durable ≤ content.length
  /-- Its disk is there and its sectors pass their integrity check. -/
  readable : Bool
deriving DecidableEq

namespace PlogCopy

variable (copy : PlogCopy)

def read (offset count : Nat) : Option Bytes :=
  if copy.readable = true ∧ offset + count ≤ copy.content.length then
    some (slice copy.content offset count)
  else none

def commit : PlogCopy :=
  { copy with durable := copy.content.length, durable_le := Nat.le_refl _ }

end PlogCopy

/-- The answers of the clients that were asked, in the order of arrival. -/
structure FanoutResults (clients : List Nat) where
  order : List Nat
  answers : order.Perm clients
  succeeds : Nat → Bool

/-- Answers are taken until a quorum has succeeded or can no longer do so. -/
def collectQuorum (quorum slack : Nat) (succeeds : Nat → Bool) :
    List Nat → List Nat → Nat → Option (List Nat)
  | [], _, _ => none
  | client :: later, successful, failed =>
    if succeeds client then
      if quorum ≤ successful.length + 1 then some (client :: successful)
      else collectQuorum quorum slack succeeds later (client :: successful) failed
    else if slack < failed + 1 then none
    else collectQuorum quorum slack succeeds later successful (failed + 1)

/-- The clients that formed the quorum. -/
def fanoutQuorum {clients : List Nat} (quorum : Nat) (results : FanoutResults clients) :
    Option (List Nat) :=
  if clients.length < quorum then none
  else collectQuorum quorum (clients.length - quorum) results.succeeds results.order [] 0

theorem collectQuorum_eq_some {quorum slack failed : Nat} {succeeds : Nat → Bool}
    {order successful chosen : List Nat}
    (collected : collectQuorum quorum slack succeeds order successful failed = some chosen)
    (distinct : (order ++ successful).Nodup)
    (succeeded : ∀ client ∈ successful, succeeds client = true) :
    chosen.Nodup ∧ quorum ≤ chosen.length ∧ ∀ client ∈ chosen, succeeds client = true ∧
        (client ∈ order ∨ client ∈ successful) := by
  induction order generalizing successful failed with
  | nil => cases collected
  | cons client later ih =>
    have apart : (later ++ client :: successful).Nodup := (List.perm_middle.nodup_iff).mpr distinct
    unfold collectQuorum at collected
    split_ifs at collected with success enough hopeless
    · cases collected
      refine ⟨apart.of_append_right, by simpa using enough, ?_⟩
      intro other member
      rcases List.mem_cons.mp member with rfl | earlier
      · exact ⟨success, Or.inl List.mem_cons_self⟩
      · exact ⟨succeeded other earlier, Or.inr earlier⟩
    · have more : ∀ other ∈ client :: successful, succeeds other = true := by
        intro other member
        rcases List.mem_cons.mp member with rfl | earlier
        · exact success
        · exact succeeded other earlier
      obtain ⟨nodup, enough, chosenFrom⟩ := ih collected apart more
      refine ⟨nodup, enough, fun other member => ?_⟩
      obtain ⟨good, later | earlier⟩ := chosenFrom other member
      · exact ⟨good, Or.inl (List.mem_cons_of_mem _ later)⟩
      · rcases List.mem_cons.mp earlier with rfl | earlier
        · exact ⟨good, Or.inl List.mem_cons_self⟩
        · exact ⟨good, Or.inr earlier⟩
    · have rest : (later ++ successful).Nodup := (List.nodup_cons.mp distinct).2
      obtain ⟨nodup, enough, chosenFrom⟩ := ih collected rest succeeded
      refine ⟨nodup, enough, fun other member => ?_⟩
      obtain ⟨good, later | earlier⟩ := chosenFrom other member
      · exact ⟨good, Or.inl (List.mem_cons_of_mem _ later)⟩
      · exact ⟨good, Or.inr earlier⟩

theorem fanoutQuorum_eq_some {clients chosen : List Nat} {quorum : Nat}
    {results : FanoutResults clients} (distinct : clients.Nodup)
    (quorate : fanoutQuorum quorum results = some chosen) :
    chosen.Nodup ∧ quorum ≤ chosen.length ∧
      ∀ client ∈ chosen, client ∈ clients ∧ results.succeeds client = true := by
  unfold fanoutQuorum at quorate
  split_ifs at quorate
  have apart : (results.order ++ []).Nodup := by
    rw [List.append_nil]
    exact results.answers.nodup_iff.mpr distinct
  obtain ⟨nodup, enough, chosenFrom⟩ := collectQuorum_eq_some quorate apart (by simp)
  refine ⟨nodup, enough, fun client member => ?_⟩
  obtain ⟨good, asked | impossible⟩ := chosenFrom client member
  · exact ⟨results.answers.subset asked, good⟩
  · cases impossible

/-- A mounted vlog. -/
structure Vlog where
  protectionScheme : ProtectionScheme
  dataShards : Nat
  parityShards : Nat
  /-- The width of a column of an erasure coded row. -/
  columnBytes : Nat
  copies : List PlogCopy
  length : Nat
  writeQuorum : Nat
  /-- The mirrors known to hold the whole stream; all of them when unset. -/
  completeReplicas : Option (List Nat)
deriving DecidableEq

namespace Vlog

variable (vlog : Vlog)

/-- The part of a logical prefix that each plog holds. -/
def share (length : Nat) : Nat :=
  match vlog.protectionScheme with
  | .ec => length / vlog.dataShards
  | _ => length

/-- The clients that a commit is sent to. -/
def candidates : List Nat :=
  match vlog.protectionScheme, vlog.completeReplicas with
  | .ec, _ => List.range vlog.copies.length
  | _, none => List.range vlog.copies.length
  | _, some complete =>
    (List.range vlog.copies.length).filter (complete.contains ·)

theorem candidates_nodup : vlog.candidates.Nodup := by
  unfold candidates
  split
  · exact List.nodup_range
  · exact List.nodup_range
  · exact List.nodup_range.filter _

/-- The copies whose own commit succeeded are durable in full, also when the
quorum was missed. -/
def committed (results : FanoutResults vlog.candidates) : Vlog :=
  { vlog with
    copies := vlog.copies.mapIdx fun client copy =>
      if client ∈ vlog.candidates ∧ results.succeeds client = true then
        copy.commit
      else copy }

/-- The prefix that a commit made durable. -/
def commitPrefix (results : FanoutResults vlog.candidates) : Option Nat × Vlog :=
  match fanoutQuorum vlog.writeQuorum results with
  | none => (none, vlog.committed results)
  | some _ => (some vlog.length, vlog.committed results)

/-- The plogs on which a logical prefix is durable. -/
def holders (length : Nat) : List Nat := (List.range vlog.copies.length).filter fun client =>
    match vlog.copies[client]? with
    | none => false
    | some copy => decide (vlog.share length ≤ copy.durable)

/-- A quorum of the plogs holds the prefix durably. -/
def HoldsDurably (length : Nat) : Prop := vlog.writeQuorum ≤ (vlog.holders length).length

/-- Every client that a commit is sent to holds the whole stream. -/
def Complete : Prop := ∀ client ∈ vlog.candidates, ∀ copy, vlog.copies[client]? = some copy →
    vlog.share vlog.length ≤ copy.content.length

variable {vlog}

theorem mem_holders {length client : Nat} :
    client ∈ vlog.holders length ↔ ∃ copy, vlog.copies[client]? = some copy ∧
      vlog.share length ≤ copy.durable := by
  unfold holders
  rw [List.mem_filter, List.mem_range]
  constructor
  · rintro ⟨inside, holds⟩
    rw [List.getElem?_eq_getElem inside] at holds ⊢
    exact ⟨_, rfl, of_decide_eq_true holds⟩
  · rintro ⟨copy, found, holds⟩
    refine ⟨(List.getElem?_eq_some_iff.mp found).1, ?_⟩
    rw [found]
    exact decide_eq_true holds

theorem getElem?_committed (results : FanoutResults vlog.candidates) (client : Nat) :
    (vlog.committed results).copies[client]? = vlog.copies[client]?.map fun copy =>
        if client ∈ vlog.candidates ∧ results.succeeds client = true then
          copy.commit
        else copy :=
  List.getElem?_mapIdx

theorem holdsDurably_committed {length : Nat} (holds : vlog.HoldsDurably length)
    (results : FanoutResults vlog.candidates) :
    (vlog.committed results).HoldsDurably length := by
  have more : vlog.holders length ⊆ (vlog.committed results).holders length := by
    intro client member
    obtain ⟨copy, found, durable⟩ := mem_holders.mp member
    refine mem_holders.mpr ⟨_, (getElem?_committed results client).trans (congrArg _ found), ?_⟩
    show vlog.share length ≤ _
    split_ifs
    · exact Nat.le_trans durable copy.durable_le
    · exact durable
  have distinct : (vlog.holders length).Nodup := List.nodup_range.filter _
  exact Nat.le_trans holds (List.subperm_of_subset distinct more).length_le

/-- The reported prefix is durable on a quorum. -/
theorem holdsDurably_commitPrefix (complete : vlog.Complete)
    {results : FanoutResults vlog.candidates} {length : Nat} {after : Vlog}
    (reported : vlog.commitPrefix results = (some length, after)) :
    after.HoldsDurably length := by
  unfold commitPrefix at reported
  cases quorate : fanoutQuorum vlog.writeQuorum results with
  | none =>
    rw [quorate] at reported
    cases reported
  | some chosen =>
    rw [quorate] at reported
    cases reported
    obtain ⟨distinct, enough, succeeded⟩ := fanoutQuorum_eq_some vlog.candidates_nodup quorate
    have held : chosen ⊆ (vlog.committed results).holders vlog.length := by
      intro client member
      obtain ⟨asked, success⟩ := succeeded client member
      have inside : client < vlog.copies.length := by
        unfold candidates at asked
        split at asked
        · exact List.mem_range.mp asked
        · exact List.mem_range.mp asked
        · exact List.mem_range.mp (List.mem_filter.mp asked).1
      have found := List.getElem?_eq_getElem inside
      refine mem_holders.mpr ⟨_, (getElem?_committed results client).trans (congrArg _ found), ?_⟩
      dsimp only
      rw [if_pos ⟨asked, success⟩]
      exact complete client asked _ found
    exact Nat.le_trans enough (List.subperm_of_subset distinct held).length_le

theorem commitPrefix_snd (results : FanoutResults vlog.candidates) :
    (vlog.commitPrefix results).2 = vlog.committed results := by
  unfold commitPrefix
  split <;> rfl

theorem Complete.committed (complete : vlog.Complete) (results : FanoutResults vlog.candidates) :
    (vlog.committed results).Complete := by
  have sameCandidates : (vlog.committed results).candidates = vlog.candidates := by
    simp [candidates, Vlog.committed]
  intro client asked copy found
  rw [sameCandidates] at asked
  rw [getElem?_committed, Option.map_eq_some_iff] at found
  obtain ⟨old, isOld, rfl⟩ := found
  have whole := complete client asked old isOld
  split_ifs
  · exact whole
  · exact whole

section Verification

variable (vlog)

/-- The bytes expected in one data column of a row, where the range meets it. -/
def columnMatches (offset : Nat) (expected : Bytes) (row shard : Nat) (column : Bytes) : Bool :=
  let start := (row * vlog.dataShards + shard) * vlog.columnBytes
  let low := max start offset
  let high := min (start + vlog.columnBytes) (offset + expected.length)
  decide (low < high → slice column (low - start) (high - low) =
      slice expected (low - offset) (high - low))

/-- A row is read whole from every shard and checked as a codeword. -/
def rowMatches (validRow : List Bytes → Bool) (offset : Nat) (expected : Bytes) (row : Nat) :
    Bool :=
  match vlog.copies.mapM (PlogCopy.read · (row * vlog.columnBytes) vlog.columnBytes) with
  | none => false
  | some shards =>
    validRow shards && (shards.take vlog.dataShards).zipIdx.all fun shard =>
      vlog.columnMatches offset expected row shard.2 shard.1

/-- The range holds the expected bytes on every shard. -/
def verifyAll (validRow : List Bytes → Bool) (offset : Nat) (expected : Bytes) : Bool :=
  if vlog.length < offset + expected.length then false
  else if expected = [] then true
  else
    match vlog.protectionScheme with
    | .ec =>
      let width := vlog.columnBytes * vlog.dataShards
      let first := offset / width
      let last := (offset + expected.length - 1) / width
      (List.range' first (last + 1 - first)).all (vlog.rowMatches validRow offset expected)
    | _ => vlog.copies.all fun copy =>
      decide (copy.read offset expected.length = some expected)

end Verification

end Vlog

/-- A mounted vlog whose commit candidates hold its whole stream. -/
structure MountedVlog where
  vlog : Vlog
  complete : vlog.Complete

end Rose
