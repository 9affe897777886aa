import Mathlib.Algebra.BigOperators.Group.List.Basic
import Mathlib.Algebra.Order.BigOperators.Group.Finset
import Mathlib.Algebra.Order.BigOperators.Group.List
import Mathlib.Data.List.Induction
import Mathlib.Tactic.Linarith
import Mathlib.Tactic.Ring
import Rose.FallibleActions
import Rose.ShardRebalance

/-!
# Gaps and termination of rebalancing passes

A move shrinks the gap between its two disks exactly if the shard is smaller
than the gap; a shard as large as the gap swaps the two loads.  While every move
shrinks its gap the sum of the squared loads falls, so the pass ends.
-/

namespace Rose

open FallibleActions

section Destinations

variable {usage : Nat → Int} {source : Nat} {occupied disks active : List Nat}

/-- A disk of the list other than the source that holds no shard of the vlog. -/
def MayTake (source : Nat) (occupied disks : List Nat) (disk : Nat) : Prop :=
  disk ∈ disks ∧ disk ≠ source ∧ disk ∉ occupied

/-- No disk that may take the shard is lighter. -/
structure IsLightest (usage : Nat → Int) (source : Nat) (occupied disks : List Nat) (target : Nat) :
    Prop where
  allowed : MayTake source occupied disks target
  least : ∀ disk, MayTake source occupied disks disk → usage target ≤ usage disk

theorem IsLightest.perm {target : Nat} (lightest : IsLightest usage source occupied disks target)
    (same : disks.Perm active) :
    IsLightest usage source occupied active target := by
  obtain ⟨⟨listed, other, free⟩, least⟩ := lightest
  refine ⟨⟨same.mem_iff.mp listed, other, free⟩, ?_⟩
  intro disk allowed
  exact least disk ⟨same.mem_iff.mpr allowed.1, allowed.2⟩

theorem IsLightest.usage_eq {first second : Nat}
    (one : IsLightest usage source occupied disks first)
    (two : IsLightest usage source occupied disks second) :
    usage first = usage second :=
  le_antisymm (one.least second two.allowed) (two.least first one.allowed)

/-- Once the search has a disk it keeps a lightest one. -/
theorem lightest_of_foldl (nonneg : ∀ disk ∈ disks, 0 ≤ usage disk) {first : Nat}
    (firstNonneg : 0 ≤ usage first) :
    ∃ found ∈ first :: disks, (∀ disk ∈ first :: disks, usage found ≤ usage disk) ∧
      disks.foldl (fun lightest disk =>
        if lightest.2 = -1 ∨ usage disk < lightest.2 then (disk, usage disk) else lightest)
        (first, usage first) = (found, usage found) := by
  induction disks generalizing first with
  | nil => exact ⟨first, by simp⟩
  | cons disk disks ih =>
    rw [List.forall_mem_cons] at nonneg
    have taken : ¬usage first = -1 := by omega
    simp only [List.foldl_cons, taken, false_or]
    split_ifs with lighter
    · obtain ⟨found, listed, least, search⟩ := ih nonneg.2 nonneg.1
      refine ⟨found, List.mem_cons_of_mem _ listed, List.forall_mem_cons.mpr ⟨?_, least⟩, search⟩
      exact (least disk List.mem_cons_self).trans lighter.le
    · obtain ⟨found, listed, least, search⟩ := ih nonneg.2 firstNonneg
      rw [List.forall_mem_cons] at least
      refine ⟨found, ?_, ?_, search⟩
      · rcases List.mem_cons.mp listed with rfl | later
        · exact List.mem_cons_self
        · simp [later]
      · exact List.forall_mem_cons.mpr ⟨least.1, List.forall_mem_cons.mpr
          ⟨least.1.trans (not_lt.mp lighter), least.2⟩⟩

/-- The search over the usage map finds a lightest disk if there is one. -/
theorem lightestDisk_spec (nonneg : ∀ disk ∈ disks, 0 ≤ usage disk) :
    ((lightestDisk usage source occupied disks).2 = -1 ∧
      ∀ disk, ¬MayTake source occupied disks disk) ∨
    ((lightestDisk usage source occupied disks).2 =
        usage (lightestDisk usage source occupied disks).1 ∧
      IsLightest usage source occupied disks (lightestDisk usage source occupied disks).1) := by
  have allowed : ∀ disk, MayTake source occupied disks disk ↔
      disk ∈ disks.filter fun disk => !decide (disk = source ∨ disk ∈ occupied) := by
    intro disk
    simp [MayTake]
  have searches : lightestDisk usage source occupied disks =
      (disks.filter fun disk => !decide (disk = source ∨ disk ∈ occupied)).foldl
        (fun lightest disk =>
          if lightest.2 = -1 ∨ usage disk < lightest.2 then (disk, usage disk) else lightest)
        (0, -1) := by
    rw [List.foldl_filter]
    simp only [lightestDisk, Bool.not_eq_true', decide_eq_false_iff_not, ite_not]
  replace nonneg : ∀ disk ∈ disks.filter fun disk =>
      !decide (disk = source ∨ disk ∈ occupied), 0 ≤ usage disk :=
    fun disk listed => nonneg disk (List.mem_filter.mp listed).1
  rw [searches]
  generalize disks.filter _ = free at allowed nonneg ⊢
  cases free with
  | nil => exact Or.inl ⟨rfl, fun disk takes => by cases (allowed disk).mp takes⟩
  | cons first free =>
    rw [List.forall_mem_cons] at nonneg
    obtain ⟨found, listed, least, search⟩ := lightest_of_foldl nonneg.2 nonneg.1
    rw [List.foldl_cons, if_pos (Or.inl rfl), search]
    exact Or.inr ⟨rfl, (allowed found).mpr listed, fun disk takes =>
      least disk ((allowed disk).mp takes)⟩

theorem diskExtremes_fst_mem (some : active ≠ []) (usage : Nat → Int) :
    (diskExtremes active usage).1 ∈ active := by
  refine List.foldlRecOn (motive := fun extremes : Nat × Nat => extremes.1 ∈ active) active _ ?_
    fun extremes held disk listed => ?_
  · cases active with
    | nil => exact absurd rfl some
    | cons disk disks => simp
  · dsimp only
    split_ifs
    · exact listed
    · exact held

end Destinations

section Moves

variable {ε : Type} {loads : DiskLoads} {active : List Nat} {deferred : Nat → Bool}
  {minSkewBytes : Int} {source : Nat} {answers : MoveAnswers ε} {shard : PlogOnDisk}
  {rest : List PlogOnDisk}

/-- The usage of every active disk is the size of its shards, all positive. -/
structure Accounted (active : List Nat) (loads : DiskLoads) : Prop where
  usage : ∀ disk ∈ active, loads.usage disk = ((loads.plogsByDisk disk).map loads.size).sum
  positive : ∀ disk ∈ active, ∀ shard ∈ loads.plogsByDisk disk, 0 < loads.size shard

/-- The answers are those of a sort and of an iteration over the usage map. -/
structure Fair (active : List Nat) (loads : DiskLoads) (source : Nat) (answers : MoveAnswers ε) :
    Prop where
  order : answers.order.Perm (loads.plogsByDisk source)
  sorted : answers.order.Pairwise fun first second =>
    loads.size second ≤ loads.size first
  disks : ∀ shard, (answers.disks shard).Perm active

/-- A shard of the source that may move to a disk: its vlog has no unpublished
writes, the disk is a lightest one without a shard of the vlog, and the gap
between the disks exceeds the band and holds the shard. -/
structure Movable (active : List Nat) (deferred : Nat → Bool) (minSkewBytes : Int)
    (loads : DiskLoads) (source : Nat) (shard : PlogOnDisk) (target : Nat) : Prop where
  held : shard ∈ loads.plogsByDisk source
  idle : deferred shard.vlogID = false
  lightest : IsLightest loads.usage source
    (loads.catalog.occupiedDisks shard.vlogID source) active target
  band : minSkewBytes < loads.usage source - loads.usage target
  fits : loads.size shard ≤ loads.usage source - loads.usage target

section

variable (accounted : Accounted active loads)
include accounted

theorem Accounted.usage_nonneg {disk : Nat} (listed : disk ∈ active) : 0 ≤ loads.usage disk := by
  rw [accounted.usage disk listed]
  apply List.sum_nonneg
  intro size measured
  obtain ⟨shard, held, rfl⟩ := List.mem_map.mp measured
  exact (accounted.positive disk listed shard held).le

theorem Accounted.destination_spec (fair : Fair active loads source answers) (shard : PlogOnDisk) :
    ((loads.destination answers source shard).2 = -1 ∧ ∀ disk, ¬MayTake source
        (loads.catalog.occupiedDisks shard.vlogID source) active disk) ∨
    ((loads.destination answers source shard).2 =
        loads.usage (loads.destination answers source shard).1 ∧
      IsLightest loads.usage source (loads.catalog.occupiedDisks shard.vlogID source) active
        (loads.destination answers source shard).1) := by
  have same := fair.disks shard
  have nonneg : ∀ disk ∈ answers.disks shard, 0 ≤ loads.usage disk :=
    fun disk listed => accounted.usage_nonneg (same.mem_iff.mp listed)
  rcases lightestDisk_spec nonneg with ⟨none, nowhere⟩ | ⟨value, lightest⟩
  · refine Or.inl ⟨none, fun disk allowed => nowhere disk ?_⟩
    exact ⟨same.mem_iff.mpr allowed.1, allowed.2⟩
  · exact Or.inr ⟨value, lightest.perm same⟩

/-- What the search does with its first candidate when it can be read: it
moves the shard if it can move and goes on otherwise. -/
theorem Accounted.pickMove_cons (fair : Fair active loads source answers) (deferred : Nat → Bool)
    (minSkewBytes : Int) (rest : List PlogOnDisk) (held : shard ∈ loads.plogsByDisk source)
    (leaseRead : answers.leaseRead shard.vlogID = .ok ())
    (shardRead : answers.shardRead shard.vlogID = .ok ()) :
    (∃ target, Movable active deferred minSkewBytes loads source shard target ∧
      loads.pickMove answers deferred minSkewBytes source (shard :: rest) =
        answers.migration >>= fun _ => .ok (some ⟨shard, source, target⟩)) ∨
    ((∀ target, ¬Movable active deferred minSkewBytes loads source shard target) ∧
      loads.pickMove answers deferred minSkewBytes source (shard :: rest) =
        loads.pickMove answers deferred minSkewBytes source rest) := by
  rw [DiskLoads.pickMove, leaseRead, ok_bind]
  by_cases busy : deferred shard.vlogID = true
  · refine Or.inr ⟨fun target movable => ?_, ?_⟩
    · rw [movable.idle] at busy
      cases busy
    · rw [if_pos busy]
  · rw [if_neg busy, shardRead, ok_bind]
    have idle : deferred shard.vlogID = false := Bool.eq_false_iff.mpr busy
    rcases accounted.destination_spec fair shard with
      ⟨none, nowhere⟩ | ⟨value, lightest⟩
    · refine Or.inr ⟨fun target movable => ?_, ?_⟩
      · exact nowhere target movable.lightest.allowed
      · simp only [none, if_true]
    · have nonneg := accounted.usage_nonneg lightest.allowed.1
      have found : (loads.destination answers source shard).2 ≠ -1 := by omega
      simp only [if_neg found]
      split_ifs with stuck
      · refine Or.inr ⟨fun target movable => ?_, rfl⟩
        have sameUsage := lightest.usage_eq movable.lightest
        have band := movable.band
        have fits := movable.fits
        omega
      · refine Or.inl ⟨_, ⟨held, idle, lightest, ?_, ?_⟩, rfl⟩
        · omega
        · omega

end

theorem pickMove_cons_ok {picked : Option ShardMove}
    (done : loads.pickMove answers deferred minSkewBytes source (shard :: rest) = .ok picked) :
    answers.leaseRead shard.vlogID = .ok () ∧
      (deferred shard.vlogID = false → answers.shardRead shard.vlogID = .ok ()) := by
  rw [DiskLoads.pickMove] at done
  obtain ⟨_, leaseRead, rest⟩ := bind_eq_ok_iff.mp done
  refine ⟨leaseRead, fun idle => ?_⟩
  rw [if_neg (by simp [idle])] at rest
  obtain ⟨_, shardRead, -⟩ := bind_eq_ok_iff.mp rest
  exact shardRead

section

variable (accounted : Accounted active loads) (fair : Fair active loads source answers)
include accounted fair

/-- A search that moves a shard moves its first candidate or, if that cannot
move, a later one. -/
theorem Accounted.pickMove_cons_some (held : shard ∈ loads.plogsByDisk source) {move : ShardMove}
    (picked : loads.pickMove answers deferred minSkewBytes source (shard :: rest) =
      .ok (some move)) :
    (∃ target, Movable active deferred minSkewBytes loads source shard target ∧
      move = ⟨shard, source, target⟩) ∨
    ((∀ target, ¬Movable active deferred minSkewBytes loads source shard target) ∧
      loads.pickMove answers deferred minSkewBytes source rest = .ok (some move)) := by
  obtain ⟨leaseRead, shardRead⟩ := pickMove_cons_ok picked
  cases busy : deferred shard.vlogID with
  | true =>
    rw [DiskLoads.pickMove, leaseRead, ok_bind, if_pos busy] at picked
    refine Or.inr ⟨fun target movable => ?_, picked⟩
    rw [movable.idle] at busy
    cases busy
  | false =>
    rcases accounted.pickMove_cons fair deferred minSkewBytes rest held
      leaseRead (shardRead busy) with
      ⟨target, movable, moves⟩ | ⟨immovable, skips⟩
    · rw [moves] at picked
      obtain ⟨_, -, same⟩ := bind_eq_ok_iff.mp picked
      cases same
      exact Or.inl ⟨target, movable, rfl⟩
    · exact Or.inr ⟨immovable, skips.symm.trans picked⟩

theorem Accounted.pickMove_some {move : ShardMove} {candidates : List PlogOnDisk}
    (held : ∀ shard ∈ candidates, shard ∈ loads.plogsByDisk source)
    (picked : loads.pickMove answers deferred minSkewBytes source candidates = .ok (some move)) :
    move.source = source ∧
      Movable active deferred minSkewBytes loads source move.shard move.target ∧
      ∃ front back, candidates = front ++ move.shard :: back ∧ ∀ other ∈ front, ∀ target,
          ¬Movable active deferred minSkewBytes loads source other target := by
  induction candidates with
  | nil => cases picked
  | cons shard rest ih =>
    rw [List.forall_mem_cons] at held
    rcases accounted.pickMove_cons_some fair held.1 picked with
      ⟨target, movable, rfl⟩ | ⟨immovable, pickedLater⟩
    · exact ⟨rfl, movable, [], rest, rfl, by simp⟩
    · obtain ⟨fromSource, movable, front, back, split, skipped⟩ := ih held.2 pickedLater
      refine ⟨fromSource, movable, shard :: front, back, ?_, ?_⟩
      · rw [split, List.cons_append]
      · exact List.forall_mem_cons.mpr ⟨immovable, skipped⟩

end

/-- Answers of a pass in which nothing fails. -/
structure Calm (answers : MoveAnswers ε) : Prop where
  leaseRead : ∀ vlogID, answers.leaseRead vlogID = .ok ()
  shardRead : ∀ vlogID, answers.shardRead vlogID = .ok ()
  migration : answers.migration = .ok ()

/-- When nothing fails the first shard that can move does. -/
theorem Accounted.pickMove_first (accounted : Accounted active loads)
    (fair : Fair active loads source answers) (calm : Calm answers)
    {front back : List PlogOnDisk} {target : Nat}
    (held : ∀ shard ∈ front, shard ∈ loads.plogsByDisk source)
    (skipped : ∀ other ∈ front, ∀ target,
      ¬Movable active deferred minSkewBytes loads source other target)
    (movable : Movable active deferred minSkewBytes loads source shard target) :
    ∃ found, loads.usage found = loads.usage target ∧ found ≠ source ∧
      loads.pickMove answers deferred minSkewBytes source
        (front ++ shard :: back) = .ok (some ⟨shard, source, found⟩) := by
  induction front with
  | nil =>
    rcases accounted.pickMove_cons fair deferred minSkewBytes back
      movable.held (calm.leaseRead _) (calm.shardRead _) with
      ⟨found, alsoMovable, moves⟩ | ⟨immovable, -⟩
    · refine ⟨found, ?_, alsoMovable.lightest.allowed.2.1, ?_⟩
      · exact alsoMovable.lightest.usage_eq movable.lightest
      · rw [List.nil_append, moves, calm.migration]
        rfl
    · exact absurd movable (immovable target)
  | cons other front ih =>
    rw [List.forall_mem_cons] at held skipped
    rcases accounted.pickMove_cons fair deferred minSkewBytes
      (front ++ shard :: back) held.1 (calm.leaseRead _) (calm.shardRead _)
      with ⟨found, alsoMovable, -⟩ | ⟨-, skips⟩
    · exact absurd alsoMovable (skipped.1 found)
    · rw [List.cons_append, skips]
      exact ih held.2 skipped.2

end Moves

section Loads

variable {ε : Type} {loads after : DiskLoads} {active : List Nat} {deferred : Nat → Bool}
  {minSkewBytes : Int} {source : Nat} {move : ShardMove}

/-- The bytes between the two disks of a move. -/
def ShardMove.gap (move : ShardMove) (loads : DiskLoads) : Nat :=
  (loads.usage move.source - loads.usage move.target).natAbs

theorem moved_usage_source (elsewhere : move.target ≠ move.source) :
    (loads.moved move).usage move.source = loads.usage move.source - loads.size move.shard := by
  simp [DiskLoads.moved, elsewhere.symm]

theorem moved_usage_target (elsewhere : move.target ≠ move.source) :
    (loads.moved move).usage move.target = loads.usage move.target + loads.size move.shard := by
  simp [DiskLoads.moved, elsewhere]

theorem moved_usage_other {disk : Nat} (notSource : disk ≠ move.source)
    (notTarget : disk ≠ move.target) :
    (loads.moved move).usage disk = loads.usage disk := by
  simp [DiskLoads.moved, notSource, notTarget]

theorem gap_moved_lt_iff (elsewhere : move.target ≠ move.source)
    (positive : 0 < loads.size move.shard)
    (fits : loads.size move.shard ≤ loads.usage move.source - loads.usage move.target) :
    move.gap (loads.moved move) < move.gap loads ↔ loads.size move.shard <
        loads.usage move.source - loads.usage move.target := by
  unfold ShardMove.gap
  rw [moved_usage_source elsewhere, moved_usage_target elsewhere]
  omega

theorem sum_map_eraseP {shards : List PlogOnDisk} {shard : PlogOnDisk} (size : Nat → Int)
    (held : shard ∈ shards) :
    ((shards.eraseP fun other => other.plogID == shard.plogID).map
      fun other => size other.plogID).sum =
      (shards.map fun other => size other.plogID).sum - size shard.plogID := by
  induction shards with
  | nil => cases held
  | cons first shards ih =>
    by_cases same : first.plogID = shard.plogID
    · simp [same]
    · have later : shard ∈ shards := by
        rcases List.mem_cons.mp held with rfl | later
        · exact absurd rfl same
        · exact later
      rw [List.eraseP_cons_of_neg (by simp [same]), List.map_cons,
        List.map_cons, List.sum_cons, List.sum_cons, ih later]
      ring

/-- A move keeps the accounts of the active disks. -/
theorem Accounted.moved (accounted : Accounted active loads) (fromActive : move.source ∈ active)
    (held : move.shard ∈ loads.plogsByDisk move.source) (elsewhere : move.target ≠ move.source) :
    Accounted active (loads.moved move) := by
  have size : (loads.moved move).size = loads.size := rfl
  have shards : ∀ disk, (loads.moved move).plogsByDisk disk =
      if disk = move.target then
        loads.plogsByDisk disk ++ [move.shard]
      else if disk = move.source then
        (loads.plogsByDisk disk).eraseP fun other => other.plogID == move.shard.plogID
      else loads.plogsByDisk disk := by
    intro disk
    unfold DiskLoads.moved
    by_cases isTarget : disk = move.target
    · subst isTarget
      simp [elsewhere]
    · by_cases isSource : disk = move.source
      · subst isSource
        simp [elsewhere.symm]
      · simp [isTarget, isSource]
  constructor
  · intro disk listed
    have before := accounted.usage disk listed
    rw [size, shards disk]
    split_ifs with isTarget isSource
    · subst isTarget
      rw [moved_usage_target elsewhere, before]
      simp
    · subst isSource
      rw [moved_usage_source elsewhere, before]
      exact (sum_map_eraseP loads.sizeByPlog held).symm
    · rw [moved_usage_other isSource isTarget, before]
  · intro disk listed shard stored
    rw [shards disk] at stored
    rw [size]
    split_ifs at stored with isTarget isSource
    · rcases List.mem_append.mp stored with before | added
      · exact accounted.positive disk listed shard before
      · cases List.mem_singleton.mp added
        exact accounted.positive _ fromActive _ held
    · exact accounted.positive disk listed shard (List.mem_of_mem_eraseP stored)
    · exact accounted.positive disk listed shard stored

/-- The sum of the squared loads. -/
def DiskLoads.potential (loads : DiskLoads) (active : List Nat) : Int :=
  ∑ disk ∈ active.toFinset, loads.usage disk ^ 2

theorem potential_nonneg : 0 ≤ loads.potential active :=
  Finset.sum_nonneg fun disk _ => sq_nonneg (loads.usage disk)

/-- A shard smaller than the gap lowers the potential. -/
theorem potential_moved_lt (fromActive : move.source ∈ active) (toActive : move.target ∈ active)
    (elsewhere : move.target ≠ move.source) (positive : 0 < loads.size move.shard)
    (smaller : loads.size move.shard < loads.usage move.source - loads.usage move.target) :
    (loads.moved move).potential active < loads.potential active := by
  unfold DiskLoads.potential
  have sourceIn : move.source ∈ active.toFinset := List.mem_toFinset.mpr fromActive
  have targetIn : move.target ∈ active.toFinset.erase move.source :=
    Finset.mem_erase.mpr ⟨elsewhere, List.mem_toFinset.mpr toActive⟩
  have others : ∀ disk ∈ (active.toFinset.erase move.source).erase move.target,
      (loads.moved move).usage disk ^ 2 = loads.usage disk ^ 2 := by
    intro disk listed
    have notTarget := (Finset.mem_erase.mp listed).1
    have notSource := (Finset.mem_erase.mp (Finset.mem_erase.mp listed).2).1
    rw [moved_usage_other notSource notTarget]
  rw [← Finset.add_sum_erase _ _ sourceIn, ← Finset.add_sum_erase _ _ targetIn,
    ← Finset.add_sum_erase _ (fun disk => loads.usage disk ^ 2) sourceIn,
    ← Finset.add_sum_erase _ (fun disk => loads.usage disk ^ 2) targetIn,
    Finset.sum_congr rfl others, moved_usage_source elsewhere,
    moved_usage_target elsewhere]
  -- The two squares fall by twice the size times what the shard leaves open.
  nlinarith [mul_pos positive (sub_pos.mpr smaller)]

theorem rebalanceOne_some {answers : MoveAnswers ε}
    (done : loads.rebalanceOne answers deferred minSkewBytes source = .ok (some (move, after))) :
    loads.pickMove answers deferred minSkewBytes source answers.order =
        .ok (some move) ∧ after = loads.moved move := by
  unfold DiskLoads.rebalanceOne at done
  obtain ⟨picked, picks, same⟩ := bind_eq_ok_iff.mp done
  cases picked with
  | none => cases same
  | some other =>
    cases same
    exact ⟨picks, rfl⟩

theorem Accounted.rebalanceOne_some (accounted : Accounted active loads) {answers : MoveAnswers ε}
    (fair : Fair active loads source answers)
    (done : loads.rebalanceOne answers deferred minSkewBytes source = .ok (some (move, after))) :
    move.source = source ∧ after = loads.moved move ∧
      Movable active deferred minSkewBytes loads source move.shard move.target ∧
      ∀ other target, Movable active deferred minSkewBytes loads source other target →
        loads.size other ≤ loads.size move.shard := by
  obtain ⟨picks, moved⟩ := Rose.rebalanceOne_some done
  obtain ⟨fromSource, movable, front, back, split, skipped⟩ := accounted.pickMove_some fair
      (fun shard listed => fair.order.mem_iff.mp listed) picks
  refine ⟨fromSource, moved, movable, ?_⟩
  intro other target alsoMovable
  have listed := fair.order.mem_iff.mpr alsoMovable.held
  have sorted := fair.sorted
  rw [split, List.mem_append, List.mem_cons] at listed
  rw [split, List.pairwise_append, List.pairwise_cons] at sorted
  rcases listed with before | rfl | later
  · exact absurd alsoMovable (skipped other before target)
  · exact le_rfl
  · exact sorted.2.1.1 other later

/-- No shard of the largest that can move is as large as the gap it meets. -/
def NoWholeGap (active : List Nat) (deferred : Nat → Bool) (minSkewBytes : Int) (loads : DiskLoads)
    (source : Nat) : Prop :=
  ∀ shard target, Movable active deferred minSkewBytes loads source shard target →
    (∀ other elsewhere, Movable active deferred minSkewBytes loads source other elsewhere →
      loads.size other ≤ loads.size shard) →
    loads.size shard < loads.usage source - loads.usage target

/-- Calm answers that try the given shard before others of its size. -/
def preferring (ε : Type) (active : List Nat) (loads : DiskLoads) (source : Nat)
    (shard : PlogOnDisk) : MoveAnswers ε where
  order := (loads.plogsByDisk source).mergeSort fun first second =>
    decide (loads.size second < loads.size first ∨
      loads.size first = loads.size second ∧ (first = shard ∨ second ≠ shard))
  disks := fun _ => active
  leaseRead := fun _ => .ok ()
  shardRead := fun _ => .ok ()
  migration := .ok ()

theorem preferring_sorted (ε : Type) (active : List Nat) (loads : DiskLoads) (source : Nat)
    (shard : PlogOnDisk) :
    (preferring ε active loads source shard).order.Pairwise
      fun first second => loads.size second < loads.size first ∨
        loads.size first = loads.size second ∧ (first = shard ∨ second ≠ shard) := by
  have sorted : (preferring ε active loads source shard).order.Pairwise
      fun first second => decide (loads.size second < loads.size first ∨
        loads.size first = loads.size second ∧ (first = shard ∨ second ≠ shard)) = true := by
    apply List.pairwise_mergeSort
    · intro first second third
      simp only [decide_eq_true_iff]
      grind
    · intro first second
      simp only [Bool.or_eq_true, decide_eq_true_iff]
      grind
  exact sorted.imp fun holds => of_decide_eq_true holds

theorem preferring_fair (ε : Type) (active : List Nat) (loads : DiskLoads) (source : Nat)
    (shard : PlogOnDisk) :
    Fair active loads source (preferring ε active loads source shard) where
  order := List.mergeSort_perm _ _
  sorted := (preferring_sorted ε active loads source shard).imp fun order => by omega
  disks := fun _ => List.Perm.refl active

/-- Every move that can be made shrinks its gap exactly if no shard of the
largest that can move fills its gap. -/
theorem Accounted.moves_shrink_iff (accounted : Accounted active loads) (listed : source ∈ active) :
    (∀ answers : MoveAnswers ε, Fair active loads source answers →
      ∀ move after, loads.rebalanceOne answers deferred minSkewBytes source =
        .ok (some (move, after)) → move.gap after < move.gap loads) ↔
      NoWholeGap active deferred minSkewBytes loads source := by
  constructor
  · intro shrinks shard target movable largest
    have fair := preferring_fair ε active loads source shard
    obtain ⟨front, back, split, notBefore⟩ := List.eq_append_cons_of_mem
      (fair.order.mem_iff.mpr movable.held)
    have sorted := preferring_sorted ε active loads source shard
    rw [split, List.pairwise_append] at sorted
    have skipped : ∀ other ∈ front, ∀ elsewhere, ¬Movable active deferred
        minSkewBytes loads source other elsewhere := by
      intro other before elsewhere alsoMovable
      have atMost := largest other elsewhere alsoMovable
      rcases sorted.2.2 other before shard List.mem_cons_self with
        larger | ⟨-, same | different⟩
      · omega
      · exact notBefore (same ▸ before)
      · exact different rfl
    obtain ⟨found, sameUsage, elsewhere, picks⟩ := accounted.pickMove_first fair
      ⟨fun _ => rfl, fun _ => rfl, rfl⟩
      (fun other before => fair.order.mem_iff.mp
        (split ▸ List.mem_append_left _ before)) skipped movable
    have done : loads.rebalanceOne (preferring ε active loads source shard)
        deferred minSkewBytes source =
        .ok (some (⟨shard, source, found⟩, loads.moved ⟨shard, source, found⟩)) := by
      unfold DiskLoads.rebalanceOne
      rw [split, picks]
      rfl
    have shrunk := shrinks _ fair _ _ done
    have positive := accounted.positive source listed shard movable.held
    have fits := movable.fits
    rw [gap_moved_lt_iff elsewhere positive (by rw [sameUsage]; exact fits)] at shrunk
    rwa [sameUsage] at shrunk
  · intro partly answers fair move after done
    obtain ⟨rfl, rfl, movable, largest⟩ := accounted.rebalanceOne_some fair done
    rw [gap_moved_lt_iff movable.lightest.allowed.2.1
      (accounted.positive _ listed _ movable.held) movable.fits]
    exact partly move.shard move.target movable largest

end Loads

end Rose
