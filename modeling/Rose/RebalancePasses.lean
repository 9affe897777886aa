import Rose.RebalanceGaps

/-!
# Rebalancing passes

The measurement at the start of a pass accounts for every active disk, and each
move keeps the accounts.  A pass whose moves all leave a part of the gap open
ends after finitely many of them.
-/

namespace Rose

open FallibleActions

section Measurement

variable {ε : Type} {listing : Nat → Except ε Unit} {stat : Nat → Nat → Except ε Int}
  {loads after : DiskLoads} {catalog : ShardCatalog} {disk : Nat} {active : List Nat}

/-- The recorded size of a plog is the size of its file. -/
def Sized (stat : Nat → Nat → Except ε Int) (catalog : ShardCatalog) (loads : DiskLoads)
    (shard : PlogOnDisk) : Prop :=
  stat (catalog.diskOf shard.plogID) shard.plogID = .ok (loads.size shard)

theorem Sized.size_eq {shard : PlogOnDisk} (before : Sized stat catalog loads shard)
    (now : Sized stat catalog after shard) : after.size shard = loads.size shard := by
  have same := before.symm.trans now
  exact (Except.ok.inj same).symm

theorem mem_plogsOnDisk {shard : PlogOnDisk} (stored : shard ∈ catalog.plogsOnDisk disk) :
    catalog.diskOf shard.plogID = disk := by
  unfold ShardCatalog.plogsOnDisk at stored
  rw [List.mem_mergeSort, List.mem_filter] at stored
  exact eq_of_beq stored.2

/-- What the measurement of the plogs of one disk leaves. -/
structure MeasuredPlogs (stat : Nat → Nat → Except ε Int) (catalog : ShardCatalog) (disk : Nat)
    (plogs : List PlogOnDisk) (loads after : DiskLoads) : Prop where
  kept : ∀ shard, Sized stat catalog loads shard → Sized stat catalog after shard
  sized : ∀ shard ∈ plogs, Sized stat catalog after shard
  usage : after.usage disk = loads.usage disk + (plogs.map after.size).sum
  others : ∀ other, other ≠ disk → after.usage other = loads.usage other
  plogsByDisk : after.plogsByDisk = loads.plogsByDisk
  unmoved : after.catalog = loads.catalog

theorem measurePlog_ok {first : PlogOnDisk} (stored : catalog.diskOf first.plogID = disk)
    (done : measurePlog stat disk loads first = .ok after) :
    MeasuredPlogs stat catalog disk [first] loads after := by
  obtain ⟨size, statOk, same⟩ := bind_eq_ok_iff.mp done
  cases same
  have sized : stat (catalog.diskOf first.plogID) first.plogID = .ok size := by
    rw [stored]
    exact statOk
  constructor
  · intro shard before
    unfold Sized DiskLoads.size at before ⊢
    by_cases same : shard.plogID = first.plogID
    · simp [same, sized]
    · simp [same, before]
  · simp [Sized, DiskLoads.size, sized]
  · simp [DiskLoads.size]
  · intro other different
    simp [different]
  · rfl
  · rfl

theorem MeasuredPlogs.trans {first : PlogOnDisk} {plogs : List PlogOnDisk} {middle : DiskLoads}
    (one : MeasuredPlogs stat catalog disk [first] loads middle)
    (rest : MeasuredPlogs stat catalog disk plogs middle after) :
    MeasuredPlogs stat catalog disk (first :: plogs) loads after := by
  have sized := one.sized first (List.mem_singleton_self first)
  have firstSize := sized.size_eq (rest.kept first sized)
  constructor
  · exact fun shard before => rest.kept shard (one.kept shard before)
  · exact List.forall_mem_cons.mpr ⟨rest.kept first sized, rest.sized⟩
  · rw [rest.usage, one.usage]
    simp [firstSize, add_assoc]
  · exact fun other different =>
      (rest.others other different).trans (one.others other different)
  · exact rest.plogsByDisk.trans one.plogsByDisk
  · exact rest.unmoved.trans one.unmoved

theorem measurePlogs_ok {plogs : List PlogOnDisk}
    (stored : ∀ shard ∈ plogs, catalog.diskOf shard.plogID = disk)
    (done : plogs.foldlM (measurePlog stat disk) loads = .ok after) :
    MeasuredPlogs stat catalog disk plogs loads after := by
  induction plogs generalizing loads with
  | nil =>
    cases done
    exact ⟨fun _ sized => sized, by simp, by simp, fun _ _ => rfl, rfl, rfl⟩
  | cons first plogs ih =>
    rw [List.forall_mem_cons] at stored
    rw [List.foldlM_cons] at done
    obtain ⟨middle, measured, rest⟩ := bind_eq_ok_iff.mp done
    exact (measurePlog_ok stored.1 measured).trans (ih stored.2 rest)

/-- The disks measured so far are accounted for. -/
structure MeasuredDisks (stat : Nat → Nat → Except ε Int) (catalog : ShardCatalog)
    (disks : List Nat) (loads : DiskLoads) : Prop where
  unmoved : loads.catalog = catalog
  plogs : ∀ disk ∈ disks, loads.plogsByDisk disk = catalog.plogsOnDisk disk
  usage : ∀ disk ∈ disks, loads.usage disk = ((catalog.plogsOnDisk disk).map loads.size).sum
  sized : ∀ disk ∈ disks, ∀ shard ∈ catalog.plogsOnDisk disk, Sized stat catalog loads shard

theorem MeasuredDisks.next {disks : List Nat} (measured : MeasuredDisks stat catalog disks loads)
    (done : measureDisk listing stat loads disk = .ok after) :
    MeasuredDisks stat catalog (disks ++ [disk]) after := by
  unfold measureDisk at done
  rw [measured.unmoved] at done
  obtain ⟨-, -, read⟩ := bind_eq_ok_iff.mp done
  obtain ⟨middle, plogs, same⟩ := bind_eq_ok_iff.mp read
  cases same
  have inner := measurePlogs_ok (fun shard stored => mem_plogsOnDisk stored) plogs
  have kept : ∀ shard, Sized stat catalog loads shard →
      Sized stat catalog middle shard := inner.kept
  refine ⟨inner.unmoved, ?_, ?_, ?_⟩
  · intro other listed
    by_cases same : other = disk
    · rw [same]
      exact Function.update_self ..
    · have before : other ∈ disks := by simpa [same] using listed
      change Function.update middle.plogsByDisk disk _ other = _
      rw [Function.update_of_ne same, inner.plogsByDisk]
      exact measured.plogs other before
  · intro other listed
    change middle.usage other = ((catalog.plogsOnDisk other).map middle.size).sum
    by_cases same : other = disk
    · rw [same, inner.usage]
      simp
    · have before : other ∈ disks := by simpa [same] using listed
      have untouched : middle.usage other = loads.usage other := by
        rw [inner.others other same]
        exact Function.update_of_ne same ..
      rw [untouched, measured.usage other before]
      apply congrArg List.sum
      apply List.map_congr_left
      intro shard stored
      have sized := measured.sized other before shard stored
      exact (sized.size_eq (kept shard sized)).symm
  · intro other listed shard stored
    change Sized stat catalog middle shard
    by_cases same : other = disk
    · rw [same] at stored
      exact inner.sized shard stored
    · have before : other ∈ disks := by simpa [same] using listed
      exact kept shard (measured.sized other before shard stored)

theorem measureDisks_ok (done : measureDisks listing stat active catalog = .ok loads) :
    MeasuredDisks stat catalog active loads := by
  unfold measureDisks at done
  induction active using List.reverseRecOn generalizing loads with
  | nil =>
    cases done
    exact ⟨rfl, by simp, by simp, by simp⟩
  | append_singleton disks disk ih =>
    rw [List.foldlM_append] at done
    obtain ⟨middle, earlier, last⟩ := bind_eq_ok_iff.mp done
    rw [List.foldlM_cons] at last
    obtain ⟨final, measured, same⟩ := bind_eq_ok_iff.mp last
    cases same
    exact (ih earlier).next measured

theorem measureDisks_accounted
    (positive : ∀ disk plogID size, stat disk plogID = .ok size → 0 < size)
    (done : measureDisks listing stat active catalog = .ok loads) :
    Accounted active loads := by
  have measured := measureDisks_ok done
  constructor
  · intro disk listed
    rw [measured.plogs disk listed]
    exact measured.usage disk listed
  · intro disk listed shard stored
    rw [measured.plogs disk listed] at stored
    exact positive _ _ _ (measured.sized disk listed shard stored)

end Measurement

section Passes

variable {ε : Type} {policy : RebalancePolicy} {active : List Nat} {answers : Nat → MoveAnswers ε}
  {deferred : Nat → Nat → Bool} {start loads : DiskLoads} {moves : Nat}

/-- The loads that a pass reaches with its first moves. -/
inductive PassReaches (policy : RebalancePolicy) (active : List Nat) (answers : Nat → MoveAnswers ε)
    (deferred : Nat → Nat → Bool) (start : DiskLoads) : Nat → DiskLoads → Prop
  | start : PassReaches policy active answers deferred start 0 start
  | move {moves : Nat} {loads next : DiskLoads} {move : ShardMove}
      (reached : PassReaches policy active answers deferred start moves loads)
      (under : policy.maxMovesPerPass ≤ 0 ∨ (moves : Int) < policy.maxMovesPerPass)
      (moved : loads.rebalanceOne (answers moves) (deferred moves)
        policy.minSkewBytes (diskExtremes active loads.usage).1 = .ok (some (move, next))) :
      PassReaches policy active answers deferred start (moves + 1) next

/-- Every search of a pass gets the answers of a sort and of a map. -/
def FairPass (policy : RebalancePolicy) (active : List Nat) (answers : Nat → MoveAnswers ε)
    (deferred : Nat → Nat → Bool) (start : DiskLoads) : Prop :=
  ∀ moves loads, PassReaches policy active answers deferred start moves loads →
    Fair active loads (diskExtremes active loads.usage).1 (answers moves)

/-- No search of a pass meets a shard that fills its gap among the largest that
can move. -/
def MeetsNoWholeGap (policy : RebalancePolicy) (active : List Nat) (answers : Nat → MoveAnswers ε)
    (deferred : Nat → Nat → Bool) (start : DiskLoads) : Prop :=
  ∀ moves loads, PassReaches policy active answers deferred start moves loads →
    NoWholeGap active (deferred moves) policy.minSkewBytes loads (diskExtremes active loads.usage).1

theorem Accounted.pass_step (accounted : Accounted active loads)
    (some : active ≠ []) {next : DiskLoads} {move : ShardMove}
    {answered : MoveAnswers ε} {busy : Nat → Bool}
    (fair : Fair active loads (diskExtremes active loads.usage).1 answered)
    (partly : NoWholeGap active busy policy.minSkewBytes loads (diskExtremes active loads.usage).1)
    (moved : loads.rebalanceOne answered busy policy.minSkewBytes
      (diskExtremes active loads.usage).1 = .ok (.some (move, next))) :
    Accounted active next ∧ next.potential active < loads.potential active := by
  have listed := diskExtremes_fst_mem some loads.usage
  obtain ⟨fromBusiest, rfl, movable, largest⟩ := accounted.rebalanceOne_some fair moved
  have smaller := partly move.shard move.target movable largest
  have held := movable.held
  have elsewhere := movable.lightest.allowed.2.1
  rw [← fromBusiest] at listed smaller held elsewhere
  refine ⟨accounted.moved listed held elsewhere, ?_⟩
  exact potential_moved_lt listed movable.lightest.allowed.1 elsewhere
    (accounted.positive _ listed _ held) smaller

/-- The loop ends from every state of such a pass. -/
theorem rebalanceLoop_ends (some : active ≠ [])
    (fairPass : FairPass policy active answers deferred start)
    (meets : MeetsNoWholeGap policy active answers deferred start)
    (reached : PassReaches policy active answers deferred start moves loads)
    (accounted : Accounted active loads) :
    ∃ fuel outcome, rebalanceLoop policy active answers deferred fuel moves
      loads = .some outcome := by
  -- The potential bounds the moves that are still to come.
  induction bound : (loads.potential active).toNat using Nat.strong_induction_on
    generalizing moves loads with
  | _ budget ih =>
    have fair := fairPass moves loads reached
    have partly := meets moves loads reached
    by_cases under : policy.maxMovesPerPass ≤ 0 ∨ (moves : Int) < policy.maxMovesPerPass
    · by_cases even : loads.usage (diskExtremes active loads.usage).1 -
          loads.usage (diskExtremes active loads.usage).2 ≤ policy.minSkewBytes
      · refine ⟨1, (moves, .ok loads), ?_⟩
        rw [rebalanceLoop, if_pos under]
        exact if_pos even
      · cases searched : loads.rebalanceOne (answers moves) (deferred moves)
            policy.minSkewBytes (diskExtremes active loads.usage).1 with
        | error reason =>
          refine ⟨1, (moves, .error reason), ?_⟩
          rw [rebalanceLoop, if_pos under]
          simp only [if_neg even, searched]
        | ok found =>
          cases found with
          | none =>
            refine ⟨1, (moves, .ok loads), ?_⟩
            rw [rebalanceLoop, if_pos under]
            simp only [if_neg even, searched]
          | some moved =>
            obtain ⟨move, next⟩ := moved
            obtain ⟨nextAccounted, lower⟩ := accounted.pass_step some fair partly searched
            have nonneg : 0 ≤ next.potential active := potential_nonneg
            obtain ⟨fuel, outcome, ends⟩ := ih (next.potential active).toNat (by omega)
              (reached.move under searched) nextAccounted rfl
            refine ⟨fuel + 1, outcome, ?_⟩
            rw [rebalanceLoop, if_pos under]
            simp only [if_neg even, searched]
            exact ends
    · refine ⟨1, (moves, .ok loads), ?_⟩
      rw [rebalanceLoop, if_neg under]

/-- A move shrinks the gap of its disks in all cases exactly if no shard of the
largest that can move fills its gap, and a pass that meets only such loads
ends. -/
theorem rebalance_shrinks_and_ends {ε : Type} (policy : RebalancePolicy) (active : List Nat)
    (two : 2 ≤ active.length) :
    (∀ loads, Accounted active loads → ∀ deferred : Nat → Bool,
      (∀ answers : MoveAnswers ε, Fair active loads (diskExtremes active loads.usage).1 answers →
        ∀ move after, loads.rebalanceOne answers deferred policy.minSkewBytes
          (diskExtremes active loads.usage).1 = .ok (some (move, after)) →
          move.gap after < move.gap loads) ↔
      NoWholeGap active deferred policy.minSkewBytes loads (diskExtremes active loads.usage).1) ∧
    ∀ (sinceLast : Option Int) (listing : Nat → Except ε Unit)
      (stat : Nat → Nat → Except ε Int) (catalog : ShardCatalog)
      (answers : Nat → MoveAnswers ε) (deferred : Nat → Nat → Bool),
      (∀ disk plogID size, stat disk plogID = .ok size → 0 < size) →
      (∀ start, measureDisks listing stat active catalog = .ok start →
        FairPass policy active answers deferred start ∧
        MeetsNoWholeGap policy active answers deferred start) →
      ∃ fuel outcome, rebalance policy sinceLast active listing stat catalog answers
        deferred fuel = some outcome := by
  have some : active ≠ [] := by
    rintro rfl
    simp at two
  constructor
  · intro loads accounted deferred
    exact accounted.moves_shrink_iff (diskExtremes_fst_mem some loads.usage)
  · intro sinceLast listing stat catalog answers deferred positive meets
    unfold rebalance
    split_ifs with cooling few
    · exact ⟨0, _, rfl⟩
    · exact ⟨0, _, rfl⟩
    · cases measured : measureDisks listing stat active catalog with
      | error reason => exact ⟨0, _, rfl⟩
      | ok start =>
        obtain ⟨fairPass, noWholeGap⟩ := meets start measured
        exact rebalanceLoop_ends some fairPass noWholeGap .start
          (measureDisks_accounted positive measured)

end Passes

section TwoShards

/-- Two shards on the first of two disks, the first larger than the other. -/
def largeShard : PlogOnDisk := ⟨1, 1⟩

def smallShard : PlogOnDisk := ⟨2, 2⟩

def twoShards : ShardCatalog := ⟨[largeShard, smallShard], fun _ => 1⟩

def listed (_ : Nat) : Except Unit Unit := .ok ()

def twoSizes (_ plogID : Nat) : Except Unit Int := .ok (if plogID = 1 then 10 else 3)

def twoAnswers (moves : Nat) : MoveAnswers Unit where
  order := if moves = 0 then [largeShard, smallShard] else [largeShard]
  disks := fun _ => [1, 2]
  leaseRead := fun _ => .ok ()
  shardRead := fun _ => .ok ()
  migration := .ok ()

/-- The loads that the pass measures. -/
def twoLoads : DiskLoads where
  usage := Function.update (Function.update (fun _ => 0) 1 13) 2 0
  sizeByPlog := Function.update (Function.update (fun _ => 0) 1 10) 2 3
  plogsByDisk := Function.update (Function.update (fun _ => []) 1 [largeShard, smallShard]) 2 []
  catalog := twoShards

def onlyMove : ShardMove := ⟨largeShard, 1, 2⟩

theorem measureDisks_twoShards : measureDisks listed twoSizes [1, 2] twoShards = .ok twoLoads := by
  have first : twoShards.plogsOnDisk 1 = [largeShard, smallShard] :=
    List.mergeSort_of_pairwise (by simp [twoShards, largeShard, smallShard])
  have second : twoShards.plogsOnDisk 2 = [] := by
    simp [ShardCatalog.plogsOnDisk, twoShards]
  simp only [measureDisks, List.foldlM_cons, List.foldlM_nil, measureDisk, measurePlog, first,
    ok_bind, pure_bind, second, listed, twoSizes, Function.update_idem]
  rfl

/-- The large shard moves once; after that it fits nowhere. -/
theorem twoShards_reached {moves : Nat} {loads : DiskLoads}
    (reached : PassReaches ⟨0, 0, 0⟩ [1, 2] twoAnswers (fun _ _ => false) twoLoads moves loads) :
    moves = 0 ∧ loads = twoLoads ∨ moves = 1 ∧ loads = twoLoads.moved onlyMove := by
  induction reached with
  | start => exact Or.inl ⟨rfl, rfl⟩
  | @move moves loads next move reached under moved ih =>
    rcases ih with ⟨rfl, rfl⟩ | ⟨rfl, rfl⟩
    · have moves : twoLoads.rebalanceOne (twoAnswers 0) (fun _ => false) 0 1 =
        .ok (some (onlyMove, twoLoads.moved onlyMove)) := rfl
      cases moves.symm.trans moved
      exact Or.inr ⟨rfl, rfl⟩
    · have stays : (twoLoads.moved onlyMove).rebalanceOne (twoAnswers 1) (fun _ => false) 0 2 =
        .ok none := rfl
      cases stays.symm.trans moved

theorem twoLoads_fair : Fair [1, 2] twoLoads 1 (twoAnswers 0) :=
  ⟨.refl _, by decide, fun _ => .refl _⟩

theorem twoLoads_moved_fair : Fair [1, 2] (twoLoads.moved onlyMove) 2 (twoAnswers 1) :=
  ⟨.refl _, List.pairwise_singleton _ _, fun _ => .refl _⟩

theorem twoLoads_noWholeGap : NoWholeGap [1, 2] (fun _ => false) 0 twoLoads 1 := by
  intro shard target movable _
  obtain ⟨listed, elsewhere, -⟩ := movable.lightest.allowed
  have second : target = 2 := by simpa [elsewhere] using listed
  have smaller : ∀ shard ∈ [largeShard, smallShard],
      twoLoads.size shard < twoLoads.usage 1 - twoLoads.usage 2 := by decide
  rw [second]
  exact smaller shard movable.held

theorem twoLoads_moved_noWholeGap :
    NoWholeGap [1, 2] (fun _ => false) 0 (twoLoads.moved onlyMove) 2 := by
  intro shard target movable _
  obtain ⟨listed, elsewhere, -⟩ := movable.lightest.allowed
  have first : target = 1 := by simpa [elsewhere] using listed
  have fits := movable.fits
  rw [first, List.mem_singleton.mp movable.held] at fits
  exact absurd fits (by decide)

theorem rebalance_of_two_shards_ends :
    ∃ fuel outcome, rebalance ⟨0, 0, 0⟩ none [1, 2] listed twoSizes twoShards
      twoAnswers (fun _ _ => false) fuel = some outcome := by
  refine (rebalance_shrinks_and_ends ⟨0, 0, 0⟩ [1, 2] (by decide)).2 none
    listed twoSizes twoShards twoAnswers (fun _ _ => false) ?_ ?_
  · intro disk plogID size sized
    cases Except.ok.inj sized
    split_ifs <;> decide
  · intro start measured
    cases measureDisks_twoShards.symm.trans measured
    constructor
    · intro moves loads reached
      rcases twoShards_reached reached with ⟨rfl, rfl⟩ | ⟨rfl, rfl⟩
      · exact twoLoads_fair
      · exact twoLoads_moved_fair
    · intro moves loads reached
      rcases twoShards_reached reached with ⟨rfl, rfl⟩ | ⟨rfl, rfl⟩
      · exact twoLoads_noWholeGap
      · exact twoLoads_moved_noWholeGap

end TwoShards

section LoneShard

/-- The only shard of two disks. -/
def loneShard : PlogOnDisk := ⟨1, 1⟩

def loneAnswers : MoveAnswers Unit where
  order := [loneShard]
  disks := fun _ => [1, 2]
  leaseRead := fun _ => .ok ()
  shardRead := fun _ => .ok ()
  migration := .ok ()

/-- The loads while the only shard is on `disk`. -/
structure LoneOn (disk other : Nat) (loads : DiskLoads) : Prop where
  pair : disk = 1 ∧ other = 2 ∨ disk = 2 ∧ other = 1
  full : loads.usage disk = 8192
  free : loads.usage other = 0
  size : loads.sizeByPlog 1 = 8192
  shards : loads.catalog.shards = [loneShard]
  placed : loads.catalog.diskOf 1 = disk
  listed : loads.plogsByDisk disk = [loneShard]
  unlisted : loads.plogsByDisk other = []

variable {disk other : Nat} {loads : DiskLoads}

section

variable (lone : LoneOn disk other loads)
include lone

theorem LoneOn.extremes : diskExtremes [1, 2] loads.usage = (disk, other) := by
  have full := lone.full
  have free := lone.free
  rcases lone.pair with ⟨rfl, rfl⟩ | ⟨rfl, rfl⟩ <;>
    simp [diskExtremes, full, free]

theorem LoneOn.rebalanceOne :
    loads.rebalanceOne loneAnswers (fun _ => false) 0 disk =
      .ok (some (⟨loneShard, disk, other⟩, loads.moved ⟨loneShard, disk, other⟩)) := by
  have occupied : loads.catalog.occupiedDisks 1 disk = [] := by
    simp [ShardCatalog.occupiedDisks, ShardCatalog.vlogShardDisks, lone.shards,
      loneShard, lone.placed]
  have target : loads.destination loneAnswers disk loneShard = (other, 0) := by
    unfold DiskLoads.destination
    rw [show loneShard.vlogID = 1 from rfl, occupied]
    have free := lone.free
    rcases lone.pair with ⟨rfl, rfl⟩ | ⟨rfl, rfl⟩ <;>
      simp [lightestDisk, loneAnswers, free]
  have size : loads.size loneShard = 8192 := lone.size
  have picked : loads.pickMove loneAnswers (fun _ => false) 0 disk
      [loneShard] = .ok (some ⟨loneShard, disk, other⟩) := by
    have leaseRead : loneAnswers.leaseRead loneShard.vlogID = .ok () := rfl
    have shardRead : loneAnswers.shardRead loneShard.vlogID = .ok () := rfl
    have migration : loneAnswers.migration = .ok () := rfl
    rw [DiskLoads.pickMove, leaseRead, shardRead, migration]
    simp [ok_bind, target, lone.full, size]
  unfold DiskLoads.rebalanceOne
  rw [show loneAnswers.order = [loneShard] from rfl, picked]
  rfl

theorem LoneOn.moved : LoneOn other disk (loads.moved ⟨loneShard, disk, other⟩) := by
  have elsewhere : other ≠ disk := by
    rcases lone.pair with ⟨rfl, rfl⟩ | ⟨rfl, rfl⟩ <;> decide
  have size : loads.size loneShard = 8192 := lone.size
  refine ⟨?_, ?_, ?_, lone.size, lone.shards, ?_, ?_, ?_⟩
  · exact lone.pair.symm.imp And.symm And.symm
  · exact (moved_usage_target elsewhere).trans (by rw [lone.free, size]; rfl)
  · exact (moved_usage_source elsewhere).trans (by rw [lone.full, size]; rfl)
  · simp [DiskLoads.moved, ShardCatalog.repoint, loneShard]
  · simp [DiskLoads.moved, elsewhere, lone.unlisted]
  · simp [DiskLoads.moved, elsewhere.symm, lone.listed]

theorem LoneOn.fair : Fair [1, 2] loads disk loneAnswers where
  order := by
    rw [lone.listed]
    exact List.Perm.refl _
  sorted := List.pairwise_singleton _ _
  disks := fun _ => List.Perm.refl _

theorem LoneOn.rebalanceLoop (fuel moves : Nat) :
    rebalanceLoop ⟨0, 0, 0⟩ [1, 2] (fun _ => loneAnswers) (fun _ _ => false)
      fuel moves loads = none := by
  induction fuel generalizing disk other loads moves with
  | zero => rfl
  | succ fuel ih =>
    have uneven : ¬loads.usage disk - loads.usage other ≤ 0 := by
      rw [lone.full, lone.free]
      decide
    rw [Rose.rebalanceLoop, if_pos (Or.inl le_rfl)]
    simp only [lone.extremes, if_neg uneven, lone.rebalanceOne]
    exact ih lone.moved (moves + 1)

end

theorem measureDisks_loneShard : ∃ start,
    measureDisks listed (fun _ _ => .ok 8192) [1, 2] ⟨[loneShard], fun _ => 1⟩ =
        (.ok start : Except Unit DiskLoads) ∧ LoneOn 1 2 start := by
  have first : (ShardCatalog.mk [loneShard] fun _ => 1).plogsOnDisk 1 = [loneShard] := by
    simp [ShardCatalog.plogsOnDisk]
  have second : (ShardCatalog.mk [loneShard] fun _ => 1).plogsOnDisk 2 = [] := by
    simp [ShardCatalog.plogsOnDisk]
  refine ⟨_, by
    simp only [measureDisks, List.foldlM_cons, List.foldlM_nil, measureDisk,
      measurePlog, listed, first, ok_bind, pure_bind]
    rw [second]
    rfl, ?_⟩
  exact ⟨Or.inl ⟨rfl, rfl⟩, rfl, rfl, rfl, rfl, rfl, rfl, rfl⟩

/-- A shard as large as the gap is moved to and fro: no gap shrinks and an
uncapped pass over two disks never ends. -/
theorem rebalance_swaps_lone_shard_forever :
    (∀ fuel, rebalance ⟨0, 0, 0⟩ none [1, 2] listed (fun _ _ => .ok 8192)
      ⟨[loneShard], fun _ => 1⟩ (fun _ => loneAnswers) (fun _ _ => false)
      fuel = none) ∧
    ∃ start move next, measureDisks listed (fun _ _ => .ok 8192) [1, 2]
        ⟨[loneShard], fun _ => 1⟩ = (.ok start : Except Unit DiskLoads) ∧
      Fair [1, 2] start 1 loneAnswers ∧
      start.rebalanceOne loneAnswers (fun _ => false) 0 1 = .ok (some (move, next)) ∧
      move.gap next = move.gap start := by
  obtain ⟨start, measured, lone⟩ := measureDisks_loneShard
  constructor
  · intro fuel
    unfold rebalance
    simp only [measured]
    exact lone.rebalanceLoop fuel 0
  · refine ⟨start, _, _, measured, lone.fair, lone.rebalanceOne, ?_⟩
    unfold ShardMove.gap
    rw [lone.moved.full, lone.moved.free, lone.full, lone.free]
    rfl

end LoneShard

end Rose
