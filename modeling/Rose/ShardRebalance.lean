import Mathlib.Data.List.Perm.Basic
import Mathlib.Logic.Function.Basic

/-!
# A rebalancing pass over the active disks

The pass measures the bytes on every active disk and then moves shards off the
busiest disk, one at a time, until the spread lies within the policy's band, no
shard can move, or the cap is reached.  The order of equally large shards, the
iteration order of a map, and the failures of catalog reads and of the copy
itself are answers that the pass receives from outside.
-/

namespace Rose

/-- A shard of a vlog and the plog that stores it. -/
structure PlogOnDisk where
  plogID : Nat
  vlogID : Nat
deriving DecidableEq, Repr

structure RebalancePolicy where
  minSkewBytes : Int
  maxMovesPerPass : Int
  cooldown : Int
deriving DecidableEq, Repr

/-- The shards of the catalog and the disk of every plog. -/
structure ShardCatalog where
  shards : List PlogOnDisk
  diskOf : Nat → Nat

namespace ShardCatalog

variable (catalog : ShardCatalog)

def plogsOnDisk (disk : Nat) : List PlogOnDisk :=
  (catalog.shards.filter fun shard => catalog.diskOf shard.plogID == disk).mergeSort
    fun first second => decide (first.plogID ≤ second.plogID)

def vlogShardDisks (vlogID : Nat) : List Nat :=
  (catalog.shards.filter fun shard => shard.vlogID == vlogID).map
    fun shard => catalog.diskOf shard.plogID

/-- The disks that hold a shard of the vlog, but for the one it moves from. -/
def occupiedDisks (vlogID excluded : Nat) : List Nat :=
  (catalog.vlogShardDisks vlogID).filter fun disk => disk != excluded

def repoint (plogID disk : Nat) : ShardCatalog :=
  { catalog with diskOf := Function.update catalog.diskOf plogID disk }

end ShardCatalog

/-- The maps of a pass and the catalog under it. -/
structure DiskLoads where
  usage : Nat → Int
  sizeByPlog : Nat → Int
  plogsByDisk : Nat → List PlogOnDisk
  catalog : ShardCatalog

/-- What a search for a shard to move is told from outside: the sorted
candidates, the order in which it meets the disks, and the failures. -/
structure MoveAnswers (ε : Type) where
  order : List PlogOnDisk
  disks : PlogOnDisk → List Nat
  leaseRead : Nat → Except ε Unit
  shardRead : Nat → Except ε Unit
  migration : Except ε Unit

structure ShardMove where
  shard : PlogOnDisk
  source : Nat
  target : Nat
deriving DecidableEq, Repr

section Search

variable {ε : Type}

/-- The busiest and the idlest disk, the first of equals. -/
def diskExtremes (active : List Nat) (usage : Nat → Int) : Nat × Nat := active.foldl
    (fun extremes disk =>
      (if usage disk > usage extremes.1 then disk else extremes.1,
        if usage disk < usage extremes.2 then disk else extremes.2))
    (active.headD 0, active.headD 0)

/-- The lightest disk that may take the shard, with the usage `-1` for none. -/
def lightestDisk (usage : Nat → Int) (source : Nat) (occupied : List Nat) (disks : List Nat) :
    Nat × Int :=
  disks.foldl
    (fun lightest disk =>
      if disk = source ∨ disk ∈ occupied then lightest
      else if lightest.2 = -1 ∨ usage disk < lightest.2 then (disk, usage disk)
      else lightest)
    (0, -1)

namespace DiskLoads

variable (loads : DiskLoads)

def size (shard : PlogOnDisk) : Int := loads.sizeByPlog shard.plogID

def destination (answers : MoveAnswers ε) (source : Nat) (shard : PlogOnDisk) : Nat × Int :=
  lightestDisk loads.usage source
    (loads.catalog.occupiedDisks shard.vlogID source) (answers.disks shard)

/-- The first candidate that fits the gap to its lightest destination. -/
def pickMove (answers : MoveAnswers ε) (deferred : Nat → Bool) (minSkewBytes : Int) (source : Nat) :
    List PlogOnDisk → Except ε (Option ShardMove)
  | [] => .ok none
  | shard :: rest => do
      answers.leaseRead shard.vlogID
      if deferred shard.vlogID then
        pickMove answers deferred minSkewBytes source rest
      else
        answers.shardRead shard.vlogID
        let lightest := loads.destination answers source shard
        if lightest.2 = -1 then
          pickMove answers deferred minSkewBytes source rest
        else
          let gap := loads.usage source - lightest.2
          if gap ≤ minSkewBytes ∨ loads.size shard > gap then
            pickMove answers deferred minSkewBytes source rest
          else
            answers.migration
            pure (some ⟨shard, source, lightest.1⟩)

/-- The maps and the catalog after a shard has moved. -/
def moved (move : ShardMove) : DiskLoads :=
  let size := loads.size move.shard
  let lighter := Function.update loads.usage move.source (loads.usage move.source - size)
  let without := Function.update loads.plogsByDisk move.source
    ((loads.plogsByDisk move.source).eraseP fun other => other.plogID == move.shard.plogID)
  { loads with
    usage := Function.update lighter move.target (lighter move.target + size)
    plogsByDisk := Function.update without move.target
      (without move.target ++ [move.shard])
    catalog := loads.catalog.repoint move.shard.plogID move.target }

def rebalanceOne (answers : MoveAnswers ε) (deferred : Nat → Bool) (minSkewBytes : Int)
    (source : Nat) :
    Except ε (Option (ShardMove × DiskLoads)) := do
  let picked ← loads.pickMove answers deferred minSkewBytes source answers.order
  pure (picked.map fun move => (move, loads.moved move))

end DiskLoads

end Search

section Pass

variable {ε : Type}

/-- The loop of a pass: its number of moves and how it ended, or nothing if
`fuel` rounds are not enough. -/
def rebalanceLoop (policy : RebalancePolicy) (active : List Nat) (answers : Nat → MoveAnswers ε)
    (deferred : Nat → Nat → Bool) :
    Nat → Nat → DiskLoads → Option (Nat × Except ε DiskLoads)
  | 0, _, _ => none
  | fuel + 1, moves, loads =>
    if policy.maxMovesPerPass ≤ 0 ∨ (moves : Int) < policy.maxMovesPerPass then
      let extremes := diskExtremes active loads.usage
      if loads.usage extremes.1 - loads.usage extremes.2 ≤ policy.minSkewBytes then
        some (moves, .ok loads)
      else
        match loads.rebalanceOne (answers moves) (deferred moves)
            policy.minSkewBytes extremes.1 with
        | .error reason => some (moves, .error reason)
        | .ok none => some (moves, .ok loads)
        | .ok (some (_, next)) =>
          rebalanceLoop policy active answers deferred fuel (moves + 1) next
    else some (moves, .ok loads)

/-- One plog of a disk is measured. -/
def measurePlog (stat : Nat → Nat → Except ε Int) (disk : Nat) (loads : DiskLoads)
    (shard : PlogOnDisk) : Except ε DiskLoads := do
  let size ← stat disk shard.plogID
  pure { loads with
    sizeByPlog := Function.update loads.sizeByPlog shard.plogID size
    usage := Function.update loads.usage disk (loads.usage disk + size) }

def measureDisk (listing : Nat → Except ε Unit) (stat : Nat → Nat → Except ε Int)
    (loads : DiskLoads) (disk : Nat) : Except ε DiskLoads := do
  listing disk
  let plogs := loads.catalog.plogsOnDisk disk
  let measured ← plogs.foldlM (measurePlog stat disk)
    { loads with usage := Function.update loads.usage disk 0 }
  pure { measured with
    plogsByDisk := Function.update measured.plogsByDisk disk plogs }

/-- The loads a pass starts from; listing the plogs of a disk may fail. -/
def measureDisks (listing : Nat → Except ε Unit) (stat : Nat → Nat → Except ε Int)
    (active : List Nat) (catalog : ShardCatalog) : Except ε DiskLoads :=
  active.foldlM (measureDisk listing stat) ⟨fun _ => 0, fun _ => 0, fun _ => [], catalog⟩

/-- A whole pass, `sinceLast` after the last one that moved something. -/
def rebalance (policy : RebalancePolicy) (sinceLast : Option Int) (active : List Nat)
    (listing : Nat → Except ε Unit) (stat : Nat → Nat → Except ε Int) (catalog : ShardCatalog)
    (answers : Nat → MoveAnswers ε) (deferred : Nat → Nat → Bool) (fuel : Nat) :
    Option (Nat × Except ε DiskLoads) :=
  let unchanged : DiskLoads := ⟨fun _ => 0, fun _ => 0, fun _ => [], catalog⟩
  if 0 < policy.cooldown ∧ sinceLast.any fun passed => passed < policy.cooldown then
    some (0, .ok unchanged)
  else if active.length < 2 then some (0, .ok unchanged)
  else
    match measureDisks listing stat active catalog with
    | .error reason => some (0, .error reason)
    | .ok loads => rebalanceLoop policy active answers deferred fuel 0 loads

end Pass

end Rose
