import Rose.NamespaceTree
import Rose.WriteIntents

/-!
# Renaming and write intents

A rename moves the prepared operations exactly at the old path by one statement
of its transaction; those below it follow only through open handles.  This file
says what becomes of operations and handles, first in the loop over the open
handles and then in the whole request.
-/

namespace Rose

open FallibleActions

section Paths

variable {oldPath newPath path : Path}

theorem movedPath_self : movedPath oldPath newPath oldPath = newPath := by
  have appended := movedPath_append oldPath newPath []
  rwa [List.append_nil, List.append_nil] at appended

theorem cleanPath_movedPath (clean : cleanPath path = path) (newClean : cleanPath newPath = newPath)
    (notRoot : newPath ≠ []) (within : AtOrBelow oldPath path) :
    cleanPath (movedPath oldPath newPath path) = movedPath oldPath newPath path := by
  rcases within with rfl | ⟨rest, rfl⟩
  · rw [movedPath_self, newClean]
  · rw [List.append_assoc, List.singleton_append] at clean ⊢
    rw [movedPath_append]
    exact cleanPath_below clean newClean notRoot

theorem movedPath_ne_nil (notRoot : newPath ≠ []) : movedPath oldPath newPath path ≠ [] := by
  simp [movedPath, notRoot]

theorem retargetedPath_of_within (within : AtOrBelow oldPath path) :
    FileServer.retargetedPath oldPath newPath path = some (movedPath oldPath newPath path) := by
  unfold FileServer.retargetedPath
  rcases within with rfl | below
  · rw [if_pos rfl, movedPath_self]
  · split_ifs with same
    · rw [same, movedPath_self]
    · rfl

theorem retargetedPath_of_outside (outside : ¬AtOrBelow oldPath path) :
    FileServer.retargetedPath oldPath newPath path = none := by
  unfold FileServer.retargetedPath
  rw [if_neg fun same => outside (Or.inl same), if_neg fun below => outside (Or.inr below)]

end Paths

/-- A handle that a rename of `oldPath` takes along. -/
def FileHandle.Movable (handle : FileHandle) (oldPath : Path) : Prop :=
  handle.unlinked = false ∧ AtOrBelow oldPath handle.path

instance (handle : FileHandle) (oldPath : Path) :
    Decidable (handle.Movable oldPath) :=
  inferInstanceAs (Decidable (_ ∧ _))

/-- A handle that takes a prepared operation along. -/
def FileHandle.Takes (handle : FileHandle) (oldPath : Path) (op : WriteOp) : Prop :=
  handle.Movable oldPath ∧ handle.writeOpID ≠ 0 ∧ handle.writeOpID = op.id

section Loop

variable {oldPath newPath : Path} {passed : List FileHandle} {handle : FileHandle}

/-- What became of an operation once the loop has passed the handles `passed`. -/
structure Carried (oldPath newPath : Path) (passed : List FileHandle) (old new : WriteOp) :
    Prop where
  id_eq : old.id = new.id
  key_eq : old.idempotencyKey = new.idempotencyKey
  state_eq : old.state = new.state
  prepared : new.state = .prepared → old.state = .prepared ∧
    ((new.path = old.path ∧ ∀ handle ∈ passed, ¬handle.Takes oldPath old) ∨
      ∃ handle ∈ passed, handle.Takes oldPath old ∧
        new.path = movedPath oldPath newPath handle.path)

theorem Carried.pass {old new : WriteOp} (carried : Carried oldPath newPath passed old new)
    (spared : new.state = .prepared → ¬handle.Takes oldPath old) :
    Carried oldPath newPath (passed ++ [handle]) old new := by
  refine ⟨carried.id_eq, carried.key_eq, carried.state_eq, fun prepared => ?_⟩
  obtain ⟨wasPrepared, ⟨samePath, free⟩ | ⟨mover, moverIn, moved⟩⟩ := carried.prepared prepared
  · refine ⟨wasPrepared, Or.inl ⟨samePath, fun other member => ?_⟩⟩
    rcases List.mem_append.mp member with earlier | last
    · exact free other earlier
    · rw [List.mem_singleton.mp last]
      exact spared prepared
  · exact ⟨wasPrepared, Or.inr ⟨mover, List.mem_append_left _ moverIn, moved⟩⟩

/-- The state after the loop has passed the handles `passed`: the movable ones
among them have moved, and with them their prepared operations. -/
structure Retargeted (oldPath newPath : Path) (passed : List FileHandle)
    (start current : FileServer) : Prop where
  handles : ∀ new ∈ current.handles.rows, ∃ old ∈ start.handles.rows,
    (new = old ∧ (old ∈ passed → ¬old.Movable oldPath)) ∨
    (old.Movable oldPath ∧ new = { old with path := movedPath oldPath newPath old.path })
  ops : ∀ new ∈ current.catalog.writeOps.rows,
    ∃ old ∈ start.catalog.writeOps.rows, Carried oldPath newPath passed old new

namespace Retargeted

variable {start current : FileServer}

theorem nil : Retargeted oldPath newPath [] start start where
  handles handle handleIn :=
    ⟨handle, handleIn, Or.inl ⟨rfl, fun impossible => (by cases impossible)⟩⟩
  ops op opIn :=
    ⟨op, opIn, rfl, rfl, rfl, fun prepared => ⟨prepared, Or.inl ⟨rfl, by simp⟩⟩⟩

variable (retargeted : Retargeted oldPath newPath passed start current)
include retargeted

theorem skip (stays : ¬handle.Movable oldPath) :
    Retargeted oldPath newPath (passed ++ [handle]) start current where
  handles new newIn := by
    obtain ⟨old, oldIn, ⟨rfl, still⟩ | moved⟩ := retargeted.handles new newIn
    · refine ⟨new, oldIn, Or.inl ⟨rfl, fun member => ?_⟩⟩
      rcases List.mem_append.mp member with earlier | last
      · exact still earlier
      · rw [List.mem_singleton.mp last]
        exact stays
    · exact ⟨old, oldIn, Or.inr moved⟩
  ops new newIn := by
    obtain ⟨old, oldIn, carried⟩ := retargeted.ops new newIn
    exact ⟨old, oldIn, carried.pass fun _ takes => stays takes.1⟩

/-- A handle that moves takes its prepared operation along. -/
theorem move (handleIn : handle ∈ start.handles.rows) (movable : handle.Movable oldPath)
    {catalog : Catalog}
    (rows : catalog.writeOps.rows =
      if handle.writeOpID = 0 then current.catalog.writeOps.rows
      else current.catalog.writeOps.rows.map
        (ifPrepared (fun op => decide (op.id = handle.writeOpID)) fun op =>
          { op with path := movedPath oldPath newPath handle.path })) :
    Retargeted oldPath newPath (passed ++ [handle]) start
      { current with
        catalog
        handles := current.handles.put
          { handle with path := movedPath oldPath newPath handle.path } } where
  handles new newIn := by
    rcases (KeyedTable.mem_put _ _ _).mp newIn with ⟨earlierIn, other⟩ | rfl
    · obtain ⟨old, oldIn, ⟨rfl, still⟩ | moved⟩ := retargeted.handles new earlierIn
      · refine ⟨new, oldIn, Or.inl ⟨rfl, fun member => ?_⟩⟩
        rcases List.mem_append.mp member with earlier | last
        · exact still earlier
        · rw [List.mem_singleton.mp last] at other
          exact absurd rfl other
      · exact ⟨old, oldIn, Or.inr moved⟩
    · exact ⟨handle, handleIn, Or.inr ⟨movable, rfl⟩⟩
  ops new newIn := by
    change new ∈ catalog.writeOps.rows at newIn
    rw [rows] at newIn
    split_ifs at newIn with none
    · obtain ⟨old, oldIn, carried⟩ := retargeted.ops new newIn
      exact ⟨old, oldIn, carried.pass fun _ takes => takes.2.1 none⟩
    obtain ⟨op, opIn, rfl⟩ := List.mem_map.mp newIn
    obtain ⟨old, oldIn, carried⟩ := retargeted.ops op opIn
    refine ⟨old, oldIn, ?_⟩
    unfold ifPrepared
    split_ifs with selected
    · have own : op.id = handle.writeOpID := by simpa using selected.1
      exact ⟨carried.id_eq, carried.key_eq, carried.state_eq, fun _ =>
        ⟨(carried.prepared selected.2).1,
          Or.inr ⟨handle, by simp, ⟨movable, none, (carried.id_eq.trans own).symm⟩, rfl⟩⟩⟩
    · refine carried.pass fun prepared takes => selected ⟨?_, prepared⟩
      simpa using (takes.2.2.trans carried.id_eq).symm

end Retargeted

end Loop

namespace FileServer

section Loop

variable {oldPath newPath : Path} {passed : List FileHandle} {start current : FileServer}

theorem retargetOp_ends {handle : FileHandle} {target : Path} (clean : cleanPath target = target)
    (notRoot : target ≠ []) (server : FileServer) :
    Ends (retargetOp handle target) server
      (fun _ after => ∃ catalog, after = { server with catalog } ∧ catalog.writeOps.rows =
          if handle.writeOpID = 0 then server.catalog.writeOps.rows
          else server.catalog.writeOps.rows.map
            (ifPrepared (fun op => decide (op.id = handle.writeOpID))
              fun op => { op with path := target }))
      (fun _ => False) := by
  unfold retargetOp
  split_ifs with none
  · exact .pure ⟨server.catalog, rfl, rfl⟩
  · have succeeds : (server.catalog.retargetPreparedWriteOp handle.writeOpID target).map ((), ·) =
        .ok ((), server.catalog.changePrepared handle.writeOpID
          (fun op => { op with path := target }) fun _ => rfl) := by
      unfold Catalog.retargetPreparedWriteOp
      simp only [clean, notRoot, if_false]
      rfl
    simp only [Ends, transaction, succeeds]
    exact ⟨_, rfl, changePrepared_rows _ _ _⟩

theorem retargetHandle_ends (retargeted : Retargeted oldPath newPath passed start current)
    {handle : FileHandle} (handleIn : handle ∈ start.handles.rows)
    (clean : cleanPath handle.path = handle.path) (newClean : cleanPath newPath = newPath)
    (notRoot : newPath ≠ []) :
    Ends (retargetHandle oldPath newPath handle) current
      (fun moved after =>
        Retargeted oldPath newPath (passed ++ [handle]) start after ∧
          (moved = true ↔ handle.Movable oldPath))
      (fun _ => False) := by
  unfold retargetHandle
  split_ifs with unlinked
  · have stays : ¬handle.Movable oldPath := by
      rintro ⟨linked, -⟩
      rw [linked] at unlinked
      cases unlinked
    exact .pure ⟨retargeted.skip stays, by simp [stays]⟩
  by_cases within : AtOrBelow oldPath handle.path
  · have movable : handle.Movable oldPath := ⟨Bool.eq_false_of_not_eq_true unlinked, within⟩
    have targetClean := cleanPath_movedPath clean newClean notRoot within
    have targetNotRoot : movedPath oldPath newPath handle.path ≠ [] := movedPath_ne_nil notRoot
    rw [retargetedPath_of_within within]
    dsimp only
    refine (retargetOp_ends targetClean targetNotRoot current).bind fun _ after changed => ?_
    obtain ⟨catalog, rfl, rows⟩ := changed
    exact putHandle_bind (.pure ⟨retargeted.move handleIn movable rows, by simp [movable]⟩)
  · have stays : ¬handle.Movable oldPath := fun movable => within movable.2
    rw [retargetedPath_of_outside within]
    exact .pure ⟨retargeted.skip stays, by simp [stays]⟩

/-- The loop passes every open handle. -/
theorem retargetLoop_ends {rest : List FileHandle}
    (retargeted : Retargeted oldPath newPath passed start current)
    (known : ∀ handle ∈ rest, handle ∈ start.handles.rows)
    (clean : ∀ handle ∈ start.handles.rows, cleanPath handle.path = handle.path)
    (newClean : cleanPath newPath = newPath) (notRoot : newPath ≠ []) {found : Bool}
    (sofar : found = true ↔ ∃ handle ∈ passed, handle.Movable oldPath) :
    Ends (rest.foldlM
        (fun found handle => do
          let moved ← retargetHandle oldPath newPath handle
          pure (found || moved)) found) current
      (fun found after =>
        Retargeted oldPath newPath (passed ++ rest) start after ∧
          (found = true ↔ ∃ handle ∈ passed ++ rest, handle.Movable oldPath))
      (fun _ => False) := by
  induction rest generalizing passed current found with
  | nil =>
    rw [List.append_nil]
    exact .pure ⟨retargeted, sofar⟩
  | cons handle rest ih =>
    have handleIn := known handle (by simp)
    rw [List.foldlM_cons]
    have stepped : Ends (do
        let moved ← retargetHandle oldPath newPath handle
        pure (found || moved)) current
        (fun next after =>
          Retargeted oldPath newPath (passed ++ [handle]) start after ∧
            (next = true ↔ ∃ other ∈ passed ++ [handle], other.Movable oldPath))
        (fun _ => False) := by
      refine (retargetHandle_ends retargeted handleIn (clean handle handleIn)
        newClean notRoot).bind fun moved after ⟨later, isMoved⟩ => ?_
      refine .pure ⟨later, ?_⟩
      rw [Bool.or_eq_true, sofar, isMoved]
      simp [or_and_right, exists_or]
    refine stepped.bind fun next after ⟨later, nextFound⟩ => ?_
    have continued := ih later (fun other member => known other (by simp [member])) nextFound
    rwa [List.append_assoc, List.singleton_append] at continued

theorem retargetOpenHandles_ends
    (clean : ∀ handle ∈ start.handles.rows, cleanPath handle.path = handle.path)
    (newClean : cleanPath newPath = newPath) (notRoot : newPath ≠ []) :
    Ends (retargetOpenHandles oldPath newPath) start
      (fun found after =>
        Retargeted oldPath newPath start.handles.rows start after ∧
          (found = true ↔ ∃ handle ∈ start.handles.rows, handle.Movable oldPath))
      (fun _ => False) :=
  .bind_get (retargetLoop_ends .nil (fun _ member => member) clean newClean notRoot (by simp))

end Loop

/-- A handle writes for the operation and still has its name. -/
def Owned (server : FileServer) (op : WriteOp) : Prop :=
  ∃ handle ∈ server.handles.rows, handle.writeOpID = op.id ∧
    handle.writeOpID ≠ 0 ∧ handle.unlinked = false ∧ handle.snapshotID = 0

/-- The intents that a rename reaches without naming their rows have a handle
to follow, and the replaced directory holds none. -/
def RenameReaches (server : FileServer) (oldPath newPath : Path) : Prop :=
  ∀ op ∈ server.catalog.writeOps.rows, op.state = .prepared →
    (Below oldPath op.path → server.Owned op) ∧
    (server.catalog.heads.has oldPath = false → server.catalog.dirs.has oldPath = false →
        op.path = oldPath ∨ op.path = newPath → server.Owned op) ∧
    (server.catalog.dirs.has newPath = true → Below newPath op.path → AtOrBelow oldPath op.path)

instance (server : FileServer) (oldPath newPath : Path) :
    Decidable (server.RenameReaches oldPath newPath) :=
  have : ∀ op, Decidable (server.Owned op) := fun _ =>
    inferInstanceAs (Decidable (∃ handle ∈ server.handles.rows, _))
  inferInstanceAs (Decidable (∀ op ∈ _, _ → _))

/-- A rename takes the name of the operation away. -/
def Replaced (oldPath newPath : Path) (server : FileServer) (op : WriteOp) : Prop :=
  oldPath ≠ newPath ∧ (op.path = newPath ∨
    ∃ handle ∈ server.handles.rows, handle.path = newPath ∧ handle.writeOpID ≠ 0 ∧
      handle.writeOpID = op.id)

/-- The state in which the handles begin to follow a rename: intents on the
new path are gone, those on the old path have moved or are owned. -/
structure Displaced (oldPath newPath : Path) (before middle : FileServer) :
    Prop where
  ops : ∀ new ∈ middle.catalog.writeOps.rows,
    ∃ old ∈ before.catalog.writeOps.rows, old.id = new.id ∧
      (new.state = .prepared → old.state = .prepared ∧
        ((old.path = oldPath ∧ new.path = newPath) ∨
          (new.path = old.path ∧ old.path ≠ newPath ∧
            (AtOrBelow oldPath old.path → before.Owned old)))) ∧
      (old.state = .prepared → new.state = .prepared ∨ before.Replaced oldPath newPath old)
  handles : ∀ new ∈ middle.handles.rows, ∃ old ∈ before.handles.rows,
    new.Follows old ∧ (new.unlinked = false → new = old)
  spared : ∀ handle ∈ before.handles.rows,
    handle.path ≠ newPath ∨ oldPath = newPath → handle ∈ middle.handles.rows

section Following

variable {oldPath newPath : Path} {names : IntentNames} {before middle after : FileServer}

variable (isBound : IntentsBound before names)
include isBound

theorem path_of_bound {handle : FileHandle} (handleIn : handle ∈ before.handles.rows)
    (writes : handle.writeOpID ≠ 0) (linked : handle.unlinked = false) {op : WriteOp}
    (opIn : op ∈ before.catalog.writeOps.rows) (own : handle.writeOpID = op.id)
    (prepared : op.state = .prepared) : op.path = handle.path := by
  obtain ⟨-, other, otherIn, sameID, -, agrees⟩ := isBound.bound handle handleIn writes
  have same : other = op := before.catalog.writeOps.eq_of_key_eq otherIn opIn (sameID.trans own)
  subst same
  exact agrees prepared linked

variable (displaced : Displaced oldPath newPath before middle)
  (retargeted : Retargeted oldPath newPath middle.handles.rows middle after)
include displaced retargeted

/-- After a rename a prepared operation is where the renamed path took it. -/
theorem op_of_renamed {new : WriteOp} (newIn : new ∈ after.catalog.writeOps.rows)
    (prepared : new.state = .prepared) :
    ∃ old ∈ before.catalog.writeOps.rows, old.id = new.id ∧ old.state = .prepared ∧
      ((AtOrBelow oldPath old.path ∧ new.path = movedPath oldPath newPath old.path) ∨
        (¬AtOrBelow oldPath old.path ∧ old.path ≠ newPath ∧ new.path = old.path)) := by
  obtain ⟨second, secondIn, carried⟩ := retargeted.ops new newIn
  obtain ⟨secondPrepared, place⟩ := carried.prepared prepared
  obtain ⟨old, oldIn, oldID, oldKept, -⟩ := displaced.ops second secondIn
  obtain ⟨wasPrepared, earlier⟩ := oldKept secondPrepared
  refine ⟨old, oldIn, oldID.trans carried.id_eq, wasPrepared, ?_⟩
  rcases place with ⟨samePath, free⟩ | ⟨mover, moverIn, ⟨⟨linked, within⟩, writes, own⟩, moved⟩
  · rcases earlier with ⟨wasOld, isNew⟩ | ⟨stayed, apart, owned⟩
    · refine Or.inl ⟨Or.inl wasOld, ?_⟩
      rw [samePath, isNew, wasOld, movedPath_self]
    · refine Or.inr ⟨fun within => ?_, apart, samePath.trans stayed⟩
      -- the owner would have taken the operation along
      obtain ⟨owner, ownerIn, own, writes, linked, -⟩ := owned within
      have place := path_of_bound isBound ownerIn writes linked oldIn own wasPrepared
      refine free owner (displaced.spared owner ownerIn (Or.inl ?_))
        ⟨⟨linked, place ▸ within⟩, writes, own.trans oldID⟩
      rw [← place]
      exact apart
  · obtain ⟨source, sourceIn, -, unchanged⟩ := displaced.handles mover moverIn
    have same := unchanged linked
    subst same
    have place := path_of_bound isBound sourceIn writes linked oldIn
      (own.trans oldID.symm) wasPrepared
    exact Or.inl ⟨place ▸ within, by rw [moved, place]⟩

theorem handle_of_renamed (newClean : cleanPath newPath = newPath) (notRoot : newPath ≠ [])
    {new : FileHandle} (newIn : new ∈ after.handles.rows) :
    cleanPath new.path = new.path ∧ ∃ old ∈ before.handles.rows,
      (new.writeOpID ≠ 0 → old.writeOpID = new.writeOpID ∧ old.writeKey = new.writeKey) ∧
      (new.unlinked = false → old.unlinked = false ∧ new.path = if AtOrBelow oldPath old.path then
          movedPath oldPath newPath old.path else old.path) := by
  obtain ⟨second, secondIn, place⟩ := retargeted.handles new newIn
  obtain ⟨old, oldIn, follows, unchanged⟩ := displaced.handles second secondIn
  have oldClean := isBound.clean old oldIn
  have follower : second.writeOpID ≠ 0 → old.writeOpID = second.writeOpID ∧
      old.writeKey = second.writeKey := by
    intro writes
    rcases follows.2 with none | ⟨sameOp, sameKey, -⟩
    · exact absurd none writes
    · exact ⟨sameOp.symm, sameKey.symm⟩
  rcases place with ⟨rfl, stays⟩ | ⟨⟨linked, within⟩, rfl⟩
  · refine ⟨by rw [follows.1]; exact oldClean, old, oldIn, follower, fun linked => ?_⟩
    have same := unchanged linked
    subst same
    have outside : ¬AtOrBelow oldPath new.path := fun within => stays secondIn ⟨linked, within⟩
    exact ⟨linked, (if_neg outside).symm⟩
  · have same := unchanged linked
    subst same
    exact ⟨cleanPath_movedPath oldClean newClean notRoot within, second, oldIn,
      follower, fun _ => ⟨linked, (if_pos within).symm⟩⟩

/-- A rename that reaches the intents leaves them bound to the record it
moves. -/
theorem intentsBound_of_renamed (reaches : before.RenameReaches oldPath newPath)
    (newClean : cleanPath newPath = newPath) (notRoot : newPath ≠ [])
    (follow : OpsFollow before.catalog after.catalog) (keys : KeysDistinct after.catalog) :
    IntentsBound after ((names.noted before.catalog after.catalog).moved
      oldPath newPath (before.catalog.dirs.has newPath)) where
  named op opIn prepared := by
    obtain ⟨old, oldIn, sameID, wasPrepared, place⟩ :=
      op_of_renamed isBound displaced retargeted opIn prepared
    have known : before.catalog.writeOps.has op.id = true :=
      (KeyedTable.has_iff _ _).mpr ⟨old, oldIn, sameID⟩
    have recorded : names.noted before.catalog after.catalog op.id = some old.path := by
      unfold IntentNames.noted
      rw [if_pos known, ← sameID]
      exact isBound.named old oldIn wasPrepared
    unfold IntentNames.moved
    rw [recorded, Option.bind_some]
    rcases place with ⟨within, moved⟩ | ⟨outside, apart, stayed⟩
    · rw [if_pos within, moved]
    · rw [if_neg outside, if_neg, stayed]
      rintro (replaced | ⟨isDirectory, below⟩)
      · exact apart replaced
      · exact outside ((reaches old oldIn wasPrepared).2.2 isDirectory below)
  keys := keys
  clean handle handleIn :=
    (handle_of_renamed isBound displaced retargeted newClean notRoot handleIn).1
  bound handle handleIn writes := by
    obtain ⟨clean, old, oldIn, sameOp, place⟩ :=
      handle_of_renamed isBound displaced retargeted newClean notRoot handleIn
    obtain ⟨own, ownKey⟩ := sameOp writes
    have oldWrites : old.writeOpID ≠ 0 := own ▸ writes
    obtain ⟨-, op, opIn, opID, opKey, -⟩ := isBound.bound old oldIn oldWrites
    obtain ⟨next, nextIn, nextID, nextKey, -⟩ := follow op opIn
    refine ⟨clean, next, nextIn, nextID.trans (opID.trans own),
      nextKey.trans (opKey.trans ownKey), fun prepared linked => ?_⟩
    obtain ⟨oldLinked, path⟩ := place linked
    obtain ⟨source, sourceIn, sourceID, wasPrepared, moved⟩ :=
      op_of_renamed isBound displaced retargeted nextIn prepared
    have sourcePath : source.path = old.path :=
      path_of_bound isBound oldIn oldWrites oldLinked sourceIn
        (by rw [sourceID, nextID, opID]) wasPrepared
    rw [path, ← sourcePath]
    rcases moved with ⟨within, moved⟩ | ⟨outside, -, stayed⟩
    · rw [if_pos within, moved]
    · rw [if_neg outside, stayed]

end Following

section Displacing

variable {oldPath newPath : Path} {server : FileServer}

theorem foldl_cancel_rows (ids : List Nat) (catalog : Catalog) :
    ∀ new ∈ (ids.foldl Catalog.cancelWriteOp catalog).writeOps.rows,
      ∃ old ∈ catalog.writeOps.rows, old.id = new.id ∧
        (new.state = .prepared → old = new ∧ old.id ∉ ids) ∧
        (old.state = .prepared → new.state = .prepared ∨ old.id ∈ ids) := by
  induction ids generalizing catalog with
  | nil => exact fun new newIn => ⟨new, newIn, rfl, fun _ => ⟨rfl, by simp⟩, Or.inl⟩
  | cons id ids ih =>
    intro new newIn
    obtain ⟨second, secondIn, sameID, kept, spared⟩ := ih (catalog.cancelWriteOp id) new newIn
    have rows : (catalog.cancelWriteOp id).writeOps.rows = _ :=
      finishPreparedWriteOp_rows id .cancelled
    rw [rows] at secondIn
    obtain ⟨old, oldIn, rfl⟩ := List.mem_map.mp secondIn
    unfold ifPrepared at sameID kept spared
    split_ifs at sameID kept spared with selected
    · refine ⟨old, oldIn, sameID, fun prepared => ?_, fun _ => Or.inr ?_⟩
      · rw [← (kept prepared).1] at prepared
        cases prepared
      · have own : old.id = id := by simpa using selected.1
        simp [own]
    · refine ⟨old, oldIn, sameID, fun prepared => ?_,
        fun prepared => (spared prepared).imp_right (List.mem_cons_of_mem id)⟩
      obtain ⟨same, absent⟩ := kept prepared
      refine ⟨same, fun member => ?_⟩
      rcases List.mem_cons.mp member with own | later
      · exact selected ⟨by simpa using own, same ▸ prepared⟩
      · exact absent later

theorem unlinkReplaced_ends :
    Ends (unlinkReplaced oldPath newPath) server
      (fun _ after =>
        (∀ new ∈ after.catalog.writeOps.rows,
          ∃ old ∈ server.catalog.writeOps.rows, old.id = new.id ∧
            (new.state = .prepared → old = new ∧
              (oldPath ≠ newPath → ∀ handle ∈ server.handles.rows,
                handle.path = newPath → handle.snapshotID = 0 →
                  handle.writeOpID ≠ 0 → handle.writeOpID ≠ old.id)) ∧
            (old.state = .prepared → new.state = .prepared ∨ (oldPath ≠ newPath ∧
              ∃ handle ∈ server.handles.rows, handle.path = newPath ∧
                handle.writeOpID ≠ 0 ∧ handle.writeOpID = old.id))) ∧
        (∀ new ∈ after.handles.rows, ∃ old ∈ server.handles.rows,
          new.Follows old ∧ (new.unlinked = false → new = old)) ∧
        ∀ handle ∈ server.handles.rows, handle.path ≠ newPath ∨ oldPath = newPath →
            handle ∈ after.handles.rows)
      (fun _ => False) := by
  unfold unlinkReplaced
  split_ifs with same
  · exact .pure ⟨fun op opIn => ⟨op, opIn, rfl, fun _ =>
        ⟨rfl, fun different => absurd same different⟩, Or.inl⟩,
      fun handle handleIn => ⟨handle, handleIn, .refl handle, fun _ => rfl⟩,
      fun handle handleIn _ => handleIn⟩
  · refine ⟨fun new newIn => ?_, fun new newIn => ?_, fun handle handleIn spared => ?_⟩
    · obtain ⟨old, oldIn, sameID, kept, cancels⟩ := foldl_cancel_rows _ _ new newIn
      refine ⟨old, oldIn, sameID, fun prepared => ?_, fun prepared =>
        (cancels prepared).imp_right fun marked => ⟨same, ?_⟩⟩
      · obtain ⟨unchanged, absent⟩ := kept prepared
        refine ⟨unchanged, fun _ handle handleIn atNew live writes own =>
          absent ?_⟩
        refine List.mem_filter.mpr ⟨List.mem_map.mpr ⟨handle, ?_, own⟩, ?_⟩
        · exact List.mem_filter.mpr ⟨handleIn, by simp [marks, atNew, live]⟩
        · simpa [← own] using writes
      · obtain ⟨listed, nonzero⟩ := List.mem_filter.mp marked
        obtain ⟨handle, reached, own⟩ := List.mem_map.mp listed
        obtain ⟨handleIn, isMarked⟩ := List.mem_filter.mp reached
        simp only [marks, Bool.false_and, Bool.or_false, Bool.and_eq_true,
          decide_eq_true_eq] at isMarked
        exact ⟨handle, handleIn, isMarked.2, by simpa [own] using nonzero, own⟩
    · obtain ⟨old, oldIn, rfl⟩ := List.mem_map.mp newIn
      refine ⟨old, oldIn, ?_⟩
      split_ifs
      · exact ⟨⟨rfl, Or.inr ⟨rfl, rfl, fun impossible => (by cases impossible)⟩⟩,
          fun impossible => (by cases impossible)⟩
      · exact ⟨.refl old, fun _ => rfl⟩
    · have unmarked : marks newPath false handle = false := by
        have apart := spared.resolve_right same
        simp [marks, apart]
      exact List.mem_map.mpr ⟨handle, handleIn, by simp [unmarked]⟩

end Displacing

section NoRows

variable {before catalog : Catalog} {oldPath newPath : Path} {now : Int}

theorem ensureDirs_ne_noRows (path : Path) (mtime : Int) :
    catalog.ensureDirs path mtime ≠ .error .noRows := by
  refine foldlM_ne_error (fun catalog dir => ?_) _ _
  unfold Catalog.ensureDir
  split_ifs
  all_goals simp

theorem rewriteSubtreePaths_ne_noRows {Row : Type} {path : Row → Path} (table : KeyedTable path)
    (move : Row → Row) :
    rewriteSubtreePaths table move oldPath ≠ .error .noRows := by
  unfold rewriteSubtreePaths orConflict
  dsimp only
  split_ifs
  · split
    all_goals simp
  · simp

theorem renameDirSubtree_ne_noRows :
    catalog.renameDirSubtree oldPath newPath now ≠ .error .noRows := by
  refine bind_ne_error (ensureDirs_ne_noRows newPath now) fun ensured => ?_
  refine bind_ne_error (rewriteSubtreePaths_ne_noRows _ _) fun dirs => ?_
  refine bind_ne_error (rewriteSubtreePaths_ne_noRows _ _) fun heads => ?_
  exact fun impossible => by cases impossible

theorem renameDir_ne_noRows (present : catalog.dirs.has oldPath = true) :
    catalog.renameDir oldPath newPath now ≠ .error .noRows := by
  unfold Catalog.renameDir
  rw [present]
  split_ifs with absent
  · cases absent
  · simp
  · simp
  · exact renameDirSubtree_ne_noRows
  · exact renameDirSubtree_ne_noRows

theorem renameHead_ne_noRows {head : FileHead} (versions : ∀ head ∈ catalog.heads.rows,
      ∃ version, catalog.files.find? head.fileID = some version) :
    catalog.renameHead head newPath now ≠ .error .noRows := by
  unfold Catalog.renameHead
  split_ifs
  · simp
  refine bind_ne_error ?_ fun released => ensureDirs_ne_noRows newPath now
  unfold Catalog.releaseHead
  cases found : catalog.heads.find? newPath with
  | none => simp
  | some replaced =>
    obtain ⟨version, stored⟩ := versions replaced (KeyedTable.mem_of_find? found)
    simp [Catalog.adjustVersionRefs, Catalog.fileChunks, stored]

theorem statPath_eq_none {path : Path} (versions : ∀ head ∈ catalog.heads.rows,
      ∃ version, catalog.files.find? head.fileID = some version)
    (missing : catalog.statPath (cleanPath path) = none)
    (notRoot : cleanPath path ≠ []) :
    catalog.heads.has (cleanPath path) = false ∧ catalog.dirs.has (cleanPath path) = false := by
  unfold Catalog.statPath at missing
  simp only [cleanPath_cleanPath, notRoot, if_false] at missing
  cases found : catalog.heads.find? (cleanPath path) with
  | none =>
    refine ⟨(KeyedTable.has_eq_false_iff _ _).mpr ((KeyedTable.find?_eq_none_iff _ _).mp found),
      (KeyedTable.has_eq_false_iff _ _).mpr ((KeyedTable.find?_eq_none_iff _ _).mp ?_)⟩
    simpa [found] using missing
  | some head =>
    obtain ⟨version, stored⟩ := versions head (KeyedTable.mem_of_find? found)
    simp [found, stored] at missing

/-- A rename that finds no rows found neither a file nor a directory. -/
theorem renameFile_noRows (counted : Counted before)
    (failed : before.renameFile oldPath newPath now = .error .noRows) :
    before.heads.has (cleanPath oldPath) = false ∧ before.dirs.has (cleanPath oldPath) = false ∧
      ¬Below (cleanPath oldPath) (cleanPath newPath) := by
  have versions : ∀ head ∈ before.heads.rows,
      ∃ version, before.files.find? head.fileID = some version :=
    fun head headIn => counted.versions head.fileID (Or.inl ⟨head, headIn, rfl⟩)
  unfold Catalog.renameFile at failed
  dsimp only at failed
  split_ifs at failed with atRoot same found inside
  · cases failed
  · have notBelow : ¬Below (cleanPath oldPath) (cleanPath newPath) :=
      fun below => below.ne same.symm
    obtain ⟨noHead, noDir⟩ := statPath_eq_none versions
      (by simpa using found) (fun root => atRoot (Or.inl root))
    exact ⟨noHead, noDir, notBelow⟩
  · cases failed
  · have sameHeads : (before.rebound (cleanPath oldPath)
        (cleanPath newPath)).heads = before.heads := rfl
    have sameDirs : (before.rebound (cleanPath oldPath)
        (cleanPath newPath)).dirs = before.dirs := rfl
    have sameFiles : (before.rebound (cleanPath oldPath)
        (cleanPath newPath)).files = before.files := rfl
    have moved : (before.cancelPrepared (· == cleanPath newPath)).retargetPrepared
        (cleanPath oldPath) (cleanPath newPath) =
      before.rebound (cleanPath oldPath) (cleanPath newPath) := rfl
    rw [moved] at failed
    generalize before.rebound (cleanPath oldPath) (cleanPath newPath) =
      rebound at failed sameHeads sameDirs sameFiles
    rw [sameHeads] at failed
    cases found : before.heads.find? (cleanPath oldPath) with
    | none =>
      rw [found] at failed
      have noDir : before.dirs.has (cleanPath oldPath) = false := by
        by_contra present
        rw [Bool.not_eq_false, ← sameDirs] at present
        exact renameDir_ne_noRows present failed
      exact ⟨(KeyedTable.has_eq_false_iff _ _).mpr
        ((KeyedTable.find?_eq_none_iff _ _).mp found), noDir, inside⟩
    | some head =>
      rw [found] at failed
      rw [← sameHeads, ← sameFiles] at versions
      exact absurd failed (renameHead_ne_noRows versions)

end NoRows

section Request

variable {oldPath newPath : Path} {names : IntentNames} {server middle : FileServer}

/-- What a rename's transaction does to the operations; one that it passes over
although the rename concerns it is owned. -/
def Rebound (oldPath newPath : Path) (server middle : FileServer) : Prop :=
  ∀ new ∈ middle.catalog.writeOps.rows, ∃ old ∈ server.catalog.writeOps.rows, old.id = new.id ∧
      (new.state = .prepared → old.state = .prepared ∧
        ((old.path = oldPath ∧ new.path = newPath) ∨
          (new.path = old.path ∧
            (old.path = newPath ∨ AtOrBelow oldPath old.path → server.Owned old)))) ∧
      (old.state = .prepared → new.state = .prepared ∨ server.Replaced oldPath newPath old)

theorem moveHandles_ends (isBound : IntentsBound server names)
    (rebound : Rebound oldPath newPath server middle) (handles : middle.handles = server.handles)
    (newClean : cleanPath newPath = newPath) (notRoot : newPath ≠ []) :
    Ends (moveHandles oldPath newPath) middle
      (fun found after => ∃ displaced, Displaced oldPath newPath server displaced ∧
        Retargeted oldPath newPath displaced.handles.rows displaced after ∧
        (found = true ↔ ∃ handle ∈ displaced.handles.rows, handle.Movable oldPath))
      (fun _ => False) := by
  refine unlinkReplaced_ends.bind fun _ displaced ⟨ops, marked, spared⟩ => ?_
  rw [handles] at marked spared ops
  have isDisplaced : Displaced oldPath newPath server displaced := by
    refine ⟨fun new newIn => ?_, marked, spared⟩
    obtain ⟨second, secondIn, secondID, kept, marked⟩ := ops new newIn
    obtain ⟨old, oldIn, oldID, oldKept, cancelled⟩ := rebound second secondIn
    refine ⟨old, oldIn, oldID.trans secondID, fun prepared => ?_, fun prepared => ?_⟩
    rotate_left
    · rcases cancelled prepared with still | replaced
      · refine (marked still).imp_right ?_
        rintro ⟨different, handle, handleIn, atNew, writes, own⟩
        exact ⟨different, Or.inr ⟨handle, handleIn, atNew, writes, own.trans oldID.symm⟩⟩
      · exact Or.inr replaced
    obtain ⟨same, free⟩ := kept prepared
    subst same
    obtain ⟨wasPrepared, moved | ⟨stayed, owned⟩⟩ := oldKept prepared
    · exact ⟨wasPrepared, Or.inl moved⟩
    · by_cases replaced : old.path = newPath
      · by_cases same : oldPath = newPath
        · exact ⟨wasPrepared, Or.inl ⟨replaced.trans same.symm, stayed.trans replaced⟩⟩
        · obtain ⟨owner, ownerIn, own, writes, linked, live⟩ := owned (Or.inl replaced)
          have place := path_of_bound isBound ownerIn writes linked oldIn own wasPrepared
          exact absurd (own.trans oldID) (free same owner ownerIn (place ▸ replaced) live writes)
      · exact ⟨wasPrepared, Or.inr ⟨stayed, replaced, fun within => owned (Or.inr within)⟩⟩
  refine (retargetOpenHandles_ends (fun handle handleIn => ?_) newClean
    notRoot).mono (fun found after followed => ⟨displaced, isDisplaced, followed⟩)
    (fun _ => id)
  obtain ⟨old, oldIn, follows, -⟩ := marked handle handleIn
  rw [follows.1]
  exact isBound.clean old oldIn

theorem rebound_of_renamed {now : Int} {catalog : Catalog}
    (reaches : server.RenameReaches (cleanPath oldPath) (cleanPath newPath))
    (renamed : server.catalog.renameFile oldPath newPath now = .ok catalog) :
    Rebound (cleanPath oldPath) (cleanPath newPath) server
      { server with catalog } := by
  intro new newIn
  by_cases same : cleanPath oldPath = cleanPath newPath
  · have unchanged := Catalog.renameFile_same same renamed
    subst unchanged
    refine ⟨new, newIn, rfl, fun prepared => ⟨prepared, ?_⟩, Or.inl⟩
    by_cases atOld : new.path = cleanPath oldPath
    · exact Or.inl ⟨atOld, atOld.trans same⟩
    · refine Or.inr ⟨rfl, fun concerned => (reaches new newIn prepared).1 ?_⟩
      rcases concerned with atNew | atSame | below
      · exact absurd (atNew.trans same.symm) atOld
      · exact absurd atSame atOld
      · exact below
  · change new ∈ catalog.writeOps.rows at newIn
    rw [Catalog.renameFile_frame same renamed .writeOps (by simp)] at newIn
    have rows : (server.catalog.rebound (cleanPath oldPath)
        (cleanPath newPath)).writeOps.rows = _ := retargetPrepared_rows _ _
    rw [rows, cancelPrepared_rows, List.map_map] at newIn
    obtain ⟨old, oldIn, rfl⟩ := List.mem_map.mp newIn
    refine ⟨old, oldIn, ?_⟩
    have reached := reaches old oldIn
    simp only [Function.comp_apply, ifPrepared, cancelledBy]
    split_ifs with cancelled moves moves
    · cases moves.2
    · exact ⟨rfl, fun prepared => (by cases prepared),
        fun _ => Or.inr ⟨same, Or.inl (by simpa using cancelled.2)⟩⟩
    · exact ⟨rfl, fun prepared =>
        ⟨prepared, Or.inl ⟨by simpa using moves.1, rfl⟩⟩, Or.inl⟩
    · refine ⟨rfl, fun prepared => ⟨prepared, Or.inr ⟨rfl, ?_⟩⟩, Or.inl⟩
      rintro (atNew | atOld | below)
      · exact absurd ⟨prepared, by simpa using atNew⟩ cancelled
      · exact absurd ⟨by simpa using atOld, prepared⟩ moves
      · exact (reached prepared).1 below

/-- An open file without an entry is found again by the loop. -/
theorem renameUnpublished_ends (isBound : IntentsBound server names)
    (reaches : server.RenameReaches oldPath newPath)
    (absent : server.catalog.heads.has oldPath = false ∧
      server.catalog.dirs.has oldPath = false ∧ ¬Below oldPath newPath)
    (newClean : cleanPath newPath = newPath) (notRoot : newPath ≠ []) :
    Ends (renameUnpublished oldPath newPath) server
      (fun _ after => ∃ displaced, Displaced oldPath newPath server displaced ∧
        Retargeted oldPath newPath displaced.handles.rows displaced after)
      (Eq server) := by
  have rebound : Rebound oldPath newPath server server := by
    refine fun op opIn => ⟨op, opIn, rfl, fun prepared =>
      ⟨prepared, Or.inr ⟨rfl, fun concerned => ?_⟩⟩, Or.inl⟩
    obtain ⟨below, atEither, -⟩ := reaches op opIn prepared
    rcases concerned with atNew | atOld | inside
    · exact atEither absent.1 absent.2.1 (Or.inr atNew)
    · exact atEither absent.1 absent.2.1 (Or.inl atOld)
    · exact below inside
  unfold renameUnpublished
  refine .bind_get ?_
  split_ifs with closed isDirectory
  · exact .throw rfl
  · exact .throw rfl
  · have opened : server.hasOpenHandleAtOrBelow oldPath = true := by
      simpa using closed
    obtain ⟨handle, handleIn, facts⟩ := List.any_eq_true.mp opened
    simp only [Bool.and_eq_true, Bool.not_eq_true', decide_eq_true_eq] at facts
    obtain ⟨⟨linked, -⟩, within⟩ := facts
    refine ((moveHandles_ends isBound rebound rfl newClean notRoot).mono
      (fun _ _ => id) (fun _ impossible => impossible.elim)).bind
        fun found after ⟨displaced, isDisplaced, retargeted, isFound⟩ => ?_
    have spared : handle ∈ displaced.handles.rows := by
      refine isDisplaced.spared handle handleIn ?_
      by_contra hidden
      push Not at hidden
      rw [hidden.1] at within
      rcases within with same | below
      · exact hidden.2 same.symm
      · exact absent.2.2 below
    rw [if_pos (isFound.mpr ⟨handle, spared, linked, within⟩)]
    exact .pure ⟨displaced, isDisplaced, retargeted⟩

/-- A rename displaces the new name and takes the handles of the old one
along, or changes nothing. -/
theorem rename_ends (isBound : IntentsBound server names) (counted : Counted server.catalog)
    (env : RequestEnv) (reaches : server.RenameReaches (cleanPath oldPath) (cleanPath newPath)) :
    Ends (rename oldPath newPath env) server
      (fun _ after => cleanPath newPath ≠ [] ∧
        ¬Below (cleanPath oldPath) (cleanPath newPath) ∧ ∃ displaced,
        Displaced (cleanPath oldPath) (cleanPath newPath) server displaced ∧
        Retargeted (cleanPath oldPath) (cleanPath newPath) displaced.handles.rows displaced after)
      (Eq server) := by
  unfold rename
  split_ifs with missing
  · exact .throw rfl
  have oldClean := cleanPath_cleanPath oldPath
  have newClean := cleanPath_cleanPath newPath
  generalize cleanPath oldPath = source at reaches oldClean ⊢
  generalize cleanPath newPath = target at reaches newClean ⊢
  refine (validateFileAncestors_still target server).bind fun _ middle same => ?_
  subst same
  have targetNotRoot : ∀ outcome, server.catalog.renameFile source target
      env.clock = outcome → outcome ≠ .error .namespaceRoot → target ≠ [] := by
    rintro outcome renamed other root
    refine other (renamed.symm.trans ?_)
    have atRoot : cleanPath target = [] := newClean.trans root
    unfold Catalog.renameFile
    exact if_pos (Or.inr atRoot)
  refine attempt_bind (fun reason failed => ?_) fun catalog renamed => ?_
  · by_cases unpublished : reason = .noRows
    · subst unpublished
      have notRoot := targetNotRoot _ failed (by simp)
      have absent := renameFile_noRows counted failed
      rw [oldClean, newClean] at absent
      exact (renameUnpublished_ends isBound reaches absent newClean
        notRoot).mono (fun _ _ done => ⟨notRoot, absent.2.2, done⟩) (fun _ => id)
    · split
      · rename_i same
        cases same
        exact absurd rfl unpublished
      · exact .throw rfl
      · rename_i same
        cases same
  · have notRoot := targetNotRoot _ renamed (by simp)
    have rebound := rebound_of_renamed (by rwa [oldClean, newClean]) renamed
    have outside : ¬Below source target := by
      by_cases same : source = target
      · exact fun below => below.ne same.symm
      · have apart := (Catalog.renameFile_ok (by rwa [oldClean, newClean]) renamed).2.2.1
        rwa [oldClean, newClean] at apart
    rw [oldClean, newClean] at rebound
    refine ((moveHandles_ends isBound rebound rfl newClean notRoot).mono
      (fun _ _ => id) (fun _ impossible => impossible.elim)).bind ?_
    rintro found after ⟨displaced, isDisplaced, retargeted, -⟩
    exact .pure ⟨notRoot, outside, displaced, isDisplaced, retargeted⟩

end Request

end FileServer

end Rose
