import Rose.RequestEffects
import Rose.WriteOpStates

/-!
# Write intents and their names

A prepared operation is an intent to publish at a name.  The names that
requests remove or move are recorded beside the server, request by request; an
intent is bound when the catalog row, and every open handle that writes for it,
agree with the record.  Requests that do not rename keep intents bound.
-/

namespace Rose

open FallibleActions

section Origins

/-- The operations of a catalog are those of an earlier one; one that is
prepared was prepared, on a related path. -/
def OpsFrom (related : Path → Path → Prop) (before after : Catalog) : Prop :=
  ∀ new ∈ after.writeOps.rows, ∃ old ∈ before.writeOps.rows,
    old.id = new.id ∧ old.idempotencyKey = new.idempotencyKey ∧
      (new.state = .prepared → old.state = .prepared ∧ related old.path new.path)

theorem OpsChange.origin {action : CatalogAction} {rows next : List WriteOp}
    (change : OpsChange action rows next) (noneNew : ¬action.Creates) :
    ∀ new ∈ next, ∃ old ∈ rows, old.id = new.id ∧ old.idempotencyKey = new.idempotencyKey ∧
      (new.state = .prepared → old.state = .prepared ∧
        (¬action.Rebinds → old.path = new.path)) := by
  intro new newIn
  cases change with
  | prepared selects update same _ path =>
    obtain ⟨old, oldIn, rfl⟩ := List.mem_map.mp newIn
    refine ⟨old, oldIn, ?_⟩
    unfold ifPrepared
    split_ifs with selected
    · exact ⟨(same old).1.symm, (same old).2.symm, fun _ =>
        ⟨selected.2, fun stays => (path stays old).symm⟩⟩
    · exact ⟨rfl, rfl, fun isPrepared => ⟨isPrepared, fun _ => rfl⟩⟩
  | created op creates => exact absurd creates noneNew
  | committed =>
    obtain ⟨old, oldIn, rfl⟩ := List.mem_map.mp newIn
    refine ⟨old, oldIn, ?_⟩
    unfold committedAs
    split_ifs <;> simp
  | expired root =>
    obtain ⟨old, oldIn, rfl⟩ := List.mem_map.mp newIn
    refine ⟨old, oldIn, ?_⟩
    unfold expiredBy
    split_ifs <;> simp

namespace OpsFrom

variable {related : Path → Path → Prop} {before after : Catalog}

theorem refl (reflexive : ∀ path, related path path) : OpsFrom related before before :=
  fun op opIn => ⟨op, opIn, rfl, rfl, fun prepared => ⟨prepared, reflexive _⟩⟩

theorem trans {middle : Catalog} (transitive : ∀ first second third, related first second →
      related second third → related first third)
    (earlier : OpsFrom related before middle)
    (later : OpsFrom related middle after) : OpsFrom related before after := by
  intro new newIn
  obtain ⟨second, secondIn, sameID, sameKey, second_prepared⟩ := later new newIn
  obtain ⟨first, firstIn, firstID, firstKey, first_prepared⟩ := earlier second secondIn
  refine ⟨first, firstIn, firstID.trans sameID, firstKey.trans sameKey, fun prepared => ?_⟩
  obtain ⟨middlePrepared, laterPath⟩ := second_prepared prepared
  obtain ⟨wasPrepared, earlierPath⟩ := first_prepared middlePrepared
  exact ⟨wasPrepared, transitive _ _ _ earlierPath laterPath⟩

theorem apply {action : CatalogAction} (reflexive : ∀ path, related path path)
    (noneNew : ¬action.Creates) (rebound : action.Rebinds → ∀ first second, related first second)
    (applied : before.apply action = .ok after) :
    OpsFrom related before after := by
  have changes := apply_changes applied
  unfold OpsChanges at changes
  unfold OpsFrom
  generalize after.writeOps.rows = rows at changes ⊢
  induction changes with
  | refl => exact refl reflexive
  | tail _ change ih =>
    intro new newIn
    obtain ⟨middle, middleIn, sameID, sameKey, kept⟩ := change.origin noneNew new newIn
    obtain ⟨old, oldIn, oldID, oldKey, earlier⟩ := ih middle middleIn
    refine ⟨old, oldIn, oldID.trans sameID, oldKey.trans sameKey, fun prepared => ?_⟩
    obtain ⟨middlePrepared, stays⟩ := kept prepared
    obtain ⟨wasPrepared, related⟩ := earlier middlePrepared
    refine ⟨wasPrepared, ?_⟩
    by_cases rebinds : action.Rebinds
    · exact rebound rebinds _ _
    · rwa [← stays rebinds]

end OpsFrom

/-- No two operations share a key. -/
def KeysDistinct (catalog : Catalog) : Prop :=
  ∀ first ∈ catalog.writeOps.rows, ∀ second ∈ catalog.writeOps.rows,
    first.idempotencyKey = second.idempotencyKey → first = second

theorem KeysDistinct.apply {before after : Catalog} {action : CatalogAction}
    (distinct : KeysDistinct before) (applied : before.apply action = .ok after) :
    KeysDistinct after := by
  by_cases creates : action.Creates
  · cases action with
    | createWriteOp key path now =>
      obtain ⟨op, created⟩ := map_snd_eq_ok_iff.mp applied
      rcases (Catalog.createWriteOp_ok created).2 with ⟨-, rfl⟩ | ⟨unknown, -, rfl⟩
      · exact distinct
      · have fresh : ∀ old ∈ before.writeOps.rows, old.idempotencyKey ≠ key := by
          intro old oldIn same
          have missing := List.find?_eq_none.mp unknown old oldIn
          exact missing (by simp [same])
        intro first firstIn second secondIn same
        rcases (SequencedTable.mem_append _ _ _ _).mp firstIn with
          firstOld | rfl
        · rcases (SequencedTable.mem_append _ _ _ _).mp secondIn with
            secondOld | rfl
          · exact distinct first firstOld second secondOld same
          · exact absurd same (fresh first firstOld)
        · rcases (SequencedTable.mem_append _ _ _ _).mp secondIn with
            secondOld | rfl
          · exact absurd same.symm (fresh second secondOld)
          · rfl
    | _ => exact creates.elim
  · have origin : OpsFrom (fun _ _ => True) before after :=
      .apply (fun _ => trivial) creates (fun _ _ _ => trivial) applied
    intro first firstIn second secondIn same
    obtain ⟨old, oldIn, sameID, sameKey, -⟩ := origin first firstIn
    obtain ⟨other, otherIn, otherID, otherKey, -⟩ := origin second secondIn
    have sameOld : old = other := distinct old oldIn other otherIn (by rw [sameKey, otherKey, same])
    refine after.writeOps.eq_of_key_eq firstIn secondIn ?_
    rw [← sameID, ← otherID, sameOld]

end Origins

/-- A handle writes for an operation: the operation is there and, while it is
prepared and the handle still has its name, the two have the same path. -/
def FileServer.Bound (server : FileServer) (handle : FileHandle) : Prop :=
  cleanPath handle.path = handle.path ∧
    ∃ op ∈ server.catalog.writeOps.rows, op.id = handle.writeOpID ∧
      op.idempotencyKey = handle.writeKey ∧
      (op.state = .prepared → handle.unlinked = false → op.path = handle.path)

/-- A handle keeps the path of another one and, if it has an operation, the
operation of it. -/
def FileHandle.Follows (new old : FileHandle) : Prop := new.path = old.path ∧ (new.writeOpID = 0 ∨
      (new.writeOpID = old.writeOpID ∧ new.writeKey = old.writeKey ∧
        (new.unlinked = false → old.unlinked = false)))

theorem FileHandle.Follows.refl (handle : FileHandle) : handle.Follows handle :=
  ⟨rfl, Or.inr ⟨rfl, rfl, id⟩⟩

theorem FileHandle.Follows.trans {first second third : FileHandle} (later : third.Follows second)
    (earlier : second.Follows first) :
    third.Follows first := by
  obtain ⟨path, later⟩ := later
  obtain ⟨earlierPath, earlier⟩ := earlier
  refine ⟨path.trans earlierPath, ?_⟩
  rcases later with none | ⟨op, key, linked⟩
  · exact Or.inl none
  · rcases earlier with none | ⟨earlierOp, earlierKey, earlierLinked⟩
    · exact Or.inl (op.trans none)
    · exact Or.inr ⟨op.trans earlierOp, key.trans earlierKey,
        fun open_ => earlierLinked (linked open_)⟩

theorem FileHandle.Stays.follows {new old : FileHandle} (stays : new.Stays old) :
    new.Follows old := by
  obtain ⟨path, linked, none | same⟩ := stays
  · exact ⟨path, Or.inl none⟩
  · exact ⟨path, Or.inr ⟨same.writeOpID, same.writeKey, linked⟩⟩

/-- A handle follows one of `sources`, or has a clean path and no operation. -/
def FileHandle.From (new : FileHandle) (sources : FileHandle → Prop) : Prop :=
  (∃ old, sources old ∧ new.Follows old) ∨ (new.writeOpID = 0 ∧ cleanPath new.path = new.path)

/-- A change of the server that moves no intent: operations keep their paths or
are new, handles follow earlier ones or are bound. -/
structure Binds (before after : FileServer) : Prop where
  ops : ∀ new ∈ after.catalog.writeOps.rows,
    (∃ old ∈ before.catalog.writeOps.rows, old.id = new.id ∧
      old.idempotencyKey = new.idempotencyKey ∧
      (new.state = .prepared → old.state = .prepared ∧ old.path = new.path)) ∨
    before.catalog.writeOps.has new.id = false
  follow : OpsFollow before.catalog after.catalog
  keys : KeysDistinct before.catalog → KeysDistinct after.catalog
  handles : ∀ new ∈ after.handles.rows, new.From (· ∈ before.handles.rows) ∨ after.Bound new

namespace Binds

variable {before middle after : FileServer}

theorem has_of_follow {first second : Catalog} (follow : OpsFollow first second) {id : Nat}
    (known : first.writeOps.has id = true) :
    second.writeOps.has id = true := by
  obtain ⟨op, opIn, rfl⟩ := (KeyedTable.has_iff _ _).mp known
  obtain ⟨new, newIn, sameID, -⟩ := follow op opIn
  exact (KeyedTable.has_iff _ _).mpr ⟨new, newIn, sameID⟩

theorem refl (server : FileServer) : Binds server server where
  ops op opIn := Or.inl ⟨op, opIn, rfl, rfl, fun prepared => ⟨prepared, rfl⟩⟩
  follow := .refl _
  keys := id
  handles handle handleIn := Or.inl (Or.inl ⟨handle, handleIn, .refl handle⟩)

theorem bound (binds : Binds middle after) {old new : FileHandle} (isBound : middle.Bound old)
    (follows : new.Follows old) :
    (new.writeOpID = 0 ∧ cleanPath new.path = new.path) ∨ after.Bound new := by
  obtain ⟨clean, op, opIn, sameID, sameKey, agrees⟩ := isBound
  obtain ⟨samePath, none | ⟨newOp, newKey, linked⟩⟩ := follows
  · exact Or.inl ⟨none, by rw [samePath, clean]⟩
  obtain ⟨next, nextIn, nextID, nextKey, -⟩ := binds.follow op opIn
  refine Or.inr ⟨by rw [samePath, clean], next, nextIn, ?_, ?_, fun prepared isLinked => ?_⟩
  · rw [nextID, sameID, newOp]
  · rw [nextKey, sameKey, newKey]
  · rcases binds.ops next nextIn with ⟨source, sourceIn, sourceID, -, kept⟩ | isNew
    · obtain ⟨wasPrepared, path⟩ := kept prepared
      have sameOp : source = op := middle.catalog.writeOps.eq_of_key_eq sourceIn opIn
          (sourceID.trans nextID)
      rw [← path, samePath, sameOp]
      exact agrees (sameOp ▸ wasPrepared) (linked isLinked)
    · rw [nextID, (KeyedTable.has_eq_false_iff _ _)] at isNew
      exact absurd rfl (isNew op opIn)

theorem trans (earlier : Binds before middle) (later : Binds middle after) :
    Binds before after where
  ops new newIn := by
    rcases later.ops new newIn with ⟨second, secondIn, sameID, sameKey, kept⟩ | isNew
    · rcases earlier.ops second secondIn with
        ⟨first, firstIn, firstID, firstKey, firstKept⟩ | isNew
      · refine Or.inl ⟨first, firstIn, firstID.trans sameID,
          firstKey.trans sameKey, fun prepared => ?_⟩
        obtain ⟨wasPrepared, path⟩ := kept prepared
        obtain ⟨firstPrepared, firstPath⟩ := firstKept wasPrepared
        exact ⟨firstPrepared, firstPath.trans path⟩
      · rw [sameID] at isNew
        exact Or.inr isNew
    · refine Or.inr ?_
      by_contra known
      rw [Bool.not_eq_false] at known
      rw [has_of_follow earlier.follow known] at isNew
      cases isNew
  follow := earlier.follow.trans later.follow
  keys distinct := later.keys (earlier.keys distinct)
  handles new newIn := by
    rcases later.handles new newIn with
      (⟨old, oldIn, follows⟩ | alone) | isBound
    · rcases earlier.handles old oldIn with
        (⟨first, firstIn, followed⟩ | ⟨none, clean⟩) | isBound
      · exact Or.inl (Or.inl ⟨first, firstIn, follows.trans followed⟩)
      · refine Or.inl (Or.inr ⟨?_, by rw [follows.1]; exact clean⟩)
        rcases follows.2 with done | ⟨op, -⟩
        · exact done
        · exact op.trans none
      · rcases later.bound isBound follows with alone | stays
        · exact Or.inl (Or.inr alone)
        · exact Or.inr stays
    · exact Or.inl (Or.inr alone)
    · exact Or.inr isBound

theorem of_moves {allowed : CatalogAction → Prop}
    (moves : ServerMoves allowed (fun _ => False) before after)
    (noneNew : ∀ action, allowed action → ¬action.Creates)
    (noneMoved : ∀ action, allowed action → ¬action.Rebinds) :
    Binds before after where
  ops := by
    have origin : OpsFrom Eq before.catalog after.catalog := by
      refine moves.1.keeps (fun first action second permitted applied from_ =>
        from_.trans (fun _ _ _ => Eq.trans) ?_) (.refl fun _ => rfl)
      exact .apply (fun _ => rfl) (noneNew action permitted)
        (fun rebinds => absurd rebinds (noneMoved action permitted)) applied
    exact fun new newIn => Or.inl (origin new newIn)
  follow := moves.1.keeps (fun _ _ _ _ applied follow => follow.trans (.apply applied)) (.refl _)
  keys := moves.1.keeps fun _ _ _ _ applied distinct => distinct.apply applied
  handles new newIn := by
    rcases moves.2 new newIn with ⟨old, oldIn | impossible, stays⟩ | alone
    · exact Or.inl (Or.inl ⟨old, oldIn, stays.follows⟩)
    · exact impossible.elim
    · exact Or.inl (Or.inr alone)

end Binds

/-- The name each intent stands for, by operation; none once it was removed. -/
abbrev IntentNames := Nat → Option Path

namespace IntentNames

/-- A new operation stands for the path it was recorded with. -/
def noted (names : IntentNames) (before after : Catalog) : IntentNames := fun id =>
    if before.writeOps.has id then names id
    else (after.writeOps.find? id).map WriteOp.path

/-- Names that are gone. -/
def removed (names : IntentNames) (gone : Path → Bool) : IntentNames :=
  fun id => (names id).filter fun path => !gone path

/-- Names at or below the old path move with it; the replaced name, and those
below it if it was a directory, are gone. -/
def moved (names : IntentNames) (oldPath newPath : Path) (replacesDirectory : Bool) : IntentNames :=
  fun id => (names id).bind fun path =>
    if AtOrBelow oldPath path then some (movedPath oldPath newPath path)
    else if path = newPath ∨ (replacesDirectory ∧ Below newPath path) then none
    else some path

/-- The record after a request that was answered. -/
def after {plain : Bytes → Bytes} (names : IntentNames) (before : FileServer)
    (exchange : Request plain × Reply) (after : FileServer) : IntentNames :=
  match exchange with
  | (.unlink path, .done) =>
    (names.noted before.catalog after.catalog).removed (· == cleanPath path)
  | (.rmdir path, .done) =>
    (names.noted before.catalog after.catalog).removed
      fun name => decide (AtOrBelow (cleanPath path) name)
  | (.rename oldPath newPath _, .done) =>
    (names.noted before.catalog after.catalog).moved (cleanPath oldPath)
      (cleanPath newPath) (before.catalog.dirs.has (cleanPath newPath))
  | _ => names.noted before.catalog after.catalog

end IntentNames

/-- Every prepared operation is recorded where it stands, and every handle that
writes is bound to its operation. -/
structure IntentsBound (server : FileServer) (names : IntentNames) : Prop where
  named : ∀ op ∈ server.catalog.writeOps.rows, op.state = .prepared → names op.id = some op.path
  keys : KeysDistinct server.catalog
  clean : ∀ handle ∈ server.handles.rows, cleanPath handle.path = handle.path
  bound : ∀ handle ∈ server.handles.rows, handle.writeOpID ≠ 0 → server.Bound handle

namespace IntentsBound

variable {before after : FileServer} {names : IntentNames}

theorem initial (counter : Nat) : IntentsBound (.initial counter) fun _ => none where
  named _ opIn := by cases opIn
  keys _ firstIn := by cases firstIn
  clean _ handleIn := by cases handleIn
  bound _ handleIn := by cases handleIn

theorem of_binds (isBound : IntentsBound before names) (binds : Binds before after) :
    IntentsBound after (names.noted before.catalog after.catalog) := by
  have handles : ∀ handle ∈ after.handles.rows, cleanPath handle.path = handle.path ∧
        (handle.writeOpID ≠ 0 → after.Bound handle) := by
    intro handle handleIn
    rcases binds.handles handle handleIn with
      (⟨old, oldIn, follows⟩ | ⟨none, clean⟩) | bound
    · refine ⟨by rw [follows.1]; exact isBound.clean old oldIn, fun writes => ?_⟩
      have oldWrites : old.writeOpID ≠ 0 := by
        rcases follows.2 with none | ⟨same, -⟩
        · exact absurd none writes
        · rwa [← same]
      rcases binds.bound (isBound.bound old oldIn oldWrites) follows with
        ⟨none, -⟩ | bound
      · exact absurd none writes
      · exact bound
    · exact ⟨clean, fun writes => absurd none writes⟩
    · exact ⟨bound.1, fun _ => bound⟩
  refine ⟨fun op opIn prepared => ?_, binds.keys isBound.keys,
    fun handle handleIn => (handles handle handleIn).1,
    fun handle handleIn => (handles handle handleIn).2⟩
  unfold IntentNames.noted
  rcases binds.ops op opIn with ⟨old, oldIn, sameID, -, kept⟩ | isNew
  · obtain ⟨wasPrepared, samePath⟩ := kept prepared
    have known : before.catalog.writeOps.has op.id = true :=
      (KeyedTable.has_iff _ _).mpr ⟨old, oldIn, sameID⟩
    rw [if_pos known, ← sameID, ← samePath]
    exact isBound.named old oldIn wasPrepared
  · have found : after.catalog.writeOps.find? op.id = some op :=
      (KeyedTable.find?_eq_some_iff _ _ _).mpr ⟨opIn, rfl⟩
    rw [if_neg (by simp [isNew]), found]
    rfl

theorem removed (isBound : IntentsBound after names) {gone : Path → Bool}
    (free : ∀ op ∈ after.catalog.writeOps.rows, op.state = .prepared → gone op.path = false) :
    IntentsBound after (names.removed gone) := by
  refine ⟨fun op opIn prepared => ?_, isBound.keys, isBound.clean, isBound.bound⟩
  unfold IntentNames.removed
  rw [isBound.named op opIn prepared]
  simp [free op opIn prepared]

end IntentsBound

instance : Std.Refl Binds := ⟨Binds.refl⟩

instance : IsTrans FileServer Binds := ⟨fun _ _ _ => Binds.trans⟩

namespace FileServer

variable {plain : Bytes → Bytes} {α : Type}

section Opening

theorem binds_frame (start : FileServer) :
    Frame (fun action => ¬action.Creates ∧ ¬action.Rebinds) (·.From (· ∈ start.handles.rows))
      (fun _ => True) (Binds start) where
  acts spares applied binds := binds.trans (.of_moves (.of_transacts (.of_apply spares applied) rfl)
    (fun _ => And.left) fun _ => And.right)
  puts placed binds := by
    refine ⟨binds.ops, binds.follow, binds.keys, fun new newIn => ?_⟩
    rcases (KeyedTable.mem_put _ _ _).mp newIn with ⟨oldIn, -⟩ | rfl
    · exact binds.handles new oldIn
    · exact Or.inl placed
  drops subset binds := ⟨binds.ops, binds.follow, binds.keys,
    fun new newIn => binds.handles new (subset new newIn)⟩
  counts _ binds := ⟨binds.ops, binds.follow, binds.keys, binds.handles⟩
  chunks _ _ := trivial

theorem binds_of_keeps {action : ServerM α} {result : α → Prop}
    (keeps : ∀ start, Keeps (Binds start) action result) :
    Along Binds action :=
  fun server => (keeps server server (.refl server)).mono (fun _ _ => And.left) fun _ => id

theorem nextHandle_binds : Along Binds nextHandle :=
  binds_of_keeps fun start => (binds_frame start).nextHandle_keeps

theorem expire_binds (now : Int) :
    Along Binds (transaction fun catalog => catalog.expireWriteResults now) :=
  binds_of_keeps fun start => (binds_frame start).transaction_keeps (.expireWriteResults now)
    ⟨id, id⟩ fun _ => rfl

theorem putHandle_binds {server : FileServer} {handle : FileHandle}
    (placed : handle.From (· ∈ server.handles.rows) ∨ server.Bound handle) :
    Binds server { server with handles := server.handles.put handle } := by
  refine ⟨(Binds.refl server).ops, .refl _, id, fun new newIn => ?_⟩
  rcases (KeyedTable.mem_put _ _ _).mp newIn with ⟨oldIn, -⟩ | rfl
  · exact Or.inl (Or.inl ⟨new, oldIn, .refl new⟩)
  · exact placed

/-- The operation of a key: known already, or new and prepared on the path. -/
theorem createWriteOp_ends (key : String) (path : Path) (clock : Int) (server : FileServer) :
    Ends (transaction fun catalog => catalog.createWriteOp key path clock) server
      (fun op after => Binds server after ∧ after.handles = server.handles ∧
        op ∈ after.catalog.writeOps.rows ∧ op.idempotencyKey = key ∧
        (server.catalog.writeOpByKey key = none → op.state = .prepared ∧ op.path = cleanPath path))
      (Binds server) := by
  refine transaction_ends (fun op catalog created => ?_) (.refl server)
  have applied : server.catalog.apply (.createWriteOp key path clock) =
      .ok catalog := map_snd_eq_ok_iff.mpr ⟨op, created⟩
  have handles : ∀ new ∈ server.handles.rows, new.From (· ∈ server.handles.rows) ∨
        FileServer.Bound { server with catalog } new :=
    fun new newIn => Or.inl (Or.inl ⟨new, newIn, .refl new⟩)
  have keys : KeysDistinct server.catalog → KeysDistinct catalog :=
    fun distinct => distinct.apply applied
  rcases (Catalog.createWriteOp_ok created).2 with ⟨known, rfl⟩ | ⟨unknown, rfl, rfl⟩
  · have found := List.find?_some known
    refine ⟨⟨(Binds.refl server).ops, .apply applied, keys, handles⟩, rfl,
      List.mem_of_find?_eq_some known, by simpa using found,
      fun unknown => ?_⟩
    rw [known] at unknown
    cases unknown
  · refine ⟨⟨fun new newIn => ?_, .apply applied, keys, handles⟩, rfl,
      by simp, rfl, fun _ => ⟨rfl, rfl⟩⟩
    rcases (SequencedTable.mem_append _ _ _ _).mp newIn with oldIn | rfl
    · exact (Binds.refl server).ops new oldIn
    · refine Or.inr ((KeyedTable.has_eq_false_iff _ _).mpr ?_)
      intro old oldIn same
      have bounded := server.catalog.writeOps.bounded old oldIn
      dsimp only at same
      omega

theorem ensureRecoveryFileID_ends (handle : FileHandle) (op : WriteOp) (env : RequestEnv)
    (server : FileServer) :
    Ends (ensureRecoveryFileID handle op env) server
      (fun named after => Binds server after ∧ named.Follows handle ∧
        named.handle = handle.handle ∧ after.handles = server.handles)
      (Binds server) := by
  unfold ensureRecoveryFileID
  dsimp only
  split_ifs
  · exact .pure ⟨.refl server, .refl handle, rfl, rfl⟩
  · exact .pure ⟨.refl server, ⟨rfl, Or.inr ⟨rfl, rfl, id⟩⟩, rfl, rfl⟩
  · have moves : ∀ tail, ServerMoves (· = .setWriteOpTail op.id tail) (fun _ => False) server
          { server with
            catalog := server.catalog.setWriteOpTail op.id tail } :=
      fun tail => .of_transacts (.of_apply rfl rfl) rfl
    refine ⟨.of_moves (moves _) ?_ ?_, ⟨rfl, Or.inr ⟨rfl, rfl, id⟩⟩, rfl,
      rfl⟩
    · rintro action rfl
      exact id
    · rintro action rfl
      exact id

/-- A handle that a request may keep: it has no operation or is bound. -/
def Placed (server : FileServer) (handle : FileHandle) : Prop :=
  handle.From (· ∈ server.handles.rows) ∨ server.Bound handle

theorem openOperation_ends {handle : FileHandle} (key : String) (env : RequestEnv)
    (clean : cleanPath handle.path = handle.path) (server : FileServer) :
    Ends (openOperation handle key env) server
      (fun opened after => Binds server after ∧ after.Placed opened)
      (Binds server) := by
  refine (createWriteOp_ends key handle.path env.clock server).bind
    fun op middle ⟨binds, _, opIn, sameKey, _⟩ => ?_
  split_ifs with elsewhere finished
  · exact .throw binds
  · exact .throw binds
  · have keyed : middle.Bound
        { handle with
          writeOpID := op.id
          writeKey := op.idempotencyKey
          retainResult := true } := by
      refine ⟨clean, op, opIn, rfl, rfl, fun prepared _ => ?_⟩
      by_contra different
      exact elsewhere ⟨different, fun committed => by
        rw [prepared] at committed
        cases committed.1⟩
    have basing : ∀ start : FileHandle, Ends (resultBase start op) middle
        (fun based after => after = middle ∧ based.Follows start)
        (Binds server) := by
      intro start
      unfold resultBase
      split_ifs
      · refine query_bind (fun chunks _ => ?_) binds
        refine query_bind (fun mtime _ => ?_) binds
        exact .pure ⟨rfl, rfl, Or.inr ⟨rfl, rfl, id⟩⟩
      · exact .pure ⟨rfl, .refl start⟩
    refine (basing _).bind fun based second ⟨same, follows⟩ => ?_
    subst same
    refine ((ensureRecoveryFileID_ends based op env second).mono
      (fun _ _ facts => facts) (fun _ => binds.trans)).bind
        fun named third ⟨later, namedFollows, _⟩ => ?_
    refine .pure ⟨binds.trans later, ?_⟩
    have settled : (FileHandle.Follows
        { named with cache := some (newWriteCache named.chunks) } named) :=
      ⟨rfl, Or.inr ⟨rfl, rfl, id⟩⟩
    rcases later.bound keyed ((settled.trans namedFollows).trans follows) with
      alone | isBound
    · exact Or.inl (Or.inr alone)
    · exact Or.inr isBound

theorem openHandle_binds (path : Path) (key : String) (env : RequestEnv) :
    Along Binds (openHandle path key env) := by
  refine .bind (expire_binds env.now) fun _ => ?_
  dsimp only
  split_ifs
  · exact .throw _
  · refine .bind .get fun current => ?_
    split_ifs
    · exact .throw _
    · refine .bind (.of_still (validateFileAncestors_still _)) fun _ =>
        .bind (.of_still query_still) fun chunks =>
          .bind nextHandle_binds fun number server => ?_
      have joined : ∀ handle : FileHandle,
          cleanPath handle.path = handle.path → handle.writeOpID = 0 →
          Ends (joinOperation handle key env) server
            (fun opened after => Binds server after ∧ after.Placed opened)
            (Binds server) := by
        intro handle clean none
        unfold joinOperation
        split_ifs
        · exact .pure ⟨.refl server, Or.inl (Or.inr ⟨none, clean⟩)⟩
        · exact openOperation_ends key env clean server
      refine (joined _ (cleanPath_cleanPath path) rfl).bind fun opened middle ⟨binds, placed⟩ => ?_
      have answering : Ends (openResponse opened) middle
          (fun _ after => after = middle) (Binds server) := by
        unfold openResponse
        split_ifs
        · exact .pure rfl
        · exact query_bind (fun op _ => .bind_get (.pure rfl)) binds
      refine answering.bind fun response second same => ?_
      subst same
      exact binds.trans (putHandle_binds placed)

end Opening

section Writing

/-- The key that a handle without an operation would get is unknown. -/
def FreshKey (server : FileServer) (handle : Nat) : Prop :=
  ∀ found ∈ server.handles.rows, found.handle = handle → found.writeOpID = 0 →
      server.catalog.writeOpByKey (legacyKey handle found.writeSeq) = none

theorem ensureWriteOperation_ends {server : FileServer} {found : FileHandle} (env : RequestEnv)
    (present : found ∈ server.handles.rows) (clean : cleanPath found.path = found.path)
    (fresh : server.FreshKey found.handle) :
    Ends (ensureWriteOperation found env) server
      (fun writing after => Binds server after ∧ writing ∈ after.handles.rows)
      (Binds server) := by
  unfold ensureWriteOperation
  split_ifs with writes
  · exact .pure ⟨.refl server, present⟩
  · rw [not_not] at writes
    have counted : server.Placed
        { found with writeSeq := found.writeSeq + 1 } :=
      Or.inl (Or.inl ⟨found, present, rfl, Or.inr ⟨rfl, rfl, id⟩⟩)
    have first := putHandle_binds counted
    refine putHandle_bind ?_
    refine ((createWriteOp_ends _ found.path env.clock _).mono
      (fun _ _ facts => facts) (fun _ => first.trans)).bind
        fun op third ⟨created, sameHandles, opIn, sameKey, new⟩ => ?_
    obtain ⟨prepared, path⟩ := new (fresh found present rfl writes)
    have keyed : third.Bound
        { found with
          writeSeq := found.writeSeq + 1
          writeOpID := op.id
          writeKey := legacyKey found.handle found.writeSeq
          retainResult := false } :=
      ⟨clean, op, opIn, rfl, sameKey, fun _ _ => path.trans clean⟩
    have fourth := (first.trans created).trans (putHandle_binds (Or.inr keyed))
    refine putHandle_bind ?_
    refine ((ensureRecoveryFileID_ends _ op env _).mono
      (fun _ _ facts => facts) (fun _ => fourth.trans)).bind
        fun named fifth ⟨later, follows, _, laterHandles⟩ => ?_
    have listed : ∀ handle, handle ∈ (third.handles.put handle).rows :=
      fun handle => (KeyedTable.mem_put _ _ _).mpr (Or.inr rfl)
    have placed : fifth.Placed named := by
      refine Or.inl (Or.inl ⟨_, ?_, follows⟩)
      rw [laterHandles]
      exact listed _
    refine putHandle_bind (.pure ⟨?_, ?_⟩)
    · exact (fourth.trans later).trans (putHandle_binds placed)
    · exact (KeyedTable.mem_put _ _ _).mpr (Or.inr rfl)

theorem writeCached_binds {server : FileServer} {handle : FileHandle}
    (present : handle ∈ server.handles.rows) (offset : Nat) (data : Bytes)
    (spiller : CacheSpiller plain) :
    Ends (writeCached handle offset data spiller) server
      (fun _ after => Binds server after) (Binds server) := by
  unfold writeCached
  dsimp only
  split
  · exact putHandle_bind (.throw (putHandle_binds
      (Or.inl (Or.inl ⟨handle, present, rfl, Or.inr ⟨rfl, rfl, id⟩⟩))))
  · exact putHandle_bind (.pure (putHandle_binds
      (Or.inl (Or.inl ⟨handle, present, rfl, Or.inr ⟨rfl, rfl, id⟩⟩))))

theorem write_ends {server : FileServer} (handle offset : Nat) (data : Bytes) (env : RequestEnv)
    (payload : PayloadReader plain) (spiller : CacheSpiller plain)
    (clean : ∀ found ∈ server.handles.rows, cleanPath found.path = found.path)
    (fresh : server.FreshKey handle) :
    Ends (write handle offset data env payload spiller) server
      (fun _ after => Binds server after) (Binds server) := by
  refine findHandle_bind (fun found isFound => ?_) (.refl server)
  obtain ⟨present, rfl⟩ := (KeyedTable.find?_eq_some_iff _ _ _).mp isFound
  split_ifs
  · exact .throw (.refl server)
  · refine (ensureWriteOperation_ends env present (clean found present)
      fresh).bind fun writing second ⟨binds, writingIn⟩ => ?_
    refine writeOpForMutation_bind (fun op _ _ => ?_) binds
    cases op.state with
    | committed =>
      exact ((Along.of_still (validateCommittedWriteRetry_still op offset
        data payload)).bind (fun _ => .pure _) second).mono
          (fun _ _ => binds.trans) (fun _ => binds.trans)
    | prepared =>
      exact (writeCached_binds writingIn offset data spiller).mono
        (fun _ _ => binds.trans) (fun _ => binds.trans)
    | abandoned => exact .throw binds
    | cancelled => exact .throw binds
    | expired => exact .throw binds

theorem setHandleMtime_binds (handle : Nat) (mtime : Int) (env : RequestEnv) (server : FileServer) :
    Ends (setHandleMtime handle mtime env) server (fun _ after => Binds server after)
      (Binds server) := by
  refine @Frame.setHandleMtime_ends id _ _ _ _ server (binds_frame server) mtime
    (fun _ => ⟨id, id⟩) handle env ?_ (.refl server)
  rintro new ⟨found, openedMtime, isFound, -, rfl⟩
  exact Or.inl ⟨found, KeyedTable.mem_of_find? isFound, rfl, Or.inr ⟨rfl, rfl, id⟩⟩

end Writing

end FileServer

end Rose
