import Rose.RequestEffects

/-!
# How finishing a handle ends

Closing and flushing share one body with many ends.  Once elapsed results have
expired, a request is refused, or reports about a handle that is gone, unlinked
or reading, or confirms a committed result, or publishes.  The ends are listed
once, with what was read on the way and the catalog that is left.
-/

namespace Rose

open FallibleActions

namespace FileServer

variable {plain : Bytes → Bytes}

/-- Elapsed results expired and nothing else happened. -/
def Expired (server : FileServer) (now : Int) (start : FileServer) : Prop :=
  start = { server with catalog := start.catalog } ∧
    ∃ count, server.catalog.expireWriteResults now = .ok (count, start.catalog)

theorem Expired.applied {server start : FileServer} {now : Int}
    (expired : server.Expired now start) :
    server.catalog.apply (.expireWriteResults now) = .ok start.catalog := by
  obtain ⟨-, count, expiring⟩ := expired
  exact map_snd_eq_ok_iff.mpr ⟨count, expiring⟩

/-- The deadline a handle asks for its result; zero keeps none. -/
def askedDeadline (handle : FileHandle) (env : FinishEnv plain) : Int :=
  if handle.retainResult then env.now + env.retryRetention else 0

/-- The ends of finishing: the deadline reported, none for a failure, and the
catalog that is left. -/
inductive Finishing (handle : Nat) (key : String) (env : FinishEnv plain) (start : FileServer) :
    Option Int → Catalog → Prop
  | refused : Finishing handle key env start none start.catalog
  | answered (op : WriteOp) (absent : start.handles.find? handle = none)
      (known : start.catalog.writeOpByKey key = some op)
      (committed : op.state = .committed) :
      Finishing handle key env start (some (start.catalog.writeResultDeadline op.id)) start.catalog
  | forgotten (op : WriteOp) (absent : start.handles.find? handle = none)
      (known : start.catalog.writeOpByKey key = some op)
      (cancelled : op.state = .cancelled) :
      Finishing handle key env start (some 0) start.catalog
  | released (found : FileHandle) (catalog : Catalog)
      (present : start.handles.find? handle = some found)
      (writes : found.writeOpID ≠ 0) (unlinked : found.unlinked = true)
      (left : catalog = start.catalog ∨ catalog = start.catalog.cancelWriteOp found.writeOpID) :
      Finishing handle key env start (some 0) catalog
  | read (found : FileHandle) (present : start.handles.find? handle = some found)
      (none : found.writeOpID = 0) :
      Finishing handle key env start (some 0) start.catalog
  | confirmed (found : FileHandle) (op : WriteOp) (placements : List ChunkPlacement) (mtime : Int)
      (present : start.handles.find? handle = some found)
      (writes : found.writeOpID ≠ 0) (linked : found.unlinked = false)
      (known : start.catalog.writeOpByKey found.writeKey = some op)
      (committed : op.state = .committed)
      (chunks : start.catalog.fileVersionChunks op.fileID = .ok placements)
      (validated : validateTouched found op placements env.payload start = .ok () start)
      (stamped : start.catalog.fileVersionMtime op.fileID = .ok mtime)
      (agrees : ∀ asked, found.mtime = some asked → asked = mtime) :
      Finishing handle key env start (some (start.catalog.writeResultDeadline op.id)) start.catalog
  | published (found : FileHandle) (op : WriteOp)
      (chunks : PreparedChunks plain) (fileID : Nat) (catalog : Catalog)
      (reported : Option Int)
      (present : start.handles.find? handle = some found)
      (writes : found.writeOpID ≠ 0) (linked : found.unlinked = false)
      (known : start.catalog.writeOpByKey found.writeKey = some op)
      (uncommitted : op.state ≠ .committed)
      (commits : start.catalog.commitWriteOpVersion op.id found.path
        (found.mtime.getD env.clock) chunks.placements
        (askedDeadline found env) = .ok (fileID, catalog))
      (reports : reported = none ∨ reported = some (catalog.writeResultDeadline op.id)) :
      Finishing handle key env start reported catalog

section Ends

variable {handle : Nat} {key : String} {env : FinishEnv plain} {start : FileServer}

theorem ends_of_still {α : Type} {action : ServerM α} {server : FileServer}
    (still : Along Eq action) :
    Ends action server (fun value after => after = server ∧ action server = .ok value server)
      (· = server) := by
  have ends := still server
  unfold Ends at ends ⊢
  cases outcome : action server with
  | ok value after =>
    rw [outcome] at ends
    subst ends
    exact ⟨rfl, rfl⟩
  | error reason after =>
    rw [outcome] at ends
    exact ends.symm

theorem finishWithoutHandle_ends (absent : start.handles.find? handle = none) :
    Ends (finishWithoutHandle key) start
      (fun deadline after =>
        Finishing handle key env start (some deadline) after.catalog)
      (fun after => Finishing handle key env start none after.catalog) := by
  unfold finishWithoutHandle
  split_ifs
  · exact .throw .refused
  · refine findWriteOp_bind (fun op known => ?_) .refused
    cases state : op.state with
    | committed => exact .bind_get (.pure (.answered op absent known state))
    | cancelled => exact .pure (.forgotten op absent known state)
    | prepared => exact .throw .refused
    | abandoned => exact .throw .refused
    | expired => exact .throw .refused

theorem settleHandle_ends (found : FileHandle) (remove : Bool) (finished : Finished)
    {before : FileServer} :
    Ends (settleHandle found remove finished) before
      (fun _ after => after.catalog = before.catalog) (fun _ => False) := by
  unfold settleHandle
  split_ifs
  · exact rfl
  · exact rfl

theorem commitVersion_ends (found : FileHandle) (opID : Nat) (mtime : Int)
    (chunks : PreparedChunks plain) {before : FileServer} :
    Ends (commitVersion found opID mtime chunks env) before
      (fun fileID after => after = { before with catalog := after.catalog } ∧
        before.catalog.commitWriteOpVersion opID found.path mtime
          chunks.placements (askedDeadline found env) = .ok (fileID, after.catalog))
      (· = before) := by
  unfold commitVersion
  refine transaction_ends (fun fileID catalog committed => ⟨rfl, ?_⟩) rfl
  unfold askedDeadline
  cases retains : found.retainResult with
  | true =>
    simp only [retains, if_true] at committed ⊢
    exact (Catalog.commitWithRetention_ok committed).2
  | false =>
    simp only [retains] at committed ⊢
    exact committed

theorem finishWriter_ends {found : FileHandle} (remove : Bool)
    (present : start.handles.find? handle = some found) (writes : found.writeOpID ≠ 0)
    (linked : found.unlinked = false) :
    Ends (finishWriter found remove env) start
      (fun deadline after =>
        Finishing handle key env start (some deadline) after.catalog)
      (fun after => Finishing handle key env start none after.catalog) := by
  refine findWriteOp_bind (fun op known => ?_) .refused
  split_ifs with expired
  · exact .throw .refused
  by_cases committed : op.state = .committed
  · have confirming : Ends (finishOperation found op env) start
        (fun _ after => after = start ∧ Finishing handle key env start
            (some (start.catalog.writeResultDeadline op.id)) start.catalog)
        (fun after => Finishing handle key env start none after.catalog) := by
      unfold finishOperation
      rw [if_pos committed]
      refine query_bind (fun placements chunks => ?_) .refused
      refine ((ends_of_still (validateTouched_still found op placements
        env.payload)).mono (fun _ _ => id) ?_).bind ?_
      · rintro after rfl
        exact .refused
      · rintro _ middle ⟨rfl, validated⟩
        refine query_bind (fun mtime stamped => ?_) .refused
        split_ifs with differs
        · exact .throw .refused
        · refine .pure ⟨rfl, .confirmed found op placements mtime present
            writes linked known committed chunks validated stamped ?_⟩
          intro asked isAsked
          simpa [isAsked] using differs
    refine confirming.bind ?_
    rintro finished middle ⟨rfl, ending⟩
    refine .bind_get (((settleHandle_ends found remove finished).mono
      (fun _ _ => id) (fun _ impossible => impossible.elim)).bind ?_)
    intro _ after same
    refine .pure ?_
    rw [same]
    exact ending
  · have publishing : Ends (finishOperation found op env) start
        (fun _ after => ∀ reported, reported = none ∨
            reported = some (after.catalog.writeResultDeadline op.id) →
          Finishing handle key env start reported after.catalog)
        (fun after => Finishing handle key env start none after.catalog) := by
      unfold finishOperation
      rw [if_neg committed]
      refine putHandle_bind ?_
      cases prepared : env.prepared with
      | error reason => exact .throw .refused
      | ok chunks =>
        refine ((commitVersion_ends _ op.id _ chunks).mono
          (fun _ _ => id) ?_).bind fun fileID after ⟨_, commits⟩ => ?_
        · rintro after rfl
          exact .refused
        · have ending : ∀ reported, reported = none ∨
              reported = some (after.catalog.writeResultDeadline op.id) →
              Finishing handle key env start reported after.catalog :=
            fun reported reports => .published found op chunks fileID
              after.catalog reported present writes linked known committed
              commits reports
          split_ifs
          · exact .throw (ending none (Or.inl rfl))
          · exact .pure ending
    refine publishing.bind fun finished middle ending => ?_
    refine .bind_get (((settleHandle_ends found remove finished).mono
      (fun _ _ => id) (fun _ impossible => impossible.elim)).bind ?_)
    intro _ after same
    refine .pure ?_
    rw [same]
    exact ending _ (Or.inr rfl)

/-- Every end of finishing a handle. -/
theorem finishHandle_ends (remove : Bool) (server : FileServer) :
    Ends (finishHandle handle remove key env) server
      (fun deadline after => ∃ start, server.Expired env.now start ∧
        Finishing handle key env start (some deadline) after.catalog)
      (fun after => after = server ∨ ∃ start, server.Expired env.now start ∧
        Finishing handle key env start none after.catalog) := by
  have expiring : Ends (transaction fun catalog => catalog.expireWriteResults env.now) server
      (fun _ start => server.Expired env.now start)
      (fun after => after = server ∨ ∃ start, server.Expired env.now start ∧
        Finishing handle key env start none after.catalog) :=
    transaction_ends (fun count catalog expired => ⟨rfl, count, expired⟩) (Or.inl rfl)
  refine expiring.bind fun _ start expired => ?_
  refine Ends.mono (Ends.bind_get ?_) (fun deadline after ending =>
    (⟨start, expired, ending⟩ : ∃ start, server.Expired env.now start ∧
      Finishing handle key env start (some deadline) after.catalog))
    (fun _ ending => Or.inr ⟨start, expired, ending⟩)
  cases present : start.handles.find? handle with
  | none => exact finishWithoutHandle_ends present
  | some found =>
    dsimp only
    split_ifs with mismatch unlinked none
    · exact .throw .refused
    · unfold finishUnlinked
      split_ifs
      · exact Finishing.released found _ present unlinked.2 unlinked.1 (Or.inr rfl)
      · exact .pure (.released found _ present unlinked.2 unlinked.1 (Or.inl rfl))
    · unfold finishReader
      split_ifs
      · exact Finishing.read found present none
      · exact .pure (.read found present none)
    · refine finishWriter_ends remove present none ?_
      by_contra linked
      exact unlinked ⟨by simpa using linked, none⟩

end Ends

end FileServer

/-- A request to finish a handle; a flush gives no key. -/
def Request.Asks {plain : Bytes → Bytes} (request : Request plain) (handle : Nat) (key : String)
    (env : FinishEnv plain) : Prop :=
  request = .close handle key env ∨ (request = .flush handle env ∧ key = "")

theorem Request.asks_of_finishes {plain : Bytes → Bytes} {request : Request plain}
    (finishes : request.Finishes) :
    ∃ handle key env, request.Asks handle key env := by
  cases request with
  | flush handle env => exact ⟨handle, "", env, Or.inr ⟨rfl, rfl⟩⟩
  | close handle key env => exact ⟨handle, key, env, Or.inl rfl⟩
  | _ => exact finishes.elim

/-- How a request that finishes a handle is answered. -/
theorem FileServer.Serves.finishing {plain : Bytes → Bytes} {before after : FileServer}
    {request : Request plain} {reply : Reply} {handle : Nat} {key : String} {env : FinishEnv plain}
    (served : before.Serves (request, reply) after) (asks : request.Asks handle key env) :
    (∃ deadline start, reply = .finished deadline ∧ before.Expired env.now start ∧
      Finishing handle key env start (some deadline) after.catalog) ∨
    (∃ reason, reply = .failed reason) ∧ (after = before ∨ ∃ start, before.Expired env.now start ∧
        Finishing handle key env start none after.catalog) := by
  have answered : ∃ remove, answer .finished
      (finishHandle handle remove key env) before = (reply, after) := by
    rcases asks with rfl | ⟨rfl, rfl⟩
    · exact ⟨true, served⟩
    · exact ⟨false, served⟩
  obtain ⟨remove, answered⟩ := answered
  have ends := @finishHandle_ends plain handle key env remove before
  rcases answer_ends .finished ends with
    ⟨deadline, next, same, start, expired, ending⟩ |
    ⟨reason, next, same, ending⟩
  · obtain ⟨rfl, rfl⟩ := Prod.mk.inj (same.symm.trans answered)
    exact Or.inl ⟨deadline, start, rfl, expired, ending⟩
  · obtain ⟨rfl, rfl⟩ := Prod.mk.inj (same.symm.trans answered)
    exact Or.inr ⟨⟨reason, rfl⟩, ending⟩

end Rose
