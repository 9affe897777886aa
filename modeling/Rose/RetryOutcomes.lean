import Rose.IntentRuns

/-!
# Outcomes of retried operations

A key has at most one operation, and the operation at most one result.  Once it
is committed, its version and its deadline stay until the result expires, and
an operation that left the prepared state publishes nothing more.  Along runs
of requests this bounds what is published for a key and fixes what its closes
report.
-/

namespace Rose

open FallibleActions LabelledRuns

section Results

/-- Operations follow, and a result that is still there has its deadline. -/
structure ResultsStay (before after : Catalog) : Prop where
  follow : OpsFollow before after
  deadlines : ∀ op ∈ before.writeOps.rows, op.state = .committed →
    ∀ new ∈ after.writeOps.rows, new.id = op.id → new.state = .committed →
      after.writeResultDeadline op.id = before.writeResultDeadline op.id

namespace ResultsStay

variable {before middle after : Catalog}

theorem refl (catalog : Catalog) : ResultsStay catalog catalog :=
  ⟨.refl catalog, fun _ _ _ _ _ _ _ => rfl⟩

theorem trans (earlier : ResultsStay before middle) (later : ResultsStay middle after) :
    ResultsStay before after := by
  refine ⟨earlier.follow.trans later.follow,
    fun op opIn committed third thirdIn sameID thirdCommitted => ?_⟩
  obtain ⟨second, secondIn, secondID, -, moved⟩ := earlier.follow op opIn
  obtain ⟨next, nextIn, nextID, -, movedOn⟩ := later.follow second secondIn
  have same : next = third := after.writeOps.eq_of_key_eq nextIn thirdIn
      (nextID.trans (secondID.trans sameID.symm))
  subst same
  have secondCommitted : second.state = .committed := by
    rcases moved with rfl | prepared | ⟨-, expired⟩
    · exact committed
    · rw [committed] at prepared
      cases prepared
    · rcases movedOn with rfl | prepared | ⟨impossible, -⟩
      · exact thirdCommitted
      · rw [expired] at prepared
        cases prepared
      · rw [expired] at impossible
        cases impossible
  have first := earlier.deadlines op opIn committed second secondIn secondID secondCommitted
  have next_deadline := later.deadlines second secondIn secondCommitted next
    nextIn nextID thirdCommitted
  rw [secondID] at next_deadline
  exact next_deadline.trans first

theorem of_roots (follow : OpsFollow before after) (same : after.resultRoots = before.resultRoots) :
    ResultsStay before after := by
  refine ⟨follow, fun op _ _ _ _ _ _ => ?_⟩
  unfold Catalog.writeResultDeadline
  rw [same]

theorem commitWriteOpVersion {opID fileID : Nat} {path : Path}
    {mtime expiresAt : Int} {placements : List ChunkPlacement}
    (committed : before.commitWriteOpVersion opID path mtime placements
      expiresAt = .ok (fileID, after)) : ResultsStay before after := by
  have commits : ¬(CatalogAction.commitWriteOpVersion opID path mtime placements).Quiet := id
  refine ⟨.of_changes (commitWriteOpVersion_change commits committed),
    fun op opIn isCommitted _ _ _ _ => ?_⟩
  obtain ⟨own, ownIn, rfl, ⟨-, -, rfl⟩ | ⟨prepared, -, -, -, -, roots⟩⟩ :=
    commitWriteOpVersion_rows committed
  · rfl
  have other : op.id ≠ own.id := by
    intro same
    rw [before.writeOps.eq_of_key_eq opIn ownIn same, prepared] at isCommitted
    cases isCommitted
  have sameRoot : after.resultRoots.find? op.id = before.resultRoots.find? op.id := by
    refine KeyedTable.find?_congr fun root owner => ?_
    rw [roots]
    refine ⟨fun member => member.resolve_right ?_, Or.inl⟩
    rintro ⟨-, rfl⟩
    exact other owner.symm
  unfold Catalog.writeResultDeadline
  rw [sameRoot]

theorem expireRoot {root : WriteResultRoot} (expired : before.expireRoot root = .ok after) :
    ResultsStay before after := by
  refine ⟨(@expireRoot_change (.expireWriteResults 0) _ _ _ expired).moves, ?_⟩
  obtain ⟨⟨own, ownIn, ownID, ownFile, -⟩, released, -, rfl⟩ := Catalog.expireRoot_ok expired
  intro op opIn committed new newIn sameID stillCommitted
  have other : op.id ≠ root.writeOpID := by
    intro same
    have isOwn : op = own := before.writeOps.eq_of_key_eq opIn ownIn (same.trans ownID.symm)
    subst isOwn
    obtain ⟨old, oldIn, rfl⟩ := List.mem_map.mp newIn
    have isOld : old = op := by
      refine before.writeOps.eq_of_key_eq oldIn opIn ?_
      rw [← sameID]
      split_ifs <;> rfl
    subst isOld
    rw [if_pos ⟨same, ownFile, committed⟩] at stillCommitted
    cases stillCommitted
  have sameRoot : (before.resultRoots.keep fun kept =>
      decide (kept.writeOpID ≠ root.writeOpID)).find? op.id =
      before.resultRoots.find? op.id := by
    refine KeyedTable.find?_congr fun kept owner => ?_
    rw [KeyedTable.mem_keep]
    exact ⟨And.left, fun member => ⟨member, by simpa [owner] using other⟩⟩
  unfold Catalog.writeResultDeadline
  dsimp only
  rw [sameRoot]

theorem apply {action : CatalogAction} (applied : before.apply action = .ok after) :
    ResultsStay before after := by
  by_cases writes : CatalogTable.resultRoots ∈ action.writes
  · cases action with
    | commitWriteOpVersion opID path mtime placements =>
      obtain ⟨fileID, committed⟩ := map_snd_eq_ok_iff.mp applied
      exact .commitWriteOpVersion committed
    | commitWriteOpVersionWithRetention opID path mtime placements expiresAt =>
      obtain ⟨fileID, committed⟩ := map_snd_eq_ok_iff.mp applied
      exact .commitWriteOpVersion (Catalog.commitWithRetention_ok committed).2
    | expireWriteResults now =>
      obtain ⟨count, done⟩ := map_snd_eq_ok_iff.mp applied
      obtain ⟨elapsed, -, -, expiring⟩ := Catalog.expireWriteResults_ok done
      exact foldlM_ok_invariant (fun _ _ _ _ stays expired => stays.trans (.expireRoot expired))
        (.refl before) expiring
    | _ => simp [CatalogAction.writes] at writes
  · exact .of_roots (.apply applied) (Catalog.apply_writes applied .resultRoots writes)

end ResultsStay

/-- What a request keeps of operations, results and keys. -/
structure OpsSound (catalog : Catalog) : Prop where
  consistent : OpsConsistent catalog
  keys : KeysDistinct catalog

theorem OpsSound.empty : OpsSound Catalog.empty := ⟨.empty, fun _ firstIn => (by cases firstIn)⟩

variable {plain : Bytes → Bytes} {before after : FileServer} {exchange : Request plain × Reply}

theorem OpsSound.serves (sound : OpsSound before.catalog) (served : before.Serves exchange after) :
    OpsSound after.catalog :=
  served.moves.1.keeps
    (fun _ _ _ _ applied sound =>
      ⟨sound.consistent.apply applied, sound.keys.apply applied⟩) sound

theorem ResultsStay.serves (served : before.Serves exchange after) :
    ResultsStay before.catalog after.catalog :=
  served.moves.1.keeps (fun _ _ _ _ applied stays => stays.trans (.apply applied)) (.refl _)

end Results

section Publications

/-- The versions that a step adds for the operation of a key. -/
def publishedFor (key : String) (before after : Catalog) : List FileVersion :=
  after.files.rows.filter fun version =>
    !before.files.has version.id && after.writeOps.rows.any fun op =>
      op.idempotencyKey == key && decide (op.state = .committed) &&
        decide (op.fileID = version.id)

/-- The versions that a run adds for the operation of a key. -/
def publications {Label : Type} (key : String) :
    FileServer → List (Label × FileServer) → List FileVersion
  | _, [] => []
  | before, (_, after) :: rest =>
    publishedFor key before.catalog after.catalog ++ publications key after rest

/-- The operation of a key has left the prepared state. -/
def KeyFinished (key : String) (catalog : Catalog) : Prop :=
  ∃ op ∈ catalog.writeOps.rows, op.idempotencyKey = key ∧ op.state ≠ .prepared

variable {key : String} {before after : Catalog}

theorem mem_publishedFor {version : FileVersion}
    (published : version ∈ publishedFor key before after) :
    version ∈ after.files.rows ∧ before.files.has version.id = false ∧
      ∃ op ∈ after.writeOps.rows, op.idempotencyKey = key ∧
        op.state = .committed ∧ op.fileID = version.id := by
  obtain ⟨versionIn, conditions⟩ := List.mem_filter.mp published
  simpa [and_assoc] using And.intro versionIn conditions

theorem length_publishedFor_le (keys : KeysDistinct after) :
    (publishedFor key before after).length ≤ 1 := by
  rcases List.eq_nil_or_concat (publishedFor key before after) with
    none | ⟨front, last, listed⟩
  · simp [none]
  have lastIn : last ∈ publishedFor key before after := by
    rw [listed]
    simp
  obtain ⟨-, -, op, opIn, opKey, -, opFile⟩ := mem_publishedFor lastIn
  have sameID : ∀ version ∈ publishedFor key before after, version.id = op.fileID := by
    intro version member
    obtain ⟨-, -, other, otherIn, otherKey, -, otherFile⟩ := mem_publishedFor member
    rw [← otherFile, keys other otherIn op opIn (otherKey.trans opKey.symm)]
  have ids : (publishedFor key before after).map FileVersion.id =
      List.replicate (publishedFor key before after).length op.fileID := by
    rw [List.eq_replicate_iff]
    exact ⟨List.length_map _, by simpa using sameID⟩
  have distinct : ((publishedFor key before after).map FileVersion.id).Nodup :=
    after.files.distinct.sublist (List.filter_sublist.map _)
  rw [ids] at distinct
  exact List.nodup_replicate.mp distinct

theorem publishedFor_eq_nil (finished : KeyFinished key before) (sound : OpsSound before)
    (keys : KeysDistinct after) (follow : OpsFollow before after) :
    publishedFor key before after = [] := by
  rw [List.eq_nil_iff_forall_not_mem]
  intro version member
  obtain ⟨-, isNew, op, opIn, opKey, committed, opFile⟩ := mem_publishedFor member
  obtain ⟨old, oldIn, oldKey, notPrepared⟩ := finished
  obtain ⟨next, nextIn, -, nextKey, moved⟩ := follow old oldIn
  have same : next = op := keys next nextIn op opIn (nextKey.trans (oldKey.trans opKey.symm))
  subst same
  rcases moved with rfl | prepared | ⟨-, expired⟩
  · -- the result was there before the step, with its version
    have known := sound.consistent.versions next oldIn committed
    rw [opFile, isNew] at known
    cases known
  · exact notPrepared prepared
  · rw [expired] at committed
    cases committed

theorem KeyFinished.follows (finished : KeyFinished key before) (follow : OpsFollow before after) :
    KeyFinished key after := by
  obtain ⟨op, opIn, opKey, notPrepared⟩ := finished
  obtain ⟨next, nextIn, -, nextKey, moved⟩ := follow op opIn
  refine ⟨next, nextIn, nextKey.trans opKey, ?_⟩
  rcases moved with rfl | prepared | ⟨-, rfl⟩
  · exact notPrepared
  · exact absurd prepared notPrepared
  · simp

variable {plain : Bytes → Bytes}

variable {server : FileServer} {run : List ((Request plain × Reply) × FileServer)}
  (isRun : IsRun FileServer.Serves server run) (sound : OpsSound server.catalog)
include isRun sound

theorem publications_of_finished (finished : KeyFinished key server.catalog) :
    publications key server run = [] := by
  induction run generalizing server with
  | nil => rfl
  | cons entry rest ih =>
    obtain ⟨exchange, next⟩ := entry
    obtain ⟨served, isRest⟩ := isRun
    have nextSound := sound.serves served
    have follow := (ResultsStay.serves served).follow
    unfold publications
    rw [publishedFor_eq_nil finished sound nextSound.keys follow,
      ih isRest nextSound (finished.follows follow)]
    rfl

theorem length_publications_le : (publications key server run).length ≤ 1 := by
  induction run generalizing server with
  | nil => exact Nat.zero_le 1
  | cons entry rest ih =>
    obtain ⟨exchange, next⟩ := entry
    obtain ⟨served, isRest⟩ := isRun
    have nextSound := sound.serves served
    unfold publications
    rcases List.eq_nil_or_concat (publishedFor key server.catalog next.catalog) with
      none | ⟨front, last, listed⟩
    · rw [none]
      exact ih isRest nextSound
    · have lastIn : last ∈ publishedFor key server.catalog next.catalog := by
        rw [listed]
        simp
      obtain ⟨-, -, op, opIn, opKey, committed, -⟩ := mem_publishedFor lastIn
      have finished : KeyFinished key next.catalog := ⟨op, opIn, opKey, by simp [committed]⟩
      rw [publications_of_finished isRest nextSound finished, List.append_nil]
      exact length_publishedFor_le nextSound.keys

end Publications

section Reports

variable {plain : Bytes → Bytes}

/-- The key that closing a handle is about: that of a handle that writes and
has its name, or the one given when there is no handle. -/
def FileServer.subjectOf (server : FileServer) (handle : Nat) (key : String) : Option String :=
  match server.handles.find? handle with
  | none => some key
  | some found =>
    if found.writeOpID = 0 ∨ found.unlinked = true then none
    else some found.writeKey

/-- The key and the deadline that a successful close reports. -/
def reportOf (before : FileServer) :
    Request plain × Reply → Option (String × Int)
  | (.close handle key _, .finished deadline) =>
    (before.subjectOf handle key).map (·, deadline)
  | _ => none

/-- What the successful closes of a run report about a key. -/
def reports (key : String) :
    FileServer → List ((Request plain × Reply) × FileServer) → List Int
  | _, [] => []
  | before, (exchange, after) :: rest =>
    (((reportOf before exchange).filter fun report =>
      decide (report.1 = key)).map Prod.snd).toList ++
      reports key after rest

/-- The operation of a key has an outcome that a close can report. -/
def KeyOutcome (key : String) (deadline : Int) (catalog : Catalog) : Prop :=
  ∃ op ∈ catalog.writeOps.rows, op.idempotencyKey = key ∧
    ((op.state = .committed ∧ catalog.writeResultDeadline op.id = deadline) ∨
      (op.state = .cancelled ∧ deadline = 0))

/-- The outcome of a key is fixed, or was and has expired. -/
def KeySettled (key : String) (deadline : Int) (catalog : Catalog) : Prop :=
  KeyOutcome key deadline catalog ∨ ∃ op ∈ catalog.writeOps.rows, op.idempotencyKey = key ∧
      op.state = .expired

variable {key : String} {deadline : Int}

variable {catalog : Catalog}

theorem mem_of_writeOpByKey {op : WriteOp} (known : catalog.writeOpByKey key = some op) :
    op ∈ catalog.writeOps.rows ∧ op.idempotencyKey = key :=
  ⟨List.mem_of_find?_eq_some known, by simpa using List.find?_some known⟩

theorem KeyOutcome.of_committed {op : WriteOp} (known : catalog.writeOpByKey key = some op)
    (committed : op.state = .committed) :
    KeyOutcome key (catalog.writeResultDeadline op.id) catalog := by
  obtain ⟨opIn, opKey⟩ := mem_of_writeOpByKey known
  exact ⟨op, opIn, opKey, Or.inl ⟨committed, rfl⟩⟩

open FileServer in
/-- What finishing reports is the outcome of the key it is about. -/
theorem keyOutcome_of_finishing {handle : Nat} {given : String} {env : FinishEnv plain}
    {start : FileServer} (finishing : Finishing handle given env start (some deadline) catalog)
    (about : start.subjectOf handle given = some key) :
    KeyOutcome key deadline catalog := by
  unfold subjectOf at about
  cases finishing with
  | answered op absent known committed =>
    rw [absent] at about
    cases about
    exact .of_committed known committed
  | forgotten op absent known cancelled =>
    rw [absent] at about
    cases about
    obtain ⟨opIn, opKey⟩ := mem_of_writeOpByKey known
    exact ⟨op, opIn, opKey, Or.inr ⟨cancelled, rfl⟩⟩
  | released found catalog present writes unlinked left =>
    simp [present, unlinked] at about
  | read found present none =>
    simp [present, none] at about
  | confirmed found op placements mtime present writes linked known committed =>
    simp only [present, writes, linked, Bool.false_eq_true, or_self,
      if_false, Option.some.injEq] at about
    rw [about] at known
    exact .of_committed known committed
  | published found op chunks fileID catalog reported present writes linked
      known uncommitted commits reports =>
    simp only [present, writes, linked, Bool.false_eq_true, or_self,
      if_false, Option.some.injEq] at about
    rw [about] at known
    obtain ⟨opIn, opKey⟩ := mem_of_writeOpByKey known
    obtain ⟨own, ownIn, ownID, ⟨committed, -⟩ | ⟨-, rows, -⟩⟩ := commitWriteOpVersion_rows commits
    · have same : own = op := start.catalog.writeOps.eq_of_key_eq ownIn opIn ownID
      exact absurd (same ▸ committed) uncommitted
    · refine ⟨committedAs op.id fileID (totalLen chunks.placements) op,
        by rw [rows]; exact List.mem_map_of_mem opIn, ?_⟩
      unfold committedAs
      rw [if_pos rfl]
      refine ⟨opKey, Or.inl ⟨rfl, ?_⟩⟩
      rcases reports with none | same
      · cases none
      · exact (Option.some.inj same).symm

variable {before after : FileServer} {exchange : Request plain × Reply}

theorem keyOutcome_of_report (served : before.Serves exchange after)
    (reported : reportOf before exchange = some (key, deadline)) :
    KeyOutcome key deadline after.catalog := by
  obtain ⟨request, reply⟩ := exchange
  unfold reportOf at reported
  split at reported
  · rename_i handle given env answer same
    obtain ⟨rfl, rfl⟩ := Prod.mk.inj same
    obtain ⟨about, isAbout, sameReport⟩ := Option.map_eq_some_iff.mp reported
    cases sameReport
    rcases served.finishing (Or.inl rfl) with
      ⟨value, start, sameReply, expired, finishing⟩ | ⟨⟨reason, impossible⟩, -⟩
    · cases sameReply
      refine keyOutcome_of_finishing finishing ?_
      rw [expired.1]
      exact isAbout
    · cases impossible
  · cases reported

theorem KeySettled.serves (settled : KeySettled key deadline before.catalog)
    (served : before.Serves exchange after) :
    KeySettled key deadline after.catalog := by
  have stays := ResultsStay.serves served
  rcases settled with ⟨op, opIn, opKey, outcome⟩ | ⟨op, opIn, opKey, expired⟩
  · obtain ⟨next, nextIn, nextID, nextKey, moved⟩ := stays.follow op opIn
    have sameKey := nextKey.trans opKey
    rcases outcome with ⟨committed, isDeadline⟩ | ⟨cancelled, none⟩
    · rcases moved with rfl | prepared | ⟨-, rfl⟩
      · refine Or.inl ⟨next, nextIn, sameKey, Or.inl ⟨committed, ?_⟩⟩
        rw [← isDeadline]
        exact stays.deadlines next opIn committed next nextIn rfl committed
      · rw [committed] at prepared
        cases prepared
      · exact Or.inr ⟨_, nextIn, sameKey, rfl⟩
    · rcases moved with rfl | prepared | ⟨committed, -⟩
      · exact Or.inl ⟨next, nextIn, sameKey, Or.inr ⟨cancelled, none⟩⟩
      · rw [cancelled] at prepared
        cases prepared
      · rw [cancelled] at committed
        cases committed
  · obtain ⟨next, nextIn, -, nextKey, moved⟩ := stays.follow op opIn
    rcases moved with rfl | prepared | ⟨committed, -⟩
    · exact Or.inr ⟨next, nextIn, nextKey.trans opKey, expired⟩
    · rw [expired] at prepared
      cases prepared
    · rw [expired] at committed
      cases committed

theorem KeyOutcome.eq_of_settled {reported : Int} (keys : KeysDistinct catalog)
    (outcome : KeyOutcome key reported catalog) (settled : KeySettled key deadline catalog) :
    reported = deadline := by
  obtain ⟨op, opIn, opKey, told⟩ := outcome
  rcases settled with ⟨other, otherIn, otherKey, fixed⟩ | ⟨other, otherIn, otherKey, expired⟩
  · have same : op = other := keys op opIn other otherIn (opKey.trans otherKey.symm)
    subst same
    rcases told with ⟨committed, rfl⟩ | ⟨cancelled, rfl⟩
    · rcases fixed with ⟨-, same⟩ | ⟨cancelled, -⟩
      · exact same
      · rw [committed] at cancelled
        cases cancelled
    · rcases fixed with ⟨committed, -⟩ | ⟨-, rfl⟩
      · rw [cancelled] at committed
        cases committed
      · rfl
  · have same : op = other := keys op opIn other otherIn (opKey.trans otherKey.symm)
    subst same
    rcases told with ⟨committed, -⟩ | ⟨cancelled, -⟩
    · rw [expired] at committed
      cases committed
    · rw [expired] at cancelled
      cases cancelled

theorem mem_reports_cons {told : Int} {rest : List ((Request plain × Reply) × FileServer)} :
    told ∈ reports key before ((exchange, after) :: rest) ↔
      reportOf before exchange = some (key, told) ∨ told ∈ reports key after rest := by
  rw [reports, List.mem_append]
  refine or_congr_left ?_
  cases reportOf before exchange with
  | none => simp
  | some report =>
    obtain ⟨about, value⟩ := report
    by_cases same : about = key
    · rw [Option.filter_some_pos (by simpa using same), same]
      simp [eq_comm]
    · rw [Option.filter_some_neg (by simpa using same)]
      simp [same]

variable {server : FileServer} {run : List ((Request plain × Reply) × FileServer)}
  (isRun : IsRun FileServer.Serves server run) (sound : OpsSound server.catalog)
include isRun sound

theorem reports_of_settled (settled : KeySettled key deadline server.catalog) :
    ∀ told ∈ reports key server run, told = deadline := by
  induction run generalizing server with
  | nil =>
    intro told impossible
    cases impossible
  | cons entry rest ih =>
    obtain ⟨exchange, next⟩ := entry
    obtain ⟨served, isRest⟩ := isRun
    have nextSound := sound.serves served
    have nextSettled := settled.serves served
    intro told member
    rcases mem_reports_cons.mp member with reported | later
    · exact (keyOutcome_of_report served reported).eq_of_settled nextSound.keys nextSettled
    · exact ih isRest nextSound nextSettled told later

/-- The closes of one key report one deadline. -/
theorem reports_agree :
    ∀ first ∈ reports key server run, ∀ second ∈ reports key server run,
      first = second := by
  induction run generalizing server with
  | nil =>
    intro first impossible
    cases impossible
  | cons entry rest ih =>
    obtain ⟨exchange, next⟩ := entry
    obtain ⟨served, isRest⟩ := isRun
    have nextSound := sound.serves served
    have later : ∀ told, reportOf server exchange = some (key, told) →
        ∀ other ∈ reports key next rest, other = told :=
      fun told reported => reports_of_settled isRest nextSound
        (Or.inl (keyOutcome_of_report served reported))
    intro first firstIn second secondIn
    rcases mem_reports_cons.mp firstIn with firstNow | firstLater
    · rcases mem_reports_cons.mp secondIn with secondNow | secondLater
      · rw [firstNow] at secondNow
        cases secondNow
        rfl
      · exact (later first firstNow second secondLater).symm
    · rcases mem_reports_cons.mp secondIn with secondNow | secondLater
      · exact later second secondNow first firstLater
      · exact ih isRest nextSound first firstLater second secondLater

end Reports

end Rose
