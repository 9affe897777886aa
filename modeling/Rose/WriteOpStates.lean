import Mathlib.Logic.Relation
import Rose.CatalogFrames

/-!
# The states of write operations

An operation leaves the prepared state once.  While it is prepared it may hold
vlog leases; when it is committed it names its version and may have a retained
result.  This file shows that every run of catalog transactions keeps the three
tables consistent and moves no finished operation but a committed one, which
may expire.
-/

namespace Rose

open FallibleActions LabelledRuns

/-- What may become of an operation: a prepared one may change, a committed one
may expire. -/
def OpMoves (old new : WriteOp) : Prop :=
  new.id = old.id ∧ new.idempotencyKey = old.idempotencyKey ∧
    (new = old ∨ old.state = .prepared ∨
      (old.state = .committed ∧ new = { old with state := .expired }))

theorem OpMoves.refl (op : WriteOp) : OpMoves op op := ⟨rfl, rfl, Or.inl rfl⟩

theorem OpMoves.trans {first second third : WriteOp} (earlier : OpMoves first second)
    (later : OpMoves second third) :
    OpMoves first third := by
  obtain ⟨sameID, sameKey, earlier⟩ := earlier
  obtain ⟨laterID, laterKey, later⟩ := later
  refine ⟨laterID.trans sameID, laterKey.trans sameKey, ?_⟩
  rcases earlier with rfl | prepared | ⟨committed, rfl⟩
  · exact later
  · exact Or.inr (Or.inl prepared)
  · rcases later with rfl | prepared | ⟨impossible, -⟩
    · exact Or.inr (Or.inr ⟨committed, rfl⟩)
    · cases prepared
    · cases impossible

/-- Every operation is still there after what may become of it. -/
def OpsFollow (before after : Catalog) : Prop :=
  ∀ op ∈ before.writeOps.rows, ∃ new ∈ after.writeOps.rows, OpMoves op new

namespace OpsFollow

variable {before middle after : Catalog}

theorem refl (catalog : Catalog) : OpsFollow catalog catalog :=
  fun op present => ⟨op, present, .refl op⟩

theorem trans (earlier : OpsFollow before middle) (later : OpsFollow middle after) :
    OpsFollow before after := by
  intro op present
  obtain ⟨second, secondIn, moved⟩ := earlier op present
  obtain ⟨third, thirdIn, movedAgain⟩ := later second secondIn
  exact ⟨third, thirdIn, moved.trans movedAgain⟩

end OpsFollow

/-- Leases belong to prepared operations, committed operations name a version
and retained results belong to committed operations with the same version. -/
structure OpsConsistent (catalog : Catalog) : Prop where
  leases : ∀ lease ∈ catalog.leases.rows, ∃ op ∈ catalog.writeOps.rows,
    op.id = lease.writeOpID ∧ op.state = .prepared
  versions : ∀ op ∈ catalog.writeOps.rows, op.state = .committed →
    catalog.files.has op.fileID = true
  roots : ∀ root ∈ catalog.resultRoots.rows, ∃ op ∈ catalog.writeOps.rows,
    op.id = root.writeOpID ∧ op.state = .committed ∧ op.fileID = root.fileID

namespace OpsConsistent

variable {before after : Catalog}

theorem empty : OpsConsistent Catalog.empty :=
  ⟨fun _ present => (by cases present), fun _ present => (by cases present),
    fun _ present => (by cases present)⟩

theorem of_fewer_leases (consistent : OpsConsistent before)
    (writeOps : after.writeOps = before.writeOps)
    (leases : ∀ lease ∈ after.leases.rows, lease ∈ before.leases.rows)
    (files : ∀ op ∈ before.writeOps.rows, op.state = .committed →
      before.files.has op.fileID = true → after.files.has op.fileID = true)
    (resultRoots : after.resultRoots = before.resultRoots) :
    OpsConsistent after := by
  refine ⟨?_, ?_, ?_⟩
  · intro lease leaseIn
    rw [writeOps]
    exact consistent.leases lease (leases lease leaseIn)
  · rw [writeOps]
    intro op opIn committed
    exact files op opIn committed (consistent.versions op opIn committed)
  · rw [writeOps, resultRoots]
    exact consistent.roots

end OpsConsistent

section Prepared

variable {before after : Catalog}

/-- What cancelling does to one operation. -/
def cancelledBy (selects : Path → Bool) (op : WriteOp) : WriteOp :=
  if op.state = .prepared ∧ selects op.path = true then
    { op with state := .cancelled }
  else op

theorem cancelPrepared_rows (selects : Path → Bool) :
    (before.cancelPrepared selects).writeOps.rows =
      before.writeOps.rows.map (cancelledBy selects) := by
  refine List.map_congr_left fun op _ => ?_
  simp [cancelledBy]

theorem mem_cancelPrepared_leases {selects : Path → Bool} {lease : VlogLease}
    (leaseIn : lease ∈ (before.cancelPrepared selects).leases.rows) :
    lease ∈ before.leases.rows ∧ ∀ op ∈ before.writeOps.rows,
      op.id = lease.writeOpID → op.state = .prepared → selects op.path = false := by
  obtain ⟨oldIn, kept⟩ := (KeyedTable.mem_keep _ _ _).mp leaseIn
  refine ⟨oldIn, fun op opIn owner prepared => ?_⟩
  simp only [Bool.not_eq_true', List.any_eq_false] at kept
  simpa [owner, prepared] using kept op opIn

/-- What an update of prepared operations does to one operation. -/
def ifPrepared (selects : WriteOp → Bool) (update : WriteOp → WriteOp) (op : WriteOp) : WriteOp :=
  if selects op = true ∧ op.state = .prepared then update op else op

/-- Prepared operations are updated without being committed, and the remaining
leases belong to operations that stay prepared. -/
theorem OpsConsistent.of_ifPrepared (consistent : OpsConsistent before) {selects : WriteOp → Bool}
    {update : WriteOp → WriteOp}
    (rows : after.writeOps.rows = before.writeOps.rows.map (ifPrepared selects update))
    (keepsID : ∀ op, (update op).id = op.id)
    (uncommitted : ∀ op, op.state = .prepared → (update op).state ≠ .committed)
    (leases : ∀ lease ∈ after.leases.rows, lease ∈ before.leases.rows ∧
      ∀ op ∈ before.writeOps.rows, op.id = lease.writeOpID → op.state = .prepared →
        selects op = true → (update op).state = .prepared)
    (files : after.files = before.files)
    (resultRoots : after.resultRoots = before.resultRoots) :
    OpsConsistent after := by
  refine ⟨fun lease leaseIn => ?_, fun op opIn committed => ?_, fun root rootIn => ?_⟩
  · obtain ⟨oldIn, stays⟩ := leases lease leaseIn
    obtain ⟨op, opIn, owner, prepared⟩ := consistent.leases lease oldIn
    refine ⟨ifPrepared selects update op, rows ▸ List.mem_map_of_mem opIn, ?_⟩
    unfold ifPrepared
    split_ifs with selected
    · exact ⟨(keepsID op).trans owner, stays op opIn owner prepared selected.1⟩
    · exact ⟨owner, prepared⟩
  · rw [rows] at opIn
    obtain ⟨old, oldIn, rfl⟩ := List.mem_map.mp opIn
    unfold ifPrepared at committed ⊢
    split_ifs at committed ⊢ with selected
    · exact absurd committed (uncommitted old selected.2)
    · rw [files]
      exact consistent.versions old oldIn committed
  · rw [resultRoots] at rootIn
    obtain ⟨op, opIn, owner, committed, sameFile⟩ := consistent.roots root rootIn
    refine ⟨op, ?_, owner, committed, sameFile⟩
    rw [rows, List.mem_map]
    exact ⟨op, opIn, by simp [ifPrepared, committed]⟩

theorem cancelledBy_eq (selects : Path → Bool) :
    cancelledBy selects = ifPrepared (fun op => selects op.path)
      fun op => { op with state := .cancelled } := by
  funext op
  simp only [cancelledBy, ifPrepared, and_comm]

theorem OpsConsistent.cancelPrepared (consistent : OpsConsistent before) (selects : Path → Bool) :
    OpsConsistent (before.cancelPrepared selects) := by
  have rows := @cancelPrepared_rows before selects
  rw [cancelledBy_eq] at rows
  refine consistent.of_ifPrepared rows (fun _ => rfl) (by simp) (fun lease leaseIn => ?_) rfl rfl
  obtain ⟨oldIn, spared⟩ := mem_cancelPrepared_leases leaseIn
  refine ⟨oldIn, fun op opIn owner prepared selected => ?_⟩
  rw [spared op opIn owner prepared] at selected
  cases selected

/-- Prepared operations change neither id nor state. -/
theorem OpsConsistent.of_relabelled (consistent : OpsConsistent before) {selects : WriteOp → Bool}
    {update : WriteOp → WriteOp}
    (rows : after.writeOps.rows = before.writeOps.rows.map (ifPrepared selects update))
    (keepsID : ∀ op, (update op).id = op.id) (keepsState : ∀ op, (update op).state = op.state)
    (writes : OnlyWrites [.writeOps] before after) : OpsConsistent after := by
  have sameLeases : after.leases = before.leases := writes .leases (by simp)
  refine consistent.of_ifPrepared rows keepsID (fun op prepared => ?_) (fun lease leaseIn => ?_)
    (writes .files (by simp)) (writes .resultRoots (by simp))
  · simp [keepsState, prepared]
  · exact ⟨sameLeases ▸ leaseIn, fun op _ _ prepared _ => (keepsState op).trans prepared⟩

theorem changePrepared_rows (id : Nat) (update : WriteOp → WriteOp)
    (keepsID : ∀ op, (update op).id = op.id) :
    (before.changePrepared id update keepsID).writeOps.rows = before.writeOps.rows.map
        (ifPrepared (fun op => decide (op.id = id)) update) := by
  refine List.map_congr_left fun op _ => ?_
  simp [ifPrepared]

theorem retargetPrepared_rows (oldPath newPath : Path) :
    (before.retargetPrepared oldPath newPath).writeOps.rows = before.writeOps.rows.map
        (ifPrepared (fun op => decide (op.path = oldPath))
          fun op => { op with path := newPath }) := by
  refine List.map_congr_left fun op _ => ?_
  simp [ifPrepared]

theorem OpsConsistent.rebound (consistent : OpsConsistent before) (oldPath newPath : Path) :
    OpsConsistent (before.rebound oldPath newPath) :=
  (consistent.cancelPrepared _).of_relabelled
    (retargetPrepared_rows oldPath newPath) (fun _ => rfl) (fun _ => rfl)
    (.of_patch rfl)

theorem finishPreparedWriteOp_rows (id : Nat) (state : WriteOpState) :
    (before.finishPreparedWriteOp id state).writeOps.rows =
      before.writeOps.rows.map (ifPrepared (fun op => decide (op.id = id))
        fun op => { op with state }) := by
  refine List.map_congr_left fun op _ => ?_
  simp [ifPrepared]

theorem OpsConsistent.finishPreparedWriteOp (consistent : OpsConsistent before) (id : Nat)
    {state : WriteOpState} (uncommitted : state ≠ .committed) :
    OpsConsistent (before.finishPreparedWriteOp id state) := by
  refine consistent.of_ifPrepared (finishPreparedWriteOp_rows id state) (fun _ => rfl)
    (fun _ _ => uncommitted) (fun lease leaseIn => ?_) rfl rfl
  obtain ⟨oldIn, kept⟩ := (KeyedTable.mem_keep _ _ _).mp leaseIn
  refine ⟨oldIn, fun op _ owner _ selected => ?_⟩
  simp only [decide_eq_true_eq] at selected kept
  exact absurd (owner.symm.trans selected) kept

end Prepared

section Committing

variable {before after : Catalog}

/-- What a commit does to one operation. -/
def committedAs (opID fileID acknowledged : Nat) (op : WriteOp) : WriteOp :=
  if op.id = opID then
    { op with
      state := .committed
      fileID
      acknowledgedOffset := acknowledged
      tail := [] }
  else op

/-- A commit of a prepared operation: its version is there, its leases go and a
retained result may be added. -/
theorem OpsConsistent.commit (consistent : OpsConsistent before)
    {op : WriteOp} {fileID acknowledged : Nat}
    (present : op ∈ before.writeOps.rows) (prepared : op.state = .prepared)
    (rows : after.writeOps.rows = before.writeOps.rows.map (committedAs op.id fileID acknowledged))
    (leases : ∀ lease ∈ after.leases.rows, lease ∈ before.leases.rows ∧ lease.writeOpID ≠ op.id)
    (files : ∀ id, before.files.has id = true → after.files.has id = true)
    (published : after.files.has fileID = true)
    (roots : ∀ root ∈ after.resultRoots.rows, root ∈ before.resultRoots.rows ∨
        (root.writeOpID = op.id ∧ root.fileID = fileID)) :
    OpsConsistent after := by
  have others : ∀ other ∈ before.writeOps.rows, other.id ≠ op.id → other ∈ after.writeOps.rows := by
    intro other otherIn different
    rw [rows, List.mem_map]
    exact ⟨other, otherIn, by simp [committedAs, different]⟩
  have own : ∀ other ∈ before.writeOps.rows, other.id = op.id → other = op :=
    fun other otherIn same =>
      before.writeOps.eq_of_key_eq otherIn present same
  refine ⟨fun lease leaseIn => ?_, fun new newIn committed => ?_, fun root rootIn => ?_⟩
  · obtain ⟨oldIn, different⟩ := leases lease leaseIn
    obtain ⟨owner, ownerIn, owns, stillPrepared⟩ := consistent.leases lease oldIn
    exact ⟨owner, others owner ownerIn (by rwa [owns]), owns, stillPrepared⟩
  · rw [rows] at newIn
    obtain ⟨old, oldIn, rfl⟩ := List.mem_map.mp newIn
    by_cases same : old.id = op.id
    · simpa [committedAs, same] using published
    · have unchanged : committedAs op.id fileID acknowledged old = old := by
        simp [committedAs, same]
      rw [unchanged] at committed ⊢
      exact files _ (consistent.versions old oldIn committed)
  · rcases roots root rootIn with oldIn | ⟨owns, sameFile⟩
    · obtain ⟨owner, ownerIn, owns, committed, sameFile⟩ := consistent.roots root oldIn
      have different : owner.id ≠ op.id := by
        intro same
        rw [own owner ownerIn same, prepared] at committed
        cases committed
      exact ⟨owner, others owner ownerIn different, owns, committed, sameFile⟩
    · refine ⟨committedAs op.id fileID acknowledged op, ?_, ?_, ?_, ?_⟩
      · rw [rows]
        exact List.mem_map_of_mem present
      · simp [committedAs, owns]
      · simp [committedAs]
      · simp [committedAs, sameFile]

theorem publishFileVersion_files {path : Path} {mtime : Int} {placements : List ChunkPlacement}
    {id : Nat} (published : before.publishFileVersion path mtime placements = .ok (id, after))
    (fileID : Nat) :
    after.files.has fileID = true ↔ before.files.has fileID = true ∨ fileID = id := by
  obtain ⟨-, -, rfl, -⟩ := Catalog.publishFileVersion_ok published
  have files := Catalog.publishFileVersion_appends published
  rw [files, KeyedTable.has_iff, KeyedTable.has_iff]
  simp only [SequencedTable.mem_append]
  constructor
  · rintro ⟨version, old | rfl, rfl⟩
    · exact Or.inl ⟨version, old, rfl⟩
    · exact Or.inr rfl
  · rintro (⟨version, old, rfl⟩ | rfl)
    · exact ⟨version, Or.inl old, rfl⟩
    · exact ⟨_, Or.inr rfl, rfl⟩

variable {opID fileID : Nat} {path : Path} {mtime expiresAt : Int}
  {placements : List ChunkPlacement}

/-- A successful commit repeats a stored result or turns a prepared operation
into a committed one. -/
theorem commitWriteOpVersion_rows
    (committed : before.commitWriteOpVersion opID path mtime placements
      expiresAt = .ok (fileID, after)) :
    ∃ op ∈ before.writeOps.rows, op.id = opID ∧
      ((op.state = .committed ∧ fileID = op.fileID ∧ after = before) ∨
        (op.state = .prepared ∧ after.writeOps.rows = before.writeOps.rows.map
            (committedAs opID fileID (totalLen placements)) ∧
          (∀ lease ∈ after.leases.rows, lease ∈ before.leases.rows ∧ lease.writeOpID ≠ opID) ∧
          (∀ id, after.files.has id = true ↔ before.files.has id = true ∨ id = fileID) ∧
          fileID = before.files.last + 1 ∧
          ∀ root, root ∈ after.resultRoots.rows ↔ root ∈ before.resultRoots.rows ∨
              (expiresAt ≠ 0 ∧ root = ⟨opID, fileID, expiresAt⟩))) := by
  obtain ⟨op, found, outcome⟩ := Catalog.commitWriteOpVersion_ok committed
  obtain ⟨present, sameID⟩ := (KeyedTable.find?_eq_some_iff _ _ _).mp found
  refine ⟨op, present, sameID, ?_⟩
  rcases outcome with repeated | ⟨prepared, published, retained, publishing, retaining, rfl⟩
  · exact Or.inl repeated
  have publishes := Catalog.publishFileVersion_writes publishing
  have retains := Catalog.retainUntil_writes retaining
  have sameOps : retained.writeOps = before.writeOps :=
    (retains .writeOps (by simp)).trans (publishes .writeOps (by simp))
  have sameLeases : retained.leases = before.leases :=
    (retains .leases (by simp)).trans (publishes .leases (by simp))
  have sameFiles : retained.files = published.files := retains .files (by simp)
  have sameRoots : published.resultRoots = before.resultRoots := publishes .resultRoots (by simp)
  refine Or.inr ⟨prepared, ?_, ?_, ?_, ?_, ?_⟩
  · rw [← sameOps]
    rfl
  · intro lease leaseIn
    obtain ⟨oldIn, kept⟩ := (KeyedTable.mem_keep _ _ _).mp leaseIn
    have oldIn : lease ∈ retained.leases.rows := oldIn
    rw [sameLeases] at oldIn
    exact ⟨oldIn, by simpa using kept⟩
  · intro id
    rw [← publishFileVersion_files publishing, ← sameFiles]
    rfl
  · exact (Catalog.publishFileVersion_ok publishing).2.2.1
  · intro root
    rw [← sameRoots]
    change root ∈ retained.resultRoots.rows ↔ _
    rcases Catalog.retainUntil_ok retaining with ⟨none, rfl⟩ |
      ⟨some, counted, resultRoots, -, adding, rfl⟩
    · simp [none]
    · rw [KeyedTable.mem_of_add? adding]
      simp [some]

theorem OpsConsistent.commitWriteOpVersion (consistent : OpsConsistent before)
    (committed : before.commitWriteOpVersion opID path mtime placements
      expiresAt = .ok (fileID, after)) : OpsConsistent after := by
  obtain ⟨op, present, rfl, ⟨-, -, rfl⟩ | ⟨prepared, rows, leases, files, -, roots⟩⟩ :=
    commitWriteOpVersion_rows committed
  · exact consistent
  · refine consistent.commit present prepared rows leases
      (fun id known => (files id).mpr (Or.inl known))
      ((files fileID).mpr (Or.inr rfl)) fun root rootIn => ?_
    rcases (roots root).mp rootIn with old | ⟨-, rfl⟩
    · exact Or.inl old
    · exact Or.inr ⟨rfl, rfl⟩

end Committing

section OtherSteps

variable {before after : Catalog}

theorem OpsConsistent.createWriteOp (consistent : OpsConsistent before) {key : String} {path : Path}
    {now : Int} {op : WriteOp} (created : before.createWriteOp key path now = .ok (op, after)) :
    OpsConsistent after := by
  rcases (Catalog.createWriteOp_ok created).2 with ⟨-, rfl⟩ | ⟨-, -, rfl⟩
  · exact consistent
  refine ⟨fun lease leaseIn => ?_, fun new newIn committed => ?_, fun root rootIn => ?_⟩
  · obtain ⟨owner, ownerIn, owns⟩ := consistent.leases lease leaseIn
    exact ⟨owner, by simp [ownerIn], owns⟩
  · rcases (SequencedTable.mem_append _ _ _ _).mp newIn with old | rfl
    · exact consistent.versions new old committed
    · cases committed
  · obtain ⟨owner, ownerIn, owns⟩ := consistent.roots root rootIn
    exact ⟨owner, by simp [ownerIn], owns⟩

theorem OpsConsistent.claimVlogLease (consistent : OpsConsistent before) {vlogID opID ordinal : Nat}
    (claimed : before.claimVlogLease vlogID opID ordinal = .ok after) :
    OpsConsistent after := by
  obtain ⟨op, leases, found, prepared, -, adding, rfl⟩ := Catalog.claimVlogLease_ok claimed
  obtain ⟨present, sameID⟩ := (KeyedTable.find?_eq_some_iff _ _ _).mp found
  refine ⟨fun lease leaseIn => ?_, consistent.versions, consistent.roots⟩
  rcases (KeyedTable.mem_of_add? adding lease).mp leaseIn with old | rfl
  · exact consistent.leases lease old
  · exact ⟨op, present, sameID, prepared⟩

/-- What the expiry of a root does to one operation. -/
def expiredBy (root : WriteResultRoot) (op : WriteOp) : WriteOp :=
  if op.id = root.writeOpID ∧ op.fileID = root.fileID ∧
      op.state = .committed then { op with state := .expired }
  else op

variable {root : WriteResultRoot}

theorem expiredBy_of_ne {op : WriteOp} (different : op.id ≠ root.writeOpID) :
    expiredBy root op = op :=
  if_neg fun owned => different owned.1

theorem OpsConsistent.expireRoot (consistent : OpsConsistent before)
    (expired : before.expireRoot root = .ok after) :
    OpsConsistent after := by
  obtain ⟨-, released, -, rfl⟩ := Catalog.expireRoot_ok expired
  refine ⟨fun lease leaseIn => ?_, fun new newIn committed => ?_, fun other otherIn => ?_⟩
  · obtain ⟨owner, ownerIn, owns, prepared⟩ := consistent.leases lease leaseIn
    refine ⟨expiredBy root owner, List.mem_map_of_mem ownerIn, ?_⟩
    simp [expiredBy, prepared, owns]
  · obtain ⟨old, oldIn, rfl⟩ := List.mem_map.mp newIn
    split_ifs at committed ⊢
    exact consistent.versions old oldIn committed
  · obtain ⟨oldIn, kept⟩ := (KeyedTable.mem_keep _ _ _).mp otherIn
    obtain ⟨owner, ownerIn, owns, committed, sameFile⟩ := consistent.roots other oldIn
    have different : owner.id ≠ root.writeOpID := by
      rw [owns]
      simpa using kept
    refine ⟨expiredBy root owner, List.mem_map_of_mem ownerIn, ?_⟩
    rw [expiredBy_of_ne different]
    exact ⟨owns, committed, sameFile⟩

theorem OpsConsistent.gcFileVersions (consistent : OpsConsistent before) {limit : Nat}
    (collected : before.gcFileVersions limit = .ok after) :
    OpsConsistent after := by
  obtain ⟨files, rfl, -, spares⟩ := Catalog.gcFileVersions_ok collected
  refine consistent.of_fewer_leases rfl (fun _ present => present) ?_ rfl
  intro op opIn committed known
  obtain ⟨version, versionIn, same⟩ := (KeyedTable.has_iff _ _).mp known
  exact (KeyedTable.has_iff _ _).mpr ⟨version, spares version versionIn (Catalog.ownsVersion_iff.mpr
    (Or.inr (Or.inr (Or.inr ⟨op, opIn, same.symm, Or.inr committed⟩)))), same⟩

end OtherSteps

/-- The tables that the consistency of operations does not read. -/
def notOfOps : List CatalogTable :=
  [.heads, .dirs, .snapshots, .snapshotFiles, .snapshotDirs,
    .snapshotRetention, .chunks, .vlogs, .jobs]

variable {before after : Catalog}

theorem OpsConsistent.of_frame (consistent : OpsConsistent before)
    (writes : OnlyWrites notOfOps before after) : OpsConsistent after := by
  have leases : after.leases = before.leases := writes .leases (by decide)
  have files : after.files = before.files := writes .files (by decide)
  refine consistent.of_fewer_leases (writes .writeOps (by decide)) ?_ ?_
    (writes .resultRoots (by decide))
  · exact fun lease present => by rwa [← leases]
  · exact fun op _ _ known => by rwa [files]

theorem OpsConsistent.apply {action : CatalogAction} (consistent : OpsConsistent before)
    (applied : before.apply action = .ok after) :
    OpsConsistent after := by
  have writes := Catalog.apply_writes applied
  cases action with
  | commitFile path mtime placements =>
    obtain ⟨id, published⟩ := map_snd_eq_ok_iff.mp applied
    have sameLeases : after.leases = before.leases :=
      writes .leases (by simp [CatalogAction.writes])
    refine consistent.of_fewer_leases (writes .writeOps (by simp [CatalogAction.writes]))
      (fun _ present => by rwa [← sameLeases]) ?_
      (writes .resultRoots (by simp [CatalogAction.writes]))
    exact fun op _ _ known =>
      (publishFileVersion_files published op.fileID).mpr (Or.inl known)
  | unlinkFile path =>
    exact (consistent.cancelPrepared _).of_frame
      ((Catalog.unlinkFile_frame applied).mono (by simp [notOfOps]))
  | renameFile oldPath newPath now =>
    by_cases same : cleanPath oldPath = cleanPath newPath
    · rw [Catalog.renameFile_same same applied]
      exact consistent
    · exact (consistent.rebound _ _).of_frame
        ((Catalog.renameFile_frame same applied).mono (by simp [notOfOps]))
  | rmdir path =>
    obtain ⟨-, -, rfl⟩ := Catalog.rmdir_ok applied
    exact (consistent.cancelPrepared _).of_fewer_leases rfl
      (fun _ present => present) (fun _ _ _ known => known) rfl
  | gcFileVersions limit => exact consistent.gcFileVersions applied
  | createWriteOp key path now =>
    obtain ⟨op, created⟩ := map_snd_eq_ok_iff.mp applied
    exact consistent.createWriteOp created
  | setWriteOpTail id tail =>
    cases applied
    exact consistent.of_relabelled (changePrepared_rows id _ _)
      (fun _ => rfl) (fun _ => rfl) (.of_patch rfl)
  | retargetPreparedWriteOp id path =>
    obtain ⟨-, rfl⟩ := Catalog.retargetPreparedWriteOp_ok applied
    exact consistent.of_relabelled (changePrepared_rows id _ _)
      (fun _ => rfl) (fun _ => rfl) (.of_patch rfl)
  | claimVlogLease vlogID opID ordinal =>
    exact consistent.claimVlogLease applied
  | releaseWriteOpLeases opID =>
    cases applied
    exact consistent.of_fewer_leases rfl
      (fun _ present => ((KeyedTable.mem_keep _ _ _).mp present).1)
      (fun _ _ _ known => known) rfl
  | abandonWriteOp id =>
    cases applied
    exact consistent.finishPreparedWriteOp id (by simp)
  | cancelWriteOp id =>
    cases applied
    exact consistent.finishPreparedWriteOp id (by simp)
  | commitWriteOpVersion opID path mtime placements =>
    obtain ⟨fileID, committed⟩ := map_snd_eq_ok_iff.mp applied
    exact consistent.commitWriteOpVersion committed
  | commitWriteOpVersionWithRetention opID path mtime placements expiresAt =>
    obtain ⟨fileID, committed⟩ := map_snd_eq_ok_iff.mp applied
    exact consistent.commitWriteOpVersion (Catalog.commitWithRetention_ok committed).2
  | expireWriteResults now =>
    obtain ⟨count, done⟩ := map_snd_eq_ok_iff.mp applied
    obtain ⟨elapsed, -, -, expiring⟩ := Catalog.expireWriteResults_ok done
    exact foldlM_ok_invariant (fun _ _ _ _ holds expired => holds.expireRoot expired) consistent
      expiring
  | discardEmptyVlog vlogID =>
    obtain ⟨-, rfl⟩ := Catalog.discardEmptyVlog_ok applied
    exact consistent.of_fewer_leases rfl
      (fun _ present => ((KeyedTable.mem_keep _ _ _).mp present).1)
      (fun _ _ _ known => known) rfl
  | retireVlog vlogID =>
    obtain ⟨-, -, -, -, leases⟩ := Catalog.retireVlog_ok applied
    have files : after.files = before.files := writes .files (by simp [CatalogAction.writes])
    refine consistent.of_fewer_leases (writes .writeOps (by simp [CatalogAction.writes])) ?_ ?_
      (writes .resultRoots (by simp [CatalogAction.writes]))
    · intro lease present
      rw [leases] at present
      exact ((KeyedTable.mem_keep _ _ _).mp present).1
    · exact fun op _ _ known => by rwa [files]
  | _ =>
    exact consistent.of_frame (writes.mono (by simp [CatalogAction.writes, notOfOps]))

section Changes

namespace CatalogAction

/-- A transaction that adds no version. -/
def Quiet : CatalogAction → Prop
  | .commitFile .. => False
  | .commitWriteOpVersion .. => False
  | .commitWriteOpVersionWithRetention .. => False
  | _ => True

/-- A transaction that records a new intent. -/
def Creates : CatalogAction → Prop
  | .createWriteOp .. => True
  | _ => False

/-- A transaction that may move an intent to another path. -/
def Rebinds : CatalogAction → Prop
  | .renameFile .. => True
  | .retargetPreparedWriteOp .. => True
  | _ => False

end CatalogAction

/-- What a transaction does to the operations, one step of it. -/
inductive OpsChange (action : CatalogAction) (rows : List WriteOp) : List WriteOp → Prop
  | prepared (selects : WriteOp → Bool) (update : WriteOp → WriteOp)
      (same : ∀ op, (update op).id = op.id ∧ (update op).idempotencyKey = op.idempotencyKey)
      (uncommitted : ∀ op, op.state = .prepared → (update op).state ≠ .committed)
      (path : ¬action.Rebinds → ∀ op, (update op).path = op.path) :
      OpsChange action rows (rows.map (ifPrepared selects update))
  | created (op : WriteOp) (creates : action.Creates) (isPrepared : op.state = .prepared) :
      OpsChange action rows (rows ++ [op])
  | committed (op : WriteOp) (fileID acknowledged : Nat) (commits : ¬action.Quiet)
      (isPrepared : op.state = .prepared) (own : ∀ other ∈ rows, other.id = op.id → other = op) :
      OpsChange action rows (rows.map (committedAs op.id fileID acknowledged))
  | expired (root : WriteResultRoot) : OpsChange action rows (rows.map (expiredBy root))

def OpsChanges (action : CatalogAction) (before after : Catalog) : Prop :=
  Relation.ReflTransGen (OpsChange action) before.writeOps.rows after.writeOps.rows

variable {action : CatalogAction} {before after : Catalog}

theorem cancelPrepared_change (selects : Path → Bool) :
    OpsChange action before.writeOps.rows (before.cancelPrepared selects).writeOps.rows := by
  rw [cancelPrepared_rows, cancelledBy_eq]
  exact .prepared _ _ (fun _ => ⟨rfl, rfl⟩) (by simp) fun _ _ => rfl

theorem changePrepared_change (id : Nat) (update : WriteOp → WriteOp)
    (keepsID : ∀ op, (update op).id = op.id)
    (keepsKey : ∀ op, (update op).idempotencyKey = op.idempotencyKey)
    (keepsState : ∀ op, (update op).state = op.state)
    (path : ¬action.Rebinds → ∀ op, (update op).path = op.path) :
    OpsChange action before.writeOps.rows
      (before.changePrepared id update keepsID).writeOps.rows := by
  rw [changePrepared_rows]
  refine .prepared _ _ (fun op => ⟨keepsID op, keepsKey op⟩) (fun op isPrepared => ?_) path
  simp [keepsState, isPrepared]

theorem finishPreparedWriteOp_change (id : Nat) {state : WriteOpState}
    (uncommitted : state ≠ .committed) :
    OpsChange action before.writeOps.rows
      (before.finishPreparedWriteOp id state).writeOps.rows := by
  rw [finishPreparedWriteOp_rows]
  exact .prepared _ _ (fun _ => ⟨rfl, rfl⟩) (fun _ _ => uncommitted) fun _ _ => rfl

theorem commitWriteOpVersion_change {opID fileID : Nat} {path : Path} {mtime expiresAt : Int}
    {placements : List ChunkPlacement} (commits : ¬action.Quiet)
    (committed : before.commitWriteOpVersion opID path mtime placements
      expiresAt = .ok (fileID, after)) :
    OpsChanges action before after := by
  obtain ⟨op, present, rfl, ⟨-, -, rfl⟩ | ⟨isPrepared, rows, -⟩⟩ :=
    commitWriteOpVersion_rows committed
  · exact .refl
  · rw [OpsChanges, rows]
    exact .single (.committed op _ _ commits isPrepared fun other otherIn same =>
      before.writeOps.eq_of_key_eq otherIn present same)

theorem expireRoot_change {root : WriteResultRoot} (expired : before.expireRoot root = .ok after) :
    OpsChange action before.writeOps.rows after.writeOps.rows := by
  obtain ⟨-, released, -, rfl⟩ := Catalog.expireRoot_ok expired
  exact .expired root

/-- A transaction changes the operations in such steps. -/
theorem apply_changes (applied : before.apply action = .ok after) :
    OpsChanges action before after := by
  have writes := Catalog.apply_writes applied
  unfold OpsChanges
  cases action with
  | unlinkFile path =>
    rw [Catalog.unlinkFile_frame applied .writeOps (by simp)]
    exact .single (cancelPrepared_change _)
  | renameFile oldPath newPath now =>
    by_cases same : cleanPath oldPath = cleanPath newPath
    · rw [Catalog.renameFile_same same applied]
    · have rows : (before.rebound (cleanPath oldPath) (cleanPath newPath)).writeOps.rows = _ :=
        retargetPrepared_rows _ _
      rw [Catalog.renameFile_frame same applied .writeOps (by simp), rows]
      refine .tail (.single (cancelPrepared_change _)) (.prepared _ _ (fun _ => ⟨rfl, rfl⟩) ?_ ?_)
      · intro op isPrepared
        simp [isPrepared]
      · exact fun stays => absurd trivial stays
  | rmdir path =>
    obtain ⟨-, -, rfl⟩ := Catalog.rmdir_ok applied
    exact .single (cancelPrepared_change _)
  | createWriteOp key path now =>
    obtain ⟨op, created⟩ := map_snd_eq_ok_iff.mp applied
    rcases (Catalog.createWriteOp_ok created).2 with ⟨-, rfl⟩ | ⟨-, -, rfl⟩
    · exact .refl
    · exact .single (.created _ trivial rfl)
  | setWriteOpTail id tail =>
    cases applied
    exact .single (changePrepared_change id _ _ (fun _ => rfl) (fun _ => rfl) fun _ _ => rfl)
  | retargetPreparedWriteOp id path =>
    obtain ⟨-, rfl⟩ := Catalog.retargetPreparedWriteOp_ok applied
    exact .single (changePrepared_change id _ _ (fun _ => rfl) (fun _ => rfl)
      fun stays => absurd trivial stays)
  | abandonWriteOp id =>
    cases applied
    exact .single (finishPreparedWriteOp_change id (by simp))
  | cancelWriteOp id =>
    cases applied
    exact .single (finishPreparedWriteOp_change id (by simp))
  | commitWriteOpVersion opID path mtime placements =>
    obtain ⟨fileID, committed⟩ := map_snd_eq_ok_iff.mp applied
    exact commitWriteOpVersion_change id committed
  | commitWriteOpVersionWithRetention opID path mtime placements expiresAt =>
    obtain ⟨fileID, committed⟩ := map_snd_eq_ok_iff.mp applied
    exact commitWriteOpVersion_change id (Catalog.commitWithRetention_ok committed).2
  | expireWriteResults now =>
    obtain ⟨count, done⟩ := map_snd_eq_ok_iff.mp applied
    obtain ⟨elapsed, -, -, expiring⟩ := Catalog.expireWriteResults_ok done
    have keeps : ∀ (start : Catalog) (root : WriteResultRoot) (next : Catalog), root ∈ elapsed →
        OpsChanges (.expireWriteResults now) before start → start.expireRoot root = .ok next →
          OpsChanges (.expireWriteResults now) before next :=
      fun _ _ _ _ changes expired => changes.tail (expireRoot_change expired)
    exact foldlM_ok_invariant keeps .refl expiring
  | _ =>
    rw [writes .writeOps (by simp [CatalogAction.writes])]

theorem OpsChange.moves {rows next : List WriteOp} (change : OpsChange action rows next) :
    ∀ op ∈ rows, ∃ new ∈ next, OpMoves op new := by
  intro op opIn
  cases change with
  | prepared selects update same =>
    refine ⟨_, List.mem_map_of_mem opIn, ?_⟩
    unfold ifPrepared
    split_ifs with selected
    · exact ⟨(same op).1, (same op).2, Or.inr (Or.inl selected.2)⟩
    · exact .refl op
  | created => exact ⟨op, List.mem_append_left _ opIn, .refl op⟩
  | committed own fileID acknowledged _ isPrepared isOwn =>
    refine ⟨_, List.mem_map_of_mem opIn, ?_⟩
    unfold committedAs
    split_ifs with same
    · rw [isOwn op opIn same]
      exact ⟨rfl, rfl, Or.inr (Or.inl isPrepared)⟩
    · exact .refl op
  | expired root =>
    refine ⟨_, List.mem_map_of_mem opIn, ?_⟩
    unfold expiredBy
    split_ifs with owned
    · exact ⟨rfl, rfl, Or.inr (Or.inr ⟨owned.2.2, rfl⟩)⟩
    · exact .refl op

theorem OpsFollow.of_changes (changes : OpsChanges action before after) :
    OpsFollow before after := by
  unfold OpsChanges at changes
  unfold OpsFollow
  generalize after.writeOps.rows = rows at changes ⊢
  induction changes with
  | refl => exact fun op opIn => ⟨op, opIn, .refl op⟩
  | tail _ change ih =>
    intro op opIn
    obtain ⟨middle, middleIn, moved⟩ := ih op opIn
    obtain ⟨new, newIn, movedOn⟩ := change.moves middle middleIn
    exact ⟨new, newIn, moved.trans movedOn⟩

theorem OpsFollow.apply (applied : before.apply action = .ok after) : OpsFollow before after :=
  .of_changes (apply_changes applied)

end Changes

/-- What holds of operations, leases and retained results in one state. -/
structure WriteOpsSound (catalog : Catalog) : Prop where
  leases : ∀ lease ∈ catalog.leases.rows, ∃ op ∈ catalog.writeOps.rows,
    op.id = lease.writeOpID ∧ op.state = .prepared
  oneLease : ∀ first ∈ catalog.leases.rows, ∀ second ∈ catalog.leases.rows,
    first.vlogID = second.vlogID → first = second
  versions : ∀ op ∈ catalog.writeOps.rows, op.state = .committed →
    ∃! version, version ∈ catalog.files.rows ∧ version.id = op.fileID
  roots : ∀ root ∈ catalog.resultRoots.rows, ∃ op ∈ catalog.writeOps.rows,
    op.id = root.writeOpID ∧ op.state = .committed ∧ op.fileID = root.fileID

/-- Finished operations keep their state, but a committed one may expire. -/
def FinishedStay (before after : Catalog) : Prop :=
  ∀ op ∈ before.writeOps.rows, op.state ≠ .prepared → ∃ new ∈ after.writeOps.rows, new.id = op.id ∧
      (new.state = op.state ∨ (op.state = .committed ∧ new.state = .expired))

theorem OpsConsistent.writeOpsSound {catalog : Catalog} (consistent : OpsConsistent catalog) :
    WriteOpsSound catalog := by
  refine ⟨consistent.leases, ?_, ?_, consistent.roots⟩
  · intro first firstIn second secondIn
    exact catalog.leases.eq_of_key_eq firstIn secondIn
  · intro op opIn committed
    obtain ⟨version, versionIn, same⟩ :=
      (KeyedTable.has_iff _ _).mp (consistent.versions op opIn committed)
    refine ⟨version, ⟨versionIn, same⟩, ?_⟩
    rintro other ⟨otherIn, otherSame⟩
    exact catalog.files.eq_of_key_eq otherIn versionIn (otherSame.trans same.symm)

theorem OpsFollow.finishedStay (follows : OpsFollow before after) : FinishedStay before after := by
  intro op opIn finished
  obtain ⟨new, newIn, sameID, -, unchanged | prepared | ⟨committed, expired⟩⟩ := follows op opIn
  · exact ⟨new, newIn, sameID, Or.inl (by rw [unchanged])⟩
  · exact absurd prepared finished
  · refine ⟨new, newIn, sameID, Or.inr ⟨committed, ?_⟩⟩
    rw [expired]

/-- In every run the operation tables are sound in every state, and from any
state of the run on the finished operations stay as they are, but for committed
ones that expire. -/
theorem write_ops_stay_sound {earlier later : List (CatalogAction × Catalog)}
    (isRun : IsRun CatalogStep Catalog.empty (earlier ++ later)) :
    AllStates WriteOpsSound Catalog.empty (earlier ++ later) ∧
      AllStates (FinishedStay (lastState Catalog.empty earlier))
        (lastState Catalog.empty earlier) later := by
  constructor
  · have consistent : AllStates OpsConsistent Catalog.empty (earlier ++ later) := by
      refine isRun.allStates (fun before action after holds stepped => ?_) OpsConsistent.empty
      rcases stepped with applied | rfl
      · exact holds.apply applied
      · exact holds
    exact ⟨consistent.1.writeOpsSound, fun entry member =>
      (consistent.2 entry member).writeOpsSound⟩
  · have rest := ((isRun_append_iff _ _ _ _).mp isRun).2
    have follows : AllStates (OpsFollow (lastState Catalog.empty earlier))
        (lastState Catalog.empty earlier) later := by
      refine rest.allStates (fun before action after holds stepped => ?_) (.refl _)
      rcases stepped with applied | rfl
      · exact holds.trans (.apply applied)
      · exact holds
    exact ⟨follows.1.finishedStay, fun entry member =>
      (follows.2 entry member).finishedStay⟩

/-- An operation takes a lease and commits with a retained result, which then
expires. -/
theorem write_ops_stay_sound_until_expiry :
    let earlier := Catalog.empty.runAll
      [.makeVlog ⟨0, 0, .duplicate, 1, 0, 0, 0, [], 1, false⟩,
        .createWriteOp "k" (ascii ['a']) 0, .claimVlogLease 1 1 0,
        .commitWriteOpVersionWithRetention 1 (ascii ['a']) 0 [] 5]
    let later := (lastState Catalog.empty earlier).runAll [.expireWriteResults 9]
    AllStates WriteOpsSound Catalog.empty (earlier ++ later) ∧
      AllStates (FinishedStay (lastState Catalog.empty earlier))
        (lastState Catalog.empty earlier) later :=
  write_ops_stay_sound ((isRun_append_iff _ _ _ _).mpr
    ⟨Catalog.isRun_runAll _ _, Catalog.isRun_runAll _ _⟩)

end Rose
