import Rose.StagedWrites

/-!
# Committed results and what is compared with them

Only a publication commits an operation.  Its version has a number of its own
and as many bytes as the operation acknowledged, and both stay so.  Hence a
retry that passes the checks of a write or of a close repeats the committed
bytes: the batches that a close compares cover the version.
-/

namespace Rose

open FallibleActions LabelledRuns ListSplice

/-- The committed operations were committed before, as they are. -/
def CommittedFrom (before after : Catalog) : Prop :=
  ∀ op ∈ after.writeOps.rows, op.state = .committed → op ∈ before.writeOps.rows

theorem OpsChange.mem_of_committed {action : CatalogAction} {rows next : List WriteOp}
    (change : OpsChange action rows next) (quiet : action.Quiet) {op : WriteOp} (opIn : op ∈ next)
    (isCommitted : op.state = .committed) :
    op ∈ rows := by
  cases change with
  | prepared selects update _ uncommitted =>
    obtain ⟨old, oldIn, rfl⟩ := List.mem_map.mp opIn
    unfold ifPrepared at isCommitted ⊢
    split_ifs at isCommitted ⊢ with selected
    · exact absurd isCommitted (uncommitted old selected.2)
    · exact oldIn
  | created new _ isPrepared =>
    rcases List.mem_append.mp opIn with old | last
    · exact old
    · rw [List.mem_singleton.mp last, isPrepared] at isCommitted
      cases isCommitted
  | committed _ _ _ commits => exact absurd quiet commits
  | expired root =>
    obtain ⟨old, oldIn, rfl⟩ := List.mem_map.mp opIn
    unfold expiredBy at isCommitted ⊢
    split_ifs at isCommitted ⊢
    exact oldIn

namespace CommittedFrom

variable {before middle after : Catalog}

theorem of_same (same : after.writeOps = before.writeOps) : CommittedFrom before after := by
  intro op opIn _
  rwa [same] at opIn

theorem trans (earlier : CommittedFrom before middle) (later : CommittedFrom middle after) :
    CommittedFrom before after :=
  fun op opIn committed => earlier op (later op opIn committed) committed

/-- Only a publication commits. -/
theorem apply {action : CatalogAction} (quiet : action.Quiet)
    (applied : before.apply action = .ok after) :
    CommittedFrom before after := by
  have changes := apply_changes applied
  unfold OpsChanges at changes
  unfold CommittedFrom
  generalize after.writeOps.rows = rows at changes ⊢
  induction changes with
  | refl => exact fun op opIn _ => opIn
  | tail _ change ih =>
    exact fun op opIn committed => ih op (change.mem_of_committed quiet opIn committed) committed

end CommittedFrom

section Measures

variable {plain : Bytes → Bytes}

/-- A committed operation acknowledged the length of its version. -/
def ResultsMeasured (plain : Bytes → Bytes) (catalog : Catalog) : Prop :=
  ∀ op ∈ catalog.writeOps.rows, op.state = .committed → op.fileID ≠ 0 ∧
    ∀ version ∈ catalog.files.rows, version.id = op.fileID →
      op.acknowledgedOffset = (version.bytes plain).length

theorem ResultsMeasured.empty : ResultsMeasured plain .empty := by
  intro op impossible
  cases impossible

theorem ResultsMeasured.apply {before after : Catalog} {action : CatalogAction}
    (measured : ResultsMeasured plain before) (quiet : action.Quiet)
    (applied : before.apply action = .ok after) :
    ResultsMeasured plain after := by
  intro op opIn committed
  have oldIn := CommittedFrom.apply quiet applied op opIn committed
  obtain ⟨nonzero, lengths⟩ := measured op oldIn committed
  exact ⟨nonzero, fun version versionIn => lengths version
    (files_of_quiet quiet applied version versionIn)⟩

/-- A publication commits its operation with the length of its version. -/
theorem ResultsMeasured.commitWriteOpVersion {before after : Catalog}
    {opID fileID : Nat} {path : Path} {mtime expiresAt : Int}
    (measured : ResultsMeasured plain before)
    (consistent : OpsConsistent before) (chunks : PreparedChunks plain)
    (commits : before.commitWriteOpVersion opID path mtime chunks.placements
      expiresAt = .ok (fileID, after)) :
    ResultsMeasured plain after := by
  have files := commitWriteOpVersion_files commits
  obtain ⟨own, -, rfl, ⟨-, -, rfl⟩ | ⟨-, rows, -, -, isNext, -⟩⟩ :=
    commitWriteOpVersion_rows commits
  · exact measured
  have isNew : ∀ version ∈ before.files.rows, version.id ≠ fileID := by
    intro version versionIn same
    have bounded := before.files.bounded version versionIn
    rw [same, isNext] at bounded
    omega
  have length : (FileVersion.bytes ⟨fileID, cleanPath path, mtime,
      packExtents chunks.placements⟩ plain).length =
      totalLen chunks.placements := by
    rw [(stored_packExtents chunks.hashesFit chunks.stored chunks.sizesFit
      _ _ _).2, length_chunkBytes chunks.stored]
  intro op opIn committed
  rw [rows] at opIn
  obtain ⟨old, oldIn, rfl⟩ := List.mem_map.mp opIn
  unfold committedAs at committed ⊢
  split_ifs at committed ⊢ with isOwn
  · have nonzero : fileID ≠ 0 := by omega
    refine ⟨nonzero, fun version versionIn sameID => ?_⟩
    rcases files version versionIn with oldVersion | rfl
    · exact absurd sameID (isNew version oldVersion)
    · exact length.symm
  · obtain ⟨nonzero, lengths⟩ := measured old oldIn committed
    refine ⟨nonzero, fun version versionIn sameID => ?_⟩
    rcases files version versionIn with oldVersion | rfl
    · exact lengths version oldVersion sameID
    · obtain ⟨known, knownIn, knownID⟩ := (KeyedTable.has_iff _ _).mp
        (consistent.versions old oldIn committed)
      exact absurd (knownID.trans sameID.symm) (isNew known knownIn)

theorem ResultsMeasured.finishing {handle : Nat} {key : String} {env : FinishEnv plain}
    {start : FileServer} {reported : Option Int} {catalog : Catalog}
    (measured : ResultsMeasured plain start.catalog) (consistent : OpsConsistent start.catalog)
    (finishing : FileServer.Finishing handle key env start reported catalog) :
    ResultsMeasured plain catalog := by
  cases finishing with
  | refused | answered | forgotten | read | confirmed => exact measured
  | released found catalog present writes unlinked left =>
    rcases left with rfl | rfl
    · exact measured
    · have quiet : (CatalogAction.cancelWriteOp found.writeOpID).Quiet :=
        trivial
      exact measured.apply quiet rfl
  | published found op chunks fileID catalog reported present writes linked
      known uncommitted commits reports =>
    exact measured.commitWriteOpVersion consistent chunks commits

theorem ResultsMeasured.serves {before after : FileServer} {exchange : Request plain × Reply}
    (measured : ResultsMeasured plain before.catalog) (consistent : OpsConsistent before.catalog)
    (served : before.Serves exchange after) :
    ResultsMeasured plain after.catalog := by
  obtain ⟨request, reply⟩ := exchange
  by_cases finishes : request.Finishes
  · have ending : ∀ {handle key env start reported}, before.Expired env.now start →
        FileServer.Finishing handle key (env : FinishEnv plain) start reported
          after.catalog → ResultsMeasured plain after.catalog := by
      intro handle key env start reported expired finishing
      have quiet : (CatalogAction.expireWriteResults env.now).Quiet := trivial
      exact (measured.apply quiet expired.applied).finishing
        (consistent.apply expired.applied) finishing
    obtain ⟨handle, key, env, asks⟩ := Request.asks_of_finishes finishes
    rcases served.finishing asks with
      ⟨deadline, start, -, expired, finishing⟩ |
      ⟨-, rfl | ⟨start, expired, finishing⟩⟩
    · exact ending expired finishing
    · exact measured
    · exact ending expired finishing
  · exact served.moves.1.keeps
      (fun _ _ _ issued applied kept =>
        kept.apply (Request.quiet_of_issues finishes issued) applied) measured

end Measures

section Comparison

variable {plain : Bytes → Bytes} {server : FileServer}

open FileServer

variable {after : FileServer}

theorem fromStorage_eq_ok {α : Type} {result : Except String α} {value : α}
    (read : fromStorage result server = .ok value after) :
    result = .ok value ∧ after = server := by
  cases result with
  | error reason => cases read
  | ok stored =>
    cases read
    exact ⟨rfl, rfl⟩

theorem query_eq_ok {α : Type} {read : Catalog → Except CatalogError α} {value : α}
    (returned : query read server = .ok value after) :
    read server.catalog = .ok value ∧ after = server := by
  unfold query at returned
  cases outcome : read server.catalog with
  | error reason =>
    rw [outcome] at returned
    cases returned
  | ok result =>
    rw [outcome] at returned
    cases returned
    exact ⟨rfl, rfl⟩

/-- Batches that agree from an offset on make the rest agree. -/
theorem drop_eq_of_compareBatches {key : String}
    {retried committed : Nat → Nat → Except String Bytes} {left right : Bytes} {total : Nat}
    (leftRead : ∀ start count out, retried start count = .ok out → out = slice left start count)
    (rightRead : ∀ start count out, committed start count = .ok out → out = slice right start count)
    (leftLength : left.length = total) (rightLength : right.length = total) (offset : Nat)
    (compared : compareBatches key retried committed total offset server = .ok () after) :
    left.drop offset = right.drop offset := by
  induction remaining : total - offset using Nat.strong_induction_on generalizing offset server with
  | _ count ih =>
    have positive : 0 < compareBatch := by decide
    unfold compareBatches at compared
    split_ifs at compared with inside
    · obtain ⟨first, middle, readFirst, rest⟩ := run_bind_eq_ok_iff.mp compared
      obtain ⟨second, last, readSecond, judged⟩ := run_bind_eq_ok_iff.mp rest
      obtain ⟨isFirst, rfl⟩ := fromStorage_eq_ok readFirst
      obtain ⟨isSecond, rfl⟩ := fromStorage_eq_ok readSecond
      split_ifs at judged with same
      · have later := ih _ (by omega) (offset + compareBatch) judged rfl
        -- the last batch is short but takes all that is left
        have whole : ∀ bytes : Bytes, bytes.length = total →
            slice bytes offset (min compareBatch (total - offset)) =
              (bytes.drop offset).take compareBatch := by
          intro bytes length
          unfold slice
          rw [List.take_eq_take_iff, List.length_drop, length]
          omega
        rw [leftRead _ _ _ isFirst, rightRead _ _ _ isSecond,
          whole left leftLength, whole right rightLength] at same
        rw [← List.drop_drop, ← List.drop_drop] at later
        rw [← List.take_append_drop compareBatch (left.drop offset), same,
          later, List.take_append_drop]
      · cases judged
    · rw [List.drop_eq_nil_of_le (by omega), List.drop_eq_nil_of_le (by omega)]

theorem staged_of_validateTouched {handle : FileHandle} {op : WriteOp}
    {placements : List ChunkPlacement} {payload : PayloadReader plain} (good : handle.Stored plain)
    (stored : AllStored plain placements)
    (length : op.acknowledgedOffset = (chunkBytes plain placements).length)
    (touched : handle.writeTouched = true)
    (validated : validateTouched handle op placements payload server = .ok () after) :
    handle.staged plain = chunkBytes plain placements := by
  unfold validateTouched validateCommittedRetry at validated
  rw [if_pos touched] at validated
  unfold FileHandle.staged
  cases held : handle.cache with
  | none =>
    rw [held] at validated
    cases validated
  | some cache =>
    rw [held] at validated
    dsimp only at validated
    split_ifs at validated with differs
    · cases validated
    have sound := good.2 cache held
    have same := drop_eq_of_compareBatches
      (fun start count out => WriteCache.readAt_eq sound.1 payload)
      (fun start count out => readChunksAt_eq payload stored)
      (by rw [WriteCache.length_view]; exact not_ne_iff.mp differs)
      length.symm 0 validated
    simpa using same

/-- A write that passes the check of a retry repeats committed bytes. -/
theorem slice_of_validateCommittedWriteRetry {op : WriteOp} {offset : Nat} {data : Bytes}
    {payload : PayloadReader plain} {version : FileVersion}
    (versions : ∀ version ∈ server.catalog.files.rows, version.Stored plain)
    (found : server.catalog.files.find? op.fileID = some version) (nonzero : op.fileID ≠ 0)
    (validated : validateCommittedWriteRetry op offset data payload server = .ok () after) :
    offset + data.length ≤ op.acknowledgedOffset ∧
      slice (version.bytes plain) offset data.length = data := by
  unfold validateCommittedWriteRetry at validated
  split_ifs at validated with tooLong empty
  · cases validated
  · rw [empty]
    exact ⟨by simpa [empty] using tooLong, by simp [slice]⟩
  · obtain ⟨placements, middle, read, rest⟩ := run_bind_eq_ok_iff.mp validated
    obtain ⟨committed, last, readBytes, judged⟩ := run_bind_eq_ok_iff.mp rest
    obtain ⟨chunks, rfl⟩ := query_eq_ok read
    obtain ⟨isCommitted, rfl⟩ := fromStorage_eq_ok readBytes
    split_ifs at judged with same
    · have stored := fileVersionChunks_stored versions chunks
      refine ⟨by omega, ?_⟩
      rw [← fileVersionChunks_bytes chunks found nonzero,
        ← readChunksAt_eq payload stored isCommitted, same]
    · cases judged

end Comparison

end Rose
