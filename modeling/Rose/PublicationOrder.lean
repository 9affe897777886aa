import Rose.PreparedPublication

/-!
# What a publication does and when

Every publication goes along the one script of the coordinator.  For the
server's adapter this means that a leased vlog is synced and recorded at most
once and that the catalog never records more than a durable prefix.
-/

namespace Rose

namespace Coordinator

variable {World Failure : Type} {coordinator : Coordinator World Failure}
  {progress : PublicationProgress World Failure}

@[simp]
theorem checkpoint_trace (point : PublicationPoint) :
    (coordinator.checkpoint point progress).trace = progress.trace := by
  unfold checkpoint
  split
  · rfl
  · split <;> rfl

theorem mem_perform_trace {ids : List Nat}
    (admitted : .admitted (.ok ids) ∈ (coordinator.perform progress).trace) :
    .admitted (.ok ids) ∈ progress.trace ∨
      ∃ world, (coordinator.publication.admitVlogs world).1 = .ok ids := by
  unfold perform at admitted
  cases phase : progress.transaction.phase with
  | admission =>
    simp only [phase] at admitted
    split at admitted
    · left
      simpa [fails] using admitted
    case _ list world admits =>
        rcases List.mem_append.mp admitted with earlier | last
        · exact Or.inl earlier
        · right
          simp only [List.mem_singleton, PublicationEffect.admitted.injEq, Except.ok.injEq] at last
          exact ⟨progress.world, by rw [admits, last]⟩
  | _ =>
    left
    simp only [phase] at admitted
    revert admitted
    repeat' split
    all_goals simp [fails, moves]

theorem admitted_of_steps {property : List Nat → Prop}
    (admits : ∀ world ids, (coordinator.publication.admitVlogs world).1 = .ok ids → property ids)
    (count : Nat) {ids : List Nat}
    (earlier : ∀ ids, .admitted (.ok ids) ∈ progress.trace → property ids)
    (admitted : .admitted (.ok ids) ∈ (coordinator.steps count progress).trace) : property ids := by
  induction count generalizing progress with
  | zero => exact earlier ids admitted
  | succ count ih =>
    refine ih (fun list member => ?_) admitted
    unfold step at member
    cases failed : progress.transaction.err with
    | some reason =>
      rw [failed] at member
      exact earlier list member
    | none =>
      rw [failed] at member
      rcases mem_perform_trace member with old | ⟨world, new⟩
      · exact earlier list old
      · exact admits world list new

end Coordinator

/-- Distinct vlogs are synced and recorded once each. -/
theorem PublicationOrdered.once_each {Failure : Type} {trace : List (PublicationEffect Failure)}
    (ordered : PublicationOrdered trace) (onScript : OnScript trace)
    (distinct : ∀ ids, .admitted (.ok ids) ∈ trace → ids.Nodup) (vlog : Nat) :
    trace.countP (PublicationEffect.isSynced vlog) ≤ 1 ∧
      trace.countP (PublicationEffect.isRecorded vlog) ≤ 1 := by
  by_cases admits : ∃ ids, .admitted (.ok ids) ∈ trace
  · obtain ⟨ids, admitted⟩ := admits
    obtain ⟨synced, recorded⟩ := ordered.perVlog ids admitted vlog
    have once := List.nodup_iff_count_le_one.mp (distinct ids admitted) vlog
    exact ⟨Nat.le_trans synced once, Nat.le_trans recorded once⟩
  -- Without an admission the trace is empty or a failed admission.
  obtain ⟨ids, lengths, full, -, begins, agrees⟩ := onScript
  cases full with
  | nil =>
    rcases agrees with rfl | ⟨front, expected, reason, impossible, -⟩
    · simp
    · simp at impossible
  | cons first rest =>
    obtain ⟨rfl, -⟩ := List.cons_prefix_cons.mp begins
    rcases agrees with rfl | ⟨front, expected, reason, split, rfl⟩
    · exact absurd ⟨ids, List.mem_cons_self⟩ admits
    · cases front with
      | nil =>
        obtain ⟨rfl, -⟩ := List.cons.inj split
        simp [PublicationEffect.failure, PublicationEffect.isSynced, PublicationEffect.isRecorded]
      | cons head front =>
        obtain ⟨rfl, -⟩ := List.cons.inj split
        exact absurd ⟨ids, List.mem_cons_self⟩ admits

/-- The recorded lengths of the catalog and the prefixes that the mounted vlogs
hold durably. -/
def publicationView : PrefixView PublicationWorld where
  recorded world vlogID :=
    match world.catalog.vlogs.find? vlogID with
    | none => 0
    | some row => row.length
  durable world vlogID length := ∃ mounted, world.vlogs vlogID = some mounted ∧
      mounted.vlog.HoldsDurably length.toNat

namespace PreparedPublication

variable (prepared : PreparedPublication)

theorem undisturbed_of_same {before after : PublicationWorld}
    (rows : after.catalog.vlogs = before.catalog.vlogs) (vlogs : after.vlogs = before.vlogs) :
    publicationView.Undisturbed before after := by
  refine ⟨fun vlogID => ?_, fun vlogID length durable => ?_⟩
  · dsimp only [publicationView]
    rw [rows]
  · dsimp only [publicationView] at durable ⊢
    rwa [vlogs]

theorem commitVersion_vlogs {world : PublicationWorld} {fileID : Nat} {catalog : Catalog}
    (committed : prepared.commitVersion world = .ok (fileID, catalog)) :
    catalog.vlogs = world.catalog.vlogs := by
  unfold commitVersion at committed
  split at committed
  · exact Catalog.commitWriteOpVersion_writes
      (Catalog.commitWithRetention_ok committed).2 .vlogs (by simp)
  · exact Catalog.commitWriteOpVersion_writes committed .vlogs (by simp)

theorem sync_undisturbed (vlogID : Nat) (world : PublicationWorld) :
    publicationView.Undisturbed world (prepared.sync vlogID world).2 := by
  unfold sync
  cases found : world.vlogs vlogID with
  | none => exact .refl world
  | some mounted =>
    have keeps : ∀ other length, publicationView.durable world other length →
        ∃ held, (if other = vlogID then
          some (prepared.committedVlog vlogID mounted)
          else world.vlogs other) = some held ∧ held.vlog.HoldsDurably length.toNat := by
      rintro other length ⟨held, isHeld, holds⟩
      split_ifs with same
      · rw [same, found] at isHeld
        cases isHeld
        exact ⟨_, rfl, Vlog.holdsDurably_committed holds _⟩
      · exact ⟨held, isHeld, holds⟩
    dsimp only
    split
    · exact ⟨fun _ => rfl, keeps⟩
    · exact ⟨fun _ => rfl, keeps⟩

theorem sync_durable {vlogID : Nat} {world after : PublicationWorld} {length : Int}
    (synced : prepared.sync vlogID world = (.ok length, after)) :
    publicationView.durable after vlogID length := by
  unfold sync at synced
  cases found : world.vlogs vlogID with
  | none =>
    rw [found] at synced
    cases synced
  | some mounted =>
    rw [found] at synced
    dsimp only at synced
    cases reported : (mounted.vlog.commitPrefix (prepared.answers vlogID mounted)).1 with
    | none =>
      rw [reported] at synced
      cases synced
    | some amount =>
      rw [reported] at synced
      cases synced
      refine ⟨prepared.committedVlog vlogID mounted, if_pos rfl, ?_⟩
      have commits : mounted.vlog.commitPrefix (prepared.answers vlogID mounted) =
            (some amount, mounted.vlog.committed _) :=
        Prod.ext reported (Vlog.commitPrefix_snd _)
      exact Vlog.holdsDurably_commitPrefix mounted.complete commits

theorem recorded_recordPrefix (vlogID : Nat) (length : Int) (world : PublicationWorld)
    (other : Nat) :
    publicationView.recorded (recordPrefix vlogID length world).2 other =
        publicationView.recorded world other ∨
      (other = vlogID ∧ publicationView.recorded (recordPrefix vlogID length world).2 other =
          length) := by
  unfold recordPrefix
  split_ifs with negative
  · exact Or.inl rfl
  have rows : ((world.catalog.setVlogLength vlogID length.toNat).vlogs.find?
      other) = (world.catalog.vlogs.find? other).map fun row =>
        if row.id = vlogID then
          { row with length := max row.length length.toNat }
        else row :=
    KeyedTable.find?_change _ _ (fun row => by split_ifs <;> rfl) _
  dsimp only [publicationView]
  rw [rows]
  cases found : world.catalog.vlogs.find? other with
  | none => exact Or.inl rfl
  | some row =>
    have own := KeyedTable.key_of_find? found
    simp only [Option.map_some]
    split_ifs with same
    · rcases Nat.le_total length.toNat row.length with shorter | longer
      · rw [Nat.max_eq_left shorter]
        exact Or.inl rfl
      · refine Or.inr ⟨own.symm.trans same, ?_⟩
        simp only [Nat.max_eq_right longer]
        omega
    · exact Or.inl rfl

theorem recordsDurably (faults : PublicationPoint → Bool) :
    (prepared.coordinator faults).RecordsDurably publicationView where
  admitVlogs world := by
    change publicationView.Undisturbed world (prepared.admitVlogs world).2
    unfold admitVlogs
    split
    · exact .refl world
    · exact .refl world
  sync := prepared.sync_undisturbed
  synced vlogID world length after synced := prepared.sync_durable synced
  recordKeeps vlogID length world other amount durable := by
    change publicationView.durable (recordPrefix vlogID length world).2 _ _
    unfold recordPrefix
    split_ifs
    · exact durable
    · exact durable
  recordOther vlogID length world other different := by
    rcases recorded_recordPrefix vlogID length world other with same | ⟨own, -⟩
    · exact same
    · exact absurd own different
  recordOwn vlogID length world :=
    (recorded_recordPrefix vlogID length world vlogID).imp_right And.right
  verify world := by
    change publicationView.Undisturbed world (prepared.verify world).2
    unfold verify
    split
    · exact .refl world
    · exact undisturbed_of_same rfl rfl
  publish world := by
    change publicationView.Undisturbed world (prepared.publish world).2
    unfold publish
    cases committed : prepared.commitVersion world with
    | error reason => exact .refl world
    | ok result =>
      obtain ⟨fileID, catalog⟩ := result
      exact undisturbed_of_same (prepared.commitVersion_vlogs committed) rfl
  hook hook hooked point world := by
    cases hooked
    exact .refl world

theorem admit_nodup {world : PublicationWorld} {ids : List Nat}
    (admitted : (prepared.admitVlogs world).1 = .ok ids) : ids.Nodup := by
  unfold admitVlogs at admitted
  split at admitted
  · cases admitted
  · cases admitted
    exact world.catalog.nodup_writeOpLeases prepared.opID

end PreparedPublication

/-- Every publication follows the script and comes to an end.  The server's
adapter syncs and records a leased vlog at most once, and what it has recorded
is as at the start or a prefix that a quorum of the copies holds durably. -/
theorem publications_follow_script :
    (∀ (World Failure : Type) (coordinator : Coordinator World Failure)
      (world : World) (count : Nat),
      PublicationOrdered (coordinator.steps count (.initial world)).trace ∧
        Coordinator.Finished (coordinator.commit world)) ∧
    ∀ (prepared : PreparedPublication) (faults : PublicationPoint → Bool)
      (world : PublicationWorld) (count : Nat),
      let progress := (prepared.coordinator faults).steps count (.initial world)
      (∀ vlog, progress.trace.countP (PublicationEffect.isSynced vlog) ≤ 1 ∧
        progress.trace.countP (PublicationEffect.isRecorded vlog) ≤ 1) ∧
      publicationView.RecordedFrom world progress.world := by
  have onScript : ∀ {World Failure : Type}
      (coordinator : Coordinator World Failure) (world : World) (count : Nat),
      OnScript (coordinator.steps count (.initial world)).trace := by
    intro World Failure coordinator world count
    exact (Coordinator.steps_sound count (Or.inl (.start 0))).onScript
  refine ⟨fun World Failure coordinator world count => ⟨?_, ?_⟩,
    fun prepared faults world count => ⟨fun vlog => ?_, ?_⟩⟩
  · exact .of_onScript (onScript coordinator world count)
  · exact Coordinator.commit_finished world
  · have script := onScript (prepared.coordinator faults) world count
    have distinct : ∀ world ids,
        ((prepared.coordinator faults).publication.admitVlogs world).1 = .ok ids → ids.Nodup :=
      fun _ _ admits => prepared.admit_nodup admits
    refine (PublicationOrdered.of_onScript script).once_each script ?_ vlog
    intro ids admitted
    exact Coordinator.admitted_of_steps distinct count
      (fun _ impossible => by cases impossible) admitted
  · exact ((prepared.recordsDurably faults).steps count
      (Coordinator.RecordsDurably.initial publicationView world)).recorded

end Rose
