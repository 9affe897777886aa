import Mathlib.Data.Finset.Dedup
import Mathlib.Data.Finset.Max
import Mathlib.Data.Prod.Lex
import Rose.SnapshotRuns

/-!
# Expiry of snapshots

One scan over the snapshots, newest first, decides which of them the retention
policy gives up.  It marks the intervals it has met, so a snapshot represents
its interval exactly if no newer past snapshot lies there.  A snapshot that
represents an interval at a later time already did so at an earlier one, which
makes the survivors independent of the times at which the policy ran before.
-/

namespace Rose

open FallibleActions

theorem retentionBucket_eq (time : Int) {width : Int} (positive : 0 < width) :
    retentionBucket time width = time / width := by
  unfold retentionBucket
  rw [Int.tdiv_eq_ediv, Int.sign_eq_one_of_pos positive]
  by_cases past : time < 0
  · by_cases divides : width ∣ time
    · have exact : time.tmod width = 0 := Int.tmod_eq_zero_of_dvd divides
      simp [exact, divides]
    · have rest : time.tmod width ≠ 0 := fun zero =>
        divides (Int.dvd_of_tmod_eq_zero zero)
      simp [past, rest, divides, not_le.mpr past]
  · simp [past, not_lt.mp past]

theorem snapshotAge_mono {now later created newer : Int} (past : now ≤ later)
    (order : created ≤ newer) :
    snapshotAge now newer ≤ snapshotAge later created := by
  unfold snapshotAge
  omega

section Policy

/-- No snapshot created by `now` in the same interval is newer; among equal
times the greater id is the newer one. -/
def NewestPast (rows : List SnapshotRow) (now width : Int) (row : SnapshotRow) :
    Prop :=
  ∀ other ∈ rows, other.createdAt ≤ now → other.createdAt / width = row.createdAt / width →
    other.createdAt < row.createdAt ∨ other.createdAt = row.createdAt ∧ other.id ≤ row.id

/-- What the policy keeps: the snapshots of the future, those of the continuous
window, and the newest of each day and of each week in the wider windows. -/
def Retained (windows : SnapshotRetention) (now : Int) (rows : List SnapshotRow)
    (row : SnapshotRow) : Prop :=
  now < row.createdAt ∨ snapshotAge now row.createdAt ≤ windows.continuous ∨
    (snapshotAge now row.createdAt ≤ windows.daily ∧ NewestPast rows now (24 * 3600 * 10 ^ 9) row) ∨
    (snapshotAge now row.createdAt ≤ windows.weekly ∧
      NewestPast rows now (7 * 24 * 3600 * 10 ^ 9) row)

instance (rows : List SnapshotRow) (now width : Int) (row : SnapshotRow) :
    Decidable (NewestPast rows now width row) :=
  inferInstanceAs (Decidable (∀ other ∈ rows, _))

instance (windows : SnapshotRetention) (now : Int) (rows : List SnapshotRow) (row : SnapshotRow) :
    Decidable (Retained windows now rows row) :=
  inferInstanceAs (Decidable (_ ∨ _ ∨ _ ∨ _))

variable {rows fewer front : List SnapshotRow} {now later width : Int} {windows : SnapshotRetention}
  {row : SnapshotRow}

theorem newestFirst_iff {first second : SnapshotRow} :
    newestFirst first second = true ↔ second.createdAt < first.createdAt ∨
        second.createdAt = first.createdAt ∧ second.id ≤ first.id := by
  unfold newestFirst
  exact decide_eq_true_iff

theorem NewestPast.of_subset (newest : NewestPast rows later width row) (subset : fewer ⊆ rows)
    (past : now ≤ later) :
    NewestPast fewer now width row :=
  fun other present created =>
    newest other (subset present) (created.trans past)

theorem NewestPast.congr (same : ∀ row, row ∈ fewer ↔ row ∈ rows) :
    NewestPast fewer now width row ↔ NewestPast rows now width row :=
  forall_congr' fun other => by rw [same other]

theorem Retained.congr (same : ∀ row, row ∈ fewer ↔ row ∈ rows) :
    Retained windows now fewer row ↔ Retained windows now rows row := by
  unfold Retained
  rw [NewestPast.congr same, NewestPast.congr same]

theorem exists_newestPast (present : row ∈ rows) (past : row.createdAt ≤ now) (width : Int) :
    ∃ lead ∈ rows, lead.createdAt ≤ now ∧ lead.createdAt / width = row.createdAt / width ∧
      NewestPast rows now width lead := by
  let sharing := rows.toFinset.filter fun other =>
    other.createdAt ≤ now ∧ other.createdAt / width = row.createdAt / width
  have member : ∀ other, other ∈ sharing ↔ other ∈ rows ∧ other.createdAt ≤ now ∧
      other.createdAt / width = row.createdAt / width := by
    simp [sharing]
  obtain ⟨lead, isSharing, greatest⟩ := sharing.exists_max_image
    (fun other => toLex (other.createdAt, other.id))
    ⟨row, (member row).mpr ⟨present, past, rfl⟩⟩
  obtain ⟨inRows, created, sameBucket⟩ := (member lead).mp isSharing
  refine ⟨lead, inRows, created, sameBucket, ?_⟩
  intro other otherPresent otherCreated otherBucket
  have order := greatest other
    ((member other).mpr ⟨otherPresent, otherCreated, otherBucket.trans sameBucket⟩)
  rwa [Prod.Lex.toLex_le_toLex] at order

theorem NewestPast.of_survivors {survivors : List SnapshotRow} {window : Int}
    (order : now ≤ later) (present : row ∈ rows)
    (past : row.createdAt ≤ later)
    (young : snapshotAge later row.createdAt ≤ window)
    (kept : ∀ lead ∈ rows, snapshotAge now lead.createdAt ≤ window →
      NewestPast rows now width lead → lead ∈ survivors)
    (newest : NewestPast survivors later width row) :
    NewestPast rows later width row := by
  obtain ⟨lead, inRows, created, sameBucket, leads⟩ := exists_newestPast present past width
  have ahead := leads row present past sameBucket.symm
  have survived : lead ∈ survivors := by
    apply kept lead inRows
    · exact (snapshotAge_mono order (by omega)).trans young
    · exact leads.of_subset (List.Subset.refl rows) order
  have behind := newest lead survived created sameBucket
  intro other otherPresent otherCreated otherBucket
  have below := leads other otherPresent otherCreated (otherBucket.trans sameBucket.symm)
  omega

/-- Expiring what an earlier expiry left leaves what one expiry leaves. -/
theorem retained_survivors_iff {survivors : List SnapshotRow} (order : now ≤ later)
    (survived : ∀ row, row ∈ survivors ↔ row ∈ rows ∧ Retained windows now rows row)
    (row : SnapshotRow) :
    (row ∈ survivors ∧ Retained windows later survivors row) ↔
      row ∈ rows ∧ Retained windows later rows row := by
  have subset : survivors ⊆ rows := fun row kept => ((survived row).mp kept).1
  constructor
  · rintro ⟨kept, retained⟩
    have present := subset kept
    refine ⟨present, ?_⟩
    by_cases future : later < row.createdAt
    · exact Or.inl future
    · have past := not_lt.mp future
      rcases retained with isFuture | young | ⟨young, newest⟩ | ⟨young, newest⟩
      · exact Or.inl isFuture
      · exact Or.inr (Or.inl young)
      · refine Or.inr (Or.inr (Or.inl ⟨young, newest.of_survivors order present past young ?_⟩))
        intro lead inRows leadYoung leads
        exact (survived lead).mpr ⟨inRows, Or.inr (Or.inr (Or.inl ⟨leadYoung, leads⟩))⟩
      · refine Or.inr (Or.inr (Or.inr ⟨young, newest.of_survivors order present past young ?_⟩))
        intro lead inRows leadYoung leads
        exact (survived lead).mpr ⟨inRows, Or.inr (Or.inr (Or.inr ⟨leadYoung, leads⟩))⟩
  · rintro ⟨present, retained⟩
    have younger := snapshotAge_mono order (Int.le_refl row.createdAt)
    rcases retained with future | young | ⟨young, newest⟩ | ⟨young, newest⟩
    · exact ⟨(survived row).mpr ⟨present, Or.inl (order.trans_lt future)⟩, Or.inl future⟩
    · exact ⟨(survived row).mpr ⟨present, Or.inr (Or.inl
        (younger.trans young))⟩, Or.inr (Or.inl young)⟩
    · have before := newest.of_subset (List.Subset.refl rows) order
      exact ⟨(survived row).mpr ⟨present, Or.inr (Or.inr (Or.inl ⟨younger.trans young, before⟩))⟩,
        Or.inr (Or.inr (Or.inl ⟨young, newest.of_subset subset le_rfl⟩))⟩
    · have before := newest.of_subset (List.Subset.refl rows) order
      exact ⟨(survived row).mpr ⟨present, Or.inr (Or.inr (Or.inr ⟨younger.trans young, before⟩))⟩,
        Or.inr (Or.inr (Or.inr ⟨young, newest.of_subset subset le_rfl⟩))⟩

theorem newestPast_append_older {added : SnapshotRow} (older : newestFirst row added = true) :
    NewestPast (front ++ [added]) now width row ↔ NewestPast front now width row := by
  constructor
  · intro newest
    exact newest.of_subset (List.subset_append_left _ _) le_rfl
  · intro newest other present created sameBucket
    rcases List.mem_append.mp present with inFront | isAdded
    · exact newest other inFront created sameBucket
    · cases List.mem_singleton.mp isAdded
      exact newestFirst_iff.mp older

theorem newestPast_append_self (oldest : ∀ other ∈ front, newestFirst other row = true)
    (distinct : ∀ other ∈ front, other.id ≠ row.id) :
    NewestPast (front ++ [row]) now width row ↔ ¬∃ other ∈ front, other.createdAt ≤ now ∧
        other.createdAt / width = row.createdAt / width := by
  constructor
  · rintro newest ⟨other, inFront, created, sameBucket⟩
    have newer := newest other (List.mem_append_left _ inFront) created sameBucket
    have older := newestFirst_iff.mp (oldest other inFront)
    have different := distinct other inFront
    omega
  · intro alone other present created sameBucket
    rcases List.mem_append.mp present with inFront | isRow
    · exact absurd ⟨other, inFront, created, sameBucket⟩ alone
    · cases List.mem_singleton.mp isRow
      exact Or.inr ⟨rfl, Nat.le_refl _⟩

end Policy

section Scan

variable {windows : SnapshotRetention} {now : Int} {front : List SnapshotRow} {scan : ExpiryScan}
  {row : SnapshotRow}

/-- The intervals that past snapshots of the list lie in. -/
def PastBuckets (front : List SnapshotRow) (now width : Int) (buckets : List Int) : Prop :=
  ∀ bucket, bucket ∈ buckets ↔ ∃ row ∈ front, row.createdAt ≤ now ∧ row.createdAt / width = bucket

/-- The state of the scan after the newest snapshots. -/
structure Scanned (windows : SnapshotRetention) (now : Int) (front : List SnapshotRow)
    (scan : ExpiryScan) : Prop where
  days : PastBuckets front now (24 * 3600 * 10 ^ 9) scan.days
  weeks : PastBuckets front now (7 * 24 * 3600 * 10 ^ 9) scan.weeks
  expired : ∀ id, id ∈ scan.expired ↔ ∃ row ∈ front, row.id = id ∧ ¬Retained windows now front row

variable {buckets : List Int}

section

variable {width : Int} (marked : PastBuckets front now width buckets)
include marked

theorem PastBuckets.future (future : now < row.createdAt) :
    PastBuckets (front ++ [row]) now width buckets := by
  intro bucket
  simp only [marked bucket, List.mem_append, List.mem_singleton, or_and_right,
    exists_or, exists_eq_left]
  have unborn := not_le.mpr future
  simp [unborn]

theorem PastBuckets.past (past : row.createdAt ≤ now) :
    PastBuckets (front ++ [row]) now width (row.createdAt / width :: buckets) := by
  intro bucket
  simp only [List.mem_cons, marked bucket, List.mem_append, or_and_right, exists_or, exists_eq_left]
  rw [or_comm, eq_comm]
  simp [past]

theorem PastBuckets.newestPast_iff (oldest : ∀ other ∈ front, newestFirst other row = true)
    (distinct : ∀ other ∈ front, other.id ≠ row.id) :
    NewestPast (front ++ [row]) now width row ↔ row.createdAt / width ∉ buckets := by
  rw [newestPast_append_self oldest distinct, marked]

end

theorem retained_append_older {added : SnapshotRow} (older : newestFirst row added = true) :
    Retained windows now (front ++ [added]) row ↔ Retained windows now front row := by
  unfold Retained
  rw [newestPast_append_older older, newestPast_append_older older]

section

variable (scanned : Scanned windows now front scan)
  (oldest : ∀ other ∈ front, newestFirst other row = true)
include scanned oldest

theorem Scanned.expired_append (id : Nat) :
    (∃ other ∈ front ++ [row], other.id = id ∧ ¬Retained windows now (front ++ [row]) other) ↔
      id ∈ scan.expired ∨ row.id = id ∧ ¬Retained windows now (front ++ [row]) row := by
  rw [scanned.expired id]
  constructor
  · rintro ⟨other, present, named, given⟩
    rcases List.mem_append.mp present with inFront | isRow
    · rw [retained_append_older (oldest other inFront)] at given
      exact Or.inl ⟨other, inFront, named, given⟩
    · cases List.mem_singleton.mp isRow
      exact Or.inr ⟨named, given⟩
  · rintro (⟨other, inFront, named, given⟩ | ⟨named, given⟩)
    · refine ⟨other, List.mem_append_left _ inFront, named, ?_⟩
      rwa [retained_append_older (oldest other inFront)]
    · exact ⟨row, List.mem_append_right _ (List.mem_singleton_self row), named, given⟩

/-- One step of the scan decides the next snapshot as the policy does. -/
theorem Scanned.next (distinct : ∀ other ∈ front, other.id ≠ row.id) :
    Scanned windows now (front ++ [row]) (scanSnapshot windows now scan row) := by
  have dayBucket := retentionBucket_eq row.createdAt (show (0 : Int) < 24 * 3600 * 10 ^ 9 by decide)
  have weekBucket := retentionBucket_eq row.createdAt
    (show (0 : Int) < 7 * 24 * 3600 * 10 ^ 9 by decide)
  have day := scanned.days.newestPast_iff oldest distinct
  have week := scanned.weeks.newestPast_iff oldest distinct
  have expired := scanned.expired_append oldest
  unfold scanSnapshot
  by_cases future : now < row.createdAt
  · rw [if_pos future]
    refine ⟨scanned.days.future future, scanned.weeks.future future, ?_⟩
    intro id
    rw [expired id]
    simp [Retained, future]
  · have past : row.createdAt ≤ now := not_lt.mp future
    rw [if_neg future]
    simp only [dayBucket, weekBucket]
    refine ⟨scanned.days.past past, scanned.weeks.past past, ?_⟩
    intro id
    rw [expired id]
    -- The kept flag of the code is the policy at this snapshot.
    have kept : (decide (snapshotAge now row.createdAt ≤ windows.continuous) ||
        (decide (snapshotAge now row.createdAt ≤ windows.daily) &&
          !scan.days.contains (row.createdAt / (24 * 3600 * 10 ^ 9))) ||
        (decide (snapshotAge now row.createdAt ≤ windows.weekly) &&
          !scan.weeks.contains (row.createdAt / (7 * 24 * 3600 * 10 ^ 9)))) =
          true ↔
        Retained windows now (front ++ [row]) row := by
      unfold Retained
      rw [day, week]
      simp [future, or_assoc]
    by_cases retained : Retained windows now (front ++ [row]) row
    · simp only [kept.mpr retained, if_true, retained, not_true, and_false, or_false]
    · rw [Bool.eq_false_iff.mpr (mt kept.mp retained)]
      simp [retained, eq_comm]

end

theorem scanned_foldl {rows : List SnapshotRow}
    (sorted : rows.Pairwise fun first second => newestFirst first second = true)
    (distinct : (rows.map SnapshotRow.id).Nodup) :
    Scanned windows now rows (rows.foldl (scanSnapshot windows now) ⟨[], [], []⟩) := by
  induction rows using List.reverseRecOn with
  | nil => exact ⟨by simp [PastBuckets], by simp [PastBuckets], by simp⟩
  | append_singleton front row ih =>
    rw [List.pairwise_append] at sorted
    rw [List.map_append, List.nodup_append] at distinct
    rw [List.foldl_append]
    apply (ih sorted.1 distinct.1).next
    · intro other inFront
      exact sorted.2.2 other inFront row (List.mem_singleton_self row)
    · intro other inFront
      exact distinct.2.2 _ (List.mem_map_of_mem inFront) _ (by simp)

end Scan

namespace Catalog

variable {catalog after : Catalog}

theorem expiredSnapshots_iff (windows : SnapshotRetention) (now : Int) (id : Nat) :
    id ∈ catalog.expiredSnapshots windows now ↔ ∃ row ∈ catalog.snapshots.rows, row.id = id ∧
        ¬Retained windows now catalog.snapshots.rows row := by
  have same : ∀ row, row ∈ catalog.snapshots.rows.mergeSort newestFirst ↔
      row ∈ catalog.snapshots.rows := fun row => List.mem_mergeSort
  have sorted : (catalog.snapshots.rows.mergeSort newestFirst).Pairwise
      fun first second => newestFirst first second = true := by
    apply List.pairwise_mergeSort
    · intro first second third
      simp only [newestFirst_iff]
      omega
    · intro first second
      rw [Bool.or_eq_true, newestFirst_iff, newestFirst_iff]
      omega
  have distinct : ((catalog.snapshots.rows.mergeSort newestFirst).map SnapshotRow.id).Nodup := by
    apply ((List.mergeSort_perm _ _).map _).nodup_iff.mpr
    exact catalog.snapshots.distinct
  unfold expiredSnapshots
  rw [(scanned_foldl sorted distinct).expired id]
  simp only [same, Retained.congr same]

/-- Every file of a snapshot refers to a version, as the schema demands. -/
def SnapshotsResolve (catalog : Catalog) : Prop := ∀ file ∈ catalog.snapshotFiles.rows,
    ∃ version, catalog.files.find? file.fileID = some version

theorem adjustVersionRefs_returns {fileID : Nat} {version : FileVersion}
    (found : catalog.files.find? fileID = some version) (delta : Int) :
    catalog.adjustVersionRefs fileID delta = .ok { catalog with
      chunks := Rose.adjustChunkRefs catalog.chunks version.chunks delta } := by
  unfold adjustVersionRefs fileChunks
  rw [found]
  rfl

theorem foldlM_adjustVersionRefs_returns {held : List SnapshotFile}
    (resolve : ∀ file ∈ held, ∃ version, catalog.files.find? file.fileID = some version)
    (delta : Int) :
    ∃ after, held.foldlM (fun catalog row => adjustVersionRefs catalog row.fileID delta) catalog =
        .ok after := by
  induction held generalizing catalog with
  | nil => exact ⟨catalog, rfl⟩
  | cons file held ih =>
    rw [List.forall_mem_cons] at resolve
    obtain ⟨version, found⟩ := resolve.1
    rw [List.foldlM_cons, adjustVersionRefs_returns found, ok_bind]
    exact ih resolve.2

section

variable (resolve : catalog.SnapshotsResolve)
include resolve

theorem SnapshotsResolve.deleteSnapshot_returns (id : Nat) :
    ∃ after, catalog.deleteSnapshot id = .ok after := by
  have held : ∀ file ∈ catalog.snapshotFiles.rows.filter (fun row => decide (row.snapshotID = id)),
      ∃ version, catalog.files.find? file.fileID = some version :=
    fun file inSnapshot => resolve file (List.mem_filter.mp inSnapshot).1
  obtain ⟨released, releasing⟩ := foldlM_adjustVersionRefs_returns held (-1)
  exact ⟨_, bind_eq_ok_iff.mpr ⟨released, releasing, rfl⟩⟩

theorem SnapshotsResolve.deleteSnapshot {id : Nat}
    (deleted : catalog.deleteSnapshot id = .ok after) : after.SnapshotsResolve := by
  obtain ⟨released, -, -, rfl⟩ := deleteSnapshot_ok deleted
  intro file held
  exact resolve file ((KeyedTable.mem_keep _ _ _).mp held).1

theorem SnapshotsResolve.foldlM_deleteSnapshot (ids : List Nat) :
    ∃ after, ids.foldlM (fun catalog id => Catalog.deleteSnapshot catalog id)
      catalog = .ok after ∧ after.SnapshotsResolve := by
  induction ids generalizing catalog with
  | nil => exact ⟨catalog, rfl, resolve⟩
  | cons id ids ih =>
    obtain ⟨middle, deleted⟩ := resolve.deleteSnapshot_returns id
    obtain ⟨after, rest, resolves⟩ := ih (resolve.deleteSnapshot deleted)
    refine ⟨after, ?_, resolves⟩
    rw [List.foldlM_cons]
    exact bind_eq_ok_iff.mpr ⟨middle, deleted, rest⟩

theorem SnapshotsResolve.expireSnapshots (now : Int) :
    ∃ expired after, catalog.expireSnapshots now = .ok (expired, after) ∧
        after.SnapshotsResolve := by
  unfold Catalog.expireSnapshots
  cases policy : catalog.snapshotRetention with
  | none => exact ⟨[], catalog, rfl, resolve⟩
  | some windows =>
    obtain ⟨after, deleted, resolves⟩ := resolve.foldlM_deleteSnapshot
      (catalog.expiredSnapshots windows now)
    exact ⟨_, after, bind_eq_ok_iff.mpr ⟨after, deleted, rfl⟩, resolves⟩

end

theorem rows_foldlM_deleteSnapshot {ids : List Nat}
    (deleted : ids.foldlM (fun catalog id => deleteSnapshot catalog id) catalog = .ok after) :
    after.snapshots.rows = catalog.snapshots.rows.filter fun row => decide (row.id ∉ ids) := by
  induction ids generalizing catalog with
  | nil =>
    cases deleted
    simp
  | cons id ids ih =>
    rw [List.foldlM_cons, bind_eq_ok_iff] at deleted
    obtain ⟨middle, first, rest⟩ := deleted
    obtain ⟨released, -, -, rfl⟩ := deleteSnapshot_ok first
    rw [ih rest]
    change (catalog.snapshots.rows.filter _).filter _ = _
    rw [List.filter_filter]
    apply List.filter_congr
    intro row _
    rw [Bool.eq_iff_iff]
    simp [and_comm]

variable {now : Int} {expired : List Nat}

section

variable {windows : SnapshotRetention} (policy : catalog.snapshotRetention = some windows)
  (done : catalog.expireSnapshots now = .ok (expired, after))
include policy done

theorem expireSnapshots_expired : expired = catalog.expiredSnapshots windows now := by
  unfold expireSnapshots at done
  rw [policy] at done
  obtain ⟨remaining, -, rest⟩ := bind_eq_ok_iff.mp done
  cases rest
  rfl

theorem mem_expireSnapshots_iff (row : SnapshotRow) :
    row ∈ after.snapshots.rows ↔ row ∈ catalog.snapshots.rows ∧
      Retained windows now catalog.snapshots.rows row := by
  rw [rows_foldlM_deleteSnapshot (expireSnapshots_ok done), List.mem_filter,
    decide_eq_true_iff, expireSnapshots_expired policy done,
    expiredSnapshots_iff]
  refine and_congr_right fun present => ?_
  constructor
  · intro spared
    by_contra given
    exact spared ⟨row, present, rfl, given⟩
  · rintro retained ⟨other, alsoPresent, sameID, given⟩
    -- Two rows with one id are the same row.
    cases catalog.snapshots.eq_of_key_eq alsoPresent present sameID
    exact given retained

end

theorem expireSnapshots_retention (done : catalog.expireSnapshots now = .ok (expired, after)) :
    after.snapshotRetention = catalog.snapshotRetention :=
  expireSnapshots_writes done .snapshotRetention (by simp)

theorem rows_expireSnapshots (done : catalog.expireSnapshots now = .ok (expired, after)) :
    after.snapshots.rows = catalog.snapshots.rows.filter fun row => decide (row.id ∉ expired) :=
  rows_foldlM_deleteSnapshot (expireSnapshots_ok done)

theorem filter_eq_of_mem_iff {rows : List SnapshotRow} {kept other : SnapshotRow → Bool}
    (same : ∀ row, row ∈ rows.filter kept ↔ row ∈ rows.filter other) :
    rows.filter kept = rows.filter other := by
  apply List.filter_congr
  intro row present
  have chosen := same row
  rw [List.mem_filter, List.mem_filter, and_congr_right_iff] at chosen
  exact Bool.eq_iff_iff.mpr (chosen present)

theorem rows_retained {windows : SnapshotRetention}
    (policy : catalog.snapshotRetention = some windows)
    (done : catalog.expireSnapshots now = .ok (expired, after)) :
    after.snapshots.rows = catalog.snapshots.rows.filter fun row =>
      decide (Retained windows now catalog.snapshots.rows row) := by
  rw [rows_expireSnapshots done]
  apply filter_eq_of_mem_iff
  intro row
  rw [← rows_expireSnapshots done, mem_expireSnapshots_iff policy done, List.mem_filter,
    decide_eq_true_iff]

theorem expireSnapshots_still (retained : ∀ windows, catalog.snapshotRetention = some windows →
      ∀ row ∈ catalog.snapshots.rows, Retained windows now catalog.snapshots.rows row) :
    catalog.expireSnapshots now = .ok ([], catalog) := by
  unfold expireSnapshots
  cases policy : catalog.snapshotRetention with
  | none => rfl
  | some windows =>
    have nothing : catalog.expiredSnapshots windows now = [] := by
      rw [List.eq_nil_iff_forall_not_mem]
      intro id expired
      obtain ⟨row, present, -, given⟩ := (expiredSnapshots_iff windows now id).mp expired
      exact given (retained windows policy row present)
    simp only [nothing]
    rfl

/-- The expiry keeps exactly what the policy retains and reports the rest. -/
theorem expireSnapshots_keeps_retained (catalog : Catalog) (windows : SnapshotRetention) (now : Int)
    (policy : catalog.snapshotRetention = some windows) :
    (∀ expired after, catalog.expireSnapshots now = .ok (expired, after) →
      (∀ row, row ∈ after.snapshots.rows ↔ row ∈ catalog.snapshots.rows ∧
        Retained windows now catalog.snapshots.rows row) ∧
      ∀ id, id ∈ expired ↔ ∃ row ∈ catalog.snapshots.rows, row.id = id ∧
        ¬Retained windows now catalog.snapshots.rows row) ∧
    (catalog.SnapshotsResolve → ∃ expired after,
      catalog.expireSnapshots now = .ok (expired, after)) := by
  constructor
  · intro expired after done
    refine ⟨mem_expireSnapshots_iff policy done, ?_⟩
    rw [expireSnapshots_expired policy done]
    exact expiredSnapshots_iff windows now
  · intro resolve
    obtain ⟨expired, after, done, -⟩ := resolve.expireSnapshots now
    exact ⟨expired, after, done⟩

/-- A catalog with four snapshots of one day, two of them of one time. -/
def fourSnapshots : Catalog :=
  { empty with
    snapshots := (((SequencedTable.empty.append (fun id => ⟨id, "first", 10⟩) fun _ => rfl).append
      (fun id => ⟨id, "second", 20⟩) fun _ => rfl).append
      (fun id => ⟨id, "third", 20⟩) fun _ => rfl).append
      (fun id => ⟨id, "fourth", 7000⟩) fun _ => rfl
    snapshotRetention := some ⟨0, 3600, 9000⟩ }

/-- Before the fourth snapshot's time the third one represents the day. -/
theorem expireSnapshots_fourSnapshots :
    ∃ expired after, fourSnapshots.expireSnapshots 3000 = .ok (expired, after) ∧
      (1 ∈ expired ∧ 2 ∈ expired) ∧ after.snapshots.rows.map SnapshotRow.id = [3, 4] := by
  obtain ⟨keeps, returns⟩ := expireSnapshots_keeps_retained fourSnapshots ⟨0, 3600, 9000⟩ 3000 rfl
  obtain ⟨expired, after, done⟩ := returns (by simp [SnapshotsResolve, fourSnapshots, empty])
  refine ⟨expired, after, done, ?_, ?_⟩
  · rw [(keeps expired after done).2, (keeps expired after done).2]
    decide +kernel
  · rw [rows_retained rfl done]
    decide +kernel

/-- An expiry before another one changes nothing in what the later one leaves,
and one that is repeated at once finds nothing to delete. -/
theorem expireSnapshots_after_expireSnapshots (catalog : Catalog)
    (resolve : catalog.SnapshotsResolve) (first second : Int) (order : first ≤ second) :
    ∃ expired middle expiredNext after expiredOnce once,
      catalog.expireSnapshots first = .ok (expired, middle) ∧
      middle.expireSnapshots second = .ok (expiredNext, after) ∧
      catalog.expireSnapshots second = .ok (expiredOnce, once) ∧
      after.snapshots.rows = once.snapshots.rows ∧
      middle.expireSnapshots first = .ok ([], middle) := by
  obtain ⟨expired, middle, ran, middleResolves⟩ := resolve.expireSnapshots first
  obtain ⟨expiredNext, after, ranNext, -⟩ := middleResolves.expireSnapshots second
  obtain ⟨expiredOnce, once, ranOnce, -⟩ := resolve.expireSnapshots second
  have policy := expireSnapshots_retention ran
  refine ⟨expired, middle, expiredNext, after, expiredOnce, once, ran, ranNext, ranOnce, ?_, ?_⟩
  · cases windows? : catalog.snapshotRetention with
    | none =>
      rw [windows?] at policy
      unfold expireSnapshots at ran ranNext ranOnce
      rw [windows?] at ran ranOnce
      rw [policy] at ranNext
      cases ran
      cases ranNext
      cases ranOnce
      rfl
    | some windows =>
      rw [windows?] at policy
      have same : ∀ row, row ∈ after.snapshots.rows ↔ row ∈ once.snapshots.rows := by
        intro row
        rw [mem_expireSnapshots_iff policy ranNext, mem_expireSnapshots_iff windows? ranOnce]
        exact retained_survivors_iff order (mem_expireSnapshots_iff windows? ran) row
      -- Both are what deletions leave of one list, in its order.
      rw [rows_expireSnapshots ranNext, rows_expireSnapshots ran,
        List.filter_filter, rows_expireSnapshots ranOnce] at same ⊢
      exact filter_eq_of_mem_iff same
  · apply expireSnapshots_still
    intro windows windows? row survived
    rw [policy] at windows?
    have kept := mem_expireSnapshots_iff windows? ran
    have retained := (kept row).mp survived
    exact ((retained_survivors_iff (Int.le_refl first) kept row).mpr retained).2

/-- The first expiry deletes two snapshots, the second one the representative
that the fourth replaces. -/
theorem expireSnapshots_fourSnapshots_later :
    ∃ expired middle expiredNext after expiredOnce once,
      fourSnapshots.expireSnapshots 3000 = .ok (expired, middle) ∧
      middle.expireSnapshots 8000 = .ok (expiredNext, after) ∧
      fourSnapshots.expireSnapshots 8000 = .ok (expiredOnce, once) ∧
      after.snapshots.rows = once.snapshots.rows ∧
      middle.expireSnapshots 3000 = .ok ([], middle) ∧
      middle.snapshots.rows.map SnapshotRow.id = [3, 4] ∧
      after.snapshots.rows.map SnapshotRow.id = [4] := by
  obtain ⟨expired, middle, expiredNext, after, expiredOnce, once, ran, ranNext, ranOnce, same,
    still⟩ := expireSnapshots_after_expireSnapshots fourSnapshots
      (by simp [SnapshotsResolve, fourSnapshots, empty]) 3000 8000 (by decide)
  refine ⟨expired, middle, expiredNext, after, expiredOnce, once, ran, ranNext, ranOnce, same,
    still, ?_, ?_⟩
  · rw [rows_retained rfl ran]
    decide +kernel
  · rw [same, rows_retained rfl ranOnce]
    decide +kernel

end Catalog

end Rose
