import Rose.ResentWrites

/-!
# Unpublished writes

What a handle writes shows at no path until the handle is finished: opening,
writing, expiry, collection and restarts leave every published file as it was.
-/

namespace Rose

open LabelledRuns

variable {plain : Bytes → Bytes} {first before after : Catalog} {action : CatalogAction}

/-- A request that finishes no handle and changes no file's name or times. -/
def Request.Unpublished : Request plain → Prop
  | .flush .. | .close .. | .unlink .. | .rmdir .. | .rename .. | .setHandleMtime .. => False
  | _ => True

theorem Request.Unpublished.spares {request : Request plain} (unpublished : request.Unpublished)
    (issued : request.issues action) : action.Quiet ∧ CatalogTable.heads ∉ action.writes := by
  cases request with
  | flush | close | unlink | rmdir | rename | setHandleMtime => exact unpublished.elim
  | openSnapshot | restart => exact issued.elim
  | openHandle | write =>
    cases action <;>
      first
      | exact issued.elim
      | exact ⟨trivial, by simp [CatalogAction.writes]⟩
  | mkdir | expireWriteResults =>
    cases issued
    exact ⟨trivial, by simp [CatalogAction.writes]⟩
  | housekeeping work =>
    cases issued
    exact ⟨work.quiet, work.sparesHeads⟩

/-- The paths keep their heads and the heads their versions. -/
structure HeadsKept (first later : Catalog) : Prop where
  heads : later.heads = first.heads
  versions : ∀ head ∈ first.heads.rows, ∃ version,
    first.files.find? head.fileID = some version ∧ later.files.find? head.fileID = some version

theorem HeadsKept.apply (kept : HeadsKept first before)
    (spared : action.Quiet ∧ CatalogTable.heads ∉ action.writes)
    (applied : before.apply action = .ok after) : HeadsKept first after := by
  refine ⟨(Catalog.apply_writes applied .heads spared.2).trans kept.heads, fun head present => ?_⟩
  obtain ⟨version, inFirst, inBefore⟩ := kept.versions head present
  refine ⟨version, inFirst, ?_⟩
  cases action with
  | gcFileVersions limit =>
    obtain ⟨files, rfl, -, spares⟩ := Catalog.gcFileVersions_ok applied
    obtain ⟨versionIn, same⟩ := (KeyedTable.find?_eq_some_iff _ _ _).mp inBefore
    exact (KeyedTable.find?_eq_some_iff _ _ _).mpr ⟨spares version versionIn
      (Catalog.ownsVersion_iff.mpr (Or.inl ⟨head, kept.heads ▸ present, same.symm⟩)), same⟩
  | commitFile | commitWriteOpVersion | commitWriteOpVersionWithRetention => exact spared.1.elim
  | _ =>
    have same := Catalog.apply_writes applied .files (by simp [CatalogAction.writes])
    exact (congrArg (·.find? head.fileID) same).trans inBefore

end Rose
