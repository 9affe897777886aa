import Rose.PlogPrograms

/-!
# Rules for the programs of a log

One rule for each program that several developments reason about: what has to
hold on each of its paths for a triple about the whole.
-/

namespace Rose

open ListSplice DurableFiles FaultyPrograms

variable {env : PlogEnv} {world : PlogWorld} {data : Bytes} {start : Nat}
  {stopped : Halt → PlogWorld → Prop}

theorem setPlog_triple {change : Plog → Plog} :
    Triple (· = world) (setPlog change)
      (fun _ after => after = { world with plog := change world.plog }) stopped :=
  Triple.update fun _ same => by rw [same]

/-- An effect on the file stops with a part of it done. -/
theorem storeEffect_triple {label name : String} {apply : UndoStore → UndoStore}
    {cut : Nat → UndoStore → UndoStore}
    (stops : ∀ progress halt, stopped halt { world with store := cut progress world.store }) :
    Triple (· = world) (labelled label (onStore (effect name apply cut)))
      (fun _ after => after = { world with store := apply world.store }) stopped := by
  have effects : Triple (· = world)
      (labelled label (onStore (effect name apply cut)))
      (fun _ after => after = { world with store := apply world.store })
      (fun _ after => ∃ progress, after = { world with store := cut progress world.store }) := by
    refine Triple.labelled (Triple.within fun outer same => ?_) fun _ _ held => held
    subst same
    exact Triple.effect_last (fun progress _ => ⟨progress, rfl⟩) rfl
  refine effects.stopping ?_
  rintro halt _ ⟨progress, rfl⟩
  exact stops progress halt

theorem protectPrefixLocked_rule {post : PlogWorld → Prop}
    (idle : world.plog.undoActive = true → world.plog.undoStart ≤ start → post world)
    (saves : Triple (fun store => store = world.store) (saveUndo env.sha start)
      (fun _ store => post ⟨store, { world.plog with undoActive := true, undoStart := start }⟩)
      (fun halt store => stopped halt ⟨store, world.plog⟩))
    (relabels : ∀ label reason after, stopped (.error reason) after →
      stopped (.error (label ++ reason)) after) :
    Triple (· = world) (protectPrefixLocked env start) (fun _ after => post after) stopped := by
  refine Triple.bind_current ?_
  split_ifs with reaches
  · refine Triple.pure fun _ same => ?_
    rw [same]
    exact idle reaches.1 reaches.2
  · have stores : Triple (· = world) (onStore (saveUndo env.sha start))
        (fun _ after => post { after with
          plog := { after.plog with undoActive := true, undoStart := start } }) stopped := by
      refine Triple.within fun outer same => ?_
      subst same
      exact saves
    exact Triple.bind (Triple.labelled stores (relabels _)) fun _ =>
      Triple.update fun _ held => held

/-- An append is refused, fits into the open sector, or seals sectors behind a
protected prefix. -/
theorem writeLocked_rule {post : Nat → PlogWorld → Prop} {shielded : PlogWorld → Prop}
    (refuses : ∀ halt, stopped halt world)
    (buffers : world.plog.bufCorrupt = false → world.plog.openUnverified = false →
      world.plog.buf.length + data.length < sectorSize →
        post world.plog.logicalLength { world with plog := world.plog.buffer data })
    (protects : Triple (· = world)
      (protectPrefixLocked env (calcPhysical (blockStartOf world.plog.logicalLength)))
      (fun _ after => shielded after) stopped)
    (tears : ∀ middle, shielded middle → ∀ progress halt, stopped halt { middle with
      store := middle.store.issue (.write (calcPhysical world.plog.sealed)
        ((sealData env world.plog data).1.writeBuf.take progress)) })
    (seals : world.plog.bufCorrupt = false → world.plog.openUnverified = false →
      sectorSize ≤ world.plog.buf.length + data.length → ∀ middle, shielded middle →
        post world.plog.logicalLength
          ⟨middle.store.issue (.write (calcPhysical world.plog.sealed)
            (sealData env world.plog data).1.writeBuf),
          middle.plog.sealedWith (sealData env world.plog data)⟩) :
    Triple (· = world) (writeLocked env data) post stopped := by
  refine Triple.bind_current ?_
  dsimp only
  split_ifs with untrusted short
  · refine Triple.raise fun _ same => ?_
    rw [same]
    exact refuses _
  · rw [not_or, Bool.not_eq_true, Bool.not_eq_true] at untrusted
    refine Triple.bind setPlog_triple fun _ => Triple.pure fun _ same => ?_
    rw [same]
    exact buffers untrusted.1 untrusted.2 short
  · rw [not_or, Bool.not_eq_true, Bool.not_eq_true] at untrusted
    refine Triple.bind protects fun _ machine held => ?_
    refine (Triple.bind (storeEffect_triple (tears _ held)) fun _ =>
      Triple.bind setPlog_triple fun _ => Triple.pure fun _ same => ?_) machine rfl
    rw [same]
    exact seals untrusted.1 untrusted.2 (Nat.le_of_not_lt short) _ held

theorem checkOverlap_rule {offset : Int} {expected : Bytes} {holds : Prop}
    (refuses : ∀ halt, stopped halt world)
    (compares : expected.length = 0 ∨
      readLocked env world.plog world.content offset expected.length = .ok expected → holds) :
    Triple (· = world) (checkOverlap env offset expected)
      (fun _ after => after = world ∧ holds) stopped := by
  unfold checkOverlap
  split_ifs with empty
  · exact Triple.pure fun _ same => ⟨same, compares (.inl empty)⟩
  · refine Triple.bind_current ?_
    refine Triple.bind_fact (Triple.inspect_at refuses) fun existing read => ?_
    split_ifs with differs
    · refine Triple.raise fun _ same => ?_
      rw [same]
      exact refuses _
    · rw [not_not.mp differs] at read
      exact Triple.pure fun _ same => ⟨same, compares (.inr read)⟩

/-- An append at an offset is refused, finds its data, or writes what lies
beyond the log. -/
theorem ensureAppend_rule {offset : Int} {post : PlogWorld → Prop} {holds : Nat → Bytes → Prop}
    (refuses : ∀ halt, stopped halt world)
    (compares : ∀ start : Nat, ∀ expected, expected.length = 0 ∨
      readLocked env world.plog world.content start expected.length = .ok expected →
        holds start expected)
    (present : ∀ start : Nat, offset = start → start + data.length ≤ world.plog.logicalLength →
      holds start data → post world)
    (writes : ∀ start overlap : Nat, offset = start →
      world.plog.logicalLength = start + overlap → overlap < data.length →
        holds start (data.take overlap) →
          Triple (· = world) (writeLocked env (data.drop overlap))
            (fun _ after => post after) stopped) :
    Triple (· = world) (ensureAppend env offset data) (fun _ after => post after) stopped := by
  refine Triple.bind_current ?_
  dsimp only
  by_cases outside : offset < 0 ∨ offset > world.plog.logicalLength
  · rw [if_pos outside]
    refine Triple.raise fun _ same => ?_
    rw [same]
    exact refuses _
  rw [if_neg outside]
  obtain ⟨start, rfl⟩ : ∃ start : Nat, offset = start := ⟨offset.toNat, by omega⟩
  rw [Int.toNat_natCast]
  generalize overlap_eq : min (world.plog.logicalLength - start) data.length = overlap
  refine Triple.bind_fact (checkOverlap_rule refuses (compares start _)) fun _ held => ?_
  split_ifs with whole
  · rw [whole, List.take_length] at held
    refine Triple.pure fun _ same => ?_
    rw [same]
    exact present start rfl (by omega) held
  · refine Triple.bind (writes start overlap rfl (by omega) (by omega) held) fun _ => ?_
    exact Triple.pure fun _ done => done

section OpenBlock

variable {plog : Plog} {content : Bytes}

/-- The file with the open block: the ragged edge and the trailer. -/
def openBlockFile (env : PlogEnv) (plog : Plog) (content : Bytes) : Bytes :=
  overwrite 0 (overwrite 0 content (calcPhysical plog.sealed) plog.buf)
    (calcPhysical plog.sealed + sectorSize) (buildOpenTrailer env plog)

theorem length_buildOpenTrailer (env : PlogEnv) (plog : Plog) :
    (buildOpenTrailer env plog).length = 4096 :=
  length_resize _ _ _

theorem openBlockFile_ragged (short : plog.buf.length < sectorSize) :
    slice (openBlockFile env plog content) (calcPhysical plog.sealed) plog.buf.length =
      plog.buf := by
  by_cases noEdge : plog.buf = []
  · rw [noEdge]
    exact slice_zero_count _ _
  · have edgeLength := length_overwrite 0 content plog.buf (calcPhysical plog.sealed) noEdge
    rw [openBlockFile, slice_overwrite_before 0 (by omega) (by omega), slice_overwrite_self]

theorem openBlockFile_trailer :
    slice (openBlockFile env plog content) (calcPhysical plog.sealed + sectorSize) sectorSize =
      buildOpenTrailer env plog := by
  have written := slice_overwrite_self 0 (overwrite 0 content (calcPhysical plog.sealed) plog.buf)
    (buildOpenTrailer env plog) (calcPhysical plog.sealed + sectorSize)
  rwa [length_buildOpenTrailer] at written

/-- The open block is written behind a protected prefix. -/
theorem writeOpenBlock_rule {post shielded : PlogWorld → Prop}
    (closed : plog.hasOpenBlock = false → post world)
    (protects : Triple (· = world)
      (protectPrefixLocked env (calcPhysical (blockStartOf plog.sealed)))
      (fun _ after => shielded after ∧ after.content = world.content) stopped)
    (stops : ∀ middle, shielded middle → ∀ halt, stopped halt middle)
    (writes : ∀ middle offset data, shielded middle → calcPhysical plog.sealed ≤ offset →
      shielded { middle with store := middle.store.issue (.write offset data) })
    (lays : plog.hasOpenBlock = true → ∀ after, shielded after →
      after.content = openBlockFile env plog world.content → post after) :
    Triple (· = world) (writeOpenBlock env plog) (fun _ after => post after) stopped := by
  have edges : ∀ middle, shielded middle → Triple (· = middle)
      (writeRagged plog) (fun _ after => shielded after ∧
        after.content = overwrite 0 middle.content (calcPhysical plog.sealed) plog.buf)
      stopped := by
    intro middle held
    unfold writeRagged
    split_ifs with ragged
    · refine (storeEffect_triple fun progress =>
        stops _ (writes middle _ _ held (Nat.le_refl _))).returning fun _ after same => ?_
      rw [same]
      exact ⟨writes middle _ _ held (Nat.le_refl _), DurableFile.view_issue _ _⟩
    · have noEdge : plog.buf = [] := List.eq_nil_of_length_eq_zero (by omega)
      refine Triple.pure fun _ same => ?_
      rw [same, noEdge, overwrite, if_pos rfl]
      exact ⟨held, rfl⟩
  have above := Nat.le_add_right (calcPhysical plog.sealed) sectorSize
  unfold writeOpenBlock
  split_ifs with isOpen
  · refine Triple.bind protects fun _ machine shields => ?_
    refine (Triple.bind (edges _ shields.1) fun _ middle edged => ?_) machine rfl
    refine ((storeEffect_triple fun progress =>
      stops _ (writes _ _ _ edged.1 above)).returning fun _ after same => ?_) middle rfl
    rw [same]
    refine lays isOpen _ (writes _ _ _ edged.1 above) ?_
    rw [openBlockFile, ← shields.2, ← edged.2]
    exact DurableFile.view_issue _ _
  · refine Triple.pure fun _ same => ?_
    rw [same]
    exact closed (Bool.eq_false_iff.mpr isOpen)

end OpenBlock

/-- A commit is refused, or cuts the file behind the open block and retires the
journal. -/
theorem commit_rule {post : PlogWorld → Prop} {laid : PlogWorld → Prop}
    (refuses : ∀ halt, stopped halt world)
    (lays : world.plog.bufCorrupt = false → world.plog.openUnverified = false →
      Triple (· = world) (writeOpenBlock env world.plog) (fun _ after => laid after) stopped)
    (cuts : ∀ middle, laid middle → ∀ halt, stopped halt middle)
    (retires : world.plog.bufCorrupt = false → world.plog.openUnverified = false →
      ∀ middle, laid middle →
        Triple (fun before => before =
            { middle with store := middle.store.issue (.truncate world.plog.physicalEnd) })
          retireUndo
          (fun _ after => post (if world.plog.hasOpenBlock = true then
            { after with plog := { after.plog with loadedFromTrailer := true } } else after))
          stopped) :
    Triple (· = world) (commit env) (fun _ after => post after) stopped := by
  refine Triple.bind_current ?_
  dsimp only
  split_ifs with untrusted isOpen
  · refine Triple.raise fun _ same => ?_
    rw [same]
    exact refuses _
  all_goals
    rw [not_or, Bool.not_eq_true, Bool.not_eq_true] at untrusted
    refine Triple.bind (lays untrusted.1 untrusted.2) fun _ machine held => ?_
    have retiring := retires untrusted.1 untrusted.2 _ held
    refine (Triple.bind (storeEffect_triple fun _ => cuts _ held) fun _ =>
      Triple.bind retiring fun _ => Triple.update fun after finished => ?_) machine rfl
  · rwa [if_pos isOpen] at finished
  · rwa [if_neg isOpen] at finished

end Rose
