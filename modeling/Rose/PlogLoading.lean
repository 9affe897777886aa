import Rose.PlogRules

/-!
# Loading a log from its file

Loading reads the file and changes only the memory of the log.  When no read
fails, the log that is loaded is a function of the file and the log before.
-/

namespace Rose

open ListSplice DurableFiles FaultyPrograms

variable {env : PlogEnv} {world : PlogWorld} {plog : Plog}

/-- The log with the ragged edge that was read, and whether it has one. -/
def Plog.edged (plog : Plog) (geometry : TrailerGeometry) (read : Except String Bytes) :
    Plog × Bool :=
  if geometry.raggedLen > 0 then
    match read with
    | .ok ragged => ({ plog with buf := ragged }, true)
    | .error _ => ({ plog with buf := [] }, false)
  else
    (plog, true)

/-- The log that the trailer and the ragged edge give, and whether they give one. -/
def Plog.recovered (env : PlogEnv) (plog : Plog) (size : Nat) (trailerRead : Except String Bytes)
    (raggedRead : TrailerGeometry → Except String Bytes) : Plog × Bool :=
  if size < plogHeaderSize + 2 * sectorSize then
    (plog, false)
  else
    match trailerRead with
    | .error _ => (plog, false)
    | .ok trailer =>
      match trailerGeometry trailer size with
      | none => (plog, false)
      | some geometry =>
        let edged := plog.edged geometry (raggedRead geometry)
        if edged.2 then applyTrailer env edged.1 geometry trailer else edged

/-- The log that the file gives when no read fails. -/
def Plog.recoveredFrom (env : PlogEnv) (content : Bytes) (plog : Plog) : Plog × Bool :=
  plog.recovered env content.length (readAt content (content.length - sectorSize) sectorSize)
    fun geometry => readAt content (calcPhysical geometry.sealed) geometry.raggedLen

theorem readRagged_runs (world : PlogWorld) (geometry : TrailerGeometry) :
    Runs (readRagged geometry) world
      (world.plog.edged geometry
        (readAt world.content (calcPhysical geometry.sealed) geometry.raggedLen)).2
      { world with plog := (world.plog.edged geometry
        (readAt world.content (calcPhysical geometry.sealed) geometry.raggedLen)).1 } := by
  unfold readRagged Plog.edged
  split_ifs
  · refine .bind .attempt_inspect ?_
    cases readAt world.content (calcPhysical geometry.sealed) geometry.raggedLen with
    | error reason => exact .bind .update .pure
    | ok ragged => exact .bind .update .pure
  · exact .pure

theorem recoverFromTrailer_runs (world : PlogWorld) :
    Runs (recoverFromTrailer env world.content.length) world
      (world.plog.recoveredFrom env world.content).2
      { world with plog := (world.plog.recoveredFrom env world.content).1 } := by
  unfold recoverFromTrailer Plog.recoveredFrom Plog.recovered
  split_ifs
  · exact .pure
  · refine .bind .attempt_inspect ?_
    cases readAt world.content (world.content.length - sectorSize) sectorSize with
    | error reason => exact .pure
    | ok trailer =>
      dsimp only
      cases trailerGeometry trailer world.content.length with
      | none => exact .pure
      | some geometry =>
        refine .bind (readRagged_runs world geometry) ?_
        dsimp only
        split_ifs with found
        · exact .bind .current (.bind .update .pure)
        · rw [eq_false_of_ne_true found]
          exact .pure

/-- The open sector that loading leaves when the ragged edge was read. -/
def TrailerGeometry.Edge (geometry : TrailerGeometry) (plog : Plog) (buf : Bytes) : Prop :=
  if geometry.raggedLen > 0 then buf.length = geometry.raggedLen else buf = plog.buf

/-- What loading may make of a log, whichever reads fail. -/
inductive Recovery (env : PlogEnv) (plog : Plog) (size : Nat) : Plog → Bool → Prop
  | noTrailer : Recovery env plog size plog false
  | noEdge : Recovery env plog size { plog with buf := [] } false
  | trailer {trailer buf : Bytes} {geometry : TrailerGeometry}
      (trailerLength : trailer.length = sectorSize)
      (found : trailerGeometry trailer size = some geometry) (edge : geometry.Edge plog buf) :
      Recovery env plog size (applyTrailer env { plog with buf := buf } geometry trailer).1
        (applyTrailer env { plog with buf := buf } geometry trailer).2

theorem attempt_readFile_cases (offset count : Nat) :
    Triple (· = world) (attempt (readFile offset count))
      (fun read after => after = world ∧ ∀ data, read = .ok data → data.length = count)
      (fun _ after => after.store = world.store) := by
  refine Triple.attempt (Triple.inspect ?_ ?_ fun _ same => congrArg _ same)
  · rintro _ value rfl found
    refine ⟨rfl, fun data same => ?_⟩
    cases same
    exact length_of_readAt found
  · rintro _ reason rfl
    exact ⟨rfl, nofun⟩

theorem readRagged_cases (geometry : TrailerGeometry) :
    Triple (· = world) (readRagged geometry)
      (fun found after => ∃ buf, after = { world with plog := { world.plog with buf := buf } } ∧
        (found = false ∧ buf = [] ∨ found = true ∧ geometry.Edge world.plog buf))
      (fun _ after => after.store = world.store) := by
  unfold readRagged TrailerGeometry.Edge
  split_ifs
  · refine Triple.bind_fact (attempt_readFile_cases _ _) fun read lengths => ?_
    cases read with
    | error reason =>
      exact Triple.bind setPlog_triple fun _ =>
      Triple.pure fun _ same => ⟨[], same, .inl ⟨rfl, rfl⟩⟩
    | ok ragged =>
      exact Triple.bind setPlog_triple fun _ =>
      Triple.pure fun _ same => ⟨ragged, same, .inr ⟨rfl, lengths ragged rfl⟩⟩
  · exact Triple.pure fun _ same => ⟨_, same, .inr ⟨rfl, rfl⟩⟩

theorem recoverFromTrailer_cases (size : Nat) :
    Triple (· = world) (recoverFromTrailer env size)
      (fun loaded after => after.store = world.store ∧
        Recovery env world.plog size after.plog loaded)
      (fun _ after => after.store = world.store) := by
  have fails : Triple (· = world) (pure false)
      (fun loaded after => after.store = world.store ∧
        Recovery env world.plog size after.plog loaded)
      (fun _ after => after.store = world.store) :=
    Triple.pure fun _ same => same ▸ ⟨rfl, .noTrailer⟩
  unfold recoverFromTrailer
  split_ifs
  · exact fails
  · refine Triple.bind_fact (attempt_readFile_cases _ _) fun read lengths => ?_
    cases read with
    | error reason => exact fails
    | ok trailer =>
      dsimp only
      cases found : trailerGeometry trailer size with
      | none => exact fails
      | some geometry =>
        refine Triple.bind (readRagged_cases geometry) fun edged machine reached => ?_
        obtain ⟨buf, same, ⟨rfl, rfl⟩ | ⟨rfl, edge⟩⟩ := reached
        · refine ⟨by rw [same], ?_⟩
          rw [same]
          exact .noEdge
        · refine (Triple.bind_current (Triple.bind setPlog_triple fun _ =>
            Triple.pure fun _ same => ?_)) machine same
          rw [same]
          exact ⟨rfl, .trailer (lengths trailer rfl) found edge⟩

section Rebuilding

/-- The log that is loaded from a file without a trailer. -/
def Plog.rereadFrom (content : Bytes) (plog : Plog) : Except String Plog :=
  if plog.part > 0 then
    (readAt content (calcPhysical plog.aligned) plog.part).map plog.awaiting.rebuilt
  else
    .ok (plog.awaiting.rebuilt [])

theorem rebuildOpenBlock_runs {reread : Plog}
    (read : world.plog.rereadFrom world.content = .ok reread) :
    Runs rebuildOpenBlock world () { world with plog := reread } := by
  have reads : ∃ buf, reread = world.plog.awaiting.rebuilt buf ∧ Runs (readOpenSector world.plog)
      { world with plog := world.plog.awaiting } buf
      { world with plog := world.plog.awaiting } := by
    unfold Plog.rereadFrom at read
    unfold readOpenSector
    split_ifs at read ⊢
    · cases found : readAt world.content (calcPhysical world.plog.aligned) world.plog.part with
      | error reason =>
        rw [found] at read
        cases read
      | ok buf =>
        rw [found] at read
        cases read
        exact ⟨buf, rfl, .inspect found⟩
    · cases read
      exact ⟨[], rfl, .pure⟩
  obtain ⟨buf, rfl, runs⟩ := reads
  exact .bind .current (.bind .update (.bind (.labelled runs) .update))

theorem readOpenSector_triple {stopped : Halt → PlogWorld → Prop}
    (stops : plog.part > 0 → ∀ halt, stopped halt world) :
    Triple (· = world) (readOpenSector plog)
      (fun buf after => after = world ∧ buf.length = plog.part) stopped := by
  unfold readOpenSector
  split_ifs with partly
  · refine (Triple.inspect_at (stops partly)).returning fun buf after read => ⟨read.1, ?_⟩
    exact length_of_readAt read.2
  · refine Triple.pure fun _ same => ⟨same, ?_⟩
    exact (Nat.eq_zero_of_not_pos partly).symm

theorem rebuildOpenBlock_triple {stopped : Halt → PlogWorld → Prop}
    (stops : world.plog.part > 0 → ∀ halt, stopped halt { world with plog := world.plog.awaiting })
    (anyReason : ∀ label reason after, stopped (.error reason) after →
      stopped (.error (label ++ reason)) after) :
    Triple (· = world) rebuildOpenBlock (fun _ after => ∃ buf, buf.length = world.plog.part ∧
        after = { world with plog := world.plog.awaiting.rebuilt buf })
      stopped := by
  refine Triple.bind_current ?_
  refine Triple.bind setPlog_triple fun _ => ?_
  refine Triple.bind_fact (Triple.labelled (readOpenSector_triple stops) (anyReason _))
    fun buf length_eq => ?_
  refine setPlog_triple.returning fun _ after reached => ⟨buf, length_eq, reached⟩

end Rebuilding

section Reloading

def Plog.reloadedFrom (env : PlogEnv) (content : Bytes) (plog : Plog) : Except String Plog :=
  let recovered := plog.recoveredFrom env content
  let marked := { recovered.1 with loadedFromTrailer := recovered.2 }
  if recovered.2 then .ok marked else marked.rereadFrom content

theorem reload_runs {reloaded : Plog}
    (loads : world.plog.reloadedFrom env world.content = .ok reloaded) :
    Runs (reload env) world () { world with plog := reloaded } := by
  unfold Plog.reloadedFrom at loads
  have sizes : Runs (onStore fileSize) world world.content.length world := rfl
  refine .bind sizes (.bind (recoverFromTrailer_runs world) (.bind .update ?_))
  dsimp only at loads
  split_ifs at loads ⊢
  · cases loads
    exact .pure
  · exact rebuildOpenBlock_runs loads

variable {image : Bytes}

theorem recoveredFrom_of_trailer {trailer data : Bytes} {geometry : TrailerGeometry}
    (large : ¬image.length < plogHeaderSize + 2 * sectorSize)
    (read : readAt image (image.length - sectorSize) sectorSize = .ok trailer)
    (found : trailerGeometry trailer image.length = some geometry)
    (raggedRead : readAt image (calcPhysical geometry.sealed) geometry.raggedLen = .ok data)
    (empty : plog.buf = []) :
    plog.recoveredFrom env image = applyTrailer env { plog with buf := data } geometry trailer := by
  have edged : plog.edged geometry (.ok data) = ({ plog with buf := data }, true) := by
    unfold Plog.edged
    split_ifs with present
    · rfl
    · have length_eq := length_of_readAt raggedRead
      obtain rfl : data = [] := List.eq_nil_of_length_eq_zero (by omega)
      rw [← empty]
  unfold Plog.recoveredFrom Plog.recovered
  rw [if_neg large, read]
  dsimp only
  rw [found]
  dsimp only
  rw [raggedRead, edged, if_pos rfl]

theorem recoveredFrom_of_plain (plain : ¬image.length < plogHeaderSize + 2 * sectorSize → ∀ trailer,
      readAt image (image.length - sectorSize) sectorSize = .ok trailer →
        trailerGeometry trailer image.length = none) :
    plog.recoveredFrom env image = (plog, false) := by
  unfold Plog.recoveredFrom Plog.recovered
  split_ifs with small
  · rfl
  · cases read : readAt image (image.length - sectorSize) sectorSize with
    | error reason => rfl
    | ok trailer =>
      dsimp only
      rw [plain small trailer read]

theorem applyTrailer_poisons {geometry : TrailerGeometry} {trailer : Bytes}
    (authenticates : geometry.authenticatesRagged = true)
    (bad : openBlockMAC env geometry.blockIdx (slice trailer 0 geometry.hashesEnd) plog.buf ≠
      slice trailer geometry.hashesEnd hashSize) :
    applyTrailer env plog geometry trailer =
      ({ plog with
        logicalLength := geometry.sealed + geometry.raggedLen
        bufCorrupt := true
        hashes := List.replicate (slice trailer openTrailerHeader
          (geometry.count * hashSize)).length 0 }, true) := by
  unfold applyTrailer
  dsimp only
  rw [if_pos authenticates, if_pos bad, if_pos authenticates]

theorem reloadedFrom_of_recovered {recovered : Plog}
    (recovers : plog.recoveredFrom env image = (recovered, true)) :
    plog.reloadedFrom env image = .ok { recovered with loadedFromTrailer := true } := by
  unfold Plog.reloadedFrom
  rw [recovers]
  rfl

/-- The open sector can be loaded when the file holds it. -/
theorem rereadFrom_of_inside
    (inside : plog.part > 0 → calcPhysical plog.aligned + plog.part ≤ image.length) :
    ∃ buf, plog.rereadFrom image = .ok (plog.awaiting.rebuilt buf) := by
  unfold Plog.rereadFrom
  split_ifs with ragged
  · rw [readAt, if_pos (Or.inr (inside ragged))]
    exact ⟨_, rfl⟩
  · exact ⟨[], rfl⟩

/-- At a block boundary there is nothing to load. -/
theorem rereadFrom_of_whole {count : Nat} (length_eq : plog.logicalLength = dataPerBlock * count) :
    plog.rereadFrom image = .ok { plog with
      buf := [], bufCorrupt := false, hashes := [], openUnverified := false } := by
  have noPart : plog.part = 0 := by
    rw [Plog.part, length_eq, dataPerBlock, hashesPerBlock, sectorSize]
    omega
  have aligned_eq : plog.awaiting.aligned = plog.logicalLength := by
    change plog.logicalLength - plog.part = _
    rw [noPart, Nat.sub_zero]
  have start_eq : blockStartOf plog.logicalLength = plog.logicalLength := by
    rw [length_eq, blockStartOf, Nat.mul_div_cancel_left _ (by decide), Nat.mul_comm]
  rw [Plog.rereadFrom, if_neg (by omega), Plog.rebuilt, aligned_eq, start_eq, Nat.sub_self,
    Nat.zero_div, Nat.zero_mul, Plog.awaiting, noPart]
  simp

theorem reloadedFrom_of_whole {count : Nat}
    (recovers : plog.recoveredFrom env image = (plog, false))
    (length_eq : plog.logicalLength = dataPerBlock * count) :
    plog.reloadedFrom env image = .ok { plog with
      buf := [], bufCorrupt := false, hashes := [], openUnverified := false
      loadedFromTrailer := false } := by
  unfold Plog.reloadedFrom
  rw [recovers]
  exact rereadFrom_of_whole length_eq

end Reloading

end Rose
