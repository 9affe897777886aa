import Rose.PlogSessions

/-!
# Appending to a physical log

Sealing the open sector together with new data extends the layout by exactly
the bytes of the batched write.  An append that returns extends the bytes of the
session, and one that stops leaves them as they were.
-/

namespace Rose

open ListSplice FixedBlocks DurableFiles FaultyPrograms

variable {env : PlogEnv} {head bytes data : Bytes} {plog : Plog} {contents : Bytes → Prop}
  {world : PlogWorld}

theorem sealLoop_eq (env : PlogEnv) (state : SealState) (data : Bytes) :
    sealLoop env state data =
      ((splitBlocks sectorSize data).1.foldl (sealSector env) state,
        (splitBlocks sectorSize data).2) := by
  induction state, data using sealLoop.induct env with
  | case1 state data fits ih =>
    rw [sealLoop, if_pos fits, ih, splitBlocks_of_le (by decide) fits]
    rfl
  | case2 state data short =>
    rw [sealLoop, if_neg short, splitBlocks_of_lt (by omega)]
    rfl

theorem sectorsOf_append (bytes data : Bytes) :
    sectorsOf (bytes ++ data) = sectorsOf bytes ++ sectorsOf (raggedOf bytes ++ data) := by
  have positive : 0 < sectorSize := by decide
  rw [sectorsOf, splitBlocks_append positive]
  rfl

theorem raggedOf_append (bytes data : Bytes) :
    raggedOf (bytes ++ data) = raggedOf (raggedOf bytes ++ data) := by
  have positive : 0 < sectorSize := by decide
  rw [raggedOf, splitBlocks_append positive]
  rfl

theorem sectorsOf_append_of_lt (short : (raggedOf bytes).length + data.length < 4096) :
    sectorsOf (bytes ++ data) = sectorsOf bytes ∧
      raggedOf (bytes ++ data) = raggedOf bytes ++ data := by
  have unsplit : splitBlocks sectorSize (raggedOf bytes ++ data) = ([], raggedOf bytes ++ data) :=
    splitBlocks_of_lt (by rw [List.length_append]; exact short)
  have noSectors : sectorsOf (raggedOf bytes ++ data) = [] := congrArg Prod.fst unsplit
  constructor
  · rw [sectorsOf_append, noSectors, List.append_nil]
  · rw [raggedOf_append]
    exact congrArg Prod.snd unsplit

theorem sealedEnd_append (bytes data : Bytes) : sealedEnd bytes ≤ sealedEnd (bytes ++ data) := by
  rw [sealedEnd, sealedEnd, sectorsOf_append, List.length_append]
  omega

theorem calcPhysical_blockStart_le {logical : Nat} (logicalLe : logical ≤ bytes.length) :
    calcPhysical (blockStartOf logical) ≤ sealedEnd bytes := by
  have split := length_sectorsOf bytes
  have short := length_raggedOf bytes
  have startLe : blockStartOf logical ≤ 4096 * (sectorsOf bytes).length := by
    rw [blockStartOf, dataPerBlock, hashesPerBlock, sectorSize]
    omega
  rw [← calcPhysical_sealed]
  exact calcPhysical_mono startLe

/-- What sealing data after the bytes of a healthy log produces. -/
structure SealedBy (env : PlogEnv) (bytes data : Bytes) (result : SealState × Bytes) : Prop where
  length_eq : result.1.logicalLength = 4096 * (sectorsOf (bytes ++ data)).length
  hashes_eq : result.1.hashes = openHashes env (sectorsOf (bytes ++ data))
  rest_eq : result.2 = raggedOf (bytes ++ data)
  layout_eq : layout env (sectorsOf (bytes ++ data)) =
    layout env (sectorsOf bytes) ++ result.1.writeBuf

/-- Sealing data cuts the buffer and the data into sectors. -/
theorem sealData_foldl (env : PlogEnv) {plog : Plog} (short : plog.buf.length < 4096)
    (seals : 4096 ≤ plog.buf.length + data.length) :
    sealData env plog data =
      ((sectorsOf (plog.buf ++ data)).foldl (sealSector env)
        ⟨plog.sealed, plog.hashes, []⟩, raggedOf (plog.buf ++ data)) := by
  have shortLe : plog.buf.length ≤ sectorSize := Nat.le_of_lt short
  have first : (plog.buf ++ data).take sectorSize = plog.buf ++
      data.take (sectorSize - plog.buf.length) := by
    rw [List.take_append, List.take_of_length_le shortLe]
  have later : (plog.buf ++ data).drop sectorSize = data.drop (sectorSize - plog.buf.length) := by
    rw [List.drop_append, List.drop_eq_nil_of_le shortLe, List.nil_append]
  have cut : splitBlocks sectorSize (plog.buf ++ data) =
      ((plog.buf ++ data.take (sectorSize - plog.buf.length)) ::
        (splitBlocks sectorSize (data.drop (sectorSize - plog.buf.length))).1,
        (splitBlocks sectorSize (data.drop (sectorSize - plog.buf.length))).2) := by
    rw [splitBlocks_of_le (by decide) (by rw [List.length_append]; exact seals), first, later]
  unfold sealData
  dsimp only
  rw [sealLoop_eq,
    show sectorsOf (plog.buf ++ data) = _ from congrArg Prod.fst cut,
    show raggedOf (plog.buf ++ data) = _ from congrArg Prod.snd cut]
  rfl

section

variable (tracks : plog.Tracks env bytes) (healthy : plog.Healthy)
  (seals : 4096 ≤ plog.buf.length + data.length)
include tracks healthy seals

theorem sealData_eq :
    sealData env plog data =
      ((sectorsOf (raggedOf bytes ++ data)).foldl (sealSector env)
        ⟨4096 * (sectorsOf bytes).length, openHashes env (sectorsOf bytes), []⟩,
        raggedOf (raggedOf bytes ++ data)) := by
  have buf_eq := tracks.buf_eq healthy.bufTrusted
  have short : plog.buf.length < 4096 := by
    rw [buf_eq]
    exact length_raggedOf bytes
  rw [sealData_foldl env short seals, tracks.sealed_eq, buf_eq,
    tracks.hashes_eq healthy.bufTrusted healthy.openTrusted]

theorem sealData_sealedBy : SealedBy env bytes data (sealData env plog data) := by
  have before : SealedShape env _ _ := sealedState_shape (fullSectors_sectorsOf bytes)
  have after : SealedShape env _ _ := sealedState_shape (fullSectors_sectorsOf (bytes ++ data))
  have joined := sealedState_append env (sectorsOf bytes) (sectorsOf (raggedOf bytes ++ data))
  rw [← sectorsOf_append, before.length_eq, before.hashes_eq] at joined
  rw [sealData_eq tracks healthy seals]
  refine ⟨?_, ?_, (raggedOf_append bytes data).symm, ?_⟩
  · rw [← after.length_eq, joined]
  · rw [← after.hashes_eq, joined]
  · rw [layout, joined]

end

namespace Session

/-- Data kept in the open sector. -/
theorem buffer (session : Session env head contents bytes world) (healthy : world.plog.Healthy)
    (short : world.plog.buf.length + data.length < 4096) :
    Session env head contents (bytes ++ data)
      { world with plog := world.plog.buffer data } := by
  have tracks := session.tracks
  have buf_eq := tracks.buf_eq healthy.bufTrusted
  rw [buf_eq] at short
  obtain ⟨sectors_eq, ragged_eq⟩ := sectorsOf_append_of_lt short
  have sealedEnd_eq : sealedEnd (bytes ++ data) = sealedEnd bytes := by
    rw [sealedEnd, sealedEnd, sectors_eq]
  have newBuf : world.plog.buf ++ data = raggedOf (bytes ++ data) := by
    rw [ragged_eq, buf_eq]
  refine ⟨session.guarded, ?_, ⟨session.stored.headLength, ?_⟩,
    ⟨?_, congrArg List.length newBuf, fun _ => newBuf, ?_⟩, ?_⟩
  · rw [sealedEnd_eq]
    exact session.undoStartLe
  · rw [sectors_eq]
    exact session.stored.isPrefix
  · rw [List.length_append, ← tracks.length_eq]
    rfl
  · intro _ _
    rw [sectors_eq]
    exact tracks.hashes_eq healthy.bufTrusted healthy.openTrusted
  · intro inactive isClosed
    rw [sealedEnd_eq]
    refine session.idle inactive fun isOpen => isClosed ?_
    unfold HasOpenBlock at isOpen ⊢
    rw [sectors_eq, ragged_eq]
    exact isOpen.imp id fun present empty =>
      present (List.append_eq_nil_iff.mp empty).1

/-- Data sealed by the batched write. -/
theorem sealData (session : Session env head contents bytes world)
    (active : world.plog.undoActive = true) {result : SealState × Bytes}
    (sealedBy : SealedBy env bytes data result) :
    Session env head contents (bytes ++ data)
      ⟨world.store.issue (.write (sealedEnd bytes) result.1.writeBuf),
        world.plog.sealedWith result⟩ := by
  obtain ⟨length_eq, hashes_eq, rest_eq, layout_eq⟩ := sealedBy
  have written := session.issue active
    (harmless_write result.1.writeBuf (Nat.le_refl (sealedEnd bytes)))
  have split := length_sectorsOf (bytes ++ data)
  refine ⟨written.guarded, fun isActive => Nat.le_trans
    (session.undoStartLe isActive) (sealedEnd_append bytes data),
    ⟨session.stored.headLength, ?_⟩,
    ⟨?_, congrArg List.length rest_eq, fun _ => rest_eq, fun _ _ => hashes_eq⟩, fun inactive => ?_⟩
  · change _ <+: (world.store.file.issue _).view
    rw [DurableFile.view_issue, FileOp.apply, layout_eq, ← List.append_assoc,
      ← session.stored.sealedEnd_eq]
    exact append_isPrefix_overwrite 0 session.stored.isPrefix _
  · change result.1.logicalLength + result.2.length = _
    rw [length_eq, rest_eq, split]
  · cases active.symm.trans inactive

end Session

section

variable (session : Session env head contents bytes world)
include session

/-- An append that returns extends the bytes; one that stops does not. -/
theorem writeLocked_triple :
    Triple (· = world) (writeLocked env data)
      (fun offset after => Session env head contents (bytes ++ data) after ∧ offset = bytes.length)
      (Untouched env head contents bytes world) := by
  have length_eq := session.tracks.length_eq
  have position : calcPhysical world.plog.sealed = sealedEnd bytes := by
    rw [session.tracks.sealed_eq, calcPhysical_sealed]
  have protects := protectPrefixLocked_triple session
    (calcPhysical_blockStart_le (Nat.le_of_eq length_eq))
  refine writeLocked_rule (fun halt => ⟨session.interrupted halt, rfl⟩) ?_ protects ?_ ?_
  · intro bufTrusted openTrusted short
    exact ⟨session.buffer ⟨bufTrusted, openTrusted⟩ short, length_eq⟩
  · intro middle protection progress halt
    refine ⟨(protection.session.issue protection.active
      (Session.harmless_write _ (Nat.le_of_eq position.symm))).interrupted halt, ?_⟩
    rw [protection.plog_eq]
  · intro bufTrusted openTrusted full middle protection
    rw [position]
    exact ⟨protection.session.sealData protection.active
      (sealData_sealedBy session.tracks ⟨bufTrusted, openTrusted⟩ full), length_eq⟩

theorem Session.readLocked_slice {offset length : Int} {out : Bytes}
    (read : readLocked env world.plog world.content offset length = .ok out) :
    out = slice bytes offset.toNat length.toNat :=
  (readLocked_sound session.tracks.length_eq.symm (fun _ _ inside fetched =>
    readSector_sound session.tracks session.stored inside fetched) read).2.2.2

theorem Session.compared {start : Nat} {expected : Bytes}
    (compares : expected.length = 0 ∨
      readLocked env world.plog world.content start expected.length = .ok expected) :
    expected = slice bytes start expected.length := by
  obtain empty | read := compares
  · rw [empty, slice_zero_count]
    exact List.eq_nil_of_length_eq_zero empty
  · exact session.readLocked_slice read

theorem ensureAppend_triple (offset : Int) :
    Triple (· = world) (ensureAppend env offset data) (fun _ after => Session env head contents
        (bytes ++ data.drop (min (bytes.length - offset.toNat) data.length))
        after)
      (Untouched env head contents bytes world) := by
  have length_eq := session.tracks.length_eq
  refine ensureAppend_rule (fun halt => ⟨session.interrupted halt, rfl⟩)
    (fun _ _ => session.compared) ?_ ?_
  · intro start offset_eq inside _
    rw [List.drop_eq_nil_of_le (by omega), List.append_nil]
    exact session
  · intro start overlap offset_eq ends short _
    have overlap_eq : min (bytes.length - offset.toNat) data.length = overlap := by omega
    rw [overlap_eq]
    exact (writeLocked_triple session).returning fun _ _ appended => appended.1

end

section Progress

/-- A trusted log takes data whenever the block can be protected. -/
theorem writeLocked_runs
    (trusted : ¬(world.plog.bufCorrupt = true ∨ world.plog.openUnverified = true))
    {shielded : PlogWorld} (protects : Runs (protectPrefixLocked env
      (calcPhysical (blockStartOf world.plog.logicalLength))) world () shielded) :
    ∃ after, Runs (writeLocked env data) world world.plog.logicalLength after ∧
      if world.plog.buf.length + data.length < sectorSize then
        after = { world with plog := world.plog.buffer data }
      else after =
        ⟨shielded.store.issue (.write (calcPhysical world.plog.sealed)
          (sealData env world.plog data).1.writeBuf),
          shielded.plog.sealedWith (sealData env world.plog data)⟩ := by
  split_ifs with short
  · refine ⟨_, .bind .current ?_, rfl⟩
    rw [if_neg trusted, if_pos short]
    exact .bind .update .pure
  · refine ⟨_, .bind .current ?_, rfl⟩
    rw [if_neg trusted, if_neg short]
    exact .bind protects (.bind (.labelled (.within .effect)) (.bind .update .pure))

end Progress

end Rose
