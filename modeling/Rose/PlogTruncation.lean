import Rose.PlogAppends

/-!
# Truncating a physical log

The part of the open block that is kept is read before the cut.  If that read
succeeded the log goes on trusting it; otherwise the bytes stay untrusted until
the log is opened again.  Either way the log tracks the front part of its bytes.
-/

namespace Rose

open ListSplice FixedBlocks DurableFiles FaultyPrograms

variable {env : PlogEnv} {head bytes : Bytes} {plog : Plog} {logical : Nat}
  {contents : Bytes → Prop} {world : PlogWorld}

section

variable (logicalLe : logical ≤ bytes.length)
include logicalLe

/-- Cutting bytes cuts their sectors. -/
theorem splitBlocks_take :
    splitBlocks sectorSize (bytes.take logical) =
      ((sectorsOf bytes).take (logical / 4096),
        slice bytes (4096 * (logical / 4096)) (logical % 4096)) := by
  have split := length_sectorsOf bytes
  have short := length_raggedOf bytes
  have full : FullSectors ((sectorsOf bytes).take (logical / 4096)) :=
    fun sector member => fullSectors_sectorsOf bytes sector (List.mem_of_mem_take member)
  have frontLength : ((sectorsOf bytes).take (logical / 4096)).flatten.length =
      4096 * (logical / 4096) := by
    rw [length_flatten_blocks full, List.length_take]
    omega
  have front : ((sectorsOf bytes).take (logical / 4096)).flatten =
      bytes.take (4096 * (logical / 4096)) := by
    rw [← frontLength]
    refine List.prefix_iff_eq_take.mp
      ⟨((sectorsOf bytes).drop (logical / 4096)).flatten ++ raggedOf bytes, ?_⟩
    rw [← List.append_assoc, ← List.flatten_append, List.take_append_drop,
      sectorsOf_append_raggedOf]
  have joined : bytes.take logical = ((sectorsOf bytes).take (logical / 4096)).flatten ++
        slice bytes (4096 * (logical / 4096)) (logical % 4096) := by
    rw [front, slice, ← List.take_add, Nat.div_add_mod]
  rw [joined]
  refine splitBlocks_flatten_append full ?_
  rw [length_slice]
  exact Nat.lt_of_le_of_lt (Nat.min_le_left _ _) (Nat.mod_lt _ (by decide))

theorem sectorsOf_take : sectorsOf (bytes.take logical) = (sectorsOf bytes).take (logical / 4096) :=
  congrArg Prod.fst (splitBlocks_take logicalLe)

theorem length_sectorsOf_take : (sectorsOf (bytes.take logical)).length = logical / 4096 := by
  have split := length_sectorsOf bytes
  have short := length_raggedOf bytes
  rw [sectorsOf_take logicalLe, List.length_take]
  omega

theorem length_raggedOf_take : (raggedOf (bytes.take logical)).length = logical % 4096 := by
  have split := length_sectorsOf (bytes.take logical)
  rw [length_sectorsOf_take logicalLe, List.length_take] at split
  omega

theorem calcPhysical_cut :
    calcPhysical logical = sealedEnd (bytes.take logical) + logical % 4096 := by
  have cut := calcPhysical_sectors (logical / 4096) (logical % 4096) (Nat.mod_lt _ (by decide))
  rw [Nat.div_add_mod] at cut
  rw [cut, sealedEnd, length_sectorsOf_take logicalLe]

end

theorem Stored.take {content : Bytes} (stored : Stored env head bytes content)
    (logicalLe : logical ≤ bytes.length) :
    Stored env head (bytes.take logical) content := by
  refine ⟨stored.headLength, List.IsPrefix.trans ?_ stored.isPrefix⟩
  rw [sectorsOf_take logicalLe, List.prefix_append_right_inj]
  have whole := layout_isPrefix env ((sectorsOf bytes).take (logical / 4096))
    ((sectorsOf bytes).drop (logical / 4096))
  rwa [List.take_append_drop] at whole

/-- The kept part of the open block. -/
theorem slice_openBlock (logicalLe : logical ≤ bytes.length) :
    splitBlocks sectorSize (slice bytes (blockStartOf logical) (logical - blockStartOf logical)) =
      ((sectorsOf (bytes.take logical)).drop ((sectorsOf (bytes.take logical)).length / 255 * 255),
        raggedOf (bytes.take logical)) := by
  have sectorsLength := length_sectorsOf_take logicalLe
  have blockStart : blockStartOf logical = 4096 * (logical / 4096 / 255 * 255) := by
    rw [blockStartOf, dataPerBlock, hashesPerBlock, sectorSize]
    omega
  have startLe : blockStartOf logical ≤ logical := by
    rw [blockStartOf]
    exact Nat.div_mul_le_self _ _
  have full : FullSectors ((sectorsOf (bytes.take logical)).drop (logical / 4096 / 255 * 255)) :=
    fun sector member => fullSectors_sectorsOf _ sector (List.mem_of_mem_drop member)
  have frontFull : FullSectors ((sectorsOf (bytes.take logical)).take
      (logical / 4096 / 255 * 255)) :=
    fun sector member => fullSectors_sectorsOf _ sector (List.mem_of_mem_take member)
  have kept : slice bytes (blockStartOf logical) (logical - blockStartOf logical) =
        (bytes.take logical).drop (blockStartOf logical) := by
    rw [slice, List.drop_take]
  have dropped : (bytes.take logical).drop (blockStartOf logical) =
      ((sectorsOf (bytes.take logical)).drop (logical / 4096 / 255 * 255)).flatten ++
          raggedOf (bytes.take logical) := by
    have parts := sectorsOf_append_raggedOf (bytes.take logical)
    rw [← List.take_append_drop (logical / 4096 / 255 * 255)
      (sectorsOf (bytes.take logical)), List.flatten_append,
      List.append_assoc] at parts
    have frontLength : ((sectorsOf (bytes.take logical)).take
        (logical / 4096 / 255 * 255)).flatten.length = blockStartOf logical := by
      rw [length_flatten_blocks frontFull, List.length_take, sectorsLength, blockStart]
      omega
    nth_rewrite 1 [← parts]
    rw [← frontLength, List.drop_left]
  rw [kept, dropped, sectorsLength]
  exact splitBlocks_flatten_append full (length_raggedOf _)

section Memory

variable {buf : Bytes}

section

variable (plog)

theorem Plog.awaiting_bufCorrupt :
    plog.awaiting.bufCorrupt = decide (plog.part > 0) := rfl

theorem Plog.awaiting_logicalLength : plog.awaiting.logicalLength = plog.logicalLength := by
  cases plog
  rfl

theorem Plog.rebuilt_logicalLength (buf : Bytes) :
    (plog.rebuilt buf).logicalLength = plog.logicalLength := by
  cases plog
  rfl

theorem Plog.rebuilt_bufCorrupt (buf : Bytes) :
    (plog.rebuilt buf).bufCorrupt = plog.bufCorrupt := by
  cases plog
  rfl

theorem Plog.awaiting_undo :
    plog.awaiting.undoActive = plog.undoActive ∧ plog.awaiting.undoStart = plog.undoStart := by
  cases plog
  exact ⟨rfl, rfl⟩

end

theorem Plog.judge_rebuilt_undo (env : PlogEnv) (plog : Plog) (buf : Bytes)
    (verified : Except String Bytes) :
    ((plog.rebuilt buf).judge env verified).undoActive = plog.undoActive ∧
      ((plog.rebuilt buf).judge env verified).undoStart = plog.undoStart := by
  cases plog
  cases verified <;> exact ⟨rfl, rfl⟩

theorem Plog.rebuilt_openUnverified (plog : Plog) (buf : Bytes) :
    (plog.rebuilt buf).openUnverified =
      decide (blockStartOf plog.aligned < plog.logicalLength) := rfl

variable (length_eq : plog.logicalLength = logical)
include length_eq

theorem Plog.part_eq : plog.part = logical % 4096 := by
  rw [Plog.part, length_eq, sectorSize]

variable (logicalLe : logical ≤ bytes.length)
include logicalLe

theorem Plog.awaiting_tracks (partly : 0 < logical % 4096) :
    plog.awaiting.Tracks env (bytes.take logical) := by
  have corrupt : plog.awaiting.bufCorrupt = true := by
    rw [Plog.awaiting_bufCorrupt, Plog.part_eq length_eq]
    exact decide_eq_true partly
  refine ⟨?_, ?_, ?_, ?_⟩
  · rw [List.length_take, Nat.min_eq_left logicalLe]
    exact length_eq
  · rw [length_raggedOf_take logicalLe, ← Plog.part_eq length_eq]
    exact length_resize _ _ _
  · intro trusted
    cases corrupt.symm.trans trusted
  · intro trusted
    cases corrupt.symm.trans trusted

theorem Plog.rebuilt_hashes :
    (plog.rebuilt buf).hashes.length =
      (openHashes env (sectorsOf (bytes.take logical))).length := by
  rw [length_openHashes, length_sectorsOf_take logicalLe]
  simp only [Plog.rebuilt, List.length_replicate, Plog.aligned, Plog.part,
    length_eq, blockStartOf, dataPerBlock, hashesPerBlock, sectorSize, hashSize]
  omega

theorem Plog.bless_tracks (bufLength : plog.buf.length = logical % 4096)
    (hashesLength : plog.hashes.length = (openHashes env (sectorsOf (bytes.take logical))).length) :
    (plog.bless env (slice bytes (blockStartOf logical)
      (logical - blockStartOf logical))).Tracks env (bytes.take logical) := by
  have newBuf : (plog.bless env (slice bytes (blockStartOf logical)
      (logical - blockStartOf logical))).buf = raggedOf (bytes.take logical) := by
    rw [Plog.bless, slice_openBlock logicalLe]
    exact copyAt_zero_of_length_eq ((length_raggedOf_take logicalLe).trans bufLength.symm)
  have newHashes : (plog.bless env (slice bytes (blockStartOf logical)
      (logical - blockStartOf logical))).hashes =
        openHashes env (sectorsOf (bytes.take logical)) := by
    rw [Plog.bless, slice_openBlock logicalLe]
    exact copyAt_zero_of_length_eq hashesLength.symm
  refine ⟨?_, congrArg List.length newBuf, fun _ => newBuf, fun _ _ => newHashes⟩
  rw [List.length_take, Nat.min_eq_left logicalLe]
  exact length_eq

/-- Without verified bytes only the start of a block is trusted. -/
theorem Plog.rebuilt_tracks (bufLength : buf.length = logical % 4096) :
    (plog.awaiting.rebuilt buf).Tracks env (bytes.take logical) := by
  have raggedLength := length_raggedOf_take logicalLe
  have awaitingLength : plog.awaiting.logicalLength = logical := by
    rw [Plog.awaiting_logicalLength, length_eq]
  have whole : plog.awaiting.bufCorrupt = false → logical % 4096 = 0 := by
    intro trusted
    rw [Plog.awaiting_bufCorrupt, Plog.part_eq length_eq] at trusted
    exact Nat.eq_zero_of_not_pos (of_decide_eq_false trusted)
  refine ⟨?_, bufLength.trans raggedLength.symm, ?_, ?_⟩
  · rw [List.length_take, Nat.min_eq_left logicalLe, Plog.rebuilt_logicalLength, awaitingLength]
  · intro trusted
    rw [Plog.rebuilt_bufCorrupt] at trusted
    have empty := whole trusted
    rw [empty] at bufLength raggedLength
    exact (List.eq_nil_of_length_eq_zero bufLength).trans
      (List.eq_nil_of_length_eq_zero raggedLength).symm
  · intro trusted verifiedOpen
    rw [Plog.rebuilt_bufCorrupt] at trusted
    have empty := whole trusted
    have hashesLength := @Plog.rebuilt_hashes env bytes plog.awaiting logical
      buf awaitingLength logicalLe
    have atStart : ¬blockStartOf logical < logical := by
      have aligned_eq : plog.awaiting.aligned = logical := by
        rw [Plog.aligned, Plog.part_eq awaitingLength, awaitingLength, empty, Nat.sub_zero]
      rw [Plog.rebuilt_openUnverified, aligned_eq, awaitingLength] at verifiedOpen
      exact of_decide_eq_false verifiedOpen
    have noHashes : openHashes env (sectorsOf (bytes.take logical)) = [] := by
      apply List.eq_nil_of_length_eq_zero
      rw [length_openHashes, length_sectorsOf_take logicalLe]
      rw [blockStartOf, dataPerBlock, hashesPerBlock, sectorSize] at atStart
      omega
    rw [noHashes] at hashesLength ⊢
    exact List.eq_nil_of_length_eq_zero hashesLength

theorem Plog.judge_tracks {verified : Except String Bytes}
    (bufLength : buf.length = logical % 4096)
    (sound : ∀ out, verified = .ok out → out = slice bytes (blockStartOf logical)
        (logical - blockStartOf logical)) :
    ((plog.awaiting.rebuilt buf).judge env verified).Tracks env (bytes.take logical) := by
  have awaitingLength : plog.awaiting.logicalLength = logical := by
    rw [Plog.awaiting_logicalLength, length_eq]
  cases verified with
  | ok out =>
    rw [sound out rfl]
    refine Plog.bless_tracks ?_ logicalLe bufLength (Plog.rebuilt_hashes awaitingLength logicalLe)
    rw [Plog.rebuilt_logicalLength, awaitingLength]
  | error reason =>
    have tracks := @Plog.rebuilt_tracks env bytes plog logical buf length_eq logicalLe bufLength
    exact ⟨tracks.length_eq, tracks.bufLength, tracks.buf_eq, tracks.hashes_eq⟩

end Memory

/-- The session after the file was cut, with memory that tracks what is left. -/
theorem Protected.cut {before : PlogWorld} (protection : Protected env head contents bytes
      (calcPhysical (blockStartOf logical)) before world)
    (logicalLe : logical ≤ bytes.length)
    (active : plog.undoActive = true)
    (start_eq : plog.undoStart = world.plog.undoStart)
    (tracks : plog.Tracks env (bytes.take logical)) :
    Session env head contents (bytes.take logical)
      ⟨world.store.issue (.truncate (calcPhysical logical)), plog⟩ := by
  obtain ⟨image, guards, protects⟩ := protection.session.guarded
  have keptLength : logical ≤ (bytes.take logical).length := by
    rw [List.length_take, Nat.min_eq_left logicalLe]
  have cutAfter : calcPhysical (blockStartOf logical) ≤
      calcPhysical logical := calcPhysical_mono (Nat.div_mul_le_self _ _)
  have startLe := protection.startLe
  have protectsAfter := (protects protection.active).issue
    (show (FileOp.truncate (calcPhysical logical)).HarmlessBelow
      world.plog.undoStart image from Nat.le_trans startLe cutAfter)
  refine ⟨⟨image, protectsAfter.guards guards.isAllowed, fun _ => ?_⟩,
    fun _ => ?_, ?_, tracks, fun inactive => ?_⟩
  · change ProtectsFrom env.sha image plog.undoStart _
    rw [start_eq]
    exact protectsAfter
  · change plog.undoStart ≤ _
    rw [start_eq]
    exact Nat.le_trans startLe (calcPhysical_blockStart_le keptLength)
  · change Stored env head _ (world.store.file.issue _).view
    rw [DurableFile.view_issue]
    refine (protection.session.stored.take logicalLe).apply ?_
    change sealedEnd (bytes.take logical) ≤ calcPhysical logical
    rw [calcPhysical_cut logicalLe]
    exact Nat.le_add_right _ _
  · cases active.symm.trans inactive

/-- What a stopped truncation leaves: the log was cut or it was not. -/
def Curtailed (env : PlogEnv) (head : Bytes) (contents : Bytes → Prop) (bytes : Bytes) (halt : Halt)
    (after : PlogWorld) : Prop :=
  Interrupted env head contents (bytes.take after.plog.logicalLength) halt after

theorem Untouched.curtailed {halt : Halt} {after : PlogWorld}
    (untouched : Untouched env head contents bytes world halt after)
    (length_eq : world.plog.logicalLength = bytes.length) :
    Curtailed env head contents bytes halt after := by
  rw [Curtailed, untouched.2, length_eq, List.take_length]
  exact untouched.1

theorem attempt_readPlog_triple (session : Session env head contents bytes world)
    {offset length : Int} :
    Triple (· = world) (attempt (readPlog env offset length))
      (fun verified after => after = world ∧ ∀ out, verified = .ok out →
        out = slice bytes offset.toNat length.toNat)
      (Curtailed env head contents bytes) := by
  refine Triple.attempt (Triple.consequence (Triple.inspect_at (fun halt => (rfl : world = world)))
    (fun _ same => same) (fun out after read => ?_) ?_)
  · refine ⟨read.1, fun value same => ?_⟩
    cases same
    exact (readLocked_sound session.tracks.length_eq.symm
      (fun _ _ inside fetched => readSector_sound session.tracks session.stored
        inside fetched) read.2).2.2.2
  · intro halt after same
    cases halt with
    | error reason =>
      exact ⟨same.symm, fun out impossible => by cases impossible⟩
    | crash =>
      rw [← same]
      exact session.recoverable

/-- The part of a truncation after the file was cut. -/
theorem Protected.reread_triple {before : PlogWorld}
    {verified : Except String Bytes}
    (protection : Protected env head contents bytes
      (calcPhysical (blockStartOf logical)) before world)
    (logicalLe : logical ≤ bytes.length)
    (sound : ∀ out, verified = .ok out → out = slice bytes (blockStartOf logical)
        (logical - blockStartOf logical)) :
    Triple
      (fun current => current =
        ⟨world.store.issue (.truncate (calcPhysical logical)),
          { world.plog with logicalLength := logical }⟩)
      (do
        rebuildOpenBlock
        setPlog fun plog => plog.judge env verified)
      (fun _ after => Session env head contents (bytes.take logical) after)
      (Curtailed env head contents bytes) := by
  obtain ⟨cut, cut_eq⟩ : ∃ cut, cut = { world.plog with logicalLength := logical } := ⟨_, rfl⟩
  have length_eq : cut.logicalLength = logical := by
    rw [cut_eq]
  have active : cut.undoActive = true := by
    rw [cut_eq]
    exact protection.active
  have start_eq : cut.undoStart = world.plog.undoStart := by
    rw [cut_eq]
  rw [← cut_eq]
  have rebuilds := @rebuildOpenBlock_triple
    ⟨world.store.issue (.truncate (calcPhysical logical)), cut⟩
    (Curtailed env head contents bytes) ?_ (fun _ _ _ held => held)
  · refine Triple.bind rebuilds fun _ machine reached => ?_
    obtain ⟨buf, bufLength, same⟩ := reached
    refine setPlog_triple.returning (fun _ after finished => ?_) machine same
    obtain ⟨judgedActive, judgedStart⟩ := Plog.judge_rebuilt_undo env cut.awaiting buf verified
    obtain ⟨awaitingActive, awaitingStart⟩ := Plog.awaiting_undo cut
    rw [finished]
    rw [Plog.part_eq length_eq] at bufLength
    exact protection.cut logicalLe (judgedActive.trans (awaitingActive.trans active))
      (judgedStart.trans (awaitingStart.trans start_eq))
      (Plog.judge_tracks length_eq logicalLe bufLength sound)
  · intro partly halt
    obtain ⟨awaitingActive, awaitingStart⟩ := Plog.awaiting_undo cut
    rw [Curtailed]
    dsimp only
    rw [Plog.awaiting_logicalLength, length_eq]
    rw [Plog.part_eq length_eq] at partly
    exact (protection.cut logicalLe (awaitingActive.trans active) (awaitingStart.trans start_eq)
      (Plog.awaiting_tracks length_eq logicalLe partly)).interrupted halt

theorem cutTo_triple (session : Session env head contents bytes world)
    (logicalLe : logical ≤ bytes.length) :
    Triple (· = world) (cutTo env logical)
      (fun _ after => Session env head contents (bytes.take logical) after)
      (Curtailed env head contents bytes) := by
  have protects := protectPrefixLocked_triple session (calcPhysical_blockStart_le logicalLe)
  have fromUntouched : ∀ halt after, Untouched env head contents bytes world halt after →
        Curtailed env head contents bytes halt after :=
    fun halt after untouched => untouched.curtailed session.tracks.length_eq
  refine Triple.bind_current ?_
  refine Triple.bind_fact (attempt_readPlog_triple session) fun verified sound => ?_
  rw [Int.toNat_natCast, Int.toNat_natCast] at sound
  refine Triple.bind (protects.stopping fromUntouched) fun _ machine protection => ?_
  have stops : ∀ halt, Curtailed env head contents bytes halt machine.world := by
    refine fun halt => fromUntouched halt _ ⟨protection.session.interrupted halt, ?_⟩
    rw [protection.plog_eq]
  exact (Triple.bind (storeEffect_triple fun _ => stops) fun _ =>
    Triple.bind setPlog_triple fun _ =>
      protection.reread_triple logicalLe sound) machine rfl

theorem truncateTo_triple (session : Session env head contents bytes world) (target : Int) :
    Triple (· = world) (truncateTo env target)
      (fun _ after => Session env head contents (bytes.take target.toNat) after)
      (Curtailed env head contents bytes) := by
  have length_eq := session.tracks.length_eq
  have unchanged : ∀ halt, Curtailed env head contents bytes halt world :=
    fun halt => Untouched.curtailed ⟨session.interrupted halt, rfl⟩ length_eq
  refine Triple.bind_current ?_
  dsimp only
  rw [length_eq]
  split_ifs with negative beyond same
  · refine Triple.raise fun _ reached => ?_
    rw [reached]
    exact unchanged _
  · refine Triple.raise fun _ reached => ?_
    rw [reached]
    exact unchanged _
  · refine Triple.pure fun _ reached => ?_
    rw [reached, same, Int.toNat_natCast, List.take_length]
    exact session
  · exact cutTo_triple session (by omega)

end Rose
