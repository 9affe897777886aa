import Rose.FailedWrites

/-!
# What the catalog can vouch for

Recovering hashes drops all evidence for the open block and then takes over the
sectors that validated records cover completely.  So a byte of the open block
can be read only if it lies in a validated record, together with all of its
sector, and data can be appended only if all of the open block does.
-/

namespace Rose

open ListSplice DurableFiles FaultyPrograms FallibleActions

variable {env : PlogEnv} {plog : Plog} {content : Bytes} {chunks : List VerifiedChunk}
  {start stop index : Nat}

section Reading

variable {sectorIdx : Nat} {out : Bytes} {byte : UInt8}

/-- What a read returns while no read of the file fails. -/
def PlogWorld.read (env : PlogEnv) (world : PlogWorld) (offset length : Nat) :
    Except String Bytes :=
  readLocked env world.plog world.content offset length

theorem readSector_open_iff (shaped : plog.Shaped) (hashed : plog.Hashed)
    (below : sectorIdx * sectorSize < plog.sealed)
    (isOpen : ¬(sectorIdx / hashesPerBlock + 1) * dataPerBlock ≤ plog.sealed) :
    readSector env plog content sectorIdx = .ok out ↔
      readAt content (calcPhysical (sectorIdx * sectorSize)) sectorSize = .ok out ∧
        sectorHash env out = slice plog.hashes
          (sectorIdx % hashesPerBlock * hashSize) hashSize := by
  have aligned := shaped.aligned
  have whole : min sectorSize (plog.sealed - sectorIdx * sectorSize) = sectorSize := by
    rw [sectorSize] at below ⊢
    omega
  have recorded : ¬sectorIdx % hashesPerBlock * hashSize + hashSize >
      plog.hashes.length := by
    rw [hashed]
    simp only [hashesPerBlock, dataPerBlock, sectorSize, hashSize] at *
    omega
  rw [readSector, if_neg (by omega), readDataSector_eq_ok_iff, whole]
  unfold sectorHashFor
  dsimp only
  rw [if_neg isOpen, if_neg recorded]
  simp only [Except.ok.injEq, exists_eq_left', Option.some.injEq, forall_eq']

theorem byteAt_eq_some_iff :
    byteAt env plog content index = some byte ↔
      ∃ sector, readSector env plog content (index / sectorSize) = .ok sector ∧
        sector[index % sectorSize]? = some byte := by
  unfold byteAt
  cases readSector env plog content (index / sectorSize) with
  | error reason => simp
  | ok sector => simp

end Reading

section Covering

/-- The byte lies in a validated record. -/
def Vouched (chunks : List VerifiedChunk) (index : Nat) : Prop :=
  ∃ chunk data, (chunk, some data) ∈ chunks ∧ chunk.logicalStart ≤ index ∧
    (index : Int) < chunk.logicalStart + chunk.length

theorem Vouched.cons {first : VerifiedChunk} (vouched : Vouched chunks index) :
    Vouched (first :: chunks) index := by
  obtain ⟨chunk, data, member, after, before⟩ := vouched
  exact ⟨chunk, data, List.mem_cons_of_mem _ member, after, before⟩

section

variable {sector result : List (Option UInt8)}
  (covered : coverSector start stop chunks sector = some result)
include covered

theorem length_coverSector : result.length = sector.length := by
  induction chunks generalizing sector with
  | nil =>
    cases covered
    rfl
  | cons first chunks ih =>
    obtain ⟨chunk, verified⟩ := first
    rw [coverSector.eq_def] at covered
    dsimp only at covered
    split_ifs at covered
    · exact ih covered
    · cases verified with
      | none => cases covered
      | some data => exact (ih covered).trans (length_copyAt _ _ _)

theorem coverSector_vouched {position : Nat} {byte : UInt8}
    (found : result[position]? = some (some byte)) :
    (∃ old, sector[position]? = some (some old)) ∨ Vouched chunks (start + position) := by
  induction chunks generalizing sector with
  | nil =>
    cases covered
    exact .inl ⟨byte, found⟩
  | cons first chunks ih =>
    obtain ⟨chunk, verified⟩ := first
    rw [coverSector.eq_def] at covered
    dsimp only at covered
    split_ifs at covered
    · exact (ih covered).imp_right Vouched.cons
    · cases verified with
      | none => cases covered
      | some data =>
        rcases ih covered with ⟨old, laid⟩ | vouched
        · rw [getElem?_copyAt] at laid
          split_ifs at laid with inside
          · rw [List.length_map, length_slice] at inside
            exact .inr ⟨chunk, data, List.mem_cons_self, by omega, by omega⟩
          · exact .inl ⟨old, laid⟩
        · exact .inr vouched.cons

end

theorem authenticatedSector_vouched {sector : Bytes}
    (authenticated : authenticatedSector start stop chunks = some sector) (after : start ≤ index)
    (before : index < stop) :
    Vouched chunks index := by
  unfold authenticatedSector at authenticated
  cases covered : coverSector start stop chunks (List.replicate (stop - start) none) with
  | none =>
    rw [covered] at authenticated
    cases authenticated
  | some result =>
    rw [covered] at authenticated
    dsimp only at authenticated
    split_ifs at authenticated with complete
    have size := length_coverSector covered
    rw [List.length_replicate] at size
    have inside : index - start < result.length := by omega
    have isSome := List.all_eq_true.mp complete _ (List.getElem_mem inside)
    obtain ⟨byte, byte_eq⟩ := Option.isSome_iff_exists.mp isSome
    have found := List.getElem?_eq_getElem inside
    rw [byte_eq] at found
    rcases coverSector_vouched covered found with ⟨old, blank⟩ | vouched
    · rw [List.getElem?_replicate, if_pos (by omega)] at blank
      cases blank
    · rwa [Nat.add_sub_cancel' after] at vouched

end Covering

section Authenticating

/-- What the memory of a log of the given length trusts of the open block is
vouched for. -/
structure VouchedMemory (chunks : List VerifiedChunk) (length : Nat) (hashes : Bytes)
    (corrupt : Bool) : Prop where
  whole : ∀ sectorIdx, 255 * (length / 4096 / 255) ≤ sectorIdx → sectorIdx < length / 4096 →
      slice hashes (sectorIdx % 255 * 16) 16 = List.replicate 16 0 ∨
        ∀ index, index / 4096 = sectorIdx → Vouched chunks index
  ragged : corrupt = false → ∀ index, 4096 * (length / 4096) ≤ index →
    index < length → Vouched chunks index

section

variable (plog)

theorem Plog.openStart_eq : plog.openStart = 4096 * (255 * (plog.logicalLength / 4096 / 255)) := by
  simp only [Plog.openStart, Plog.aligned, Plog.part, blockStartOf,
    dataPerBlock, hashesPerBlock, sectorSize]
  omega

theorem Plog.aligned_eq : plog.aligned = 4096 * (plog.logicalLength / 4096) := by
  simp only [Plog.aligned, Plog.part, sectorSize]
  omega

-- The fields of an updated log are read through these lemmas with variables for
-- the new fields: comparing a log with its update as a whole would unfold the
-- arithmetic of the new fields.
theorem Plog.length_with_evidence (hashes : Bytes) (corrupt unverified : Bool) :
    ({ plog with
      hashes := hashes
      bufCorrupt := corrupt
      openUnverified := unverified } : Plog).logicalLength = plog.logicalLength := rfl

theorem Plog.length_with_hashes (hashes : Bytes) :
    ({ plog with hashes := hashes } : Plog).logicalLength = plog.logicalLength := rfl

theorem Plog.length_with_buf (buf : Bytes) :
    ({ plog with buf := buf, bufCorrupt := false } : Plog).logicalLength = plog.logicalLength := rfl

theorem Plog.invalidate_length : plog.invalidate.logicalLength = plog.logicalLength :=
  Plog.length_with_evidence _ _ _ _

theorem Plog.invalidate_vouched (chunks : List VerifiedChunk) :
    VouchedMemory chunks plog.logicalLength plog.invalidate.hashes
      plog.invalidate.bufCorrupt := by
  refine ⟨fun sectorIdx isOpen below => .inl ?_, fun trusted => ?_⟩
  · have count : (plog.aligned - plog.openStart) / sectorSize * hashSize =
        plog.logicalLength / 4096 % 255 * 16 := by
      rw [plog.aligned_eq, plog.openStart_eq, sectorSize, hashSize]
      omega
    have blank : plog.invalidate.hashes = List.replicate
        (plog.logicalLength / 4096 % 255 * 16) 0 := by
      rw [← count]
      rfl
    rw [blank, slice, List.drop_replicate, List.take_replicate]
    congr 1
    omega
  · intro index after before
    have whole : plog.part = 0 := Nat.eq_zero_of_not_pos (of_decide_eq_false trusted)
    rw [Plog.part, sectorSize] at whole
    omega

end

namespace VouchedMemory

variable {length : Nat} {hashes : Bytes} {corrupt : Bool} {sector : Bytes}

theorem takeRagged (vouched : VouchedMemory chunks length hashes corrupt)
    (found : authenticatedSector (4096 * (length / 4096))
      (min (4096 * (length / 4096) + sectorSize) length) chunks = some sector) :
    VouchedMemory chunks length hashes false := by
  refine ⟨vouched.whole, fun _ index after before => ?_⟩
  refine authenticatedSector_vouched found after (Nat.lt_min.mpr ⟨?_, before⟩)
  rw [sectorSize]
  omega

theorem takeWhole {taken : Nat} (vouched : VouchedMemory chunks length hashes corrupt)
    (isOpen : 255 * (length / 4096 / 255) ≤ taken)
    (below : taken < length / 4096)
    (found : authenticatedSector (4096 * taken)
      (min (4096 * taken + sectorSize) length) chunks = some sector) :
    VouchedMemory chunks length
      (copyAt hashes (taken % 255 * 16) (sectorHash env sector)) corrupt := by
  refine ⟨fun sectorIdx notBefore inside => ?_, vouched.ragged⟩
  by_cases same : sectorIdx = taken
  · right
    intro index index_eq
    refine authenticatedSector_vouched found ?_ (Nat.lt_min.mpr ⟨?_, ?_⟩)
    · omega
    · rw [sectorSize]
      omega
    · omega
  · rw [slice_copyAt_of_disjoint]
    · exact vouched.whole sectorIdx notBefore inside
    · rw [length_sectorHash]
      omega

end VouchedMemory

/-- What taking over one sector does. -/
theorem Plog.authenticateSector_cases (env : PlogEnv) (chunks : List VerifiedChunk) (plog : Plog)
    (flag : Bool) (start : Nat) :
    Plog.authenticateSector env chunks (plog, flag) start = (plog, false) ∨
      ∃ sector, authenticatedSector start
          (min (start + sectorSize) plog.logicalLength) chunks = some sector ∧
        ((start = plog.aligned ∧ Plog.authenticateSector env chunks (plog, flag) start =
            ({ plog with buf := copyAt plog.buf 0 sector, bufCorrupt := false }, flag)) ∨
        (start ≠ plog.aligned ∧ Plog.authenticateSector env chunks (plog, flag) start =
            ({ plog with
              hashes := copyAt plog.hashes
                ((start - plog.openStart) / sectorSize * hashSize)
                (sectorHash env sector) }, flag))) := by
  cases found : authenticatedSector start (min (start + sectorSize) plog.logicalLength) chunks with
  | none =>
    left
    rw [Plog.authenticateSector, found]
  | some sector =>
    right
    refine ⟨sector, rfl, ?_⟩
    by_cases atEdge : start = plog.aligned
    · left
      refine ⟨atEdge, ?_⟩
      rw [Plog.authenticateSector, found]
      exact if_pos atEdge
    · right
      refine ⟨atEdge, ?_⟩
      rw [Plog.authenticateSector, found]
      exact if_neg atEdge

/-- The state of a scan over the open block of a log of the given length. -/
structure ScannedLog (chunks : List VerifiedChunk) (length : Nat) (state : Plog × Bool) : Prop where
  length_eq : state.1.logicalLength = length
  vouched : VouchedMemory chunks length state.1.hashes state.1.bufCorrupt

/-- The bytes of the sector at `start` are vouched for. -/
def SectorVouched (chunks : List VerifiedChunk) (length start : Nat) : Prop :=
  ∀ index, start ≤ index → index < start + 4096 → index < length → Vouched chunks index

/-- A start of a sector of the open block. -/
structure OpenSector (length start : Nat) : Prop where
  whole : start % 4096 = 0
  isOpen : 255 * (length / 4096 / 255) ≤ start / 4096
  inside : start < length

theorem ScannedLog.step {length : Nat} {state : Plog × Bool}
    (scanned : ScannedLog chunks length state) (isSector : OpenSector length start) :
    ScannedLog chunks length (Plog.authenticateSector env chunks state start) ∧
      ((Plog.authenticateSector env chunks state start).2 = true →
        state.2 = true ∧ SectorVouched chunks length start) := by
  obtain ⟨plog, flag⟩ := state
  obtain ⟨length_eq, vouched⟩ := scanned
  obtain ⟨whole, isOpen, inside⟩ := isSector
  dsimp only at length_eq vouched
  have aligned_eq := plog.aligned_eq
  have openStart_eq := plog.openStart_eq
  have start_eq : start = 4096 * (start / 4096) := by omega
  rw [length_eq] at aligned_eq openStart_eq
  rcases Plog.authenticateSector_cases env chunks plog flag start with
    next | ⟨sector, found, ⟨atEdge, next⟩ | ⟨notEdge, next⟩⟩
  · rw [next]
    exact ⟨⟨length_eq, vouched⟩, fun impossible => by cases impossible⟩
  · have covered : SectorVouched chunks length start := by
      intro index after before indexLt
      rw [length_eq] at found
      exact authenticatedSector_vouched found after (Nat.lt_min.mpr ⟨before, indexLt⟩)
    rw [length_eq, atEdge, aligned_eq] at found
    rw [next]
    exact ⟨⟨(Plog.length_with_buf _ _).trans length_eq,
      vouched.takeRagged found⟩, fun held => ⟨held, covered⟩⟩
  · have covered : SectorVouched chunks length start := by
      intro index after before indexLt
      rw [length_eq] at found
      exact authenticatedSector_vouched found after (Nat.lt_min.mpr ⟨before, indexLt⟩)
    have position : (start - plog.openStart) / sectorSize * hashSize = start / 4096 % 255 * 16 := by
      rw [openStart_eq, sectorSize, hashSize]
      omega
    rw [length_eq, start_eq] at found
    have below : start / 4096 < length / 4096 := by omega
    rw [next, position]
    exact ⟨⟨(Plog.length_with_hashes _ _).trans length_eq,
      vouched.takeWhole isOpen below found⟩, fun held => ⟨held, covered⟩⟩

theorem ScannedLog.run {length : Nat} {starts : List Nat} {state : Plog × Bool}
    (scanned : ScannedLog chunks length state)
    (areSectors : ∀ start ∈ starts, OpenSector length start) :
    ScannedLog chunks length (starts.foldl (Plog.authenticateSector env chunks) state) ∧
      ((starts.foldl (Plog.authenticateSector env chunks) state).2 = true → state.2 = true ∧
          ∀ start ∈ starts, SectorVouched chunks length start) := by
  induction starts generalizing state with
  | nil =>
    refine ⟨scanned, fun held => ⟨held, fun start member => ?_⟩⟩
    cases member
  | cons start starts ih =>
    obtain ⟨next, first⟩ := @ScannedLog.step env chunks start length state scanned
      (areSectors start List.mem_cons_self)
    obtain ⟨last, others⟩ := ih next fun other member =>
      areSectors other (List.mem_cons_of_mem _ member)
    rw [List.foldl_cons]
    refine ⟨last, fun held => ?_⟩
    obtain ⟨flagged, covered⟩ := others held
    refine ⟨(first flagged).1, fun other member => ?_⟩
    rcases List.mem_cons.mp member with rfl | member
    · exact (first flagged).2
    · exact covered other member

theorem Plog.mem_openSectorStarts (plog : Plog) {start : Nat}
    (member : start ∈ plog.openSectorStarts) :
    OpenSector plog.logicalLength start := by
  obtain ⟨position, inRange, rfl⟩ := List.mem_map.mp member
  have below := List.mem_range.mp inRange
  rw [plog.openStart_eq, sectorSize] at below
  rw [plog.openStart_eq, sectorSize]
  exact ⟨by omega, by omega, by omega⟩

theorem Plog.sector_of_open (plog : Plog) (isOpen : plog.openStart ≤ index)
    (inside : index < plog.logicalLength) :
    ∃ start ∈ plog.openSectorStarts, start ≤ index ∧ index < start + 4096 := by
  refine ⟨plog.openStart + (index - plog.openStart) / 4096 * sectorSize,
    List.mem_map.mpr ⟨_, List.mem_range.mpr ?_, rfl⟩, ?_⟩
  · rw [sectorSize]
    omega
  · rw [sectorSize]
    omega

end Authenticating

section Recovering

variable {world after : PlogWorld} {recoverer : ChunkRecoverer}

/-- The record lies in the log, and its bytes in the file are accepted. -/
structure ValidIn (env : PlogEnv) (world : PlogWorld) (chunk : RecoveredChunk) (data : Bytes) :
    Prop where
  inside : ¬chunk.Outside world.plog.logicalLength
  stored : readLogicalUnverified world.content chunk.logicalStart.toNat
    chunk.length.toNat = .ok data
  accepted : chunk.accepts env data = true

/-- The record was named by the catalog and its bytes were accepted. -/
structure AcceptedRecord (env : PlogEnv) (recoverer : ChunkRecoverer) (world : PlogWorld)
    (chunk : RecoveredChunk) : Prop where
  named : ∃ chunks, recoverer world.plog.id (calcPhysical world.plog.openStart)
      (calcPhysical world.plog.logicalLength) = .ok chunks ∧ chunk ∈ chunks
  valid : ∃ data, ValidIn env world chunk data

/-- A byte that lies in an accepted record. -/
def Accepted (env : PlogEnv) (recoverer : ChunkRecoverer) (world : PlogWorld) (index : Nat) :
    Prop :=
  ∃ chunk, AcceptedRecord env recoverer world chunk ∧ chunk.logicalStart ≤ index ∧
      (index : Int) < chunk.logicalStart + chunk.length

theorem verifyChunk_triple (chunk : RecoveredChunk) :
    Triple (· = world) (verifyChunk env chunk)
      (fun verified next => next = world ∧ verified.1 = chunk ∧
        ∀ data, verified.2 = some data → ValidIn env world chunk data)
      (fun halt _ => halt = .crash) := by
  have nothing : Triple (· = world)
      (pure (chunk, none) : Program PlogWorld VerifiedChunk)
      (fun verified next => next = world ∧ verified.1 = chunk ∧
        ∀ data, verified.2 = some data → ValidIn env world chunk data)
      (fun halt _ => halt = .crash) :=
    Triple.pure fun _ same => ⟨same, rfl, fun _ impossible => by
      cases impossible⟩
  refine Triple.bind_current ?_
  split_ifs with outside
  · exact nothing
  · have looks : Triple (· = world)
        (attempt (inspect "read" fun world =>
          readLogicalUnverified world.content chunk.logicalStart.toNat chunk.length.toNat))
        (fun read next => next = world ∧ ∀ data, read = .ok data →
          readLogicalUnverified world.content chunk.logicalStart.toNat
            chunk.length.toNat = .ok data)
        (fun halt _ => halt = .crash) := by
      refine Triple.attempt (Triple.inspect ?_ ?_ fun _ _ => rfl)
      · rintro _ value rfl found
        refine ⟨rfl, fun data same => ?_⟩
        cases same
        exact found
      · rintro _ reason rfl
        exact ⟨rfl, fun data impossible => by cases impossible⟩
    refine Triple.bind_fact looks fun read found => ?_
    cases read with
    | error reason => exact nothing
    | ok data =>
      dsimp only
      split_ifs with accepted
      · refine Triple.pure fun _ same => ⟨same, rfl, fun other same => ?_⟩
        cases same
        exact ⟨outside, found data rfl, accepted⟩
      · exact nothing

theorem verifyChunks_triple (chunks : List RecoveredChunk) :
    Triple (· = world) (verifyChunks env chunks)
      (fun verified next => next = world ∧ ∀ chunk data, (chunk, some data) ∈ verified →
          chunk ∈ chunks ∧ ValidIn env world chunk data)
      (fun halt _ => halt = .crash) := by
  induction chunks with
  | nil =>
    exact Triple.pure fun _ same => ⟨same, fun _ _ member => by cases member⟩
  | cons first chunks ih =>
    refine Triple.bind_fact (verifyChunk_triple first) fun verified isFirst => ?_
    refine Triple.bind_fact ih fun rest areRest => ?_
    refine Triple.pure fun _ same => ⟨same, fun chunk data member => ?_⟩
    rcases List.mem_cons.mp member with rfl | member
    · obtain ⟨rfl, valid⟩ := isFirst
      exact ⟨List.mem_cons_self, valid data rfl⟩
    · obtain ⟨isMember, valid⟩ := areRest chunk data member
      exact ⟨List.mem_cons_of_mem _ isMember, valid⟩

/-- What the log trusts once the catalog was asked. -/
structure Recovered (env : PlogEnv) (recoverer : ChunkRecoverer) (world after : PlogWorld) :
    Prop where
  content_eq : after.content = world.content
  length_eq : after.plog.logicalLength = world.plog.logicalLength
  shaped : after.plog.Shaped
  hashed : after.plog.Hashed
  vouched : ∃ verified : List VerifiedChunk,
    (∀ chunk data, (chunk, some data) ∈ verified → AcceptedRecord env recoverer world chunk) ∧
    VouchedMemory verified world.plog.logicalLength after.plog.hashes after.plog.bufCorrupt ∧
    (after.plog.openUnverified = false → ∀ index,
      world.plog.openStart ≤ index → index < world.plog.logicalLength → Vouched verified index)

theorem Plog.authenticate_vouched (plog : Plog)
    (vouched : VouchedMemory chunks plog.logicalLength plog.hashes plog.bufCorrupt) :
    (plog.authenticate env chunks).logicalLength = plog.logicalLength ∧
      VouchedMemory chunks plog.logicalLength (plog.authenticate env chunks).hashes
        (plog.authenticate env chunks).bufCorrupt ∧
      ((plog.authenticate env chunks).openUnverified = false → ∀ index,
        plog.openStart ≤ index → index < plog.logicalLength → Vouched chunks index) := by
  have scan := @ScannedLog.run env chunks plog.logicalLength
    plog.openSectorStarts (plog, true) ⟨rfl, vouched⟩
    fun start => plog.mem_openSectorStarts
  unfold Plog.authenticate Plog.authenticateSectors
  generalize plog.openSectorStarts.foldl
    (Plog.authenticateSector env chunks) (plog, true) = result at scan ⊢
  obtain ⟨last, flag⟩ := result
  obtain ⟨⟨length_eq, kept⟩, complete⟩ := scan
  refine ⟨length_eq, kept, fun verified index isOpen inside => ?_⟩
  obtain ⟨start, member, after, before⟩ := plog.sector_of_open isOpen inside
  have flagged : flag = true := by
    cases flag with
    | true => rfl
    | false => cases verified
  exact (complete flagged).2 start member index after before inside

theorem PlogWorld.content_with_plog (world : PlogWorld) (plog : Plog) :
    ({ world with plog := plog } : PlogWorld).content = world.content := rfl

theorem recovered_of_invalidate (shaped : world.plog.Shaped) (recoverer : ChunkRecoverer) :
    Recovered env recoverer world
      { world with plog := world.plog.invalidate } := by
  obtain ⟨newShaped, hashed⟩ := Plog.invalidate_shaped shaped
  refine ⟨world.content_with_plog _, world.plog.invalidate_length, newShaped,
    hashed, [], ?_, world.plog.invalidate_vouched [], fun verified index isOpen inside => ?_⟩
  · intro chunk data member
    cases member
  · have unverified := of_decide_eq_false verified
    exact absurd (Nat.lt_of_le_of_lt isOpen inside) unverified

/-- The invalidated log takes over what the valid records cover. -/
theorem Recovered.authenticated {chunks : List RecoveredChunk}
    {verified : List VerifiedChunk} {blank : PlogWorld}
    (content_eq : blank.content = world.content)
    (length_eq : blank.plog.logicalLength = world.plog.logicalLength)
    (shaped : blank.plog.Shaped) (hashed : blank.plog.Hashed)
    (vouched : VouchedMemory verified blank.plog.logicalLength
      blank.plog.hashes blank.plog.bufCorrupt)
    (asked : recoverer world.plog.id (calcPhysical world.plog.openStart)
      (calcPhysical world.plog.logicalLength) = .ok chunks)
    (areValid : ∀ chunk data, (chunk, some data) ∈ verified →
      chunk ∈ chunks ∧ ValidIn env blank chunk data) :
    Recovered env recoverer world { blank with
      plog := blank.plog.authenticate env verified } := by
  obtain ⟨newShaped, newHashed⟩ := @Plog.authenticate_shaped env blank.plog verified shaped hashed
  obtain ⟨kept, newVouched, complete⟩ := @Plog.authenticate_vouched env verified blank.plog vouched
  have start_eq : blank.plog.openStart = world.plog.openStart := by
    rw [Plog.openStart_eq, Plog.openStart_eq, length_eq]
  rw [length_eq] at kept newVouched complete
  rw [start_eq] at complete
  refine ⟨(blank.content_with_plog _).trans content_eq, kept, newShaped,
    newHashed, verified, fun chunk data member => ?_, newVouched, complete⟩
  obtain ⟨named, valid⟩ := areValid chunk data member
  refine ⟨⟨chunks, asked, named⟩, data, ?_, ?_, valid.accepted⟩
  · rw [← length_eq]
    exact valid.inside
  · rw [← content_eq]
    exact valid.stored

theorem recoverHashes_recovers (shaped : world.plog.Shaped)
    (lost : world.plog.loadedFromTrailer = false) :
    Triple (· = world) (recoverHashes env recoverer)
      (fun _ after => Recovered env recoverer world after)
      (fun halt after => halt ≠ .crash → Recovered env recoverer world after) := by
  refine Triple.bind_current ?_
  dsimp only
  rw [lost, if_neg (by decide)]
  refine Triple.bind setPlog_triple fun _ => ?_
  have invalidated := @recovered_of_invalidate env world shaped recoverer
  split_ifs with atStart
  · exact Triple.pure fun _ same => same ▸ invalidated
  · cases asked : recoverer world.plog.id (calcPhysical world.plog.openStart)
        (calcPhysical world.plog.logicalLength) with
    | error reason => exact Triple.raise fun _ same _ => same ▸ invalidated
    | ok chunks =>
      refine Triple.bind_fact ((verifyChunks_triple chunks).stopping
        fun _ _ crashed notCrash => absurd crashed notCrash)
        fun verified areValid => ?_
      refine Triple.update ?_
      rintro _ rfl
      exact Recovered.authenticated invalidated.content_eq
        invalidated.length_eq invalidated.shaped invalidated.hashed
        (world.plog.invalidate_length.symm ▸ world.plog.invalidate_vouched verified) asked areValid

theorem accepted_of_vouched {verified : List VerifiedChunk}
    (areAccepted : ∀ chunk data, (chunk, some data) ∈ verified →
      AcceptedRecord env recoverer world chunk)
    (vouched : Vouched verified index) :
    Accepted env recoverer world index := by
  obtain ⟨chunk, data, member, isAfter, before⟩ := vouched
  exact ⟨chunk, areAccepted chunk data member, isAfter, before⟩

/-- The stored sector around the byte is full and hashes to the blank that stands for an unknown
hash. -/
def BlankSector (env : PlogEnv) (world : PlogWorld) (index : Nat) : Prop :=
  index / sectorSize < world.plog.logicalLength / sectorSize ∧
    sectorHash env (slice world.content (calcPhysical (index / sectorSize * sectorSize))
      sectorSize) = List.replicate hashSize 0

/-- A byte of the open block can be read only with all of its sector in accepted
records. -/
theorem Recovered.sector_accepted (recovered : Recovered env recoverer world after)
    (known : ¬BlankSector env world index) {byte : UInt8} (isOpen : world.plog.openStart ≤ index)
    (inside : index < world.plog.logicalLength)
    (readable : byteAt env after.plog after.content index = some byte) {other : Nat}
    (sameSector : other / sectorSize = index / sectorSize)
    (otherInside : other < world.plog.logicalLength) :
    Accepted env recoverer world other := by
  obtain ⟨verified, areAccepted, vouched, -⟩ := recovered.vouched
  refine accepted_of_vouched areAccepted ?_
  have sealed_eq : after.plog.sealed = 4096 * (world.plog.logicalLength / 4096) := by
    rw [recovered.shaped.sealed_eq_aligned, Plog.aligned_eq, recovered.length_eq]
  rw [Plog.openStart_eq] at isOpen
  rw [show sectorSize = 4096 from rfl] at sameSector
  obtain ⟨sector, read, -⟩ := byteAt_eq_some_iff.mp readable
  rw [show sectorSize = 4096 from rfl] at read
  by_cases isSealed : index / 4096 < world.plog.logicalLength / 4096
  · have below : index / 4096 * sectorSize < after.plog.sealed := by
      rw [sealed_eq, show sectorSize = 4096 from rfl]
      omega
    have lastBlock : index / 4096 / 255 = world.plog.logicalLength / 4096 / 255 := by omega
    rw [readSector_open_iff recovered.shaped recovered.hashed below (by
      rw [sealed_eq, show hashesPerBlock = 255 from rfl, lastBlock,
        dataPerBlock, hashesPerBlock, sectorSize]
      omega)] at read
    obtain ⟨stored, authentic⟩ := read
    rcases vouched.whole (index / 4096) (by omega) isSealed with blank | whole
    · exfalso
      refine known ⟨isSealed, ?_⟩
      rw [recovered.content_eq, readAt] at stored
      split_ifs at stored
      cases stored
      exact authentic.trans blank
    · exact whole other sameSector
  · have isLast : index / 4096 = world.plog.logicalLength / 4096 := by omega
    refine vouched.ragged ?_ other (by omega) otherInside
    rw [readSector, if_pos (by
      rw [sealed_eq, isLast, show sectorSize = 4096 from rfl]
      omega)] at read
    split_ifs at read with corrupt
    exact Bool.eq_false_iff.mpr corrupt

/-- After the hashes were recovered, reads return only sectors of the open block
that accepted records cover or that hash to the blank, and data is taken only if
such records cover all of it. -/
theorem recoverHashes_trusts_accepted_records (reached : PlogReached env world)
    (lost : world.plog.loadedFromTrailer = false)
    (finishes : Finishes (recoverHashes env recoverer) world after) :
    (∀ offset length out, after.read env offset length = .ok out →
      ∀ index, offset ≤ index → index < offset + length → world.plog.openStart ≤ index →
        ¬BlankSector env world index → Accepted env recoverer world index) ∧
    (∀ index, world.plog.openStart ≤ index → index < world.plog.logicalLength →
      ¬Accepted env recoverer world index → ¬BlankSector env world index →
      ∀ offset length out, after.read env offset length = .ok out →
        ∀ other, offset ≤ other → other < offset + length →
          other / sectorSize ≠ index / sectorSize) ∧
    (∀ data faults offset machine, writeLocked env data ⟨after, faults⟩ = .ok offset machine →
      ∀ index, world.plog.openStart ≤ index → index < world.plog.logicalLength →
          Accepted env recoverer world index) := by
  have recovers := @recoverHashes_recovers env world recoverer reached.shaped lost
  have recovered : Recovered env recoverer world after := by
    obtain ⟨faults, rest, ⟨value, ran⟩ | ⟨reason, ran⟩⟩ := finishes
    · exact recovers.returned rfl ran
    · exact recovers.halted rfl ran (by simp)
  have readable : ∀ {offset length : Nat} {out : Bytes}, after.read env offset length = .ok out →
        ∀ index, offset ≤ index → index < offset + length → index < world.plog.logicalLength ∧
            ∃ byte, byteAt env after.plog after.content index = some byte := by
    intro offset length out read index isAfter before
    obtain ⟨-, inside, outLength, bytes⟩ := (readLocked_eq_ok_iff recovered.shaped).mp read
    rw [recovered.length_eq] at inside
    have found := bytes (index - offset) (by omega)
    rw [Nat.add_sub_cancel' isAfter, List.getElem?_eq_getElem (by omega)] at found
    exact ⟨by omega, _, found⟩
  refine ⟨?_, ?_, ?_⟩
  · intro offset length out read index isAfter before isOpen known
    obtain ⟨inside, byte, found⟩ := readable read index isAfter before
    exact recovered.sector_accepted known isOpen inside found rfl inside
  · intro index isOpen inside unaccepted known offset length out read other isAfter before
      sameSector
    obtain ⟨otherInside, byte, found⟩ := readable read other isAfter before
    have otherKnown : ¬BlankSector env world other := by
      rwa [BlankSector, sameSector]
    refine unaccepted (recovered.sector_accepted otherKnown ?_ otherInside found
      sameSector.symm inside)
    rw [Plog.openStart_eq] at isOpen ⊢
    rw [sectorSize] at sameSector
    omega
  · intro data faults offset machine wrote index isOpen inside
    obtain ⟨verified, areAccepted, -, complete⟩ := recovered.vouched
    refine accepted_of_vouched areAccepted (complete ?_ index isOpen inside)
    by_contra unverified
    rw [Alike.writeLocked_refuses (.inr (Bool.eq_true_of_not_eq_false unverified))] at wrote
    cases wrote

theorem length_markedDigest : ∀ _ : Bytes, (List.replicate 32 1 : Bytes).length = 32 :=
  fun _ => List.length_replicate

/-- Digests that ignore their input and are never blank. -/
def markedEnv : PlogEnv where
  sha := ⟨fun _ => List.replicate 32 1, length_markedDigest⟩
  hmac := ⟨fun _ => List.replicate 32 1, length_markedDigest⟩
  parses := fun _ => true

/-- A file without a trailer: a full sector and three bytes. -/
def unprovenFile (env : PlogEnv) : PlogWorld :=
  ⟨UndoStore.settled (superblock env [] ++ List.replicate 4099 4), Plog.fresh 1⟩

def unprovenLog (env : PlogEnv) : PlogWorld :=
  worldAfter (openExistingPlog env 1) ⟨unprovenFile env, []⟩

theorem unprovenLog_reached
    (opens : haltOf (openExistingPlog env 1) ⟨unprovenFile env, []⟩ = none) :
    PlogReached env (unprovenLog env) := by
  obtain ⟨_, rest, ran⟩ := returned_of_haltOf opens
  exact .opened 1 _ _ [] rest ran

/-- The catalog names the first byte and the last three, and the first does not validate. -/
def lastValid : ChunkRecoverer := fun _ _ _ =>
  .ok [⟨0, 1, 0, [], some fun _ => false⟩, ⟨4096, 3, 0, [], some fun _ => true⟩]

theorem recoverHashes_of_one_valid_record :
    ∃ after, Finishes (recoverHashes markedEnv lastValid) (unprovenLog markedEnv) after ∧
      after.read markedEnv 4096 3 = .ok [4, 4, 4] ∧
      (∀ length out, after.read markedEnv 0 (length + 1) ≠ .ok out) ∧
      ∀ data faults offset machine,
        writeLocked markedEnv data ⟨after, faults⟩ ≠ .ok offset machine := by
  -- One evaluation for all that is computed.
  obtain ⟨opens, lost, isOpen, inside, recovers, reads⟩ :
      haltOf (openExistingPlog markedEnv 1) ⟨unprovenFile markedEnv, []⟩ = none ∧
      (unprovenLog markedEnv).plog.loadedFromTrailer = false ∧
      (unprovenLog markedEnv).plog.openStart ≤ 0 ∧
      0 < (unprovenLog markedEnv).plog.logicalLength ∧
      haltOf (recoverHashes markedEnv lastValid) ⟨unprovenLog markedEnv, []⟩ = none ∧
      (worldAfter (recoverHashes markedEnv lastValid) ⟨unprovenLog markedEnv, []⟩).read
        markedEnv 4096 3 = .ok [4, 4, 4] := by decide +kernel
  have finishes := finishes_of_haltOf recovers
  obtain ⟨-, refused, appends⟩ :=
    recoverHashes_trusts_accepted_records (unprovenLog_reached opens) lost finishes
  have unaccepted : ¬Accepted markedEnv lastValid (unprovenLog markedEnv) 0 := by
    rintro ⟨chunk, ⟨⟨chunks, asked, member⟩, data, valid⟩, isAfter, -⟩
    cases asked
    simp only [List.mem_cons, List.not_mem_nil, or_false] at member
    obtain rfl | rfl := member
    · exact absurd valid.accepted (by simp [RecoveredChunk.accepts])
    · exact absurd isAfter (by decide)
  have known : ¬BlankSector markedEnv (unprovenLog markedEnv) 0 := by
    rintro ⟨-, blank⟩
    change List.take 16 (List.replicate 32 1) = _ at blank
    exact absurd blank (by decide)
  refine ⟨_, finishes, reads, fun length out read => ?_, ?_⟩
  · exact refused 0 isOpen inside unaccepted known _ _ _ read 0 le_rfl (by omega) rfl
  · intro data faults offset machine wrote
    exact unaccepted (appends data faults offset machine wrote 0 isOpen inside)

/-- Where every sector hashes to the blank, a sector that no record covers can be read. -/
theorem recoverHashes_trusts_blank_hash :
    ∃ after, PlogReached constantEnv (unprovenLog constantEnv) ∧
      (unprovenLog constantEnv).plog.loadedFromTrailer = false ∧
      Finishes (recoverHashes constantEnv fun _ _ _ => .ok []) (unprovenLog constantEnv) after ∧
      (unprovenLog constantEnv).plog.openStart = 0 ∧ after.read constantEnv 0 1 = .ok [4] ∧
      ¬Accepted constantEnv (fun _ _ _ => .ok []) (unprovenLog constantEnv) 0 := by
  obtain ⟨opens, lost, isOpen, recovers, reads⟩ :
      haltOf (openExistingPlog constantEnv 1) ⟨unprovenFile constantEnv, []⟩ = none ∧
      (unprovenLog constantEnv).plog.loadedFromTrailer = false ∧
      (unprovenLog constantEnv).plog.openStart = 0 ∧
      haltOf (recoverHashes constantEnv fun _ _ _ => .ok [])
        ⟨unprovenLog constantEnv, []⟩ = none ∧
      (worldAfter (recoverHashes constantEnv fun _ _ _ => .ok [])
        ⟨unprovenLog constantEnv, []⟩).read constantEnv 0 1 = .ok [4] := by decide +kernel
  refine ⟨_, unprovenLog_reached opens, lost, finishes_of_haltOf recovers, isOpen, reads, ?_⟩
  rintro ⟨chunk, ⟨⟨chunks, asked, member⟩, -⟩, -⟩
  cases asked
  cases member

end Recovering

end Rose
