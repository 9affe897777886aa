import Rose.FallibleActions
import Rose.Plog

/-!
# Reading a physical log

A read goes sector by sector.  Sealed sectors come from the file and are checked
against their recorded hash: that of the hash sector when their block is
complete, and that in memory while it is open.  The bytes after them come from
the buffer.
-/

namespace Rose

open ListSplice FallibleActions

def readAt (content : Bytes) (offset count : Nat) : Except String Bytes :=
  if count = 0 ∨ offset + count ≤ content.length then
    .ok (slice content offset count)
  else
    .error "EOF"

theorem length_of_readAt {content out : Bytes} {offset count : Nat}
    (read : readAt content offset count = .ok out) : out.length = count := by
  rw [readAt] at read
  split_ifs at read with inside
  cases read
  rw [length_slice]
  omega

/-- The recorded hashes of a complete block. -/
def readHashSector (env : PlogEnv) (plog : Plog) (content : Bytes) (blockIdx : Nat) :
    Except String Bytes := do
  let sector ← (readAt content (hashSectorPhys blockIdx) sectorSize).mapError
    (s!"read plog {plog.id} hash sector {blockIdx}: " ++ ·)
  let recorded := slice sector 0 (hashesPerBlock * hashSize)
  if completedBlockMAC env blockIdx recorded ≠
      slice sector (hashesPerBlock * hashSize) hashSize then
    .error (s!"plog {plog.id} hash sector {blockIdx} authentication: " ++ "bitrot detected")
  else
    .ok recorded

/-- The recorded hash of a sealed sector, if there is one. -/
def sectorHashFor (env : PlogEnv) (plog : Plog) (content : Bytes) (sectorIdx : Nat) :
    Except String (Option Bytes) :=
  let blockIdx := sectorIdx / hashesPerBlock
  let start := sectorIdx % hashesPerBlock * hashSize
  if (blockIdx + 1) * dataPerBlock ≤ plog.sealed then do
    let recorded ← readHashSector env plog content blockIdx
    .ok (some (slice recorded start hashSize))
  else if start + hashSize > plog.hashes.length then
    .ok none
  else
    .ok (some (slice plog.hashes start hashSize))

/-- Compare a sector with its recorded hash. -/
def checkSector (env : PlogEnv) (plog : Plog) (sectorIdx : Nat) (sector : Bytes) :
    Option Bytes → Except String Bytes
  | none => .ok sector
  | some expected =>
    if sectorHash env sector ≠ expected then
      .error (s!"plog {plog.id} sector {sectorIdx} " ++
        s!"(logical {sectorIdx * sectorSize}): bitrot detected")
    else
      .ok sector

def readDataSector (env : PlogEnv) (plog : Plog) (content : Bytes) (sectorIdx : Nat) :
    Except String Bytes := do
  let sectorStart := sectorIdx * sectorSize
  let sector ← (readAt content (calcPhysical sectorStart)
    (min sectorSize (plog.sealed - sectorStart))).mapError
      (s!"read plog {plog.id} sector {sectorIdx}: " ++ ·)
  let expected ← sectorHashFor env plog content sectorIdx
  checkSector env plog sectorIdx sector expected

/-- The sector a read takes its next bytes from. -/
def readSector (env : PlogEnv) (plog : Plog) (content : Bytes) (sectorIdx : Nat) :
    Except String Bytes :=
  if plog.sealed ≤ sectorIdx * sectorSize then
    if plog.bufCorrupt then
      .error (s!"plog {plog.id} sector {sectorIdx} " ++
        s!"(logical {sectorIdx * sectorSize}): bitrot detected")
    else
      .ok plog.buf
  else
    readDataSector env plog content sectorIdx

section Sectors

variable {env : PlogEnv} {plog next : Plog} {content other out : Bytes} {sectorIdx : Nat}

theorem readHashSector_eq_ok_iff {blockIdx : Nat} {recorded : Bytes} :
    readHashSector env plog content blockIdx = .ok recorded ↔
      ∃ sector, readAt content (hashSectorPhys blockIdx) sectorSize = .ok sector ∧
        completedBlockMAC env blockIdx (slice sector 0 (hashesPerBlock * hashSize)) =
            slice sector (hashesPerBlock * hashSize) hashSize ∧
        slice sector 0 (hashesPerBlock * hashSize) = recorded := by
  unfold readHashSector
  rw [bind_eq_ok_iff]
  apply exists_congr
  intro sector
  rw [mapError_eq_ok_iff]
  dsimp only
  by_cases authentic : completedBlockMAC env blockIdx (slice sector 0 (hashesPerBlock * hashSize)) =
        slice sector (hashesPerBlock * hashSize) hashSize
  · simp [authentic]
  · simp [authentic]

theorem checkSector_eq_ok_iff {sector : Bytes} {expected : Option Bytes} :
    checkSector env plog sectorIdx sector expected = .ok out ↔
      sector = out ∧ ∀ hash, expected = some hash → sectorHash env sector = hash := by
  unfold checkSector
  cases expected with
  | none => simp
  | some hash =>
    by_cases authentic : sectorHash env sector = hash
    · simp [authentic]
    · simp [authentic]

theorem readDataSector_eq_ok_iff :
    readDataSector env plog content sectorIdx = .ok out ↔
      readAt content (calcPhysical (sectorIdx * sectorSize))
          (min sectorSize (plog.sealed - sectorIdx * sectorSize)) = .ok out ∧
        ∃ expected, sectorHashFor env plog content sectorIdx = .ok expected ∧
          ∀ hash, expected = some hash → sectorHash env out = hash := by
  simp only [readDataSector, bind_eq_ok_iff, mapError_eq_ok_iff, checkSector_eq_ok_iff]
  constructor
  · rintro ⟨sector, stored, expected, found, rfl, authentic⟩
    exact ⟨stored, expected, found, authentic⟩
  · rintro ⟨stored, expected, found, authentic⟩
    exact ⟨out, stored, expected, found, rfl, authentic⟩

theorem readAt_overwrite_before {source out : Bytes} {start offset count : Nat}
    (read : readAt content offset count = .ok out) (before : offset + count ≤ start) :
    readAt (overwrite 0 content start source) offset count = .ok out := by
  unfold readAt at read ⊢
  split_ifs at read with inside
  cases read
  rcases inside with none | inside
  · rw [if_pos (Or.inl none), none, slice_zero_count, slice_zero_count]
  · have grows : content.length ≤ (overwrite 0 content start source).length := by
      by_cases empty : source = []
      · rw [overwrite, if_pos empty]
      · rw [length_overwrite _ _ _ _ empty]
        exact Nat.le_max_left _ _
    rw [if_pos (Or.inr (by omega)), slice_overwrite_before 0 inside before]

theorem readAt_overwrite_self {front field back : Bytes} {start : Nat} :
    readAt (overwrite 0 content start (front ++ (field ++ back)))
      (start + front.length) field.length = .ok field := by
  by_cases empty : field = []
  · rw [readAt, if_pos (Or.inl (by rw [empty]; rfl)), empty]
    simp
  have nonempty : front ++ (field ++ back) ≠ [] := by simp [empty]
  have whole := slice_overwrite_self 0 content (front ++ (field ++ back)) start
  have inside : start + front.length + field.length ≤
      (overwrite 0 content start (front ++ (field ++ back))).length := by
    rw [length_overwrite _ _ _ _ nonempty]
    simp only [List.length_append]
    omega
  rw [readAt, if_pos (Or.inr inside)]
  have part : slice (slice (overwrite 0 content start
      (front ++ (field ++ back))) start (front ++ (field ++ back)).length)
        front.length field.length = field := by
    rw [whole]
    exact slice_eq_field rfl rfl rfl
  rw [slice_slice _ (by simp only [List.length_append]; omega)] at part
  rw [part]

/-- What can be read of the first file up to `bound` reads the same in the
second. -/
def ReadsKept (bound : Nat) (content other : Bytes) : Prop :=
  ∀ offset count out, offset + count ≤ bound →
    readAt content offset count = .ok out → readAt other offset count = .ok out

theorem readsKept_refl (bound : Nat) (content : Bytes) : ReadsKept bound content content :=
  fun _ _ _ _ read => read

theorem readsKept_overwrite {bound start : Nat} (content data : Bytes) (above : bound ≤ start) :
    ReadsKept bound content (overwrite 0 content start data) :=
  fun _ _ _ inside read =>
    readAt_overwrite_before read (Nat.le_trans inside above)

variable (kept : ReadsKept (calcPhysical plog.sealed) content other)
  (aligned : plog.sealed % 4096 = 0)
include kept aligned

theorem ReadsKept.sectorHashFor_complete {expected : Option Bytes}
    (complete : (sectorIdx / hashesPerBlock + 1) * dataPerBlock ≤ plog.sealed)
    (grows : plog.sealed ≤ next.sealed)
    (found : sectorHashFor env plog content sectorIdx = .ok expected) :
    sectorHashFor env next other sectorIdx = .ok expected := by
  unfold Rose.sectorHashFor at found ⊢
  dsimp only at found ⊢
  rw [if_pos complete] at found
  rw [if_pos (Nat.le_trans complete grows)]
  obtain ⟨recorded, read, rest⟩ := bind_eq_ok_iff.mp found
  obtain ⟨sector, fetched, authentic⟩ := readHashSector_eq_ok_iff.mp read
  exact bind_eq_ok_iff.mpr ⟨recorded, readHashSector_eq_ok_iff.mpr
    ⟨sector, kept _ _ _ (hashSectorPhys_inside aligned complete) fetched, authentic⟩, rest⟩

variable (sealed_eq : next.sealed = plog.sealed) (hashes_eq : next.hashes = plog.hashes)
include sealed_eq hashes_eq

theorem ReadsKept.sectorHashFor {expected : Option Bytes}
    (found : sectorHashFor env plog content sectorIdx = .ok expected) :
    sectorHashFor env next other sectorIdx = .ok expected := by
  by_cases complete : (sectorIdx / hashesPerBlock + 1) * dataPerBlock ≤ plog.sealed
  · exact kept.sectorHashFor_complete aligned complete (Nat.le_of_eq sealed_eq.symm) found
  · unfold Rose.sectorHashFor at found ⊢
    dsimp only at found ⊢
    rw [if_neg complete] at found
    rw [sealed_eq, if_neg complete, hashes_eq]
    exact found

theorem ReadsKept.readDataSector (below : sectorIdx * sectorSize < plog.sealed)
    (read : readDataSector env plog content sectorIdx = .ok out) :
    readDataSector env next other sectorIdx = .ok out := by
  obtain ⟨stored, expected, found, authentic⟩ := readDataSector_eq_ok_iff.mp read
  refine readDataSector_eq_ok_iff.mpr
    ⟨?_, expected, kept.sectorHashFor aligned sealed_eq hashes_eq found, authentic⟩
  rw [sealed_eq]
  exact kept _ _ _ (sectorPhys_inside aligned below) stored

end Sectors

/-- Read from `cur` to `stop`; every round takes at least one byte, so `stop`
rounds are enough. -/
def readLoop (env : PlogEnv) (plog : Plog) (content : Bytes) (stop : Nat) :
    Nat → Nat → Except String Bytes
  | 0, cur => if cur < stop then .error "read makes no progress" else .ok []
  | rounds + 1, cur =>
    if cur < stop then do
      let sectorStart := cur / sectorSize * sectorSize
      let sector ← readSector env plog content (cur / sectorSize)
      let innerEnd := min (min sectorSize sector.length) (stop - sectorStart)
      let rest ← readLoop env plog content stop rounds (sectorStart + innerEnd)
      .ok (slice sector (cur - sectorStart) (innerEnd - (cur - sectorStart)) ++ rest)
    else
      .ok []

def readLocked (env : PlogEnv) (plog : Plog) (content : Bytes) (offset length : Int) :
    Except String Bytes :=
  if offset < 0 ∨ length < 0 then
    .error s!"read plog {plog.id}: invalid offset {offset} length {length}"
  else if length > 2 ^ 63 - 1 - offset then
    .error s!"read plog {plog.id}: range overflows int64"
  else if offset + length > plog.logicalLength then
    .error (s!"read plog {plog.id} past end: {offset + length} > " ++ s!"{plog.logicalLength}")
  else
    readLoop env plog content (offset + length).toNat length.toNat offset.toNat

variable {env : PlogEnv} {plog : Plog} {content truth : Bytes}

theorem slice_round {cur stop sectorStart innerEnd : Nat} {sector : Bytes} (before : cur < stop)
    (stopLe : stop ≤ truth.length) (start_eq : sectorStart = cur / sectorSize * sectorSize)
    (sector_eq : sector = slice truth sectorStart sectorSize)
    (inner_eq : innerEnd = min (min sectorSize sector.length) (stop - sectorStart)) :
    cur < sectorStart + innerEnd ∧ sectorStart + innerEnd ≤ stop ∧
      slice sector (cur - sectorStart) (innerEnd - (cur - sectorStart)) =
        slice truth cur (sectorStart + innerEnd - cur) := by
  have sectorLength : sector.length = min sectorSize (truth.length - sectorStart) := by
    rw [sector_eq, length_slice]
  simp only [sectorSize] at start_eq inner_eq sectorLength
  have startLe : sectorStart ≤ cur ∧ cur < sectorStart + 4096 := by omega
  have innerLe : innerEnd = min 4096 (stop - sectorStart) := by omega
  refine ⟨by omega, by omega, ?_⟩
  rw [sector_eq, slice_slice truth (by unfold sectorSize; omega), Nat.add_sub_cancel' startLe.1]
  congr 1
  omega

/-- What a read returns is the truth when every sector it reads is. -/
theorem readLoop_sound {stop : Nat} (sound : ∀ sectorIdx sector, sectorIdx * sectorSize < stop →
      readSector env plog content sectorIdx = .ok sector →
        sector = slice truth (sectorIdx * sectorSize) sectorSize)
    (stopLe : stop ≤ truth.length) {rounds cur : Nat} {out : Bytes}
    (curLe : cur ≤ stop)
    (ran : readLoop env plog content stop rounds cur = .ok out) :
    out = slice truth cur (stop - cur) := by
  induction rounds generalizing cur out with
  | zero =>
    rw [readLoop] at ran
    split_ifs at ran with before
    cases ran
    rw [Nat.sub_eq_zero_of_le (by omega), slice_zero_count]
  | succ rounds ih =>
    rw [readLoop] at ran
    split_ifs at ran with before
    · obtain ⟨sector, fetched, continued⟩ := bind_eq_ok_iff.mp ran
      obtain ⟨rest, others, joined⟩ := bind_eq_ok_iff.mp continued
      have sector_eq := sound _ _ (Nat.lt_of_le_of_lt (Nat.div_mul_le_self _ _) before) fetched
      obtain ⟨progress, inside, taken⟩ := slice_round before stopLe rfl sector_eq rfl
      cases joined
      rw [ih inside others, taken]
      exact slice_append_slice_of_le truth (by omega) inside
    · cases ran
      rw [Nat.sub_eq_zero_of_le (by omega), slice_zero_count]

/-- A read of sectors that can all be read returns the truth. -/
theorem readLoop_eq {stop : Nat} (reads : ∀ sectorIdx, sectorIdx * sectorSize < stop →
      readSector env plog content sectorIdx = .ok (slice truth (sectorIdx * sectorSize) sectorSize))
    (stopLe : stop ≤ truth.length) {rounds cur : Nat} (curLe : cur ≤ stop)
    (enough : stop - cur ≤ rounds) :
    readLoop env plog content stop rounds cur = .ok (slice truth cur (stop - cur)) := by
  have returns : ∃ out, readLoop env plog content stop rounds cur = .ok out := by
    clear curLe
    induction rounds generalizing cur with
    | zero => exact ⟨[], by rw [readLoop, if_neg (by omega)]⟩
    | succ rounds ih =>
      rw [readLoop]
      split_ifs with before
      · have fetched := reads _ (Nat.lt_of_le_of_lt (Nat.div_mul_le_self _ _) before)
        obtain ⟨progress, -, -⟩ := slice_round before stopLe rfl rfl rfl
        obtain ⟨rest, others⟩ := ih (Nat.le_of_lt_succ
          (Nat.lt_of_lt_of_le (Nat.sub_lt_sub_left before progress) enough))
        exact ⟨_, bind_eq_ok_iff.mpr ⟨_, fetched, bind_eq_ok_iff.mpr ⟨rest, others, rfl⟩⟩⟩
      · exact ⟨[], rfl⟩
  obtain ⟨out, ran⟩ := returns
  have out_eq := readLoop_sound (fun idx sector inside fetched => by
    rw [reads idx inside] at fetched
    cases fetched
    rfl) stopLe curLe ran
  rw [ran, out_eq]

theorem readLocked_sound (length_eq : truth.length = plog.logicalLength)
    (sound : ∀ sectorIdx sector, sectorIdx * sectorSize < plog.logicalLength →
      readSector env plog content sectorIdx = .ok sector →
        sector = slice truth (sectorIdx * sectorSize) sectorSize)
    {offset length : Int} {out : Bytes}
    (ran : readLocked env plog content offset length = .ok out) :
    0 ≤ offset ∧ 0 ≤ length ∧ offset + length ≤ plog.logicalLength ∧
      out = slice truth offset.toNat length.toNat := by
  unfold readLocked at ran
  split_ifs at ran with negative overflow beyond
  refine ⟨by omega, by omega, by omega, ?_⟩
  have out_eq := readLoop_sound (fun idx sector inside => sound idx sector (by omega)) (by omega)
    (by omega) ran
  rw [out_eq]
  congr 1
  omega

theorem readLocked_eq (length_eq : truth.length = plog.logicalLength)
    (reads : ∀ sectorIdx, sectorIdx * sectorSize < plog.logicalLength →
      readSector env plog content sectorIdx = .ok (slice truth (sectorIdx * sectorSize) sectorSize))
    (fits : plog.logicalLength < 2 ^ 63) {offset length : Nat}
    (inside : offset + length ≤ plog.logicalLength) :
    readLocked env plog content offset length = .ok (slice truth offset length) := by
  unfold readLocked
  rw [if_neg (by omega), if_neg (by omega), if_neg (by omega)]
  have stop_eq : ((offset : Int) + length).toNat = offset + length := by omega
  rw [stop_eq, Int.toNat_natCast, Int.toNat_natCast,
    readLoop_eq (fun idx below => reads idx (by omega)) (by omega) (by omega)
      (by omega), Nat.add_sub_cancel_left]

end Rose
