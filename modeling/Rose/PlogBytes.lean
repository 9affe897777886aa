import Rose.PlogReads

/-!
# The bytes of a log in any state

A log may have been opened on a damaged file, so nothing is assumed here about
what its sectors or its recorded hashes contain, only that its memory has the
shape of a log of its length.  A byte is readable when its sector is.  A read
succeeds exactly when all its bytes are readable, and returns them.
-/

namespace Rose

open ListSplice FallibleActions

/-- No bytes of the open sector are kept back from reads. -/
def Plog.TailTrusted (plog : Plog) : Prop := plog.bufCorrupt = false ∨ plog.buf = []

instance (plog : Plog) : Decidable plog.TailTrusted :=
  inferInstanceAs (Decidable (_ ∨ _))

/-- There is a hash for each sealed sector of the open block. -/
def Plog.Hashed (plog : Plog) : Prop := plog.hashes.length = plog.sealed / 4096 % 255 * 16

/-- The memory fits the length: whole sealed sectors and an open sector shorter
than a whole one.  Hashes are missing only when reading the open sector failed
after a cut. -/
structure Plog.Shaped (plog : Plog) : Prop where
  aligned : plog.sealed % 4096 = 0
  bufShort : plog.buf.length < 4096
  bufLe : plog.buf.length ≤ plog.logicalLength
  hashed : plog.TailTrusted → plog.Hashed

variable {env : PlogEnv} {plog : Plog} {content : Bytes}

theorem Plog.Shaped.logicalLength_eq (shaped : plog.Shaped) :
    plog.logicalLength = plog.sealed + plog.buf.length := by
  have bufLe := shaped.bufLe
  unfold Plog.sealed
  omega

/-- The byte at a logical offset, if its sector can be read. -/
def byteAt (env : PlogEnv) (plog : Plog) (content : Bytes) (index : Nat) :
    Option UInt8 :=
  match readSector env plog content (index / sectorSize) with
  | .ok sector => sector[index % sectorSize]?
  | .error _ => none

theorem length_of_readDataSector {sectorIdx : Nat} {sector : Bytes}
    (read : readDataSector env plog content sectorIdx = .ok sector) :
    sector.length = min sectorSize (plog.sealed - sectorIdx * sectorSize) :=
  length_of_readAt (readDataSector_eq_ok_iff.mp read).1

theorem length_of_readSector (shaped : plog.Shaped) {sectorIdx : Nat} {sector : Bytes}
    (inside : sectorIdx * sectorSize < plog.logicalLength)
    (read : readSector env plog content sectorIdx = .ok sector) :
    sector.length = min sectorSize (plog.logicalLength - sectorIdx * sectorSize) := by
  obtain ⟨aligned, bufShort, bufLe, -⟩ := shaped
  have split : plog.logicalLength = plog.sealed + plog.buf.length := by
    unfold Plog.sealed
    omega
  rw [readSector] at read
  split_ifs at read with isOpen
  · cases read
    simp only [sectorSize] at *
    omega
  · rw [length_of_readDataSector read]
    simp only [sectorSize] at *
    omega

section Loop

variable {stop : Nat}

/-- One round of a read, when the sector of `cur` can be read. -/
theorem readLoop_round (shaped : plog.Shaped) {rounds cur : Nat} {sector : Bytes}
    (stopLe : stop ≤ plog.logicalLength) (before : cur < stop)
    (read : readSector env plog content (cur / sectorSize) = .ok sector) :
    ∃ next, cur < next ∧ next ≤ stop ∧
      next = min stop (cur / sectorSize * sectorSize + sectorSize) ∧
      (slice sector (cur % sectorSize) (next - cur)).length = next - cur ∧
      readLoop env plog content stop (rounds + 1) cur =
        (readLoop env plog content stop rounds next).map fun rest =>
          slice sector (cur % sectorSize) (next - cur) ++ rest := by
  have start := Nat.div_mul_le_self cur sectorSize
  have length_eq := length_of_readSector shaped (by omega) read
  have split := Nat.div_add_mod cur sectorSize
  have small : cur % sectorSize < sectorSize := Nat.mod_lt _ (by decide)
  rw [Nat.mul_comm] at split
  refine ⟨cur / sectorSize * sectorSize +
    min (min sectorSize sector.length) (stop - cur / sectorSize * sectorSize),
    ?_, ?_, ?_, ?_, ?_⟩
  · omega
  · omega
  · omega
  · rw [length_slice]
    omega
  · rw [readLoop, if_pos before, read]
    simp only [bind, Except.bind]
    cases readLoop env plog content stop rounds _ with
    | error reason => rfl
    | ok rest =>
      simp only [Except.map]
      congr 3
      · omega
      · omega

theorem byteAt_of_readSector {cur index : Nat} {sector : Bytes}
    (read : readSector env plog content (cur / sectorSize) = .ok sector) (after : cur ≤ index)
    (inside : index < cur / sectorSize * sectorSize + sectorSize) :
    byteAt env plog content index = sector[index % sectorSize]? := by
  have sameSector : index / sectorSize = cur / sectorSize := by
    simp only [sectorSize] at *
    omega
  unfold byteAt
  rw [sameSector, read]

/-- A loop returns exactly when every byte on its way is readable. -/
theorem readLoop_eq_ok_iff (shaped : plog.Shaped) (stopLe : stop ≤ plog.logicalLength)
    {rounds cur : Nat} {out : Bytes} (curLe : cur ≤ stop) (enough : stop - cur ≤ rounds) :
    readLoop env plog content stop rounds cur = .ok out ↔
      out.length = stop - cur ∧ ∀ index, index < stop - cur →
        byteAt env plog content (cur + index) = out[index]? := by
  induction rounds generalizing cur out with
  | zero =>
    have atEnd : cur = stop := by omega
    subst atEnd
    rw [readLoop, if_neg (Nat.lt_irrefl _)]
    constructor
    · intro same
      cases same
      exact ⟨by simp, fun index impossible => by omega⟩
    · rintro ⟨empty, -⟩
      rw [Nat.sub_self] at empty
      rw [List.eq_nil_of_length_eq_zero empty]
  | succ rounds ih =>
    by_cases before : cur < stop
    · cases read : readSector env plog content (cur / sectorSize) with
      | error reason =>
        have unreadable : byteAt env plog content cur = none := by
          unfold byteAt
          rw [read]
        rw [readLoop, if_pos before, read]
        constructor
        · intro impossible
          cases impossible
        · rintro ⟨length_eq, bytes⟩
          have first := bytes 0 (by omega)
          rw [Nat.add_zero, unreadable, List.getElem?_eq_getElem (by omega)] at first
          cases first
      | ok sector =>
        obtain ⟨next, progress, nextLe, next_eq, taken, loop_eq⟩ :=
          @readLoop_round env plog content stop shaped rounds cur sector stopLe before read
        have here : ∀ index, index < next - cur → byteAt env plog content (cur + index) =
              (slice sector (cur % sectorSize) (next - cur))[index]? := by
          intro index inside
          rw [byteAt_of_readSector read (Nat.le_add_right _ _) (by omega),
            getElem?_slice, if_pos inside]
          congr 1
          simp only [sectorSize] at *
          omega
        have there : ∀ rest : Bytes, readLoop env plog content stop rounds next = .ok rest ↔
              rest.length = stop - next ∧ ∀ index, index < stop - next →
                byteAt env plog content (next + index) = rest[index]? :=
          fun rest => ih nextLe (by omega)
        rw [loop_eq, map_eq_ok_iff]
        constructor
        · rintro ⟨rest, ran, rfl⟩
          obtain ⟨restLength, restBytes⟩ := (there rest).mp ran
          refine ⟨by rw [List.length_append, taken, restLength]; omega, fun index inside => ?_⟩
          rw [List.getElem?_append, taken]
          split_ifs with near
          · exact here index near
          · have far := restBytes (index - (next - cur)) (by omega)
            have sameByte : next + (index - (next - cur)) = cur + index := by omega
            rwa [sameByte] at far
        · rintro ⟨length_eq, bytes⟩
          refine ⟨out.drop (next - cur), (there _).mpr ⟨?_, ?_⟩, ?_⟩
          · rw [List.length_drop]
            omega
          · intro index inside
            have far := bytes (next - cur + index) (by omega)
            have sameByte : cur + (next - cur + index) = next + index := by omega
            rw [sameByte] at far
            rw [far, List.getElem?_drop]
          · apply List.ext_getElem?
            intro index
            rw [List.getElem?_append, taken]
            split_ifs with near
            · rw [← here index near]
              exact bytes index (by omega)
            · rw [List.getElem?_drop]
              congr 1
              omega
    · have atEnd : cur = stop := by omega
      subst atEnd
      rw [readLoop, if_neg before]
      constructor
      · intro same
        cases same
        exact ⟨by simp, fun index impossible => by omega⟩
      · rintro ⟨empty, -⟩
        rw [Nat.sub_self] at empty
        rw [List.eq_nil_of_length_eq_zero empty]

end Loop

theorem readLocked_eq_ok_iff (shaped : plog.Shaped) {offset length : Nat} {out : Bytes} :
    readLocked env plog content offset length = .ok out ↔
      offset + length < 2 ^ 63 ∧ offset + length ≤ plog.logicalLength ∧
        out.length = length ∧ ∀ index, index < length →
          byteAt env plog content (offset + index) = out[index]? := by
  by_cases allowed : offset + length < 2 ^ 63 ∧ offset + length ≤ plog.logicalLength
  · obtain ⟨fits, inside⟩ := allowed
    have stop_eq : ((offset : Int) + length).toNat = offset + length := by omega
    unfold readLocked
    rw [if_neg (by omega), if_neg (by omega), if_neg (by omega), stop_eq,
      Int.toNat_natCast, Int.toNat_natCast,
      readLoop_eq_ok_iff shaped inside (by omega) (by omega),
      Nat.add_sub_cancel_left]
    exact ⟨fun read => ⟨fits, inside, read⟩, fun read => read.2.2⟩
  · constructor
    · intro read
      unfold readLocked at read
      rw [if_neg (by omega)] at read
      split_ifs at read with overflow beyond
      omega
    · intro read
      exact absurd ⟨read.1, read.2.1⟩ allowed

end Rose
