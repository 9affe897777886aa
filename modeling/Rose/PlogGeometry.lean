import Rose.UndoRecord

/-!
# Where a physical log keeps its bytes

The log file begins with a superblock.  Data sectors follow in blocks of 255,
and each full block is closed by a sector of hashes.
-/

namespace Rose

def hashesPerBlock : Nat := 255

def hashSize : Nat := 16

def blockPhysical : Nat := (hashesPerBlock + 1) * sectorSize

def dataPerBlock : Nat := hashesPerBlock * sectorSize

def plogHeaderSize : Nat := sectorSize

/-- The data bytes of a file that ends at a physical offset. -/
@[irreducible]
def calcLogical (phys : Nat) : Nat :=
  let data := phys - plogHeaderSize
  let chunks := data / blockPhysical
  let rem := data % blockPhysical
  if rem > dataPerBlock then
    chunks * dataPerBlock + dataPerBlock
  else
    chunks * dataPerBlock + rem

/-- The physical offset of a logical one. -/
@[irreducible]
def calcPhysical (logical : Nat) : Nat :=
  let chunks := logical / dataPerBlock
  let rem := logical % dataPerBlock
  plogHeaderSize + chunks * blockPhysical + rem

def hashSectorPhys (blockIdx : Nat) : Nat :=
  plogHeaderSize + blockIdx * blockPhysical + dataPerBlock

/-- A value as 64-bit signed arithmetic keeps it. -/
def wrap64 (value : Int) : Int :=
  (value + 0x8000000000000000) % 0x10000000000000000 - 0x8000000000000000

/-- `calcLogical` as it is computed, with 64-bit integers. -/
def calcLogical64 (phys : Int) : Int :=
  let data := wrap64 (phys - plogHeaderSize)
  if data < 0 then 0
  else
    let chunks := data.tdiv blockPhysical
    let rem := data.tmod blockPhysical
    let logical := wrap64 (chunks * dataPerBlock)
    if rem > dataPerBlock then wrap64 (logical + dataPerBlock)
    else wrap64 (logical + rem)

/-- `calcPhysical` as it is computed, with 64-bit integers. -/
def calcPhysical64 (logical : Int) : Int :=
  let chunks := logical.tdiv dataPerBlock
  let rem := logical.tmod dataPerBlock
  wrap64 (wrap64 (plogHeaderSize + wrap64 (chunks * blockPhysical)) + rem)

/-- `hashSectorPhys` as it is computed, with 64-bit integers. -/
def hashSectorPhys64 (blockIdx : Int) : Int :=
  wrap64 (wrap64 (plogHeaderSize + wrap64 (blockIdx * blockPhysical)) + dataPerBlock)

/-- The data bytes that have a physical offset below 2^63. -/
def addressable : Nat := 0x80000000000 * dataPerBlock

theorem wrap64_eq_self {value : Int} (low : -0x8000000000000000 ≤ value)
    (high : value < 0x8000000000000000) : wrap64 value = value := by
  unfold wrap64
  omega

theorem calcPhysical64_eq {logical : Nat} (below : logical < addressable) :
    calcPhysical64 logical = calcPhysical logical := by
  have position : (calcPhysical logical : Int) = 4096 + logical / 1044480 * 1048576 +
      logical % 1044480 := by
    simp only [calcPhysical, dataPerBlock, blockPhysical, hashesPerBlock, sectorSize,
      plogHeaderSize]
    omega
  have bounded : (logical : Int) < 9187343239835811840 := by
    exact_mod_cast below
  have chunks : wrap64 (logical / 1044480 * 1048576) = logical / 1044480 * 1048576 :=
    wrap64_eq_self (by omega) (by omega)
  have start : wrap64 (4096 + logical / 1044480 * 1048576) =
      4096 + logical / 1044480 * 1048576 := wrap64_eq_self (by omega) (by omega)
  have positive : (0 : Int) ≤ logical := Int.natCast_nonneg _
  rw [position]
  unfold calcPhysical64
  dsimp only
  rw [Int.tdiv_eq_ediv_of_nonneg positive, Int.tmod_eq_emod_of_nonneg positive]
  change wrap64 (wrap64 (4096 + wrap64 (logical / 1044480 * 1048576)) + logical % 1044480) = _
  rw [chunks, start, wrap64_eq_self (by omega) (by omega)]

theorem calcLogical64_eq {phys : Int} (low : -0x7FFFFFFFFFFFF000 ≤ phys)
    (high : phys < 0x8000000000000000) :
    calcLogical64 phys = calcLogical phys.toNat := by
  have data : wrap64 (phys - 4096) = phys - 4096 := wrap64_eq_self (by omega) (by omega)
  unfold calcLogical64 calcLogical
  dsimp only
  change (if wrap64 (phys - 4096) < 0 then 0
    else if (wrap64 (phys - 4096)).tmod 1048576 > 1044480 then
      wrap64 (wrap64 ((wrap64 (phys - 4096)).tdiv 1048576 * 1044480) + 1044480)
    else wrap64 (wrap64 ((wrap64 (phys - 4096)).tdiv 1048576 * 1044480) +
      (wrap64 (phys - 4096)).tmod 1048576)) =
    ((if (phys.toNat - 4096) % 1048576 > 1044480 then
        (phys.toNat - 4096) / 1048576 * 1044480 + 1044480
      else (phys.toNat - 4096) / 1048576 * 1044480 + (phys.toNat - 4096) % 1048576 : Nat) : Int)
  rw [data]
  by_cases early : phys - 4096 < 0
  · rw [if_pos early, if_neg (by omega)]
    omega
  · have chunks : wrap64 ((phys - 4096) / 1048576 * 1044480) =
        (phys - 4096) / 1048576 * 1044480 := wrap64_eq_self (by omega) (by omega)
    rw [if_neg early, Int.tdiv_eq_ediv_of_nonneg (by omega),
      Int.tmod_eq_emod_of_nonneg (by omega), chunks]
    split_ifs with hashes exactHashes exactHashes
    · rw [wrap64_eq_self (by omega) (by omega)]
      omega
    · omega
    · omega
    · rw [wrap64_eq_self (by omega) (by omega)]
      omega

theorem hashSectorPhys64_eq {blockIdx : Nat} (below : blockIdx + 1 < 0x80000000000) :
    hashSectorPhys64 blockIdx = hashSectorPhys blockIdx := by
  simp only [hashSectorPhys64, hashSectorPhys, dataPerBlock, blockPhysical, hashesPerBlock,
    sectorSize, plogHeaderSize, wrap64]
  omega

/-- The start of the block a logical offset lies in. -/
def blockStartOf (logical : Nat) : Nat := logical / dataPerBlock * dataPerBlock

theorem calcPhysical_sectors (count part : Nat) (partLt : part < 4096) :
    calcPhysical (4096 * count + part) = 4096 * (count + count / 255 + 1) + part := by
  simp only [calcPhysical, dataPerBlock, blockPhysical, hashesPerBlock, sectorSize, plogHeaderSize]
  omega

theorem calcPhysical_mul (count : Nat) :
    calcPhysical (4096 * count) = 4096 * (count + count / 255 + 1) :=
  calcPhysical_sectors count 0 (by decide)

theorem calcLogical_calcPhysical (logical : Nat) :
    calcLogical (calcPhysical logical) = logical := by
  have chunks : (calcPhysical logical - plogHeaderSize) / blockPhysical =
      logical / dataPerBlock := by
    simp only [calcPhysical, dataPerBlock, blockPhysical, hashesPerBlock,
      sectorSize, plogHeaderSize]
    omega
  have rem : (calcPhysical logical - plogHeaderSize) % blockPhysical = logical % dataPerBlock := by
    simp only [calcPhysical, dataPerBlock, blockPhysical, hashesPerBlock,
      sectorSize, plogHeaderSize]
    omega
  have remLt : logical % dataPerBlock < dataPerBlock := Nat.mod_lt _ (by decide)
  unfold calcLogical
  dsimp only
  rw [chunks, rem, if_neg (by omega), Nat.mul_comm, Nat.div_add_mod]

theorem calcPhysical_mono {low high : Nat} (lowLe : low ≤ high) :
    calcPhysical low ≤ calcPhysical high := by
  simp only [calcPhysical, dataPerBlock, blockPhysical, hashesPerBlock, sectorSize, plogHeaderSize]
  omega

theorem hashSectorPhys_eq (blockIdx : Nat) :
    hashSectorPhys blockIdx = 4096 * (256 * (blockIdx + 1)) := by
  simp only [hashSectorPhys, plogHeaderSize, blockPhysical, dataPerBlock,
    hashesPerBlock, sectorSize]
  omega

theorem hashSectorPhys_inside {blockIdx sealed : Nat} (aligned : sealed % 4096 = 0)
    (complete : (blockIdx + 1) * dataPerBlock ≤ sealed) :
    hashSectorPhys blockIdx + sectorSize ≤ calcPhysical sealed := by
  have whole := calcPhysical_mul (sealed / 4096)
  rw [Nat.mul_div_cancel' (Nat.dvd_of_mod_eq_zero aligned)] at whole
  have hashPosition := hashSectorPhys_eq blockIdx
  have block : (blockIdx + 1) * dataPerBlock = 4096 * (255 * (blockIdx + 1)) := by
    simp only [dataPerBlock, hashesPerBlock, sectorSize]
    omega
  have size : sectorSize = 4096 := rfl
  omega

theorem sectorPhys_inside {sectorIdx sealed : Nat} (aligned : sealed % 4096 = 0)
    (below : sectorIdx * sectorSize < sealed) :
    calcPhysical (sectorIdx * sectorSize) + min sectorSize (sealed - sectorIdx * sectorSize) ≤
        calcPhysical sealed := by
  have first := calcPhysical_mul sectorIdx
  have whole := calcPhysical_mul (sealed / 4096)
  rw [Nat.mul_div_cancel' (Nat.dvd_of_mod_eq_zero aligned)] at whole
  have order : sectorIdx * sectorSize = 4096 * sectorIdx := Nat.mul_comm _ _
  have size : sectorSize = 4096 := rfl
  rw [order] at below ⊢
  omega

end Rose
