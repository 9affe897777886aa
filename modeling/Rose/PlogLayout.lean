import Mathlib.Data.List.Induction
import Rose.PlogReads

/-!
# The layout of sealed sectors

Sealing writes each sector after the ones before it, and the hashes of a block
after its last sector.  Whatever was sealed before, the batch that sealing
assembles puts every sector and every hash sector at its address.  Sealing the
sectors of a log from an empty one defines the layout of its file.
-/

namespace Rose

open ListSplice FixedBlocks FallibleActions

def sectorsOf (bytes : Bytes) : List Bytes := (splitBlocks sectorSize bytes).1

def raggedOf (bytes : Bytes) : Bytes := (splitBlocks sectorSize bytes).2

/-- Sectors of the right size. -/
def FullSectors (sectors : List Bytes) : Prop := ∀ sector ∈ sectors, sector.length = 4096

variable {env : PlogEnv} {sectors : List Bytes} {bytes content sector : Bytes} {state : SealState}
  {count blockIdx : Nat}

section

variable (bytes)

theorem fullSectors_sectorsOf : FullSectors (sectorsOf bytes) :=
  fun _ => length_of_mem_splitBlocks

theorem length_raggedOf : (raggedOf bytes).length < 4096 :=
  length_splitBlocks_rest (by decide) bytes

theorem sectorsOf_append_raggedOf : (sectorsOf bytes).flatten ++ raggedOf bytes = bytes :=
  splitBlocks_flatten sectorSize bytes

theorem length_sectorsOf :
    4096 * (sectorsOf bytes).length + (raggedOf bytes).length = bytes.length :=
  length_splitBlocks sectorSize bytes

end

theorem length_sectorHash (env : PlogEnv) (data : Bytes) : (sectorHash env data).length = 16 := by
  rw [sectorHash, List.length_take, env.sha.length_sum]
  rfl

theorem length_completedBlockMAC (env : PlogEnv) (blockIdx : Nat) (hashes : Bytes) :
    (completedBlockMAC env blockIdx hashes).length = 16 := by
  rw [completedBlockMAC, List.length_take, env.hmac.length_sum]
  rfl

theorem length_openBlockMAC (env : PlogEnv) (blockIdx : Nat) (front ragged : Bytes) :
    (openBlockMAC env blockIdx front ragged).length = 16 := by
  rw [openBlockMAC, List.length_take, env.hmac.length_sum]
  rfl

/-- The hashes of sectors, one after the other. -/
def sectorHashes (env : PlogEnv) (sectors : List Bytes) : Bytes :=
  (sectors.map (sectorHash env)).flatten

theorem length_of_mem_hashes {hash : Bytes} (member : hash ∈ sectors.map (sectorHash env)) :
    hash.length = 16 := by
  obtain ⟨sector, -, rfl⟩ := List.mem_map.mp member
  exact length_sectorHash env sector

theorem length_hashes_flatten (env : PlogEnv) (sectors : List Bytes) :
    ((sectors.map (sectorHash env)).flatten).length = 16 * sectors.length := by
  rw [length_flatten_blocks fun _ => length_of_mem_hashes, List.length_map]

theorem slice_sectorHashes {index : Nat} (found : sectors[index]? = some sector) :
    slice (sectorHashes env sectors) (16 * index) 16 = sectorHash env sector := by
  have entry : (sectors.map (sectorHash env))[index]? = some (sectorHash env sector) := by
    rw [List.getElem?_map, found]
    rfl
  have cut := slice_flatten [] (fun _ => length_of_mem_hashes) entry
  rwa [List.append_nil] at cut

/-- A state of the sealing loop after a number of sectors. -/
structure SealState.Counts (state : SealState) (count : Nat) : Prop where
  length_eq : state.logicalLength = 4096 * count
  hashesLength : state.hashes.length = count % 255 * 16

/-- What sealing a sector appends to the file. -/
def sealedBytes (env : PlogEnv) (state : SealState) (count : Nat) (sector : Bytes) : Bytes :=
  sector ++ if count % 255 = 254 then
    hashSector env (count / 255) (state.hashes ++ sectorHash env sector)
  else []

theorem sealSector_eq (counts : state.Counts count) :
    sealSector env state sector =
      ⟨4096 * (count + 1),
        if count % 255 = 254 then [] else
          state.hashes ++ sectorHash env sector,
        state.writeBuf ++ sealedBytes env state count sector⟩ := by
  obtain ⟨length_eq, hashesLength⟩ := counts
  have hashLength := length_sectorHash env sector
  have sum : (state.hashes ++ sectorHash env sector).length = count % 255 * 16 + 16 := by
    rw [List.length_append, hashesLength, hashLength]
  unfold sealSector sealedBytes
  dsimp only
  by_cases complete : count % 255 = 254
  · have full : (state.hashes ++ sectorHash env sector).length = hashesPerBlock * hashSize := by
      rw [sum, complete]
      rfl
    have blockIdx : (state.logicalLength + sectorSize) / dataPerBlock - 1 = count / 255 := by
      rw [length_eq]
      simp only [sectorSize, dataPerBlock, hashesPerBlock]
      omega
    rw [if_pos full, if_pos complete, if_pos complete, blockIdx, length_eq, List.append_assoc]
    rfl
  · have notFull : (state.hashes ++ sectorHash env sector).length ≠ hashesPerBlock * hashSize := by
      rw [sum]
      simp only [hashesPerBlock, hashSize]
      omega
    rw [if_neg notFull, if_neg complete, if_neg complete, length_eq, List.append_nil]
    rfl

theorem SealState.Counts.sealSector (counts : state.Counts count) :
    (sealSector env state sector).Counts (count + 1) := by
  have hashLength := length_sectorHash env sector
  rw [sealSector_eq counts]
  refine ⟨rfl, ?_⟩
  dsimp only
  split_ifs with complete
  · have wraps : (count + 1) % 255 = 0 := by omega
    rw [wraps]
    rfl
  · rw [List.length_append, counts.hashesLength, hashLength]
    omega

theorem length_hashSector {blockIdx : Nat} {hashes : Bytes} (full : hashes.length = 4080) :
    (hashSector env blockIdx hashes).length = 4096 := by
  rw [hashSector, List.length_append, full, length_completedBlockMAC]

theorem readAt_hashSector_sealed (counts : state.Counts count) (length_eq : sector.length = 4096)
    (complete : count % 255 = 254) :
    readAt (overwrite 0 content (calcPhysical (4096 * count)) (sealedBytes env state count sector))
      (hashSectorPhys (count / 255)) sectorSize =
        .ok (hashSector env (count / 255) (state.hashes ++ sectorHash env sector)) := by
  have full : (state.hashes ++ sectorHash env sector).length = 4080 := by
    rw [List.length_append, counts.hashesLength, length_sectorHash, complete]
  have position : hashSectorPhys (count / 255) = calcPhysical (4096 * count) + sector.length := by
    rw [calcPhysical_mul, length_eq, hashSectorPhys_eq]
    omega
  have written : sealedBytes env state count sector =
      sector ++ (hashSector env (count / 255) (state.hashes ++ sectorHash env sector) ++ []) := by
    rw [sealedBytes, if_pos complete, List.append_nil]
  rw [position, written]
  have back := @readAt_overwrite_self content sector
    (hashSector env (count / 255) (state.hashes ++ sectorHash env sector)) []
    (calcPhysical (4096 * count))
  rwa [length_hashSector full] at back

theorem length_sealedBytes (counts : state.Counts count) (length_eq : sector.length = 4096) :
    calcPhysical (4096 * count) + (sealedBytes env state count sector).length =
      calcPhysical (4096 * (count + 1)) := by
  have first := calcPhysical_mul count
  have last := calcPhysical_mul (count + 1)
  unfold sealedBytes
  split_ifs with full
  · have size : (state.hashes ++ sectorHash env sector).length = 4080 := by
      rw [List.length_append, counts.hashesLength, length_sectorHash, full]
    rw [List.length_append, length_hashSector size, length_eq]
    omega
  · rw [List.append_nil, length_eq]
    omega

/-- What sealing sectors adds to the buffer, once it is written behind the
sectors sealed before. -/
structure Interleaved (env : PlogEnv) (content : Bytes) (state : SealState) (count : Nat)
    (sectors : List Bytes) (final : SealState) (added : Bytes) : Prop where
  counts : final.Counts (count + sectors.length)
  written : final.writeBuf = state.writeBuf ++ added
  ends : calcPhysical (4096 * count) + added.length =
    calcPhysical (4096 * (count + sectors.length))
  hashes_eq : final.hashes = (state.hashes ++ sectorHashes env sectors).drop
    (4080 * ((count + sectors.length) / 255 - count / 255))
  sectorAt : ∀ position sector, sectors[position]? = some sector →
    readAt (overwrite 0 content (calcPhysical (4096 * count)) added)
      (calcPhysical (4096 * (count + position))) 4096 = .ok sector
  hashesAt : ∀ blockIdx, count / 255 ≤ blockIdx → blockIdx < (count + sectors.length) / 255 →
    readAt (overwrite 0 content (calcPhysical (4096 * count)) added)
      (hashSectorPhys blockIdx) 4096 = .ok (hashSector env blockIdx
        (slice (state.hashes ++ sectorHashes env sectors)
          (4080 * (blockIdx - count / 255)) 4080))

theorem interleaved_nil (content : Bytes) (counts : state.Counts count) :
    Interleaved env content state count [] state [] := by
  refine ⟨counts, (List.append_nil _).symm, rfl, ?_, nofun, fun blockIdx fromBlock below => ?_⟩
  · rw [List.length_nil, Nat.add_zero, Nat.sub_self]
    exact (List.append_nil _).symm
  · rw [List.length_nil, Nat.add_zero] at below
    omega

theorem Interleaved.cons {final : SealState} {added : Bytes} (counts : state.Counts count)
    (size : sector.length = 4096)
    (rest : Interleaved env
      (overwrite 0 content (calcPhysical (4096 * count)) (sealedBytes env state count sector))
      (sealSector env state sector) (count + 1) sectors final added) :
    Interleaved env content state count (sector :: sectors) final
      (sealedBytes env state count sector ++ added) := by
  obtain ⟨finalCounts, written, laterEnds, hashes_eq, sectorAt, hashesAt⟩ := rest
  have ends := @length_sealedBytes env sector state count counts size
  have total : count + (sector :: sectors).length = count + 1 + sectors.length := by
    rw [List.length_cons]
    omega
  have joined := overwrite_overwrite_adjacent 0 content (sealedBytes env state count sector) added
    (calcPhysical (4096 * count))
  have pieces : state.hashes ++ sectorHashes env (sector :: sectors) =
      (state.hashes ++ sectorHash env sector) ++ sectorHashes env sectors :=
    (List.append_assoc _ _ _).symm
  have whole : count % 255 = 254 → (state.hashes ++ sectorHash env sector).length = 4080 := by
    intro complete
    rw [List.length_append, counts.hashesLength, length_sectorHash, complete]
  rw [ends] at joined
  rw [sealSector_eq counts] at written hashes_eq hashesAt
  dsimp only at written hashes_eq hashesAt
  refine ⟨total ▸ finalCounts, ?_, ?_, ?_, ?_, ?_⟩
  · rw [written, List.append_assoc]
  · rw [List.length_append, total]
    omega
  · rw [total, pieces, hashes_eq]
    by_cases complete : count % 255 = 254
    · have size := whole complete
      have later : 4080 * ((count + 1 + sectors.length) / 255 - count / 255) =
          (state.hashes ++ sectorHash env sector).length +
            4080 * ((count + 1 + sectors.length) / 255 - (count + 1) / 255) := by
        omega
      rw [if_pos complete, List.nil_append, later,
        List.drop_length_add_append]
    · have same : (count + 1) / 255 = count / 255 := by omega
      rw [if_neg complete, same]
  · rw [← joined]
    intro position found isFound
    cases position with
    | zero =>
      cases isFound
      refine readAt_overwrite_before ?_ (by rw [calcPhysical_mul, calcPhysical_mul]; omega)
      have front := @readAt_overwrite_self content [] sector
        (if count % 255 = 254 then
          hashSector env (count / 255) (state.hashes ++ sectorHash env sector) else [])
        (calcPhysical (4096 * count))
      rwa [size] at front
    | succ position =>
      have there := sectorAt position found isFound
      have sameIdx : count + 1 + position = count + (position + 1) := by omega
      rwa [sameIdx] at there
  · rw [← joined, total, pieces]
    intro blockIdx fromBlock below
    by_cases complete : count % 255 = 254
    · by_cases own : blockIdx = count / 255
      · have own_eq : slice ((state.hashes ++ sectorHash env sector) ++ sectorHashes env sectors)
            (4080 * (blockIdx - count / 255)) 4080 = state.hashes ++ sectorHash env sector :=
          slice_eq_field (List.nil_append _).symm (by rw [own, Nat.sub_self]; rfl) (whole complete)
        rw [own_eq, own]
        refine readAt_overwrite_before (readAt_hashSector_sealed counts size complete) ?_
        rw [hashSectorPhys_eq, calcPhysical_mul]
        omega
      · have size := whole complete
        have later : 4080 * (blockIdx - count / 255) =
            (state.hashes ++ sectorHash env sector).length +
              4080 * (blockIdx - (count + 1) / 255) := by
          omega
        rw [later, slice_append_right]
        rw [if_pos complete, List.nil_append] at hashesAt
        exact hashesAt blockIdx (by omega) below
    · have same : (count + 1) / 255 = count / 255 := by omega
      rw [if_neg complete, same] at hashesAt
      exact hashesAt blockIdx fromBlock below

/-- Sealing sectors puts them and the hashes of the blocks they complete at their
addresses. -/
theorem interleaved_foldl {sectors : List Bytes} (full : FullSectors sectors) (content : Bytes)
    {state : SealState} {count : Nat} (counts : state.Counts count) :
    ∃ added, Interleaved env content state count sectors
      (sectors.foldl (sealSector env) state) added := by
  induction sectors generalizing content state count with
  | nil => exact ⟨[], interleaved_nil content counts⟩
  | cons sector sectors ih =>
    obtain ⟨size, laterFull⟩ := List.forall_mem_cons.mp full
    obtain ⟨added, rest⟩ := ih laterFull
      (overwrite 0 content (calcPhysical (4096 * count)) (sealedBytes env state count sector))
      (@SealState.Counts.sealSector env sector state count counts)
    exact ⟨_, rest.cons counts size⟩

theorem readHashSector_of_hashSector {plog : Plog} {hashes : Bytes} (full : hashes.length = 4080)
    (read : readAt content (hashSectorPhys blockIdx) sectorSize =
      .ok (hashSector env blockIdx hashes)) :
    readHashSector env plog content blockIdx = .ok hashes := by
  have recorded : slice (hashSector env blockIdx hashes) 0 (hashesPerBlock * hashSize) = hashes :=
    slice_eq_field (by rw [hashSector, List.nil_append]) rfl full
  have mac : slice (hashSector env blockIdx hashes) (hashesPerBlock * hashSize) hashSize =
      completedBlockMAC env blockIdx hashes :=
    slice_eq_field (by rw [hashSector, List.append_nil]) full (length_completedBlockMAC _ _ _)
  exact readHashSector_eq_ok_iff.mpr ⟨_, read, by rw [recorded, mac], recorded⟩

/-- The hash of a sector is found in the hash sector of its block, or in memory
while the block is open. -/
theorem sectorHashFor_recorded {plog : Plog} {hashes : Bytes} {first total index : Nat}
    (sealed_eq : plog.sealed = 4096 * total)
    (length_eq : hashes.length = 16 * (total - 255 * first))
    (inMemory : plog.hashes = hashes.drop (4080 * (total / 255 - first)))
    (inFile : ∀ blockIdx, first ≤ blockIdx → blockIdx < total / 255 →
      readAt content (hashSectorPhys blockIdx) sectorSize = .ok (hashSector env blockIdx
        (slice hashes (4080 * (blockIdx - first)) 4080)))
    (fromFirst : 255 * first ≤ index) (below : index < total) :
    sectorHashFor env plog content index =
      .ok (some (slice hashes (16 * (index - 255 * first)) 16)) := by
  have complete_iff : (index / hashesPerBlock + 1) * dataPerBlock ≤ plog.sealed ↔
      index / 255 < total / 255 := by
    rw [sealed_eq]
    simp only [dataPerBlock, hashesPerBlock, sectorSize]
    omega
  unfold sectorHashFor
  dsimp only
  rw [show hashSize = 16 from rfl, show index % hashesPerBlock = index % 255 from rfl]
  by_cases complete : index / 255 < total / 255
  · have position : 4080 * (index / 255 - first) + index % 255 * 16 =
        16 * (index - 255 * first) := by omega
    rw [if_pos (complete_iff.mpr complete)]
    refine bind_eq_ok_iff.mpr ⟨_, readHashSector_of_hashSector ?_
      (inFile (index / 255) (by omega) complete), ?_⟩
    · rw [length_slice]
      omega
    · rw [slice_slice _ (by omega), position]
  · have position : 4080 * (total / 255 - first) + index % 255 * 16 =
        16 * (index - 255 * first) := by omega
    rw [if_neg (mt complete_iff.mp complete), inMemory,
      if_neg (by rw [List.length_drop]; omega), slice, List.drop_drop, position]
    rfl

/-- The state after sealing sectors from an empty log. -/
def sealedState (env : PlogEnv) (sectors : List Bytes) : SealState :=
  sectors.foldl (sealSector env) ⟨0, [], []⟩

/-- The physical bytes of sealed sectors, after the superblock. -/
def layout (env : PlogEnv) (sectors : List Bytes) : Bytes := (sealedState env sectors).writeBuf

/-- The hashes of the sectors of the block left open. -/
def openHashes (env : PlogEnv) (sectors : List Bytes) : Bytes :=
  ((sectors.drop (sectors.length / 255 * 255)).map (sectorHash env)).flatten

theorem length_openHashes (env : PlogEnv) (sectors : List Bytes) :
    (openHashes env sectors).length = 16 * (sectors.length % 255) := by
  rw [openHashes, length_hashes_flatten, List.length_drop]
  omega

/-- What sealing from an empty log has counted, hashed and written. -/
structure SealedShape (env : PlogEnv) (sectors : List Bytes) (state : SealState) : Prop where
  length_eq : state.logicalLength = 4096 * sectors.length
  hashes_eq : state.hashes = openHashes env sectors
  size_eq : state.writeBuf.length = 4096 * (sectors.length + sectors.length / 255)

theorem openHashes_eq (env : PlogEnv) (sectors : List Bytes) :
    openHashes env sectors = (sectorHashes env sectors).drop (4080 * (sectors.length / 255)) := by
  have position : 4080 * (sectors.length / 255) = 16 * (sectors.length / 255 * 255) := by omega
  rw [openHashes, sectorHashes, List.map_drop, position,
    drop_flatten fun _ => length_of_mem_hashes]

section

variable (full : FullSectors sectors)
include full

theorem layout_interleaved (content : Bytes) :
    Interleaved env content ⟨0, [], []⟩ 0 sectors (sealedState env sectors)
      (layout env sectors) := by
  obtain ⟨added, batch⟩ := @interleaved_foldl env sectors full content ⟨0, [], []⟩ 0 ⟨rfl, rfl⟩
  have added_eq : layout env sectors = added := batch.written
  rw [added_eq]
  exact batch

theorem sealedState_shape : SealedShape env sectors (sealedState env sectors) := by
  have batch := @layout_interleaved env sectors full []
  have ends := batch.ends
  rw [calcPhysical_mul, calcPhysical_mul, Nat.zero_add] at ends
  refine ⟨?_, ?_, ?_⟩
  · rw [batch.counts.length_eq, Nat.zero_add]
  · rw [batch.hashes_eq, openHashes_eq, Nat.zero_add]
    rfl
  · change (layout env sectors).length = _
    omega

theorem length_layout :
    (layout env sectors).length = 4096 * (sectors.length + sectors.length / 255) :=
  (sealedState_shape full).size_eq

end

theorem foldl_sealSector_writeBuf (sectors : List Bytes) (length : Nat) (hashes written : Bytes) :
    sectors.foldl (sealSector env) ⟨length, hashes, written⟩ =
      { sectors.foldl (sealSector env) ⟨length, hashes, []⟩ with
        writeBuf := written ++
          (sectors.foldl (sealSector env) ⟨length, hashes, []⟩).writeBuf } := by
  induction sectors using List.reverseRecOn with
  | nil => simp
  | append_singleton sectors sector ih =>
    simp only [List.foldl_append, List.foldl_cons, List.foldl_nil]
    rw [ih]
    unfold sealSector
    dsimp only
    split_ifs with complete
    · simp only [List.append_assoc]
    · simp only [List.append_assoc]

theorem sealedState_append (env : PlogEnv) (first second : List Bytes) :
    sealedState env (first ++ second) =
      { second.foldl (sealSector env)
          ⟨(sealedState env first).logicalLength,
            (sealedState env first).hashes, []⟩ with
        writeBuf := layout env first ++ (second.foldl (sealSector env)
          ⟨(sealedState env first).logicalLength,
            (sealedState env first).hashes, []⟩).writeBuf } := by
  rw [← foldl_sealSector_writeBuf]
  exact List.foldl_append

theorem layout_isPrefix (env : PlogEnv) (first second : List Bytes) :
    layout env first <+: layout env (first ++ second) := by
  nth_rewrite 2 [layout]
  rw [sealedState_append]
  exact List.prefix_append _ _

/-- The hashes of a complete block. -/
def blockHashes (env : PlogEnv) (sectors : List Bytes) (blockIdx : Nat) :
    Bytes :=
  (((sectors.drop (255 * blockIdx)).take 255).map (sectorHash env)).flatten

theorem blockHashes_eq (env : PlogEnv) (sectors : List Bytes) (blockIdx : Nat) :
    blockHashes env sectors blockIdx = slice (sectorHashes env sectors) (4080 * blockIdx) 4080 := by
  have position : 4080 * blockIdx = 16 * (255 * blockIdx) := by omega
  rw [blockHashes, sectorHashes, List.map_take, List.map_drop, slice, position,
    drop_flatten fun _ => length_of_mem_hashes, show 4080 = 16 * 255 from rfl, take_flatten]
  exact fun _ member => length_of_mem_hashes (List.mem_of_mem_drop member)

end Rose
