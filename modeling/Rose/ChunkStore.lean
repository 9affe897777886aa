import Rose.ChunkPlacements
import Rose.LittleEndian

/-!
# Storing a window as chunks

`storeChunks` cuts a byte window into content-defined chunks.  A chunk whose
hash is live is reused; any other gets a record at a reserved vlog address,
and the new records are sealed together at the end.  The server around it
(catalog, leases, keys, vlogs) is a state that the operations of `StoreOps`
read and change, and each of them may fail.  When hashes tell the pieces of the
window apart, the returned placements name exactly the bytes of the window.
-/

namespace Rose

open FallibleActions

/-- The size of the record header in front of each payload. -/
def chunkHeaderSize : Nat := 64

/-- The plain fields of a record header. -/
structure ChunkHeader where
  initial : Bool
  last : Bool
  fileID : Nat
  chunkHash : Nat
  payloadLen : Nat
  fileOffset : Nat
  prevHash : Nat
  pathHint : Bytes
deriving DecidableEq, Repr

/-- A new record: its reserved address, its encoded header and its encrypted
payload. -/
structure PendingChunk where
  vlogID : Nat
  vaddr : Nat
  header : Bytes
  payload : Bytes
deriving DecidableEq, Repr

/-- The next free address of each vlog that the call has reserved from. -/
abbrev Reserved := Nat → Option Nat

/-- What `storeChunks` asks of the handle and the server.  The chunker gives
the pieces of its successive calls; the input ends with the last one. -/
structure StoreOps (σ : Type) where
  chunker : Bytes → Except String (List Bytes)
  contentHash : Bytes → Bytes
  fileID : Nat
  pathHint : Bool → Nat → Bytes
  pinAndResolveChunk : Bytes → EStateM String σ (Option ChunkPlacement)
  leasedVlogForWriteReserved : Nat → Reserved → EStateM String σ (Nat × Reserved)
  encryptChunkInPlace : Nat → Bytes → ChunkHeader → Bytes → EStateM String σ (Bytes × Bytes)
  sealChunks : List PendingChunk → EStateM String σ Unit

/-- The hash bits a record header keeps of a chunk hash. -/
def hash64 (hash : Bytes) : Nat := LittleEndian.decode (hash.take 8)

/-- The chain value of the last placement of a list, zero without one. -/
def placementHash64 (placements : List ChunkPlacement) : Nat :=
  match placements.getLast? with
  | none => 0
  | some placement =>
    if 8 ≤ placement.hash.length then hash64 placement.hash else 0

namespace StoreOps

variable {σ : Type} (ops : StoreOps σ)

/-- The content hash of a chunk, as its catalog row and placements keep it. -/
def chunkHash (data : Bytes) : Bytes := (ops.contentHash data).take 15

/-- Where a chunk stands in its file. -/
structure ChunkPosition where
  fileOffset : Nat
  prevHash : Nat
  ordinal : Nat
  last : Bool

/-- Plan one chunk: reuse a live one, or reserve a record for it. -/
def planChunk (data : Bytes) (reserved : Reserved) (position : ChunkPosition) :
    EStateM String σ (ChunkPlacement × Option PendingChunk × Reserved) := do
  let hash := ops.chunkHash data
  match ← ops.pinAndResolveChunk hash with
  | some placement => pure (placement, none, reserved)
  | none => do
      let recordLen := chunkHeaderSize + data.length
      let (vlogID, reserved) ← ops.leasedVlogForWriteReserved recordLen reserved
      let vaddr := (reserved vlogID).getD 0 - recordLen
      let initial := position.fileOffset == 0
      let header : ChunkHeader :=
        { initial := initial
          last := position.last
          fileID := ops.fileID
          chunkHash := hash64 (ops.contentHash data)
          payloadLen := data.length
          fileOffset := position.fileOffset
          prevHash := position.prevHash
          pathHint := ops.pathHint initial position.ordinal }
      let (encoded, payload) ← ops.encryptChunkInPlace vlogID hash header data
      pure
        ({ hash := hash
           vlogID := vlogID
           vaddrOffset := vaddr
           logicalLen := data.length
           compressedLen := data.length },
          some
            { vlogID := vlogID
              vaddr := vaddr
              header := encoded
              payload := payload },
          reserved)

/-- The piece loop of `storeChunks`; empty pieces are skipped. -/
def planChunks (final : Bool) : List Bytes → Reserved → Nat → Nat → Nat →
    EStateM String σ (List ChunkPlacement × List PendingChunk)
  | [], _, _, _, _ => pure ([], [])
  | piece :: rest, reserved, fileOffset, prevHash, ordinal =>
    if piece = [] then
      planChunks final rest reserved fileOffset prevHash ordinal
    else do
      let (placement, plan, reserved) ← ops.planChunk piece reserved
          ⟨fileOffset, prevHash, ordinal, final && rest.isEmpty⟩
      let (placements, pending) ← planChunks final rest reserved (fileOffset + piece.length)
          (hash64 placement.hash) (ordinal + 1)
      pure (placement :: placements, plan.toList ++ pending)

/-- Chunk a window that starts at `startOffset` and store it. -/
def storeChunks (data : Bytes) (startOffset prevHash ordinalBase : Nat) (final : Bool) :
    EStateM String σ (List ChunkPlacement) := do
  match ops.chunker data with
  | .error reason => throw reason
  | .ok pieces =>
    let (placements, pending) ← ops.planChunks final pieces (fun _ => none) startOffset prevHash
        ordinalBase
    ops.sealChunks pending
    pure placements

/-- A live row of the catalog holds the content its hash names. -/
def ResolvesSoundly (plain : Bytes → Bytes) : Prop := ∀ hash placement before after,
    ops.pinAndResolveChunk hash before = .ok (some placement) after → placement.hash = hash ∧
        placement.logicalLen = (plain hash).length

/-- The chunker cuts the window without loss, and the hash of each piece names
that piece. -/
def Names (plain : Bytes → Bytes) (data : Bytes) : Prop := ∀ pieces, ops.chunker data = .ok pieces →
    pieces.flatten = data ∧ ∀ piece ∈ pieces, plain (ops.chunkHash piece) = piece

section Soundness

variable {ops} {plain : Bytes → Bytes}

variable (resolves : ops.ResolvesSoundly plain)
include resolves

theorem planChunk_names {data : Bytes} (named : plain (ops.chunkHash data) = data)
    {reserved : Reserved} {position : ChunkPosition} {before after : σ}
    {result : ChunkPlacement × Option PendingChunk × Reserved}
    (returned : ops.planChunk data reserved position before = .ok result after) :
    result.1.hash = ops.chunkHash data ∧ result.1.logicalLen = data.length := by
  obtain ⟨found, middle, resolved, continued⟩ := run_bind_eq_ok_iff.mp returned
  cases found with
  | some placement =>
    cases continued
    obtain ⟨sameHash, size⟩ := resolves _ _ _ _ resolved
    rw [named] at size
    exact ⟨sameHash, size⟩
  | none =>
    obtain ⟨lease, leased, -, afterLease⟩ := run_bind_eq_ok_iff.mp continued
    obtain ⟨encrypted, last, -, built⟩ := run_bind_eq_ok_iff.mp afterLease
    cases built
    exact ⟨rfl, rfl⟩

theorem planChunks_names {pieces : List Bytes}
    (named : ∀ piece ∈ pieces, plain (ops.chunkHash piece) = piece) {final : Bool}
    {reserved : Reserved} {fileOffset prevHash ordinal : Nat} {before after : σ}
    {result : List ChunkPlacement × List PendingChunk}
    (returned : ops.planChunks final pieces reserved fileOffset prevHash
      ordinal before = .ok result after) :
    AllStored plain result.1 ∧ chunkBytes plain result.1 = pieces.flatten := by
  induction pieces generalizing reserved fileOffset prevHash ordinal before result with
  | nil =>
    cases returned
    exact ⟨allStored_nil, rfl⟩
  | cons piece rest ih =>
    rw [List.forall_mem_cons] at named
    rw [planChunks] at returned
    by_cases empty : piece = []
    · rw [if_pos empty] at returned
      obtain ⟨stored, content⟩ := ih named.2 returned
      exact ⟨stored, by rw [content, empty, List.flatten_cons, List.nil_append]⟩
    · rw [if_neg empty] at returned
      obtain ⟨planned, middle, planReturned, continued⟩ := run_bind_eq_ok_iff.mp returned
      obtain ⟨later, last, laterReturned, built⟩ := run_bind_eq_ok_iff.mp continued
      cases built
      obtain ⟨sameHash, size⟩ := planChunk_names resolves named.1 planReturned
      obtain ⟨stored, content⟩ := ih named.2 laterReturned
      have positive : 0 < piece.length := List.length_pos_iff.mpr empty
      constructor
      · rw [allStored_cons_iff]
        refine ⟨⟨?_, by omega⟩, stored⟩
        rw [sameHash, named.1, size]
      · rw [chunkBytes_cons, sameHash, named.1, content, List.flatten_cons]

theorem storeChunks_names {data : Bytes} (named : ops.Names plain data)
    {startOffset prevHash ordinalBase : Nat} {final : Bool} {before after : σ}
    {placements : List ChunkPlacement}
    (returned : ops.storeChunks data startOffset prevHash ordinalBase final
      before = .ok placements after) :
    AllStored plain placements ∧ chunkBytes plain placements = data := by
  unfold storeChunks at returned
  cases pieces : ops.chunker data with
  | error reason =>
    rw [pieces] at returned
    cases returned
  | ok cut =>
    rw [pieces] at returned
    obtain ⟨planned, middle, planReturned, continued⟩ := run_bind_eq_ok_iff.mp returned
    obtain ⟨flat, allNamed⟩ := named cut pieces
    obtain ⟨stored, content⟩ := planChunks_names resolves allNamed planReturned
    obtain ⟨-, last, -, built⟩ := run_bind_eq_ok_iff.mp continued
    cases built
    exact ⟨stored, content.trans flat⟩

end Soundness

end StoreOps

end Rose
