import Mathlib.Algebra.GroupWithZero.Nat
import Rose.FallibleActions
import Rose.ListSplice

/-!
# Placement lists and the committed chunk reader

A file version is an ordered list of chunk placements.  A placement names its
plaintext by content hash; where the record lies may change under it.  This
file models `readChunksAt`, which assembles a byte range from the chunks the
range crosses, and proves that a successful read returns that range of the
concatenated plaintexts.
-/

namespace Rose

open ListSplice FallibleActions

abbrev Bytes := List UInt8

/-- One extent of a file version: content identity, vlog address and size. -/
structure ChunkPlacement where
  hash : Bytes
  vlogID : Nat
  vaddrOffset : Nat
  logicalLen : Nat
  compressedLen : Nat
deriving DecidableEq, Repr

/-- The largest result of one unary read. -/
def maxUnaryReadBytes : Nat := 64 * 2 ^ 20

/-- The logical size of a placement list. -/
def totalLen (chunks : List ChunkPlacement) : Nat := (chunks.map ChunkPlacement.logicalLen).sum

/-- The concatenated plaintexts of a placement list, when `plain` gives the
content behind each hash. -/
def chunkBytes (plain : Bytes → Bytes) (chunks : List ChunkPlacement) : Bytes :=
  chunks.flatMap fun chunk => plain chunk.hash

/-- The size a placement records is that of the plaintext it names, and no
chunk is empty. -/
def ChunkPlacement.Stored (plain : Bytes → Bytes) (chunk : ChunkPlacement) :
    Prop :=
  (plain chunk.hash).length = chunk.logicalLen ∧ 0 < chunk.logicalLen

def AllStored (plain : Bytes → Bytes) (chunks : List ChunkPlacement) : Prop :=
  ∀ chunk ∈ chunks, chunk.Stored plain

@[simp]
theorem totalLen_nil : totalLen [] = 0 := rfl

@[simp]
theorem totalLen_cons (chunk : ChunkPlacement) (rest : List ChunkPlacement) :
    totalLen (chunk :: rest) = chunk.logicalLen + totalLen rest := by
  simp [totalLen]

@[simp]
theorem totalLen_append (front back : List ChunkPlacement) :
    totalLen (front ++ back) = totalLen front + totalLen back := by
  simp [totalLen]

section Plaintext

variable {plain : Bytes → Bytes}

@[simp]
theorem chunkBytes_nil : chunkBytes plain [] = [] := rfl

@[simp]
theorem chunkBytes_cons (chunk : ChunkPlacement) (rest : List ChunkPlacement) :
    chunkBytes plain (chunk :: rest) = plain chunk.hash ++ chunkBytes plain rest := by
  simp [chunkBytes]

@[simp]
theorem chunkBytes_append (front back : List ChunkPlacement) :
    chunkBytes plain (front ++ back) = chunkBytes plain front ++ chunkBytes plain back := by
  simp [chunkBytes]

@[simp]
theorem allStored_nil : AllStored plain [] := by
  simp [AllStored]

theorem allStored_cons_iff {chunk : ChunkPlacement} {rest : List ChunkPlacement} :
    AllStored plain (chunk :: rest) ↔ chunk.Stored plain ∧ AllStored plain rest := by
  simp [AllStored]

theorem allStored_append_iff {front back : List ChunkPlacement} :
    AllStored plain (front ++ back) ↔ AllStored plain front ∧ AllStored plain back := by
  simp only [AllStored, List.forall_mem_append]

theorem length_chunkBytes {chunks : List ChunkPlacement} (stored : AllStored plain chunks) :
    (chunkBytes plain chunks).length = totalLen chunks := by
  induction chunks with
  | nil => rfl
  | cons chunk rest ih =>
    rw [allStored_cons_iff] at stored
    rw [chunkBytes_cons, List.length_append, stored.1.1, ih stored.2, totalLen_cons]

end Plaintext

/-- One chunk read: resolving the placement and reading `count` bytes of its
payload from `offset` on.  It may fail, but never returns other bytes. -/
structure PayloadReader (plain : Bytes → Bytes) where
  read : ChunkPlacement → Nat → Nat → Except String Bytes
  sound : ∀ chunk offset count out, read chunk offset count = .ok out →
    out = slice (plain chunk.hash) offset count

/-- The reader that never fails. -/
def PayloadReader.exact (plain : Bytes → Bytes) : PayloadReader plain where
  read chunk offset count := .ok (slice (plain chunk.hash) offset count)
  sound := by
    intro chunk offset count out returned
    exact (Except.ok.inj returned).symm

/-- What the range `[off, off + length)` reads of the chunk that starts at
logical offset `cur`. -/
def readOneChunk (payload : ChunkPlacement → Nat → Nat → Except String Bytes) (off length cur : Nat)
    (chunk : ChunkPlacement) : Except String Bytes :=
  let stop := cur + chunk.logicalLen
  if off < stop ∧ cur < off + length then
    let readStart := max cur off
    let readEnd := min stop (off + length)
    payload chunk (readStart - cur) (readEnd - readStart)
  else
    .ok []

/-- The chunk loop of `readChunksAt`, entered with `cur` logical bytes already
passed. -/
def readChunksLoop (payload : ChunkPlacement → Nat → Nat → Except String Bytes) (off length : Nat) :
    Nat → List ChunkPlacement → Except String Bytes
  | _, [] => .ok []
  | cur, chunk :: rest => do
      let stop := cur + chunk.logicalLen
      let data ← readOneChunk payload off length cur chunk
      if off + length ≤ stop then
        .ok data
      else do
        let later ← readChunksLoop payload off length stop rest
        .ok (data ++ later)

/-- Assemble the logical range `[off, off + length)` of a placement list. -/
def readChunksAt (payload : ChunkPlacement → Nat → Nat → Except String Bytes)
    (chunks : List ChunkPlacement) (off length : Nat) : Except String Bytes :=
  if length = 0 then
    .ok []
  else if totalLen chunks ≤ off then
    .ok []
  else
    let resultLen := min length (totalLen chunks - off)
    if maxUnaryReadBytes < resultLen then
      .error s!"read result length {resultLen} exceeds unary limit {maxUnaryReadBytes}"
    else
      readChunksLoop payload off length 0 chunks

/-- The part of the chunk at `[cur, cur + size)` that the range
`[off, off + length)` reads. -/
def chunkPart (content : Bytes) (off length cur : Nat) : Bytes := slice content (max cur off - cur)
    (min (cur + content.length) (off + length) - max cur off)

theorem slice_chunk_append (content later : Bytes) (off length cur : Nat) :
    slice (content ++ later) (off - cur) (off + length - max cur off) =
      chunkPart content off length cur ++ slice later (off - (cur + content.length))
          (off + length - max (cur + content.length) off) := by
  apply List.ext_getElem?
  intro index
  rw [List.getElem?_append]
  simp only [chunkPart, getElem?_slice, length_slice]
  have shift : max cur off - cur = off - cur := by omega
  rw [shift]
  by_cases inFirst : off - cur + index < content.length
  · rw [List.getElem?_append_left inFirst]
    by_cases inRange : index < off + length - max cur off
    · rw [if_pos inRange, if_pos (by omega), if_pos (by omega)]
    · rw [if_neg inRange, if_neg (by omega), if_neg (by omega)]
  · rw [List.getElem?_append_right (by omega)]
    by_cases inRange : index < off + length - max cur off
    · rw [if_pos inRange, if_neg (by omega), if_pos (by omega)]
      congr 1
      omega
    · rw [if_neg inRange, if_neg (by omega), if_neg (by omega)]

theorem chunkPart_eq_nil {content : Bytes} {off length cur : Nat}
    (apart : ¬(off < cur + content.length ∧ cur < off + length)) :
    chunkPart content off length cur = [] := by
  unfold chunkPart
  have empty : min (cur + content.length) (off + length) - max cur off = 0 := by
    omega
  rw [empty, slice_zero_count]

section Reads

variable {plain : Bytes → Bytes} {off length cur : Nat}

theorem readOneChunk_eq (reader : PayloadReader plain) {chunk : ChunkPlacement}
    (stored : chunk.Stored plain) {data : Bytes}
    (returned : readOneChunk reader.read off length cur chunk = .ok data) :
    data = chunkPart (plain chunk.hash) off length cur := by
  have size : (plain chunk.hash).length = chunk.logicalLen := stored.1
  unfold readOneChunk at returned
  by_cases crossed : off < cur + chunk.logicalLen ∧ cur < off + length
  · rw [if_pos crossed] at returned
    rw [reader.sound _ _ _ _ returned, chunkPart, size]
  · rw [if_neg crossed, Except.ok.injEq] at returned
    rw [chunkPart_eq_nil (by rw [size]; exact crossed), ← returned]

theorem readOneChunk_exact (plain : Bytes → Bytes) (off length cur : Nat) (chunk : ChunkPlacement) :
    ∃ data, readOneChunk (PayloadReader.exact plain).read off length cur chunk = .ok data := by
  unfold readOneChunk
  by_cases crossed : off < cur + chunk.logicalLen ∧ cur < off + length
  · exact ⟨_, if_pos crossed⟩
  · exact ⟨_, if_neg crossed⟩

theorem readChunksLoop_eq (reader : PayloadReader plain) {chunks : List ChunkPlacement}
    (stored : AllStored plain chunks) {out : Bytes}
    (returned : readChunksLoop reader.read off length cur chunks = .ok out) :
    out = slice (chunkBytes plain chunks) (off - cur) (off + length - max cur off) := by
  induction chunks generalizing cur out with
  | nil =>
    rw [readChunksLoop, Except.ok.injEq] at returned
    simp [slice, ← returned]
  | cons chunk rest ih =>
    rw [allStored_cons_iff] at stored
    rw [chunkBytes_cons, slice_chunk_append, stored.1.1]
    obtain ⟨data, readData, continued⟩ := bind_eq_ok_iff.mp returned
    rw [← readOneChunk_eq reader stored.1 readData]
    by_cases finished : off + length ≤ cur + chunk.logicalLen
    · rw [if_pos finished, Except.ok.injEq] at continued
      have empty : off + length - max (cur + chunk.logicalLen) off = 0 := by
        omega
      rw [empty, slice_zero_count, List.append_nil, ← continued]
    · rw [if_neg finished] at continued
      obtain ⟨later, readLater, final⟩ := bind_eq_ok_iff.mp continued
      rw [← ih stored.2 readLater]
      exact (Except.ok.inj final).symm

theorem readChunksLoop_exact (plain : Bytes → Bytes) (off length cur : Nat)
    (chunks : List ChunkPlacement) :
    ∃ out, readChunksLoop (PayloadReader.exact plain).read off length cur chunks = .ok out := by
  induction chunks generalizing cur with
  | nil => exact ⟨[], rfl⟩
  | cons chunk rest ih =>
    obtain ⟨data, readData⟩ := readOneChunk_exact plain off length cur chunk
    obtain ⟨later, readLater⟩ := ih (cur + chunk.logicalLen)
    by_cases finished : off + length ≤ cur + chunk.logicalLen
    · refine ⟨data, bind_eq_ok_iff.mpr ⟨data, readData, ?_⟩⟩
      exact if_pos finished
    · refine ⟨data ++ later, bind_eq_ok_iff.mpr ⟨data, readData, ?_⟩⟩
      rw [if_neg finished]
      exact bind_eq_ok_iff.mpr ⟨later, readLater, rfl⟩

theorem readChunksAt_eq (reader : PayloadReader plain) {chunks : List ChunkPlacement}
    (stored : AllStored plain chunks) {out : Bytes}
    (returned : readChunksAt reader.read chunks off length = .ok out) :
    out = slice (chunkBytes plain chunks) off length := by
  unfold readChunksAt at returned
  by_cases noLength : length = 0
  · rw [if_pos noLength, Except.ok.injEq] at returned
    rw [noLength, slice_zero_count, ← returned]
  rw [if_neg noLength] at returned
  by_cases beyond : totalLen chunks ≤ off
  · rw [if_pos beyond, Except.ok.injEq] at returned
    rw [slice_eq_nil_of_length_le (by rwa [length_chunkBytes stored]), ← returned]
  rw [if_neg beyond] at returned
  by_cases tooLong : maxUnaryReadBytes < min length (totalLen chunks - off)
  · simp only [if_pos tooLong, reduceCtorEq] at returned
  · simp only [if_neg tooLong] at returned
    have loop := readChunksLoop_eq reader stored returned
    simpa using loop

theorem readChunksAt_exact (chunks : List ChunkPlacement) (stored : AllStored plain chunks)
    (bounded : length ≤ maxUnaryReadBytes) :
    readChunksAt (PayloadReader.exact plain).read chunks off length =
      .ok (slice (chunkBytes plain chunks) off length) := by
  have succeeds : ∃ out, readChunksAt (PayloadReader.exact plain).read chunks off length =
        .ok out := by
    unfold readChunksAt
    have within : ¬maxUnaryReadBytes < min length (totalLen chunks - off) := by
      omega
    simp only [if_neg within]
    split_ifs with noLength beyond
    · exact ⟨[], rfl⟩
    · exact ⟨[], rfl⟩
    · exact readChunksLoop_exact plain off length 0 chunks
  obtain ⟨out, returned⟩ := succeeds
  rw [returned, readChunksAt_eq _ stored returned]

end Reads

end Rose
