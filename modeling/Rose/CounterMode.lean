import Mathlib.Logic.Function.Iterate

/-!
# Counter mode

A block cipher in counter mode is a stream: each block of key bytes comes from
the counter, which is then incremented.  What a text is combined with depends
only on how many bytes came before it.
-/

namespace Rose.CounterMode

/-- The counter of the next block, and what is left of the last one. -/
structure Stream (Block : Type) where
  counter : Block
  unused : List UInt8

variable {Block : Type} (keyBytes : Block → List UInt8) (increment : Block → Block)

def next (stream : Stream Block) : UInt8 × Stream Block :=
  match stream.unused with
  | byte :: rest => (byte, ⟨stream.counter, rest⟩)
  | [] =>
    ((keyBytes stream.counter).headD 0,
      ⟨increment stream.counter, (keyBytes stream.counter).tail⟩)

/-- Combine a text with the next key bytes. -/
def xorKeyStream : Stream Block → List UInt8 → List UInt8 × Stream Block
  | stream, [] => ([], stream)
  | stream, byte :: rest =>
    let key := next keyBytes increment stream
    let others := xorKeyStream key.2 rest
    ((byte ^^^ key.1) :: others.1, others.2)

/-- The stream after a number of bytes. -/
def advance (count : Nat) (stream : Stream Block) : Stream Block :=
  (fun stream => (next keyBytes increment stream).2)^[count] stream

variable {keyBytes increment} {stream : Stream Block} {data : List UInt8} {width : Nat}

theorem xorKeyStream_snd :
    (xorKeyStream keyBytes increment stream data).2 =
      advance keyBytes increment data.length stream := by
  induction data generalizing stream with
  | nil => rfl
  | cons byte rest ih =>
    rw [xorKeyStream, ih]
    rfl

@[simp] theorem length_xorKeyStream :
    (xorKeyStream keyBytes increment stream data).1.length = data.length := by
  induction data generalizing stream with
  | nil => rfl
  | cons byte rest ih => simp [xorKeyStream, ih]

theorem xorKeyStream_append (front back : List UInt8) :
    (xorKeyStream keyBytes increment stream (front ++ back)).1 =
      (xorKeyStream keyBytes increment stream front).1 ++
        (xorKeyStream keyBytes increment
          (advance keyBytes increment front.length stream) back).1 := by
  induction front generalizing stream with
  | nil => rfl
  | cons byte rest ih =>
    rw [List.cons_append, xorKeyStream, ih]
    rfl

theorem xorKeyStream_twice :
    (xorKeyStream keyBytes increment stream
      (xorKeyStream keyBytes increment stream data).1).1 = data := by
  induction data generalizing stream with
  | nil => rfl
  | cons byte rest ih =>
    simp only [xorKeyStream, ih, UInt8.xor_assoc, UInt8.xor_self, UInt8.xor_zero]

theorem advance_add (first second : Nat) (stream : Stream Block) :
    advance keyBytes increment (first + second) stream =
      advance keyBytes increment second (advance keyBytes increment first stream) := by
  rw [Nat.add_comm]
  exact Function.iterate_add_apply _ _ _ _

theorem advance_unused {count : Nat} {counter : Block} {unused : List UInt8}
    (enough : count ≤ unused.length) :
    advance keyBytes increment count ⟨counter, unused⟩ = ⟨counter, unused.drop count⟩ := by
  induction count generalizing unused with
  | zero => rfl
  | succ count ih =>
    cases unused with
    | nil => cases enough
    | cons byte rest => exact ih (Nat.le_of_succ_le_succ enough)

/-- A whole number of blocks is a number of increments. -/
theorem advance_blocks (wide : ∀ counter, (keyBytes counter).length = width + 1) (counter : Block)
    (count : Nat) :
    advance keyBytes increment ((width + 1) * count) ⟨counter, []⟩ =
      ⟨increment^[count] counter, []⟩ := by
  have block : ∀ counter, advance keyBytes increment (width + 1) ⟨counter, []⟩ =
      ⟨increment counter, []⟩ := by
    intro counter
    have tailLength : (keyBytes counter).tail.length = width := by
      rw [List.length_tail, wide, Nat.add_sub_cancel]
    have rest := @advance_unused _ keyBytes increment width (increment counter) _
      (Nat.le_of_eq tailLength.symm)
    rw [← tailLength, List.drop_length, tailLength] at rest
    exact rest
  induction count with
  | zero => rfl
  | succ count ih =>
    rw [Function.iterate_succ_apply', ← block, ← ih, Nat.mul_succ, advance_add]

end Rose.CounterMode
