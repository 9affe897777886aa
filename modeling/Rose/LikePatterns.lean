import Mathlib.Data.List.Infix
import Mathlib.Data.List.TakeWhile
import Mathlib.Tactic.Push

/-!
# The LIKE operator

A text is a sequence of bytes.  The operator reads it up to the first zero byte,
as a sequence of codes: a byte below `0xC0` is a code, a larger one starts a code
that takes in the continuation bytes after it.  In a pattern `%` stands for any
codes and `_` for one; a backslash makes the next code a literal.  Literals are
compared without the case of ASCII letters.  An escaped text followed by a tail
pattern matches exactly the texts that start with another spelling of it and go
on with a match of the tail.
-/

namespace Rose.LikePatterns

section Matching

abbrev backslash : Nat := 92

abbrev percent : Nat := 37

abbrev underscore : Nat := 95

/-- The code of an ASCII letter in lower case; other codes are themselves. -/
def lower (code : Nat) : Nat := if 65 ≤ code ∧ code ≤ 90 then code + 32 else code

/-- Whether the codes of a text match those of a pattern. -/
def likeMatch : List Nat → List Nat → Bool
  | [], text => text.isEmpty
  | symbol :: rest, text =>
    if symbol = backslash then
      match rest, text with
      | literal :: rest, actual :: text =>
        decide (lower actual = lower literal) && likeMatch rest text
      | _, _ => false
    else if symbol = percent then
      text.tails.any fun suffix => likeMatch rest suffix
    else
      match text with
      | [] => false
      | actual :: text =>
        (decide (symbol = underscore) || decide (lower actual = lower symbol)) &&
          likeMatch rest text

/-- A pattern interprets the code. -/
def Special (code : Nat) : Prop := code = backslash ∨ code = percent ∨ code = underscore

instance (code : Nat) : Decidable (Special code) := inferInstanceAs (Decidable (_ ∨ _ ∨ _))

/-- A text with every code that a pattern would interpret escaped. -/
def escapeText (text : List Nat) : List Nat :=
  text.flatMap fun code => if Special code then [backslash, code] else [code]

theorem likeMatch_percent (text : List Nat) : likeMatch [percent] text = true := by
  unfold likeMatch
  rw [if_neg (by decide), if_pos rfl, List.any_eq_true]
  exact ⟨[], by simp, rfl⟩

/-- An escaped code stands for itself, up to its case. -/
theorem likeMatch_escapeText_cons (code : Nat) (pattern text : List Nat) :
    likeMatch (escapeText [code] ++ pattern) text = true ↔
      ∃ actual rest, text = actual :: rest ∧ lower actual = lower code ∧
        likeMatch pattern rest = true := by
  by_cases special : Special code
  · have escaped : escapeText [code] = [backslash, code] := by simp [escapeText, special]
    rw [escaped]
    cases text with
    | nil => simp [likeMatch]
    | cons actual rest => simp [likeMatch]
  · have plain : escapeText [code] = [code] := by simp [escapeText, special]
    unfold Special at special
    push Not at special
    rw [plain, List.singleton_append, likeMatch.eq_def]
    cases text with
    | nil => simp [special]
    | cons actual rest => simp [special]

theorem likeMatch_escapeText_append (literal pattern text : List Nat) :
    likeMatch (escapeText literal ++ pattern) text = true ↔
      ∃ front back, text = front ++ back ∧ front.map lower = literal.map lower ∧
        likeMatch pattern back = true := by
  induction literal generalizing text with
  | nil =>
    constructor
    · intro matched
      exact ⟨[], text, rfl, rfl, matched⟩
    · rintro ⟨front, back, rfl, noFront, matched⟩
      rw [List.map_nil, List.map_eq_nil_iff] at noFront
      subst noFront
      exact matched
  | cons code literal ih =>
    have split : escapeText (code :: literal) ++ pattern = escapeText [code] ++
          (escapeText literal ++ pattern) := by
      simp [escapeText]
    rw [split, likeMatch_escapeText_cons]
    constructor
    · rintro ⟨actual, rest, rfl, sameCode, matched⟩
      obtain ⟨front, back, rfl, sameFront, tailMatched⟩ := (ih rest).mp matched
      refine ⟨actual :: front, back, rfl, ?_, tailMatched⟩
      rw [List.map_cons, List.map_cons, sameCode, sameFront]
    · rintro ⟨front, back, rfl, sameFront, tailMatched⟩
      cases front with
      | nil => simp at sameFront
      | cons actual front =>
        rw [List.map_cons, List.map_cons, List.cons.injEq] at sameFront
        exact ⟨actual, front ++ back, rfl, sameFront.1, (ih (front ++ back)).mpr
            ⟨front, back, rfl, sameFront.2, tailMatched⟩⟩

theorem likeMatch_escapeText (literal text : List Nat) :
    likeMatch (escapeText literal) text = true ↔ text.map lower = literal.map lower := by
  have split := likeMatch_escapeText_append literal [] text
  rw [List.append_nil] at split
  rw [split]
  constructor
  · rintro ⟨front, back, rfl, same, matched⟩
    have noBack : back = [] := by simpa [likeMatch] using matched
    rw [noBack, List.append_nil, same]
  · exact fun same => ⟨text, [], by simp, same, rfl⟩

end Matching

section Reading

/-- The bytes before the first zero byte. -/
def beforeZero (bytes : List UInt8) : List UInt8 := bytes.takeWhile (· != 0)

def isContinuation (byte : UInt8) : Bool := decide (0x80 ≤ byte ∧ byte < 0xC0)

/-- What the first byte of a code of several bytes contributes. -/
def leadValue (byte : UInt8) : Nat :=
  if byte < 0xE0 then byte.toNat - 0xC0
  else if byte < 0xF0 then byte.toNat - 0xE0
  else if byte < 0xF8 then byte.toNat - 0xF0
  else if byte < 0xFC then byte.toNat - 0xF8
  else if byte < 0xFE then byte.toNat - 0xFC
  else 0

/-- Codes that need no second byte, surrogates and two non-characters are read
as the replacement character. -/
def checkCode (value : Nat) : Nat :=
  if value < 0x80 ∨ (0xD800 ≤ value ∧ value < 0xE000) ∨ value = 0xFFFE ∨ value = 0xFFFF then 0xFFFD
  else value

/-- The codes of a text, after a code that is still open. -/
def codesFrom : Option Nat → List UInt8 → List Nat
  | started, [] => (started.map checkCode).toList
  | started, byte :: rest =>
    match started, isContinuation byte with
    | some value, true => codesFrom (some ((value * 64 + byte.toNat % 64) % 0x100000000)) rest
    | started, _ =>
      (started.map checkCode).toList ++
        if 0xC0 ≤ byte then codesFrom (some (leadValue byte)) rest
        else byte.toNat :: codesFrom none rest

/-- The codes that the operator reads from a text. -/
def readText (bytes : List UInt8) : List Nat := codesFrom none (beforeZero bytes)

/-- `text LIKE pattern ESCAPE '\'` -/
def like (pattern text : List UInt8) : Bool := likeMatch (readText pattern) (readText text)

/-- A text with every byte that a pattern would interpret escaped. -/
def escapeBytes (bytes : List UInt8) : List UInt8 :=
  bytes.flatMap fun byte => if Special byte.toNat then [92, byte] else [byte]

/-- What the operator compares of a text. -/
def spelling (bytes : List UInt8) : List Nat := (readText bytes).map lower

theorem checkCode_not_special (value : Nat) : ¬Special (checkCode value) := by
  unfold checkCode Special backslash percent underscore
  split_ifs <;> omega

theorem escapeText_started (started : Option Nat) (codes : List Nat) :
    escapeText ((started.map checkCode).toList ++ codes) =
      (started.map checkCode).toList ++ escapeText codes := by
  cases started with
  | none => rfl
  | some value => simp [escapeText, checkCode_not_special]

/-- A byte that continues no code ends an open one. -/
theorem codesFrom_cons {byte : UInt8} (fresh : isContinuation byte = false) (started : Option Nat)
    (rest : List UInt8) :
    codesFrom started (byte :: rest) =
      (started.map checkCode).toList ++ codesFrom none (byte :: rest) := by
  cases started <;> simp [codesFrom, fresh]

theorem isContinuation_ascii {byte : UInt8} (ascii : byte < 0x80) :
    isContinuation byte = false := by
  unfold isContinuation
  rw [decide_eq_false_iff_not, not_and]
  exact fun large => absurd large (UInt8.not_le.mpr ascii)

theorem codesFrom_ascii {byte : UInt8} (ascii : byte < 0x80) (started : Option Nat)
    (rest : List UInt8) :
    codesFrom started (byte :: rest) =
      (started.map checkCode).toList ++ byte.toNat :: codesFrom none rest := by
  have single : ¬(0xC0 : UInt8) ≤ byte :=
    UInt8.not_le.mpr (UInt8.lt_trans ascii (by decide))
  rw [codesFrom_cons (isContinuation_ascii ascii)]
  simp [codesFrom, single]

theorem codesFrom_append {byte : UInt8} (fresh : isContinuation byte = false)
    (started : Option Nat) (front rest : List UInt8) :
    codesFrom started (front ++ byte :: rest) =
      codesFrom started front ++ codesFrom none (byte :: rest) := by
  induction front generalizing started with
  | nil =>
    rw [List.nil_append, codesFrom_cons fresh]
    rfl
  | cons first front ih =>
    rw [List.cons_append]
    cases started <;> cases continues : isContinuation first <;>
      by_cases lead : (0xC0 : UInt8) ≤ first <;> simp [codesFrom, continues, lead, ih]

theorem codesFrom_escapeBytes (started : Option Nat) (bytes : List UInt8) :
    codesFrom started (escapeBytes bytes) = escapeText (codesFrom started bytes) := by
  induction bytes generalizing started with
  | nil =>
    have escaped := escapeText_started started []
    rw [List.append_nil] at escaped
    exact (escaped.trans (List.append_nil _)).symm
  | cons byte bytes ih =>
    by_cases special : Special byte.toNat
    · have ascii : byte < 0x80 := by
        rw [UInt8.lt_iff_toNat_lt]
        change byte.toNat < 128
        unfold Special backslash percent underscore at special
        omega
      have escaped : escapeBytes (byte :: bytes) = 92 :: byte :: escapeBytes bytes := by
        simp [escapeBytes, special]
      rw [escaped, codesFrom_ascii (by decide), codesFrom_ascii ascii, codesFrom_ascii ascii,
        escapeText_started, ih]
      simp [escapeText, special]
    · have escaped : escapeBytes (byte :: bytes) = byte :: escapeBytes bytes := by
        simp [escapeBytes, special]
      rw [escaped]
      have plain : ∀ codes, escapeText (byte.toNat :: codes) = byte.toNat :: escapeText codes := by
        intro codes
        simp [escapeText, special]
      cases started <;> cases continues : isContinuation byte <;>
        by_cases lead : (0xC0 : UInt8) ≤ byte <;>
          simp only [codesFrom, continues, lead, ih, escapeText_started, plain, if_true, if_false]

theorem beforeZero_eq_self {bytes : List UInt8} (noZero : 0 ∉ bytes) :
    beforeZero bytes = bytes := by
  rw [beforeZero, List.takeWhile_eq_self_iff]
  intro byte member
  simpa using fun isZero : byte = 0 => noZero (isZero ▸ member)

theorem beforeZero_append {front : List UInt8} (noZero : 0 ∉ front) (rest : List UInt8) :
    beforeZero (front ++ rest) = front ++ beforeZero rest := by
  unfold beforeZero
  refine List.takeWhile_append_of_pos ?_
  intro byte member
  simpa using fun isZero : byte = 0 => noZero (isZero ▸ member)

theorem beforeZero_append_of_mem {front : List UInt8} (zero : 0 ∈ front) (rest : List UInt8) :
    beforeZero (front ++ rest) = beforeZero front := by
  obtain ⟨start, finish, rfl, noZero⟩ := List.eq_append_cons_of_mem zero
  rw [List.append_assoc, beforeZero_append noZero, beforeZero_append noZero]
  simp [beforeZero]

theorem mem_escapeBytes_zero (bytes : List UInt8) : 0 ∈ escapeBytes bytes ↔ 0 ∈ bytes := by
  unfold escapeBytes
  rw [List.mem_flatMap]
  constructor
  · rintro ⟨byte, member, zero⟩
    split_ifs at zero
    · simp only [List.mem_cons, List.not_mem_nil, or_false] at zero
      rcases zero with impossible | rfl
      · exact absurd impossible (by decide)
      · exact member
    · rw [List.mem_singleton] at zero
      exact zero ▸ member
  · exact fun zero => ⟨0, zero, by decide⟩

theorem beforeZero_escapeBytes (bytes : List UInt8) :
    beforeZero (escapeBytes bytes) = escapeBytes (beforeZero bytes) := by
  by_cases zero : 0 ∈ bytes
  · obtain ⟨start, finish, rfl, noZero⟩ := List.eq_append_cons_of_mem zero
    have escapedNoZero : 0 ∉ escapeBytes start := fun inside =>
      noZero ((mem_escapeBytes_zero start).mp inside)
    have split :
        escapeBytes (start ++ 0 :: finish) = escapeBytes start ++ 0 :: escapeBytes finish := by
      simp [escapeBytes, Special, backslash, percent, underscore]
    rw [split, beforeZero_append escapedNoZero, beforeZero_append noZero]
    simp [beforeZero]
  · rw [beforeZero_eq_self zero, beforeZero_eq_self]
    exact fun inside => zero ((mem_escapeBytes_zero bytes).mp inside)

theorem readText_append {front : List UInt8} {byte : UInt8} (noZero : 0 ∉ front)
    (fresh : isContinuation byte = false) (nonzero : byte ≠ 0) (rest : List UInt8) :
    readText (front ++ byte :: rest) = readText front ++ readText (byte :: rest) := by
  have kept : beforeZero (byte :: rest) = byte :: beforeZero rest := by
    simp [beforeZero, nonzero]
  unfold readText
  rw [beforeZero_append noZero, kept, codesFrom_append fresh, beforeZero_eq_self noZero]

theorem readText_escapeBytes (bytes : List UInt8) :
    readText (escapeBytes bytes) = escapeText (readText bytes) := by
  unfold readText
  rw [beforeZero_escapeBytes, codesFrom_escapeBytes]

/-- A pattern that starts with an escaped text with a zero byte ends there: it
matches the other spellings of that text. -/
theorem like_escapeBytes_of_zero {literal : List UInt8} (zero : 0 ∈ literal)
    (tail text : List UInt8) :
    like (escapeBytes literal ++ tail) text = true ↔ spelling text = spelling literal := by
  have cut : readText (escapeBytes literal ++ tail) = escapeText (readText literal) := by
    rw [← readText_escapeBytes]
    unfold readText
    rw [beforeZero_append_of_mem ((mem_escapeBytes_zero literal).mpr zero)]
  unfold like spelling
  rw [cut, likeMatch_escapeText]

/-- The texts that an escaped text, a plain separator and `%` match. -/
theorem like_escapeBytes_separator {literal : List UInt8} {separator : UInt8}
    (noZero : 0 ∉ literal) (nonzero : separator ≠ 0) (ascii : separator < 0x80)
    (plain : ¬Special separator.toNat)
    (caseless : ∀ code, lower code = separator.toNat ↔ code = separator.toNat)
    (text : List UInt8) :
    like (escapeBytes literal ++ [separator, 37]) text = true ↔
      spelling literal ++ [separator.toNat] <+: spelling text := by
  have tail : readText [separator, 37] = [separator.toNat, percent] := by
    have kept : beforeZero [separator, 37] = [separator, 37] := by simp [beforeZero, nonzero]
    rw [readText, kept, codesFrom_ascii ascii, codesFrom_ascii (by decide)]
    rfl
  have pattern : readText (escapeBytes literal ++ [separator, 37]) =
      escapeText (readText literal) ++ [separator.toNat, percent] := by
    rw [readText_append (fun zero => noZero ((mem_escapeBytes_zero literal).mp zero))
      (isContinuation_ascii ascii) nonzero, readText_escapeBytes, tail]
  have goesOn : ∀ back, likeMatch [separator.toNat, percent] back = true ↔
      ∃ rest, back = separator.toNat :: rest := by
    intro back
    unfold Special at plain
    push Not at plain
    cases back with
    | nil => simp [likeMatch, plain]
    | cons code rest =>
      have separated : lower separator.toNat = separator.toNat := (caseless _).mpr rfl
      rw [likeMatch.eq_def]
      simp [plain, likeMatch_percent, separated, caseless]
  unfold like spelling
  rw [pattern, likeMatch_escapeText_append]
  constructor
  · rintro ⟨front, back, whole, same, matched⟩
    obtain ⟨rest, rfl⟩ := (goesOn back).mp matched
    refine ⟨rest.map lower, ?_⟩
    rw [whole, ← same]
    simp [(caseless _).mpr]
  · rintro ⟨rest, whole⟩
    rw [List.append_assoc, List.singleton_append] at whole
    obtain ⟨front, back, split, same, restSame⟩ := List.map_eq_append_iff.mp whole.symm
    obtain ⟨code, more, rfl, isSeparator, -⟩ := List.map_eq_cons_iff.mp restSame
    rw [(caseless code).mp isSeparator] at split
    exact ⟨front, _, split, same, (goesOn _).mpr ⟨more, rfl⟩⟩

end Reading

end Rose.LikePatterns
