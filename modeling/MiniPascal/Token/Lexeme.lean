import MiniPascal.Token.Basic
import MiniPascal.Problem

/-! Lexemes: the longest piece at the head of a text that makes one token, and the faults that keep
a piece from making one. -/
namespace MiniPascal

/-- What can be wrong with the letters of a text. -/
inductive LexicalFault where
  | unexpectedCharacter (c : Char)
  | unterminatedString
  | unclosedComment
  | malformedNumber
  | numberOutOfRange
deriving Repr, DecidableEq, Inhabited

namespace LexicalFault

/-- The fault as a problem at a place. -/
def problem (span : Span) : LexicalFault → Problem
  | unexpectedCharacter c => .unexpectedCharacter span c
  | unterminatedString => .unterminatedString span
  | unclosedComment => .unclosedComment span
  | malformedNumber => .malformedNumber span
  | numberOutOfRange => .numberOutOfRange span

/-- The token that stands for a faulty lexeme. -/
def tokenKind : LexicalFault → TokenKind
  | unexpectedCharacter _ => .unknown
  | _ => .malformed

end LexicalFault

/-- A piece of text, what it means, and the text behind it. -/
structure Lexeme where
  outcome : Except LexicalFault TokenKind
  chars : List Char
  rest : List Char

namespace Lexeme

/-- The quote around string constants. -/
def quote : Char := '\x27'

/-- Whether a character can stand inside a string constant. -/
def isStringChar (c : Char) : Bool := c != quote && c != '\r' && c != '\n'

/-- A reserved word or an identifier. -/
def word (cs : List Char) : Lexeme :=
  let name := String.ofList (cs.takeWhile Char.isAlphanum)
  let kind := match Symbol.ofWord? name with
    | some s => .symbol s
    | none => .identifier name
  ⟨.ok kind, cs.takeWhile Char.isAlphanum, cs.dropWhile Char.isAlphanum⟩

/-- A string constant, whose opening quote has been read. -/
def string (cs : List Char) : Lexeme :=
  let body := cs.takeWhile isStringChar
  match cs.dropWhile isStringChar with
  | [] => ⟨.error .unterminatedString, quote :: body, []⟩
  | c :: rest =>
    if c = quote then ⟨.ok (.string (String.ofList body)), quote :: body ++ [quote], rest⟩
    else ⟨.error .unterminatedString, quote :: body, c :: rest⟩

/-- Whether a character introduces a scale factor. -/
def isScaleMark (c : Char) : Bool := c == 'e' || c == 'E'

/-- Whether a character is a sign. -/
def isSign (c : Char) : Bool := c == '+' || c == '-'

/-- The scale factor at the head of a text: its characters, its value unless a digit is missing,
and the text behind it. -/
def scale? : List Char → Option (List Char × Option Int × List Char)
  | [] => none
  | mark :: cs =>
    if isScaleMark mark then
      let sign := (cs.take 1).filter isSign
      let rest := cs.drop sign.length
      let digits := rest.takeWhile Char.isDigit
      let size : Int := Decimal.natOfDigits digits
      let value := if digits = [] then none else some (if sign = ['-'] then -size else size)
      some (mark :: sign ++ digits, value, rest.dropWhile Char.isDigit)
    else none

/-- An integer constant of the given digits, unless it needs more than 31 bits. -/
def integer (digits rest : List Char) : Lexeme :=
  let n := Decimal.natOfDigits digits
  ⟨if n < 0x80000000 then .ok (.integer (Int32.ofNat n)) else .error .numberOutOfRange, digits, rest⟩

/-- A real constant of the given value, unless it exceeds the largest real. -/
def real (d : Decimal) (chars rest : List Char) : Lexeme :=
  let v := d.toFloat
  ⟨if v.isFinite then .ok (.real v) else .error .numberOutOfRange, chars, rest⟩

/-- A number whose integer digits and fraction, the point included, have been read. -/
def scaled (whole fraction rest : List Char) : Lexeme :=
  let chars := whole ++ fraction
  let digits := Decimal.natOfDigits (whole ++ fraction.drop 1)
  let places : Int := (fraction.drop 1).length
  match scale? rest with
  | none => if fraction = [] then integer whole rest else real ⟨digits, -places⟩ chars rest
  | some (mark, none, rest) => ⟨.error .malformedNumber, chars ++ mark, rest⟩
  | some (mark, some size, rest) => real ⟨digits, size - places⟩ (chars ++ mark) rest

/-- An unsigned number. A point belongs to it unless a second point follows. -/
def number (cs : List Char) : Lexeme :=
  let whole := cs.takeWhile Char.isDigit
  match cs.dropWhile Char.isDigit with
  | [] => scaled whole [] []
  | point :: rest =>
    if point = '.' ∧ rest.head? ≠ some '.' then
      let digits := rest.takeWhile Char.isDigit
      if digits = [] then ⟨.error .malformedNumber, whole ++ ['.'], rest⟩
      else scaled whole ('.' :: digits) (rest.dropWhile Char.isDigit)
    else scaled whole [] (point :: rest)

/-- A symbol of two characters, else one of a single character. -/
def symbol (c : Char) (cs : List Char) : Lexeme :=
  match cs.head?.bind (Symbol.ofPair? c) with
  | some s => ⟨.ok (.symbol s), c :: cs.take 1, cs.drop 1⟩
  | none =>
    match Symbol.ofChar? c with
    | some s => ⟨.ok (.symbol s), [c], cs⟩
    | none => ⟨.error (.unexpectedCharacter c), [c], cs⟩

/-- The lexeme at the head of a text that begins with `c`. -/
def read (c : Char) (cs : List Char) : Lexeme :=
  if c = quote then string cs
  else if c.isDigit then number (c :: cs)
  else if c.isAlpha then word (c :: cs)
  else symbol c cs

theorem word_chars (cs : List Char) : (word cs).chars ++ (word cs).rest = cs := by
  simp [word]

theorem string_chars (cs : List Char) : (string cs).chars ++ (string cs).rest = quote :: cs := by
  have h := List.takeWhile_append_dropWhile (p := isStringChar) (l := cs)
  unfold string
  split
  · next hd => rw [hd] at h; simpa using h
  · next c rest hd =>
    rw [hd] at h
    split
    · next hc => subst hc; simpa using h
    · simpa using h

theorem scale?_chars {cs mark rest : List Char} {value : Option Int}
    (h : scale? cs = some (mark, value, rest)) : mark ++ rest = cs := by
  unfold scale? at h
  split at h
  · simp at h
  · next c cs =>
    split at h
    · simp only [Option.some.injEq, Prod.mk.injEq] at h
      obtain ⟨rfl, -, rfl⟩ := h
      cases cs with
      | nil => simp
      | cons d ds => by_cases hd : isSign d <;> simp [hd]
    · simp at h

theorem scaled_chars (whole fraction rest : List Char) :
    (scaled whole fraction rest).chars ++ (scaled whole fraction rest).rest =
      whole ++ fraction ++ rest := by
  unfold scaled
  split
  · split
    · next hf => simp [hf, integer]
    · simp [real]
  · next h => simp [scale?_chars h]
  · next h => simp [real, scale?_chars h]

theorem number_chars (cs : List Char) : (number cs).chars ++ (number cs).rest = cs := by
  have h := List.takeWhile_append_dropWhile (p := Char.isDigit) (l := cs)
  unfold number
  split
  · next hd => rw [hd] at h; simpa [scaled_chars] using h
  · next point rest hd =>
    rw [hd] at h
    have hr := List.takeWhile_append_dropWhile (p := Char.isDigit) (l := rest)
    split
    · next hp =>
      obtain ⟨rfl, -⟩ := hp
      dsimp only
      split
      · simpa using h
      · simpa [scaled_chars, hr] using h
    · simpa [scaled_chars] using h

theorem symbol_chars (c : Char) (cs : List Char) :
    (symbol c cs).chars ++ (symbol c cs).rest = c :: cs := by
  unfold symbol
  split
  · cases cs <;> simp
  · split <;> simp

/-- A lexeme and the text behind it make up the text it was read from. -/
theorem read_chars (c : Char) (cs : List Char) : (read c cs).chars ++ (read c cs).rest = c :: cs := by
  unfold read
  split
  · next h => subst h; exact string_chars cs
  · split
    · exact number_chars _
    · split
      · exact word_chars _
      · exact symbol_chars c cs

theorem scaled_chars_ne_nil {whole fraction rest : List Char} (h : whole ≠ []) :
    (scaled whole fraction rest).chars ≠ [] := by
  unfold scaled
  split
  · split <;> simp [integer, real, h]
  · simp [h]
  · simp [real, h]

/-- A lexeme is never empty. -/
theorem read_chars_ne_nil (c : Char) (cs : List Char) : (read c cs).chars ≠ [] := by
  unfold read
  split
  · unfold string
    split
    · simp
    · split <;> simp
  · split
    · next h =>
      unfold number
      split
      · exact scaled_chars_ne_nil (by simp [h])
      · split
        · dsimp only
          split
          · simp
          · exact scaled_chars_ne_nil (by simp [h])
        · exact scaled_chars_ne_nil (by simp [h])
    · split
      · next h => simp [word, Char.isAlphanum, h]
      · unfold symbol
        split
        · simp
        · split <;> simp

theorem length_read_rest_lt (c : Char) (cs : List Char) :
    (read c cs).rest.length < cs.length + 1 := by
  have h := congrArg List.length (read_chars c cs)
  have hn := List.length_pos_iff.2 (read_chars_ne_nil c cs)
  simp at h
  omega

end Lexeme
end MiniPascal
