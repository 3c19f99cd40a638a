import MiniPascal.Token.Lexeme

/-! The token stream of a text. A reading skips the blanks and comments before a lexeme, then takes
the lexeme. The reading at the end of the text repeats for ever. -/
namespace MiniPascal

/-- A lexical fault and where it lies. -/
structure LexicalError where
  fault : LexicalFault
  span : Span
deriving Repr, DecidableEq, Inhabited

/-- The error as a problem. -/
def LexicalError.problem (e : LexicalError) : Problem := e.fault.problem e.span

/-- What stands before a lexeme: the errors in it, the offset behind it and the text from there on. -/
structure Gap where
  errors : List LexicalError
  offset : Nat
  rest : List Char

namespace Gap

/-- Whether a character separates lexemes. -/
def isBlank (c : Char) : Bool := c == ' ' || c == '\t' || c == '\r' || c == '\n'

/-- A comment begun at `start` that was never closed. -/
def unclosed (start : Nat) : LexicalError := ⟨.unclosedComment, ⟨start, 1⟩⟩

/-- Skips blanks and comments from `offset` on, inside the comment begun at `opened` if there is
one. A second opening brace ends an unclosed comment. -/
def skip (opened : Option Nat) (offset : Nat) : List Char → Gap
  | [] => ⟨(opened.map unclosed).toList, offset, []⟩
  | c :: cs =>
    match opened with
    | some start =>
      if c = '\x7d' then skip none (offset + 1) cs
      else if c = '\x7b' then
        let gap := skip none (offset + 1) cs
        { gap with errors := unclosed start :: gap.errors }
      else skip (some start) (offset + c.utf8Size) cs
    | none =>
      if c = '\x7b' then skip (some offset) (offset + 1) cs
      else if isBlank c then skip none (offset + 1) cs
      else ⟨[], offset, c :: cs⟩

theorem length_rest_skip_le (opened : Option Nat) (offset : Nat) (cs : List Char) :
    (skip opened offset cs).rest.length ≤ cs.length := by
  induction cs generalizing opened offset with
  | nil => simp [skip]
  | cons c cs ih =>
    simp only [skip, List.length_cons]
    repeat' split
    all_goals first | exact Nat.le_succ_of_le (ih _ _) | exact Nat.le_refl _

end Gap

/-- One token with the errors met on the way to it and in it. -/
structure Reading where
  token : Token
  errors : List LexicalError
deriving Repr, DecidableEq, Inhabited

namespace Reading

/-- The reading of a lexeme at an offset, after the given errors. -/
def ofLexeme (errors : List LexicalError) (offset : Nat) (l : Lexeme) : Reading :=
  let span : Span := ⟨offset, Text.size l.chars⟩
  match l.outcome with
  | .ok kind => ⟨⟨kind, span⟩, errors⟩
  | .error fault => ⟨⟨fault.tokenKind, span⟩, errors ++ [⟨fault, span⟩]⟩

/-- The next token of the text at `offset`, and the text behind it. -/
def next (offset : Nat) (cs : List Char) : Reading × List Char :=
  let gap := Gap.skip none offset cs
  match gap.rest with
  | [] => (⟨⟨.endOfText, ⟨gap.offset, 0⟩⟩, gap.errors⟩, [])
  | c :: rest =>
    let l := Lexeme.read c rest
    (ofLexeme gap.errors gap.offset l, l.rest)

theorem length_next_lt {offset : Nat} {cs : List Char}
    (h : (next offset cs).1.token.isEnd = false) : (next offset cs).2.length < cs.length := by
  have hg := Gap.length_rest_skip_le none offset cs
  unfold next at h ⊢
  dsimp only at h ⊢
  split at h
  · simp [Token.isEnd] at h
  · next c rest hr =>
    rw [hr] at hg
    exact Nat.lt_of_lt_of_le (Lexeme.length_read_rest_lt c rest) (by simpa using hg)

/-- Every reading of the text at `offset`, up to and including its end. -/
def all (offset : Nat) (cs : List Char) : List Reading :=
  let step := next offset cs
  if _ : step.1.token.isEnd then [step.1] else step.1 :: all step.1.token.stop step.2
termination_by cs.length
decreasing_by exact length_next_lt (Bool.eq_false_iff.2 ‹_›)

/-- The tokens of a text up to and including its end. -/
def tokens (rs : List Reading) : List Token := rs.map (·.token)

/-- The lexical errors of a text in the order in which they are met. -/
def allErrors (rs : List Reading) : List LexicalError := rs.flatMap (·.errors)

/-- The readings of the tokens a parser sees, each with the errors met since the one before. -/
def meaningful : List Reading → List Reading
  | [] => []
  | r :: rs =>
    if r.token.kind.isMeaningful then r :: meaningful rs
    else match meaningful rs with
      | [] => []
      | m :: ms => { m with errors := r.errors ++ m.errors } :: ms

end Reading

/-- Every reading of a text. -/
def readings (source : String) : List Reading := Reading.all 0 source.toList

/-- A text being read token by token. -/
structure Scanner where
  /-- Where the unread text begins. -/
  offset : Nat
  /-- The unread text. -/
  rest : List Char
  /-- The errors met so far. -/
  errors : List LexicalError
  /-- Whether the sequence of tokens has been handed out to its end. -/
  finished : Bool
deriving Repr, Inhabited

namespace Scanner

/-- A text of which nothing has been read. -/
def ofString (source : String) : Scanner := ⟨0, source.toList, [], false⟩

/-- Reads the next token; at the end of the text always the token that marks it. -/
def nextToken (s : Scanner) : Token × Scanner :=
  let (r, rest) := Reading.next s.offset s.rest
  (r.token, { s with offset := r.token.stop, rest, errors := s.errors ++ r.errors })

/-- Reads the next token of the sequence that ends with the end of the text. -/
def next? (s : Scanner) : Option Token × Scanner :=
  if s.finished then (none, s)
  else
    let (t, s) := s.nextToken
    (some t, { s with finished := t.isEnd })

end Scanner
end MiniPascal
