import MiniPascal.Failure
import MiniPascal.Grammar.Program
import MiniPascal.Token.Reading

/-! Compilation of a text in one pass. -/
namespace MiniPascal

/-- How far a text was read as a program, and what came of it. -/
structure Parse where
  /-- Why reading ended, unless the program is complete. -/
  stop : Option Grammar.Stop
  /-- The last token that was looked at. -/
  current : Token
  /-- The lexical errors met up to that token. -/
  errors : List LexicalError
  /-- What had been emitted by then. -/
  code : CodeBuffer
deriving Repr, DecidableEq

namespace Parse

/-- Reads tokens as a program, as far as it goes. -/
def ofTokens (first : Token) (ahead : List Token) : Option Grammar.Stop × Grammar.State :=
  match (Grammar.program (ahead.length + 1)).run ⟨first, ahead, 0, .initial, .empty⟩ with
  | .ok () s => (none, s)
  | .error e s => (some e, s)

/-- Reads a text as a program, as far as it goes. -/
def ofSource (source : String) : Parse :=
  let all := Reading.meaningful (readings source)
  let tokens := Reading.tokens all
  let (stop, s) := ofTokens (tokens.headD ⟨.endOfText, ⟨0, 0⟩⟩) tokens.tail
  { stop
    current := s.current
    errors := Reading.allErrors (all.take (all.length - s.ahead.length))
    code := s.code }

/-- The lexical errors, collected. -/
def log (p : Parse) : Except Defect ProblemLog := ProblemLog.ofList (p.errors.map (·.problem))

end Parse

/-- Why a text yields no program. -/
inductive Refusal where
  | failure (f : Failure)
  | defect (d : Defect)
deriving Repr, DecidableEq

/-- The program of a text. Lexical errors do not end the reading, but any of them withholds the
program. -/
def compile (source : String) : Except Refusal Program :=
  let p := Parse.ofSource source
  let text := SourceText.ofString source
  match p.log, p.stop with
  | .error d, _ | _, some (.defect d) => .error (.defect d)
  | .ok log, some (.rejected r) => .error (.failure (.ofProblems text log (some r.problem)))
  | .ok log, none =>
    if log.problems.isEmpty then p.code.finish.mapError .defect
    else .error (.failure (.ofProblems text log none))

/-- Every token of a text up to and including its end, and the lexical errors. -/
def tokenize (source : String) : List Token × List LexicalError :=
  let all := readings source
  (Reading.tokens all, Reading.allErrors all)

end MiniPascal
