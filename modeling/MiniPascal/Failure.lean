import MiniPascal.Problem
import MiniPascal.Program.CodeBuffer

/-! What is reported when a text does not compile. -/
namespace MiniPascal

/-- A problem and the line it begins on, counted from zero. -/
structure Diagnostic where
  problem : Problem
  line : Nat
deriving Repr, DecidableEq, Inhabited

namespace Diagnostic

/-- The diagnostic of a problem in a text. -/
def ofProblem (t : SourceText) (p : Problem) : Diagnostic := ⟨p, t.lineIndex p.span.offset⟩

/-- The diagnostic on one line, which counts lines from one. -/
def text (d : Diagnostic) : String := "line " ++ toString (d.line + 1) ++ ": " ++ d.problem.message

end Diagnostic

/-- Problems that a compilation collects while it goes on. -/
structure ProblemLog where
  problems : List Problem
deriving Repr, DecidableEq, Inhabited

namespace ProblemLog

/-- No problems. -/
def empty : ProblemLog := ⟨[]⟩

/-- Collects one more problem. Those that end a compilation are not collected. -/
def push (log : ProblemLog) (p : Problem) : Except Defect ProblemLog :=
  if p.code.isFatal then .error .loggedFatal else .ok ⟨log.problems ++ [p]⟩

/-- Collects problems in order. -/
def ofList (ps : List Problem) : Except Defect ProblemLog := ps.foldlM push empty

end ProblemLog

/-- The lexical diagnostics of a text in order, and the one that ended its compilation. -/
structure Failure where
  lexical : List Diagnostic
  fatal : Option Diagnostic
deriving Repr, DecidableEq, Inhabited

namespace Failure

/-- The failure of a text with the given problems. -/
def ofProblems (t : SourceText) (log : ProblemLog) (fatal : Option Problem) : Failure :=
  ⟨log.problems.map (.ofProblem t), fatal.map (.ofProblem t)⟩

/-- All diagnostics, the fatal one last. -/
def all (f : Failure) : List Diagnostic := f.lexical ++ f.fatal.toList

/-- How many diagnostics there are. -/
def count (f : Failure) : Nat := f.all.length

/-- The codes of all diagnostics. -/
def codes (f : Failure) : List ProblemCode := f.all.map (·.problem.code)

/-- The failure in one sentence. -/
def message (f : Failure) : String :=
  "compilation failed with " ++ toString f.count ++ " error(s)"

end Failure
end MiniPascal
