import MiniPascal.Compile
import MiniPascal.Editor.Position

/-! The problems of a text as an editor shows them. -/
namespace MiniPascal.Editor

/-- A problem and where an editor underlines it. -/
structure Report where
  range : TextRange
  code : ProblemCode
  message : String
deriving Repr, DecidableEq, Inhabited

/-- The report of a problem in a text. -/
def report? (t : SourceText) (p : Problem) : Option Report :=
  (range? t p.span).map (⟨·, p.code, p.message⟩)

/-- All problems of a text, the lexical ones first. -/
def reports? (source : String) : Option (List Report) :=
  match compile source with
  | .ok _ => some []
  | .error (.failure f) => f.all.mapM fun d => report? (.ofString source) d.problem
  | .error (.defect _) => none

end MiniPascal.Editor
