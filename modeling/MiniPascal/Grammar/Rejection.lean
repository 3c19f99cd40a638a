import MiniPascal.Program.CodeBuffer
import MiniPascal.Scope
import MiniPascal.Token.Basic

/-! Why a token sequence is no program. -/
namespace MiniPascal

/-- What the grammar allows at a place. -/
inductive Expectation where
  | symbol (s : Symbol)
  | identifier
  | typeName
  | statement
  | expression
  | assignmentOrCall (name : String)
deriving Repr, DecidableEq

/-- The expectation in words. -/
def Expectation.describe : Expectation → String
  | symbol s => "`" ++ s.spelling ++ "`"
  | identifier => "identifier"
  | typeName => "type name"
  | statement => "statement"
  | expression => "expression"
  | assignmentOrCall name => "`:=` or `(` after `" ++ name ++ "`"

/-- What other dialects of the language allow and this one leaves out. -/
inductive Feature where
  | labelDeclarations
  | constantDeclarations
  | typeDeclarations
  | routineDeclarations
  | arrayTypes
  | recordTypes
  | setTypes
  | fileTypes
  | packedTypes
  | caseStatements
  | repeatLoops
  | forLoops
  | withStatements
  | gotoStatements
  | setMembership
  | pointers
deriving Repr, DecidableEq

/-- The feature in words. -/
def Feature.describe : Feature → String
  | labelDeclarations => "label declarations"
  | constantDeclarations => "constant declarations"
  | typeDeclarations => "type declarations"
  | routineDeclarations => "procedure and function declarations"
  | arrayTypes => "array types"
  | recordTypes => "record types"
  | setTypes => "set types"
  | fileTypes => "file types"
  | packedTypes => "packed types"
  | caseStatements => "`case` statements"
  | repeatLoops => "`repeat` loops"
  | forLoops => "`for` loops"
  | withStatements => "`with` statements"
  | gotoStatements => "`goto` statements"
  | setMembership => "set membership tests"
  | pointers => "pointers and `nil`"

/-- The name of an operator in an error message. Both divisions go by one name. -/
def Operator.spelling : Operator → String
  | add => "+"
  | sub => "-"
  | mul => "*"
  | div => "/"
  | mod => "mod"
  | and => "and"
  | or => "or"
  | equal => "="
  | notEqual => "<>"
  | less => "<"
  | lessOrEqual => "<="
  | greater => ">"
  | greaterOrEqual => ">="

/-- What is wrong. -/
inductive Cause where
  | unexpected (expected : Expectation) (found : TokenKind)
  | unsupported (feature : Feature)
  | undefined (name : String)
  | duplicate (name : String)
  | notAType (name : String)
  | notAssignable (entry : Entry) (name : String)
  | notAProcedure (entry : Entry) (name : String)
  | notAValue (entry : Entry) (name : String)
  | assignedType (found : Ty) (name : String) (declared : Ty)
  | conditionType (statement : Symbol) (found : Ty)
  | signType (found : Ty)
  | negatedType (found : Ty)
  | comparedTypes (op : Operator) (left right : Ty)
  | operandTypes (op : Operator) (left right : Ty)
deriving Repr, DecidableEq

namespace Cause

/-- The problem a cause makes at a place. -/
def problem (span : Span) : Cause → Problem
  | unexpected expected found =>
    .syntaxError span ("expected " ++ expected.describe ++ ", found " ++ found.describe)
  | unsupported feature => .syntaxError span (feature.describe ++ " are not supported")
  | undefined name => .undefinedIdentifier span name
  | duplicate name => .duplicateIdentifier span name
  | notAType name => .typeError span ("`" ++ name ++ "` is not a type")
  | notAssignable entry name =>
    .typeError span ("cannot assign to " ++ entry.role ++ " `" ++ name ++ "`")
  | notAProcedure entry name =>
    .typeError span (entry.role ++ " `" ++ name ++ "` is not a procedure")
  | notAValue entry name =>
    .typeError span (entry.role ++ " `" ++ name ++ "` cannot be used as a value")
  | assignedType found name declared =>
    .typeError span ("cannot assign a value of type " ++ found.name ++ " to `" ++ name ++
      "` of type " ++ declared.name)
  | conditionType statement found =>
    .typeError span ("`" ++ statement.spelling ++ "` condition must be boolean, found " ++ found.name)
  | signType found =>
    .typeError span ("a sign requires a numeric operand, found " ++ found.name)
  | negatedType found =>
    .typeError span ("`not` requires a boolean operand, found " ++ found.name)
  | comparedTypes op left right =>
    .typeError span ("operator `" ++ op.spelling ++ "` cannot compare " ++ left.name ++ " with " ++
      right.name)
  | operandTypes op left right =>
    .typeError span ("operator `" ++ op.spelling ++ "` cannot be applied to " ++ left.name ++
      " and " ++ right.name)

/-- Every cause ends a compilation. -/
theorem isFatal_problem (span : Span) (c : Cause) : (c.problem span).code.isFatal = true := by
  cases c <;> rfl

end Cause

/-- A cause and the place it is found at. -/
structure Rejection where
  cause : Cause
  span : Span
deriving Repr, DecidableEq

/-- The rejection as a problem. -/
def Rejection.problem (r : Rejection) : Problem := r.cause.problem r.span

end MiniPascal
