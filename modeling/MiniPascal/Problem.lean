import MiniPascal.Text.Line

/-! What a compilation reports: problems, each with a code, a message and a place in the text. -/
namespace MiniPascal

/-- The kinds of problems. -/
inductive ProblemCode where
  | unexpectedCharacter
  | unterminatedString
  | unclosedComment
  | malformedNumber
  | numberOutOfRange
  | syntaxError
  | typeError
  | undefinedIdentifier
  | duplicateIdentifier
deriving Repr, DecidableEq, Inhabited

namespace ProblemCode

/-- The name under which editors see the code. -/
def name : ProblemCode → String
  | unexpectedCharacter => "LexicalError"
  | unterminatedString => "StringExceedsLine"
  | unclosedComment => "CommentWithoutEnd"
  | malformedNumber => "ConstError"
  | numberOutOfRange => "OverflowException"
  | syntaxError => "SyntaxError"
  | typeError => "TypeError"
  | undefinedIdentifier => "UndefinedIdentifier"
  | duplicateIdentifier => "DuplicateIdentifier"

/-- The path of the code in a rendered report. -/
def path : ProblemCode → String
  | unexpectedCharacter => "pasc::lexical"
  | unterminatedString => "pasc::string_exceeds_line"
  | unclosedComment => "pasc::comment_without_end"
  | malformedNumber => "pasc::const_error"
  | numberOutOfRange => "pasc::overflow"
  | syntaxError => "pasc::syntax"
  | typeError => "pasc::type_error"
  | undefinedIdentifier => "pasc::undefined_identifier"
  | duplicateIdentifier => "pasc::duplicate_identifier"

/-- What a rendered report writes at the marked place. -/
def label : ProblemCode → String
  | unexpectedCharacter => "not part of the language"
  | unterminatedString => "string starts here"
  | unclosedComment => "comment starts here"
  | malformedNumber => "expected a digit"
  | numberOutOfRange => "does not fit"
  | syntaxError | typeError => "here"
  | undefinedIdentifier => "not declared"
  | duplicateIdentifier => "declared again here"

/-- What a rendered report advises. -/
def help? : ProblemCode → Option String
  | unterminatedString => some "close the string with `'` before the end of the line"
  | unclosedComment => some "add a matching `\x7d`"
  | _ => none

/-- Syntax and semantic errors end a compilation; the others are collected while it goes on. -/
def isFatal : ProblemCode → Bool
  | syntaxError | typeError | undefinedIdentifier | duplicateIdentifier => true
  | _ => false

end ProblemCode

/-- A problem and where it lies. -/
structure Problem where
  code : ProblemCode
  message : String
  span : Span
deriving Repr, DecidableEq, Inhabited

namespace Problem

variable (span : Span)

/-- A character the language does not use. -/
def unexpectedCharacter (c : Char) : Problem :=
  ⟨.unexpectedCharacter, "unexpected character `" ++ c.toString ++ "`", span⟩

/-- A string constant without a closing quote on its line. -/
def unterminatedString : Problem := ⟨.unterminatedString, "string constant exceeds line", span⟩

/-- A comment that the text or another comment ends. -/
def unclosedComment : Problem := ⟨.unclosedComment, "comment is never closed", span⟩

/-- A number that lacks a digit after its point or its scale. -/
def malformedNumber : Problem := ⟨.malformedNumber, "malformed numeric constant", span⟩

/-- A number too large for its type. -/
def numberOutOfRange : Problem := ⟨.numberOutOfRange, "numeric constant is out of range", span⟩

/-- A text outside the grammar. -/
def syntaxError (message : String) : Problem := ⟨.syntaxError, message, span⟩

/-- An operand, target or name of the wrong type. -/
def typeError (message : String) : Problem := ⟨.typeError, message, span⟩

/-- A name that no scope binds. -/
def undefinedIdentifier (name : String) : Problem :=
  ⟨.undefinedIdentifier, "undefined identifier `" ++ name ++ "`", span⟩

/-- A name that a scope binds already. -/
def duplicateIdentifier (name : String) : Problem :=
  ⟨.duplicateIdentifier, "identifier `" ++ name ++ "` is already declared", span⟩

end Problem
end MiniPascal
