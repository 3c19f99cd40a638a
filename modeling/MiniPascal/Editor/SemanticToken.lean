import MiniPascal.Editor.Position
import MiniPascal.Token.Reading

/-! The tokens of a text as an editor colours them. -/
namespace MiniPascal.Editor

/-- How a token is coloured. -/
inductive TokenClass where
  | keyword
  | name
  | typeName
  | string
  | number
  | operator
deriving Repr, DecidableEq, Inhabited

namespace TokenClass

/-- Every class, in the order of the legend. -/
def all : List TokenClass := [keyword, name, typeName, string, number, operator]

/-- The name of the class in the legend. -/
def legendName : TokenClass → String
  | keyword => "keyword"
  | name => "variable"
  | typeName => "type"
  | string => "string"
  | number => "number"
  | operator => "operator"

/-- The place of the class in the legend. -/
def index (c : TokenClass) : Nat := all.idxOf c

/-- The symbols that are coloured as operators. -/
def operators : List Symbol :=
  [.plus, .minus, .star, .slash, .greater, .less, .greaterOrEqual, .lessOrEqual, .equal, .notEqual,
    .assignment]

/-- The class of a token, if it is coloured. -/
def ofToken? : TokenKind → Option TokenClass
  | .identifier n => some (if (Ty.ofName? n).isSome then typeName else name)
  | .integer _ | .real _ => some number
  | .string _ => some string
  | .symbol s =>
    if s.isWord then some keyword else if operators.contains s then some operator else none
  | .endOfText | .malformed | .unknown => none

end TokenClass

/-- A coloured token: where it starts, its length in UTF-16 units and its class. -/
structure Highlight where
  start : Position
  length : Nat
  tokenClass : TokenClass
deriving Repr, DecidableEq, Inhabited

/-- A coloured token placed relative to the one before: lines further down, and columns further on
in the same line or from the start of a new one. -/
structure SemanticToken where
  deltaLine : Nat
  deltaStart : Nat
  length : Nat
  tokenClass : TokenClass
deriving Repr, DecidableEq, Inhabited

/-- The coloured tokens of a text in order. -/
def highlights? (t : SourceText) (tokens : List Token) : Option (List Highlight) :=
  (tokens.filterMap fun k => (TokenClass.ofToken? k.kind).map (k, ·)).mapM fun (k, c) => do
    return ⟨← position? t k.span.offset, Text.size16 (← t.slice? k.span), c⟩

/-- The relative form of coloured tokens that follow a place in order. -/
def encode? (previous : Position) : List Highlight → Option (List SemanticToken)
  | [] => some []
  | h :: hs =>
    if h.start.line < previous.line then none
    else if h.start.line = previous.line then
      if h.start.character < previous.character then none
      else (encode? h.start hs).map
        (⟨0, h.start.character - previous.character, h.length, h.tokenClass⟩ :: ·)
    else (encode? h.start hs).map
      (⟨h.start.line - previous.line, h.start.character, h.length, h.tokenClass⟩ :: ·)

/-- The coloured tokens of a text in relative form. -/
def semanticTokens? (source : String) : Option (List SemanticToken) := do
  let hs ← highlights? (.ofString source) (Reading.tokens (readings source))
  encode? ⟨0, 0⟩ hs

/-- The five numbers that stand for a coloured token. -/
def SemanticToken.numbers (k : SemanticToken) : List Nat :=
  [k.deltaLine, k.deltaStart, k.length, k.tokenClass.index, 0]

end MiniPascal.Editor
