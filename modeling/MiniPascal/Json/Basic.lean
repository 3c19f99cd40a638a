import MiniPascal.Value

/-! JSON values and their text. -/
namespace MiniPascal

/-- A JSON value. A number without fraction and exponent is an integer; fields keep their order. -/
inductive Json where
  | null
  | bool (b : Bool)
  | int (n : Int)
  | real (x : Float)
  | string (s : String)
  | array (items : List Json)
  | object (fields : List (String × Json))
deriving Inhabited

/-- Reals in JSON: never mistaken for an integer, with a power of ten below 1e-5 and from 1e16 on,
its sign always written. -/
def RealNotation.json : RealNotation where
  positional e := -5 ≤ e && e < 16
  fraction := true
  plus := true
  tie := .toEven

namespace Json

/-- The characters that have a short escape, and the letter it is written with. -/
def shortEscapes : List (Char × Char) :=
  [('"', '"'), ('\\', '\\'), ('\x08', 'b'), ('\t', 't'), ('\n', 'n'), ('\x0c', 'f'), ('\r', 'r')]

/-- A hexadecimal digit, in small letters. -/
def hexDigit (n : Nat) : Char := Nat.digitChar (n % 16)

/-- A character inside a string: quotes, backslashes and control characters are escaped. -/
def escape (c : Char) : List Char :=
  match shortEscapes.lookup c with
  | some letter => ['\\', letter]
  | none =>
    if c.toNat < 0x20 then ['\\', 'u', '0', '0', hexDigit (c.toNat / 16), hexDigit c.toNat] else [c]

/-- A string in quotes. -/
def quoted (s : String) : List Char := '"' :: (s.toList.flatMap escape ++ ['"'])

/-- A real number; there is no text for infinities and NaN but that of null. -/
def realText (x : Float) : List Char :=
  if x.isFinite then (RealNotation.json.text x).toList else "null".toList

mutual

/-- The text without blanks. -/
def compactChars : Json → List Char
  | null => "null".toList
  | bool b => (if b then "true" else "false").toList
  | int n => (toString n).toList
  | real x => realText x
  | string s => quoted s
  | array items => '[' :: compactItems items
  | object fields => '\x7b' :: compactFields fields

/-- Items up to the closing bracket. -/
def compactItems : List Json → List Char
  | [] => [']']
  | [j] => compactChars j ++ [']']
  | j :: js => compactChars j ++ ',' :: compactItems js

/-- Fields up to the closing brace. -/
def compactFields : List (String × Json) → List Char
  | [] => ['\x7d']
  | [(k, j)] => quoted k ++ ':' :: (compactChars j ++ ['\x7d'])
  | (k, j) :: fs => quoted k ++ ':' :: (compactChars j ++ ',' :: compactFields fs)

end

/-- A new line, indented by two blanks a level. -/
def newline (level : Nat) : List Char := '\n' :: List.replicate (2 * level) ' '

mutual

/-- The text with each item and field on a line of its own. Empty lists stay on one line. -/
def prettyChars (level : Nat) : Json → List Char
  | null => "null".toList
  | bool b => (if b then "true" else "false").toList
  | int n => (toString n).toList
  | real x => realText x
  | string s => quoted s
  | array [] => ['[', ']']
  | array (j :: js) =>
    '[' :: (newline (level + 1) ++ prettyChars (level + 1) j ++ prettyItems level js)
  | object [] => ['\x7b', '\x7d']
  | object ((k, j) :: fs) =>
    '\x7b' :: (newline (level + 1) ++ quoted k ++ [':', ' '] ++ prettyChars (level + 1) j ++
      prettyFields level fs)

/-- The items behind the first, up to the closing bracket. -/
def prettyItems (level : Nat) : List Json → List Char
  | [] => newline level ++ [']']
  | j :: js => ',' :: (newline (level + 1) ++ prettyChars (level + 1) j ++ prettyItems level js)

/-- The fields behind the first, up to the closing brace. -/
def prettyFields (level : Nat) : List (String × Json) → List Char
  | [] => newline level ++ ['\x7d']
  | (k, j) :: fs =>
    ',' :: (newline (level + 1) ++ quoted k ++ [':', ' '] ++ prettyChars (level + 1) j ++
      prettyFields level fs)

end

/-- The text without blanks. -/
def compact (j : Json) : String := String.ofList j.compactChars

/-- The text with each item and field on a line of its own. -/
def pretty (j : Json) : String := String.ofList (j.prettyChars 0)

/-- The value of a field of an object. -/
def field? (j : Json) (key : String) : Option Json :=
  match j with
  | object fields => fields.lookup key
  | _ => none

end Json
end MiniPascal
