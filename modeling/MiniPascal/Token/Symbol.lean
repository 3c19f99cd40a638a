/-! The symbols and reserved words of the language. -/
namespace MiniPascal

/-- Punctuation, operators and reserved words. -/
inductive Symbol where
  | leftParen | rightParen | plus | minus | star | slash
  | greater | less | greaterOrEqual | lessOrEqual | equal | notEqual
  | semicolon | colon | assignment | leftBracket | rightBracket | comma | dot | doubleDot
  | nilWord | notWord | andWord | divWord | packedWord | arrayWord | ofWord | fileWord | setWord
  | recordWord | endWord | caseWord | orWord | functionWord | varWord | procedureWord | beginWord
  | ifWord | thenWord | elseWord | whileWord | doWord | repeatWord | untilWord | forWord | toWord
  | downtoWord | withWord | gotoWord | labelWord | constWord | typeWord | programWord | modWord
  | inWord
deriving Repr, DecidableEq, Inhabited

namespace Symbol

/-- How the symbol is written; words in small letters. -/
def spelling : Symbol → String
  | leftParen => "(" | rightParen => ")" | plus => "+" | minus => "-" | star => "*" | slash => "/"
  | greater => ">" | less => "<" | greaterOrEqual => ">=" | lessOrEqual => "<=" | equal => "="
  | notEqual => "<>" | semicolon => ";" | colon => ":" | assignment => ":=" | leftBracket => "["
  | rightBracket => "]" | comma => "," | dot => "." | doubleDot => ".."
  | nilWord => "nil" | notWord => "not" | andWord => "and" | divWord => "div"
  | packedWord => "packed" | arrayWord => "array" | ofWord => "of" | fileWord => "file"
  | setWord => "set" | recordWord => "record" | endWord => "end" | caseWord => "case"
  | orWord => "or" | functionWord => "function" | varWord => "var" | procedureWord => "procedure"
  | beginWord => "begin" | ifWord => "if" | thenWord => "then" | elseWord => "else"
  | whileWord => "while" | doWord => "do" | repeatWord => "repeat" | untilWord => "until"
  | forWord => "for" | toWord => "to" | downtoWord => "downto" | withWord => "with"
  | gotoWord => "goto" | labelWord => "label" | constWord => "const" | typeWord => "type"
  | programWord => "program" | modWord => "mod" | inWord => "in"

/-- The reserved words. -/
def words : List Symbol :=
  [nilWord, notWord, andWord, divWord, packedWord, arrayWord, ofWord, fileWord, setWord,
    recordWord, endWord, caseWord, orWord, functionWord, varWord, procedureWord, beginWord,
    ifWord, thenWord, elseWord, whileWord, doWord, repeatWord, untilWord, forWord, toWord,
    downtoWord, withWord, gotoWord, labelWord, constWord, typeWord, programWord, modWord, inWord]

/-- Whether the symbol is a reserved word. -/
def isWord (s : Symbol) : Bool := words.contains s

/-- The reserved word spelled so, in letters of either case. -/
def ofWord? (word : String) : Option Symbol :=
  words.find? (·.spelling == word.toLower)

/-- The symbols of two characters. -/
def ofPair? : Char → Char → Option Symbol
  | '<', '=' => some lessOrEqual
  | '<', '>' => some notEqual
  | '>', '=' => some greaterOrEqual
  | ':', '=' => some assignment
  | '.', '.' => some doubleDot
  | _, _ => none

/-- The symbols of one character. -/
def ofChar? : Char → Option Symbol
  | '<' => some less
  | '>' => some greater
  | ':' => some colon
  | '.' => some dot
  | '+' => some plus
  | '-' => some minus
  | '*' => some star
  | '/' => some slash
  | '(' => some leftParen
  | ')' => some rightParen
  | '[' => some leftBracket
  | ']' => some rightBracket
  | '=' => some equal
  | ';' => some semicolon
  | ',' => some comma
  | _ => none

end Symbol
end MiniPascal
