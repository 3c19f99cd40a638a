import MiniPascal.Token.Symbol
import MiniPascal.Text.Line
import MiniPascal.Value

/-! Tokens: what a lexeme means and where it stands. -/
namespace MiniPascal

/-- The kinds of tokens. A malformed or unknown lexeme still yields a token; `endOfText` follows
the last lexeme. -/
inductive TokenKind where
  | identifier (name : String)
  | symbol (s : Symbol)
  | integer (v : Int32)
  | real (v : Float)
  | string (v : String)
  | endOfText
  | malformed
  | unknown
deriving Repr, DecidableEq, Inhabited

namespace TokenKind

/-- The token as an error message names it. -/
def describe : TokenKind → String
  | identifier name => "identifier `" ++ name ++ "`"
  | symbol s => "`" ++ s.spelling ++ "`"
  | integer v => "integer constant `" ++ toString v.toInt ++ "`"
  | real v => "real constant `" ++ RealNotation.printed.text v ++ "`"
  | string v => "string constant '" ++ v ++ "'"
  | endOfText => "end of file"
  | malformed => "malformed token"
  | unknown => "unknown symbol"

/-- Whether a parser sees the token. Malformed and unknown lexemes are reported and passed over. -/
def isMeaningful : TokenKind → Bool
  | malformed | unknown => false
  | _ => true

end TokenKind

/-- A token and the stretch of text it covers. -/
structure Token where
  kind : TokenKind
  span : Span
deriving Repr, DecidableEq, Inhabited

namespace Token

/-- The offset just after the token. -/
def stop (t : Token) : Nat := t.span.stop

/-- Whether the text has ended. -/
def isEnd (t : Token) : Bool := t.kind == .endOfText

/-- Whether the token is the given symbol. -/
def isSymbol (t : Token) (s : Symbol) : Bool := t.kind == .symbol s

end Token
end MiniPascal
