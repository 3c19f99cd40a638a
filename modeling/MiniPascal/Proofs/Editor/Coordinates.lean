import MiniPascal.Proofs.Editor.Position

/-! What a place says to an editor. An editor splits a text at its line breaks, with an empty line
behind a break at the end, and counts UTF-16 units within a line. Read in this way, a place leads
back to its offset, and its line is that of the line table but for two kinds of offsets. -/
namespace MiniPascal

namespace Text

variable {n : Nat} {cs body brk rest tail xs ys : List Char} {ls : List Line}

end Text

namespace Editor

/-- A line as an editor sees it, and the break behind it if there is one. -/
structure DocumentLine where
  text : List Char
  brk : List Char

/-- The characters of a line with those of its break. -/
def DocumentLine.chars (l : DocumentLine) : List Char := l.text ++ l.brk

section
variable {n : Nat} {body brk cs rest tail xs ys : List Char} {p : Position} {ls : List Line}
  {l : DocumentLine} {ds : List DocumentLine}

namespace Position

end Position

variable {t : SourceText} {a b : Nat}

end
end Editor
end MiniPascal
