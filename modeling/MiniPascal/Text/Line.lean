import MiniPascal.Text.Bytes

/-! The lines of a text. A line ends at a CR LF pair, a lone CR or a lone LF; a text that ends
with a break has no further line after it. -/
namespace MiniPascal

/-- A stretch of a text, in bytes. -/
structure Span where
  offset : Nat
  length : Nat
deriving Repr, DecidableEq, Inhabited

/-- The offset just after the stretch. -/
def Span.stop (s : Span) : Nat := s.offset + s.length

/-- A line, with its length up to its break and its length with the break. -/
structure Line where
  start : Nat
  length : Nat
  fullLength : Nat
deriving Repr, DecidableEq, Inhabited

namespace Line

/-- The lines of the characters at `offset`, the first of which belongs to a line begun at `start`. -/
def split (start offset : Nat) : List Char → List Line
  | [] => if start < offset then [⟨start, offset - start, offset - start⟩] else []
  | '\r' :: '\n' :: cs =>
    ⟨start, offset - start, offset - start + 2⟩ :: split (offset + 2) (offset + 2) cs
  | c :: cs =>
    if c = '\r' ∨ c = '\n' then
      ⟨start, offset - start, offset - start + 1⟩ :: split (offset + 1) (offset + 1) cs
    else split start (offset + c.utf8Size) cs

end Line

/-- A text together with its length in bytes and its line table. -/
structure SourceText where
  chars : List Char
  size : Nat := Text.size chars
  size_eq : size = Text.size chars := by rfl
  lines : List Line := Line.split 0 0 chars
  lines_eq : lines = Line.split 0 0 chars := by rfl

namespace SourceText

/-- The text of a string. -/
def ofString (s : String) : SourceText := { chars := s.toList }

/-- The characters of a stretch, if it lies in the text and starts and ends between characters. -/
def slice? (t : SourceText) (span : Span) : Option (List Char) :=
  Text.slice? t.chars span.offset span.length

/-- The character that starts at an offset. -/
def charAt? (t : SourceText) (offset : Nat) : Option Char := Text.charAt? t.chars offset

/-- The text of a line without its break. -/
def lineText? (t : SourceText) (index : Nat) : Option (List Char) := do
  let line ← t.lines[index]?
  t.slice? ⟨line.start, line.length⟩

/-- The line an offset belongs to; offsets past the end belong to the last line. -/
def lineIndex (t : SourceText) (offset : Nat) : Nat :=
  t.lines.countP (·.start ≤ offset) - 1

/-- The line of an offset and its distance in bytes from the start of that line. -/
def lineColumn (t : SourceText) (offset : Nat) : Nat × Nat :=
  let index := t.lineIndex offset
  (index, offset - (t.lines[index]?.map (·.start)).getD 0)

end SourceText
end MiniPascal
