import MiniPascal.Text.Line

/-! Places in a text as editors count them: lines from zero, columns in UTF-16 units. -/
namespace MiniPascal.Editor

/-- A place between two characters. -/
structure Position where
  line : Nat
  character : Nat
deriving Repr, DecidableEq, Inhabited

/-- The stretch between two places. -/
structure TextRange where
  start : Position
  stop : Position
deriving Repr, DecidableEq, Inhabited

/-- The place of a byte offset. Offsets past the end are at the end; an offset inside or behind a
line break is at the start of the next line. Inside a character there is no place. -/
def position? (t : SourceText) (offset : Nat) : Option Position :=
  let offset := min offset t.size
  let (line, column) := t.lineColumn offset
  if (t.lines[line]?).any (·.length < column) then some ⟨line + 1, 0⟩
  else (t.slice? ⟨offset - column, column⟩).map fun cs => ⟨line, Text.size16 cs⟩

/-- The places of the two ends of a stretch of bytes. -/
def range? (t : SourceText) (span : Span) : Option TextRange := do
  return ⟨← position? t span.offset, ← position? t span.stop⟩

end MiniPascal.Editor
