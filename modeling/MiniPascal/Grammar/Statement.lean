import MiniPascal.Grammar.Expression

/-! Statements and the conditions that guide them. Sequences and nesting are bounded by the number
of tokens of the text, which they never reach. -/
namespace MiniPascal.Grammar

/-- The procedure that prints its arguments. -/
def printName : String := "writeln"

/-- The value assigned to a name that has been read; the assignment symbol comes next. -/
def assignment (bound : Nat) (name : String) (span : Span) : Production Unit := do
  match ← lookup name span with
  | .var declared slot =>
    accept .assignment
    let start := (← here).offset
    let found ← expression bound
    if found == .integer && declared == .real then emit [.widen]
    else if found != declared then
      reject (.assignedType found name declared) (← spanFrom start)
    emit [.store slot]
  | e => reject (.notAssignable e name) span

/-- Expressions separated by commas, each printed before the next is read. -/
def arguments (bound : Nat) : Nat → Production Unit
  | 0 => return ()
  | count + 1 => do
    let t ← expression bound
    emit [.print t]
    if ← at? .comma then
      advance
      arguments bound count

/-- The arguments of a procedure whose name has been read. There is a single procedure. -/
def call (bound : Nat) (name : String) (span : Span) : Production Unit := do
  if name.toLower == printName then
    accept .leftParen
    unless ← at? .rightParen do arguments bound bound
    accept .rightParen
  else
    let e ← lookup name span
    reject (.notAProcedure e name) span

/-- A truth value that decides how the given statement goes on. -/
def condition (bound : Nat) (statement : Symbol) : Production Unit := do
  let start := (← here).offset
  let t ← expression bound
  unless t == .boolean do reject (.conditionType statement t) (← spanFrom start)

/-- A statement that runs under a condition, and perhaps another that runs otherwise. -/
def choice (bound : Nat) (statement : Production Unit) : Production Unit := do
  accept .ifWord
  condition bound .ifWord
  accept .thenWord
  let otherwise ← defineLabel
  let done ← defineLabel
  emit [.jumpIfFalse otherwise]
  statement
  emit [.jump done, .label otherwise]
  if ← at? .elseWord then
    advance
    statement
  emit [.label done]

/-- A statement that runs as long as a condition holds. -/
def loop (bound : Nat) (statement : Production Unit) : Production Unit := do
  accept .whileWord
  let again ← defineLabel
  let done ← defineLabel
  emit [.label again]
  condition bound .whileWord
  accept .doWord
  emit [.jumpIfFalse done]
  statement
  emit [.jump again, .label done]

/-- The statements behind the first of a sequence; a semicolon may stand before its end. -/
def sequence (statement : Production Unit) : Nat → Production Unit
  | 0 => return ()
  | count + 1 => do
    if ← at? .semicolon then
      advance
      unless ← at? .endWord do
        statement
        sequence statement count

/-- Statements between `begin` and `end`. -/
def compound (bound : Nat) (statement : Production Unit) : Production Unit := do
  accept .beginWord
  if ← at? .endWord then advance
  else
    statement
    sequence statement bound
    accept .endWord

/-- An assignment or a call, its name first. -/
def simple (bound : Nat) (name : String) : Production Unit := do
  let span ← here
  advance
  if ← at? .assignment then assignment bound name span
  else if ← at? .leftParen then call bound name span
  else unexpected (.assignmentOrCall name)

/-- A statement nested no deeper than a given depth. -/
def statement (bound : Nat) : Nat → Production Unit
  | 0 => unexpected .statement
  | depth + 1 => do
    match ← kind with
    | .identifier name => simple bound name
    | .symbol .beginWord => compound bound (statement bound depth)
    | .symbol .ifWord => choice bound (statement bound depth)
    | .symbol .whileWord => loop bound (statement bound depth)
    | .symbol .caseWord => unsupported .caseStatements
    | .symbol .repeatWord => unsupported .repeatLoops
    | .symbol .forWord => unsupported .forLoops
    | .symbol .withWord => unsupported .withStatements
    | .symbol .gotoWord => unsupported .gotoStatements
    | _ => unexpected .statement

end MiniPascal.Grammar
