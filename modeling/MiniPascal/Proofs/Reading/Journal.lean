import MiniPascal.Proofs.Reading.Production

/-! Readings that keep a journal. They are the productions of the grammar once more, with a note of
each token that is passed, of each rule that is entered or left, and of each round of a loop.
Without the notes they are the productions themselves. -/
namespace MiniPascal.Grammar

/-- The rules of the grammar that call others. -/
inductive Rule where
  | program
  | declarations
  | variableDeclaration
  | typeName
  | compound
  | statement
  | assignment
  | call
  | choice
  | loop
  | condition
  | expression
  | sum
  | term
  | factor
deriving Repr, DecidableEq

/-- The loops of the grammar. -/
inductive Loop where
  | declarations
  | names
  | sequence
  | arguments
  | terms
  | factors
deriving Repr, DecidableEq

/-- A note in a journal. -/
inductive Note where
  | pass (t : Token)
  | enter (r : Rule)
  | leave
  | round (l : Loop)
  /-- A bound on a loop or on nesting is used up. -/
  | spent
deriving Repr, DecidableEq

/-- A production that keeps a journal. -/
def Journaled (α : Type) : Type := State → List Note × EStateM.Result Stop State α

namespace Journaled

variable {α β ω : Type}

/-- A production that has nothing to note. -/
def silent (p : Production α) : Journaled α := fun s => ([], p s)

/-- One production behind another, and one journal behind the other. -/
protected def bind (x : Journaled α) (f : α → Journaled β) : Journaled β := fun s =>
  match x s with
  | (notes, .ok a s') => (notes ++ (f a s').1, (f a s').2)
  | (notes, .error e s') => (notes, .error e s')

instance : Monad Journaled := { pure := fun a => silent (pure a), bind := Journaled.bind }

instance : MonadLift Production Journaled := ⟨silent⟩

/-- Makes a note. -/
def note (n : Note) : Journaled Unit := fun s => ([n], .ok () s)

/-- Passes the current token. -/
def advance : Journaled Unit := fun s => ([.pass s.current], Grammar.advance s)

/-- The rule is entered and, unless the text is rejected within it, left. -/
def within (r : Rule) (x : Journaled α) : Journaled α := do
  note (.enter r)
  let a ← x
  note .leave
  return a

def accept (s : Symbol) : Journaled Unit := do
  if ← at? s then advance else unexpected (.symbol s)

def identifier : Journaled (String × Span) := do
  match ← kind with
  | .identifier name =>
    let span ← here
    advance
    return (name, span)
  | _ => unexpected .identifier

def chain (loop : Loop) (operator? : TokenKind → Option ω) (operand : Journaled Ty)
    (combine : ω → Ty → Ty → Production Ty) : Nat → Ty → Journaled Ty
  | 0, left => do
    note .spent
    return left
  | bound + 1, left => do
    note (.round loop)
    match operator? (← kind) with
    | none => return left
    | some op =>
      advance
      let right ← operand
      let t ← combine op left right
      chain loop operator? operand combine bound t

def term (bound : Nat) (factor : Journaled Ty) : Journaled Ty := within .term do
  let start := (← here).offset
  let first ← factor
  chain .factors multiplicative? factor (multiply start) bound first

def sum (bound : Nat) (factor : Journaled Ty) : Journaled Ty := within .sum do
  let start := (← here).offset
  let sign := sign? (← kind)
  if sign.isSome then advance
  let first ← term bound factor
  if sign.isSome && !first.isNumeric then reject (.signType first) (← spanFrom start)
  if sign == some true then emit [.neg]
  chain .terms additive? (term bound factor) (add start) bound first

def comparison (bound : Nat) (factor : Journaled Ty) : Journaled Ty := within .expression do
  let start := (← here).offset
  let left ← sum bound factor
  if ← at? .inWord then unsupported .setMembership
  match comparison? (← kind) with
  | none => return left
  | some op =>
    advance
    let right ← sum bound factor
    if comparable op left right then
      emit op.code
      return .boolean
    else reject (.comparedTypes op left right) (← spanFrom start)

def constant (v : Value) : Journaled Ty := do
  emit [.push v]
  advance
  return v.ty

def primary (bound : Nat) (nested : Journaled Ty) : Journaled Ty := within .factor do
  let span ← here
  match ← kind with
  | .identifier name =>
    match ← lookup name span with
    | .var t slot =>
      emit [.load slot]
      advance
      return t
    | .constant v => constant v
    | e => reject (.notAValue e name) span
  | .integer v => constant (.integer v)
  | .real v => constant (.real v)
  | .string v => constant (.string v)
  | .symbol .notWord =>
    advance
    let t ← nested
    if t == .boolean then
      emit [.not]
      return .boolean
    else reject (.negatedType t) (← spanFrom span.offset)
  | .symbol .leftParen =>
    advance
    let t ← comparison bound nested
    accept .rightParen
    return t
  | .symbol .nilWord => unsupported .pointers
  | _ => unexpected .expression

def factor (bound : Nat) : Nat → Journaled Ty
  | 0 => do
    note .spent
    unexpected .expression
  | depth + 1 => primary bound (factor bound depth)

def expression (bound : Nat) : Journaled Ty := comparison bound (factor bound bound)

def assignment (bound : Nat) (name : String) (span : Span) : Journaled Unit := within .assignment do
  match ← lookup name span with
  | .var declared slot =>
    accept .assignment
    let start := (← here).offset
    let found ← expression bound
    if found == .integer && declared == .real then emit [.widen]
    else if found != declared then
      reject (.assignedType found name declared) (← spanFrom start)
    emit [.store slot]
  | e => reject (.notAssignable e name) span

def arguments (bound : Nat) : Nat → Journaled Unit
  | 0 => note .spent
  | count + 1 => do
    note (.round .arguments)
    let t ← expression bound
    emit [.print t]
    if ← at? .comma then
      advance
      arguments bound count

def call (bound : Nat) (name : String) (span : Span) : Journaled Unit := within .call do
  if name.toLower == printName then
    accept .leftParen
    unless ← at? .rightParen do arguments bound bound
    accept .rightParen
  else
    let e ← lookup name span
    reject (.notAProcedure e name) span

def condition (bound : Nat) (statement : Symbol) : Journaled Unit := within .condition do
  let start := (← here).offset
  let t ← expression bound
  unless t == .boolean do reject (.conditionType statement t) (← spanFrom start)

def choice (bound : Nat) (statement : Journaled Unit) : Journaled Unit := within .choice do
  accept .ifWord
  condition bound .ifWord
  accept .thenWord
  let otherwise ← defineLabel
  let done ← defineLabel
  emit [.jumpIfFalse otherwise]
  statement
  emit [.jump done, .label otherwise]
  if ← at? .elseWord then
    advance
    statement
  emit [.label done]

def loop (bound : Nat) (statement : Journaled Unit) : Journaled Unit := within .loop do
  accept .whileWord
  let again ← defineLabel
  let done ← defineLabel
  emit [.label again]
  condition bound .whileWord
  accept .doWord
  emit [.jumpIfFalse done]
  statement
  emit [.jump again, .label done]

def sequence (statement : Journaled Unit) : Nat → Journaled Unit
  | 0 => note .spent
  | count + 1 => do
    note (.round .sequence)
    if ← at? .semicolon then
      advance
      unless ← at? .endWord do
        statement
        sequence statement count

def compound (bound : Nat) (statement : Journaled Unit) : Journaled Unit := within .compound do
  accept .beginWord
  if ← at? .endWord then advance
  else
    statement
    sequence statement bound
    accept .endWord

def simple (bound : Nat) (name : String) : Journaled Unit := do
  let span ← here
  advance
  if ← at? .assignment then assignment bound name span
  else if ← at? .leftParen then call bound name span
  else unexpected (.assignmentOrCall name)

def statement (bound : Nat) : Nat → Journaled Unit
  | 0 => do
    note .spent
    unexpected .statement
  | depth + 1 => within .statement do
    match ← kind with
    | .identifier name => simple bound name
    | .symbol .beginWord => compound bound (statement bound depth)
    | .symbol .ifWord => choice bound (statement bound depth)
    | .symbol .whileWord => loop bound (statement bound depth)
    | .symbol .caseWord => unsupported .caseStatements
    | .symbol .repeatWord => unsupported .repeatLoops
    | .symbol .forWord => unsupported .forLoops
    | .symbol .withWord => unsupported .withStatements
    | .symbol .gotoWord => unsupported .gotoStatements
    | _ => unexpected .statement

def typeName : Journaled Ty := within .typeName do
  match ← kind with
  | .identifier name =>
    let span ← here
    match ← lookup name span with
    | .type t =>
      if (← get).scopes.isRegistered t then
        advance
        return t
      else reject (.notAType name) span
    | _ => reject (.notAType name) span
  | .symbol .arrayWord => unsupported .arrayTypes
  | .symbol .recordWord => unsupported .recordTypes
  | .symbol .setWord => unsupported .setTypes
  | .symbol .fileWord => unsupported .fileTypes
  | .symbol .packedWord => unsupported .packedTypes
  | _ => unexpected .typeName

def moreNames : Nat → Journaled (List (String × Span))
  | 0 => do
    note .spent
    return []
  | count + 1 => do
    note (.round .names)
    if ← at? .comma then
      advance
      let name ← identifier
      return name :: (← moreNames count)
    else return []

def variableDeclaration (bound : Nat) : Journaled Unit := within .variableDeclaration do
  let first ← identifier
  let more ← moreNames bound
  accept .colon
  let t ← typeName
  silent ((first :: more).forM (declareVariable t))

def variableDeclarations (bound : Nat) : Nat → Journaled Unit
  | 0 => note .spent
  | count + 1 => do
    note (.round .declarations)
    variableDeclaration bound
    accept .semicolon
    if let .identifier _ ← kind then variableDeclarations bound count

def declarations (bound : Nat) : Journaled Unit := within .declarations do
  if ← at? .varWord then
    advance
    variableDeclarations bound bound

def program (bound : Nat) : Journaled Unit := within .program do
  accept .programWord
  let _ ← identifier
  accept .semicolon
  noDeclarations
  declarations bound
  noDeclarations
  compound bound (statement bound bound)
  accept .dot

end Journaled
end MiniPascal.Grammar
