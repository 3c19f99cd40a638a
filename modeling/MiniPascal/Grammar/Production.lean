import MiniPascal.Grammar.Rejection

/-! Productions: they read tokens, check names and types, and emit code as they go. What has been
emitted stays emitted, so the first rejection ends everything. -/
namespace MiniPascal.Grammar

/-- The tokens still to be read, and what has been made of the others. -/
structure State where
  /-- The token under consideration. -/
  current : Token
  /-- The tokens behind it; none behind the end of the text. -/
  ahead : List Token
  /-- The offset just after the last token that was passed. -/
  lastStop : Nat
  scopes : Scopes
  code : CodeBuffer
deriving Repr, Inhabited

/-- Why reading ended early. -/
inductive Stop where
  | rejected (r : Rejection)
  | defect (d : Defect)
deriving Repr, DecidableEq

/-- A reader of part of a program. -/
abbrev Production := EStateM Stop State

/-- The state with the current token passed. The end of the text is never passed. -/
def State.advance (s : State) : State :=
  match s.ahead with
  | [] => { s with lastStop := s.current.stop }
  | t :: ts => { s with current := t, ahead := ts, lastStop := s.current.stop }

/-- Passes the current token. -/
def advance : Production Unit := modify State.advance

/-- The kind of the current token. -/
def kind : Production TokenKind := return (← get).current.kind

/-- The stretch of the current token. -/
def here : Production Span := return (← get).current.span

/-- Whether the current token is the given symbol. -/
def at? (s : Symbol) : Production Bool := return (← get).current.isSymbol s

/-- The stretch from an offset to the last token that was passed. -/
def spanFrom (start : Nat) : Production Span := return ⟨start, (← get).lastStop - start⟩

/-- Rejects the text at a place. -/
def reject {α : Type} (cause : Cause) (span : Span) : Production α := throw (.rejected ⟨cause, span⟩)

/-- Rejects the current token. -/
def unexpected {α : Type} (e : Expectation) : Production α := do
  reject (.unexpected e (← kind)) (← here)

/-- Rejects a construct that begins with the current token. -/
def unsupported {α : Type} (f : Feature) : Production α := do reject (.unsupported f) (← here)

/-- Passes the given symbol. -/
def accept (s : Symbol) : Production Unit := do
  if ← at? s then advance else unexpected (.symbol s)

/-- Passes an identifier. -/
def identifier : Production (String × Span) := do
  match ← kind with
  | .identifier name =>
    let span ← here
    advance
    return (name, span)
  | _ => unexpected .identifier

/-- What a name read at a place stands for. -/
def lookup (name : String) (span : Span) : Production Entry := do
  match (← get).scopes.find? name with
  | some e => return e
  | none => reject (.undefined name) span

/-- Binds a name read at a place. -/
def declare (name : String) (e : Entry) (span : Span) : Production Unit := do
  match (← get).scopes.declare? name e with
  | some scopes => modify fun s => { s with scopes }
  | none => reject (.duplicate name) span

/-- Emits instructions. -/
def emit (is : List Instr) : Production Unit := modify fun s => { s with code := s.code.emitAll is }

/-- Allots a slot. -/
def declareSlot (t : Ty) : Production Slot := modifyGet fun s =>
  let (slot, code) := s.code.declareSlot t
  (slot, { s with code })

/-- Allots a label. -/
def defineLabel : Production Label := modifyGet fun s =>
  let (label, code) := s.code.defineLabel
  (label, { s with code })

/-- The type that holds values of two types. -/
def join (a b : Ty) : Production Ty :=
  match a.join? b with
  | some t => return t
  | none => throw (.defect (.unjoinable a b))

end MiniPascal.Grammar
