import MiniPascal.Grammar.Statement

/-! Programs: a heading, variables, and a compound statement. -/
namespace MiniPascal.Grammar

/-- Rejects declarations other than those of variables. -/
def noDeclarations : Production Unit := do
  match ← kind with
  | .symbol .labelWord => unsupported .labelDeclarations
  | .symbol .constWord => unsupported .constantDeclarations
  | .symbol .typeWord => unsupported .typeDeclarations
  | .symbol .procedureWord | .symbol .functionWord => unsupported .routineDeclarations
  | _ => return ()

/-- The name of a type. -/
def typeName : Production Ty := do
  match ← kind with
  | .identifier name =>
    let span ← here
    match ← lookup name span with
    | .type t =>
      if (← get).scopes.isRegistered t then
        advance
        return t
      else reject (.notAType name) span
    | _ => reject (.notAType name) span
  | .symbol .arrayWord => unsupported .arrayTypes
  | .symbol .recordWord => unsupported .recordTypes
  | .symbol .setWord => unsupported .setTypes
  | .symbol .fileWord => unsupported .fileTypes
  | .symbol .packedWord => unsupported .packedTypes
  | _ => unexpected .typeName

/-- The names behind the first of a list. -/
def moreNames : Nat → Production (List (String × Span))
  | 0 => return []
  | count + 1 => do
    if ← at? .comma then
      advance
      let name ← identifier
      return name :: (← moreNames count)
    else return []

/-- Binds a name to a new slot. The slot is set up before the name is found to be taken. -/
def declareVariable (t : Ty) (name : String × Span) : Production Unit := do
  let slot ← declareSlot t
  declare name.1 (.var t slot) name.2

/-- Names and their type. -/
def variableDeclaration (bound : Nat) : Production Unit := do
  let first ← identifier
  let more ← moreNames bound
  accept .colon
  let t ← typeName
  (first :: more).forM (declareVariable t)

/-- Declarations, as long as one more begins. -/
def variableDeclarations (bound : Nat) : Nat → Production Unit
  | 0 => return ()
  | count + 1 => do
    variableDeclaration bound
    accept .semicolon
    if let .identifier _ ← kind then variableDeclarations bound count

/-- The variables of a program, if it has any. -/
def declarations (bound : Nat) : Production Unit := do
  if ← at? .varWord then
    advance
    variableDeclarations bound bound

/-- A whole program, up to the point that ends it; the bound is the number of its tokens. -/
def program (bound : Nat) : Production Unit := do
  accept .programWord
  let _ ← identifier
  accept .semicolon
  noDeclarations
  declarations bound
  noDeclarations
  compound bound (statement bound bound)
  accept .dot

end MiniPascal.Grammar
