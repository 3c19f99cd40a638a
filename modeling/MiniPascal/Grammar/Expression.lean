import MiniPascal.Grammar.Production

/-! Expressions. Each production answers the type of the value its code leaves on the stack. Chains
and nesting are bounded by the number of tokens of the text, which they never reach. -/
namespace MiniPascal.Grammar

/-- The comparison a token stands for. -/
def comparison? : TokenKind → Option Operator
  | .symbol .equal => some .equal
  | .symbol .notEqual => some .notEqual
  | .symbol .less => some .less
  | .symbol .lessOrEqual => some .lessOrEqual
  | .symbol .greater => some .greater
  | .symbol .greaterOrEqual => some .greaterOrEqual
  | _ => none

/-- The operator between terms a token stands for. -/
def additive? : TokenKind → Option Operator
  | .symbol .plus => some .add
  | .symbol .minus => some .sub
  | .symbol .orWord => some .or
  | _ => none

/-- The operator between factors a token stands for, and whether it is for integers only. -/
def multiplicative? : TokenKind → Option (Operator × Bool)
  | .symbol .star => some (.mul, false)
  | .symbol .slash => some (.div, false)
  | .symbol .divWord => some (.div, true)
  | .symbol .modWord => some (.mod, true)
  | .symbol .andWord => some (.and, false)
  | _ => none

/-- Whether values of two types can be compared: numbers always, truth values and strings for
equality among their own. -/
def comparable (op : Operator) (left right : Ty) : Bool :=
  (left.isNumeric && right.isNumeric) ||
    ((op == .equal || op == .notEqual) && left == right && (left == .boolean || left == .string))

/-- A chain of operands, grouped from the left. -/
def chain {ω : Type} (operator? : TokenKind → Option ω) (operand : Production Ty)
    (combine : ω → Ty → Ty → Production Ty) : Nat → Ty → Production Ty
  | 0, left => return left
  | bound + 1, left => do
    match operator? (← kind) with
    | none => return left
    | some op =>
      advance
      let right ← operand
      let t ← combine op left right
      chain operator? operand combine bound t

/-- The code of an operator between terms that begin at an offset, and its type. -/
def add (start : Nat) (op : Operator) (left right : Ty) : Production Ty := do
  if (op == .add || op == .sub) && left.isNumeric && right.isNumeric then
    emit op.code
    join left right
  else if op == .add && left == .string && right == .string then
    emit [.concat]
    return .string
  else if op == .or && left == .boolean && right == .boolean then
    emit op.code
    return .boolean
  else reject (.operandTypes op left right) (← spanFrom start)

/-- The code of an operator between factors that begin at an offset, and its type. -/
def multiply (start : Nat) (op : Operator × Bool) (left right : Ty) : Production Ty := do
  let (op, integers) := op
  let t ←
    if (op == .mul || op == .div) && !integers && left.isNumeric && right.isNumeric then
      join left right
    else if (op == .div || op == .mod) && integers && left == .integer && right == .integer then
      pure Ty.integer
    else if op == .and && left == .boolean && right == .boolean then
      pure Ty.boolean
    else reject (.operandTypes op left right) (← spanFrom start)
  emit op.code
  return t

/-- Factors joined by multiplying operators. -/
def term (bound : Nat) (factor : Production Ty) : Production Ty := do
  let start := (← here).offset
  let first ← factor
  chain multiplicative? factor (multiply start) bound first

/-- The sign before a term: whether it is a minus. -/
def sign? : TokenKind → Option Bool
  | .symbol .plus => some false
  | .symbol .minus => some true
  | _ => none

/-- Terms joined by adding operators, the first with an optional sign. -/
def sum (bound : Nat) (factor : Production Ty) : Production Ty := do
  let start := (← here).offset
  let sign := sign? (← kind)
  if sign.isSome then advance
  let first ← term bound factor
  if sign.isSome && !first.isNumeric then reject (.signType first) (← spanFrom start)
  if sign == some true then emit [.neg]
  chain additive? (term bound factor) (add start) bound first

/-- A sum, or two sums compared. -/
def comparison (bound : Nat) (factor : Production Ty) : Production Ty := do
  let start := (← here).offset
  let left ← sum bound factor
  if ← at? .inWord then unsupported .setMembership
  match comparison? (← kind) with
  | none => return left
  | some op =>
    advance
    let right ← sum bound factor
    if comparable op left right then
      emit op.code
      return .boolean
    else reject (.comparedTypes op left right) (← spanFrom start)

/-- A constant. -/
def constant (v : Value) : Production Ty := do
  emit [.push v]
  advance
  return v.ty

/-- A name, a constant, a negated factor or an expression in parentheses, made of the given
factors. -/
def primary (bound : Nat) (nested : Production Ty) : Production Ty := do
  let span ← here
  match ← kind with
  | .identifier name =>
    match ← lookup name span with
    | .var t slot =>
      emit [.load slot]
      advance
      return t
    | .constant v => constant v
    | e => reject (.notAValue e name) span
  | .integer v => constant (.integer v)
  | .real v => constant (.real v)
  | .string v => constant (.string v)
  | .symbol .notWord =>
    advance
    let t ← nested
    if t == .boolean then
      emit [.not]
      return .boolean
    else reject (.negatedType t) (← spanFrom span.offset)
  | .symbol .leftParen =>
    advance
    let t ← comparison bound nested
    accept .rightParen
    return t
  | .symbol .nilWord => unsupported .pointers
  | _ => unexpected .expression

/-- A factor with at most `depth` others around the innermost one. -/
def factor (bound : Nat) : Nat → Production Ty
  | 0 => unexpected .expression
  | depth + 1 => primary bound (factor bound depth)

/-- An expression. -/
def expression (bound : Nat) : Production Ty := comparison bound (factor bound bound)

end MiniPascal.Grammar
