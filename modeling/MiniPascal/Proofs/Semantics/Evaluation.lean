import MiniPascal.Proofs.Tree.Typing

/-! What programs mean: the evaluation of syntax trees. It knows of no machine. Fuel bounds how
often each loop goes round, and is all that can run out. -/
namespace MiniPascal

/-- Why an expression has no value. -/
inductive EvalError where
  | divisionByZero
  | illTyped
deriving Repr, DecidableEq

/-- The value of an expression, or why it has none. -/
abbrev Evaluated := Except EvalError Value

/-- The integer of 32 bits that a whole number wraps to. -/
def Value.wrapped (n : Int) : Value := .integer (Int32.ofInt n)

namespace Connective

/-- An operator on two whole numbers. Both divisions truncate. -/
def onIntegers (c : Connective) (l r : Int) : Evaluated :=
  match c with
  | plus => .ok (.wrapped (l + r))
  | minus => .ok (.wrapped (l - r))
  | times => .ok (.wrapped (l * r))
  | slash | div => if r = 0 then .error .divisionByZero else .ok (.wrapped (l.tdiv r))
  | mod => if r = 0 then .error .divisionByZero else .ok (.wrapped (l.tmod r))
  | equal => .ok (.boolean (l = r))
  | notEqual => .ok (.boolean (l ≠ r))
  | less => .ok (.boolean (l < r))
  | lessOrEqual => .ok (.boolean (l ≤ r))
  | greater => .ok (.boolean (r < l))
  | greaterOrEqual => .ok (.boolean (r ≤ l))
  | and | or => .error .illTyped

/-- An operator on two reals. Three of the comparisons are the opposites of the others, also beside
what is not a number. -/
def onReals (c : Connective) (l r : Float) : Evaluated :=
  match c with
  | plus => .ok (.real (l + r))
  | minus => .ok (.real (l - r))
  | times => .ok (.real (l * r))
  | slash => if r == 0 then .error .divisionByZero else .ok (.real (l / r))
  | equal => .ok (.boolean (l == r))
  | notEqual => .ok (.boolean (!(l == r)))
  | less => .ok (.boolean (l < r))
  | lessOrEqual => .ok (.boolean (!decide (r < l)))
  | greater => .ok (.boolean (r < l))
  | greaterOrEqual => .ok (.boolean (!decide (l < r)))
  | div | mod | and | or => .error .illTyped

/-- An operator on two truth values. -/
def onBooleans (c : Connective) (l r : Bool) : Evaluated :=
  match c with
  | and => .ok (.boolean (l && r))
  | or => .ok (.boolean (l || r))
  | equal => .ok (.boolean (l == r))
  | notEqual => .ok (.boolean (l != r))
  | _ => .error .illTyped

/-- An operator on two strings. -/
def onStrings (c : Connective) (l r : String) : Evaluated :=
  match c with
  | plus => .ok (.string (l ++ r))
  | equal => .ok (.boolean (l == r))
  | notEqual => .ok (.boolean (l != r))
  | _ => .error .illTyped

/-- An operator on two values. An integer beside a real counts as a real. -/
def apply (c : Connective) : Value → Value → Evaluated
  | .integer l, .integer r => c.onIntegers l.toInt r.toInt
  | .integer l, .real r => c.onReals (Float.ofInt l.toInt) r
  | .real l, .integer r => c.onReals l (Float.ofInt r.toInt)
  | .real l, .real r => c.onReals l r
  | .boolean l, .boolean r => c.onBooleans l r
  | .string l, .string r => c.onStrings l r
  | _, _ => .error .illTyped

end Connective

namespace Value

/-- A number with a sign before it. -/
def signed (minus : Bool) : Value → Evaluated
  | integer v => .ok (if minus then .wrapped (-v.toInt) else integer v)
  | real v => .ok (real (if minus then -v else v))
  | _ => .error .illTyped

/-- The opposite of a truth value. -/
def negated : Value → Evaluated
  | boolean v => .ok (boolean (!v))
  | _ => .error .illTyped

/-- The value as a variable of the type takes it: an integer is widened to a real. -/
def converted (v : Value) (t : Ty) : Value :=
  match v, t with
  | integer n, .real => real (Float.ofInt n.toInt)
  | v, _ => v

end Value

/-- The values of the variables, by the keys of their names. -/
abbrev Memory := String → Option Value

namespace Memory

/-- Every variable at the zero of its type. -/
def initial (vs : List (String × Ty)) : Memory := fun key =>
  (vs.find? (Scope.key ·.1 == key)).map fun v => Value.zero v.2

/-- The memory with a new value for a variable. -/
def set (m : Memory) (key : String) (v : Value) : Memory := fun k =>
  if k = key then some v else m k

/-- The value a name stands for. -/
def read (m : Memory) (x : String) : Evaluated :=
  match m (Scope.key x), builtinNames x with
  | some v, _ => .ok v
  | none, some (.constant v) => .ok v
  | _, _ => .error .illTyped

end Memory

/-- The value of an expression. Both operands are evaluated, the left one first. -/
def Expr.eval (m : Memory) : Expr → Evaluated
  | name x => m.read x
  | constant v => .ok v
  | signed minus e => do (← e.eval m).signed minus
  | not e => do (← e.eval m).negated
  | binary c l r => do
    let a ← l.eval m
    let b ← r.eval m
    c.apply a b

/-- The truth value of a condition. -/
def Expr.truth (m : Memory) (e : Expr) : Except EvalError Bool := do
  match ← e.eval m with
  | .boolean b => return b
  | _ => throw .illTyped

/-- What a program has done so far. -/
structure Progress where
  memory : Memory
  output : ByteArray

/-- How far a program has got. -/
inductive Outcome where
  /-- It has come to its end. -/
  | done (q : Progress)
  /-- A division by zero ended it, and this is what it had printed. -/
  | aborted (output : ByteArray)
  /-- Some value was not of the type it had to be. -/
  | illTyped
  | outOfFuel

/-- What follows if the end has been reached. -/
def Outcome.andThen (o : Outcome) (f : Progress → Outcome) : Outcome :=
  match o with
  | done q => f q
  | o => o

/-- What follows if there is a value. -/
def Progress.use {α : Type} (q : Progress) (r : Except EvalError α) (f : α → Outcome) : Outcome :=
  match r with
  | .ok v => f v
  | .error .divisionByZero => .aborted q.output
  | .error .illTyped => .illTyped

/-- Prints a value on a line of its own. -/
def Progress.print (q : Progress) (v : Value) : Progress :=
  { q with output := q.output ++ (v.printed ++ "\n").toUTF8 }

/-- Evaluates and prints one expression after the other. -/
def printAll : List Expr → Progress → Outcome
  | [], q => .done q
  | e :: es, q => q.use (e.eval q.memory) fun v => printAll es (q.print v)

/-- Goes round for as long as the condition holds, and no more often than the fuel allows. -/
def repeatWhile (c : Expr) (body : Progress → Outcome) : Nat → Progress → Outcome
  | 0, _ => .outOfFuel
  | n + 1, q => q.use (c.truth q.memory) fun b =>
    if b then (body q).andThen (repeatWhile c body n) else .done q

/-- The types of the variables, by the keys of their names. -/
def typesOf (vs : List (String × Ty)) : String → Option Ty := fun key =>
  (vs.find? (Scope.key ·.1 == key)).map (·.2)

/-- Executes a statement. -/
def Stmt.exec (types : String → Option Ty) (fuel : Nat) : Stmt → Progress → Outcome
  | skip, q => .done q
  | seq a b, q => (a.exec types fuel q).andThen (b.exec types fuel)
  | assign x e, q => q.use (e.eval q.memory) fun v =>
    match types (Scope.key x) with
    | some t => .done { q with memory := q.memory.set (Scope.key x) (v.converted t) }
    | none => .illTyped
  | write es, q => printAll es q
  | ifThen c a, q => q.use (c.truth q.memory) fun b => if b then a.exec types fuel q else .done q
  | ifElse c a a', q => q.use (c.truth q.memory) fun b =>
    if b then a.exec types fuel q else a'.exec types fuel q
  | loop c a, q => repeatWhile c (a.exec types fuel) fuel q

namespace Tree

variable (a : Tree)

/-- Executes a program from the start. -/
def run (fuel : Nat) : Outcome :=
  a.body.exec (typesOf a.vars) fuel ⟨.initial a.vars, .empty⟩

/-- The program comes to its end and has printed the bytes. -/
def Terminates (o : ByteArray) : Prop := ∃ fuel m, a.run fuel = .done ⟨m, o⟩

/-- The program divides by zero and has printed the bytes by then. -/
def DividesByZero (o : ByteArray) : Prop := ∃ fuel, a.run fuel = .aborted o

/-- The program never comes to an end. -/
def RunsForever : Prop := ∀ fuel, a.run fuel = .outOfFuel

end Tree
end MiniPascal
