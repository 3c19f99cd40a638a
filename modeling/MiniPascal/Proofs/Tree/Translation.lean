import MiniPascal.Proofs.Tree.Typing

/-! The code of a syntax tree, part by part. Labels are numbered in the order of the statements
that need them, two for each. -/
namespace MiniPascal

/-- The label of a number. -/
def labelOf (n : Nat) : Label := ⟨UInt32.ofNat n⟩

/-- The code of an operator whose left operand has the given type. -/
def Connective.code (c : Connective) (left : Option Ty) : List Instr :=
  if c = .plus ∧ left = some .string then [.concat] else c.operator.code

/-- The code that puts the value of a name on the stack. -/
def Entry.code : Entry → List Instr
  | var _ s => [.load s]
  | constant v => [.push v]
  | _ => []

/-- The code that puts the value of an expression on the stack. -/
def Expr.code (names : Names) : Expr → List Instr
  | name x => (names x).elim [] Entry.code
  | constant v => [.push v]
  | signed minus e => e.code names ++ if minus then [.neg] else []
  | not e => e.code names ++ [.not]
  | binary c l r => l.code names ++ r.code names ++ c.code (l.type? names)

/-- The code that puts a value of a type into a variable of another. -/
def storeCode (found declared : Ty) (s : Slot) : List Instr :=
  if found = .integer ∧ declared = .real then [.widen, .store s] else [.store s]

/-- The code that evaluates an expression and prints its value. -/
def Expr.printCode (names : Names) (e : Expr) : List Instr :=
  e.code names ++ (e.type? names).toList.map .print

/-- The code that evaluates an expression and assigns its value to a name. -/
def assignCode (names : Names) (x : String) (e : Expr) : List Instr :=
  match names x, e.type? names with
  | some (.var t s), some u => e.code names ++ storeCode u t s
  | _, _ => []

namespace Stmt

/-- How many labels a statement needs. -/
def labels : Stmt → Nat
  | seq a b => a.labels + b.labels
  | ifThen _ a | loop _ a => a.labels + 2
  | ifElse _ a b => a.labels + b.labels + 2
  | skip | assign .. | write _ => 0

/-- The code of a choice between two pieces of code, with labels from `n` on. -/
def choiceCode (n : Nat) (condition body otherwise : List Instr) : List Instr :=
  condition ++ .jumpIfFalse (labelOf n) :: (body ++
    .jump (labelOf (n + 1)) :: .label (labelOf n) :: (otherwise ++ [.label (labelOf (n + 1))]))

/-- The code that repeats a piece of code, with labels from `n` on. -/
def loopCode (n : Nat) (condition body : List Instr) : List Instr :=
  .label (labelOf n) :: (condition ++ .jumpIfFalse (labelOf (n + 1)) :: (body ++
    [.jump (labelOf n), .label (labelOf (n + 1))]))

/-- The code of a statement with labels from `n` on. -/
def code (names : Names) : Nat → Stmt → List Instr
  | _, skip => []
  | n, seq a b => a.code names n ++ b.code names (n + a.labels)
  | _, assign x e => assignCode names x e
  | _, write es => es.flatMap (·.printCode names)
  | n, ifThen c a => choiceCode n (c.code names) (a.code names (n + 2)) []
  | n, ifElse c a b =>
    choiceCode n (c.code names) (a.code names (n + 2)) (b.code names (n + 2 + a.labels))
  | n, loop c a => loopCode n (c.code names) (a.code names (n + 2))

end Stmt

/-- The code that sets the slots from `n` on to the zeros of their types. -/
def zeroCode : Nat → List Ty → List Instr
  | _, [] => []
  | n, t :: ts => .push (.zero t) :: .store (slotOf n) :: zeroCode (n + 1) ts

namespace Tree

/-- The types of the variables, in order. -/
def types (a : Tree) : List Ty := a.vars.map (·.2)

/-- The code of a program, up to the instruction that ends it. -/
def code (a : Tree) : List Instr := zeroCode 0 a.types ++ a.body.code (namesOf a.vars) 0

/-- The program a tree stands for. -/
def program (a : Tree) : Program := ⟨a.types.toArray, (a.code ++ [Instr.halt]).toArray⟩

end Tree
end MiniPascal
