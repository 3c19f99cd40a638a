import MiniPascal.Grammar.Statement

/-! Syntax trees, and the sequences of tokens that spell them. The rules are those of the grammar;
nothing here depends on how a text is read. -/
namespace MiniPascal

/-- How tightly an operator binds, from the loosest on. -/
inductive Rank where
  | comparing
  | adding
  | multiplying
deriving Repr, DecidableEq

/-- The operators between two operands, as a text writes them. -/
inductive Connective where
  | plus
  | minus
  | or
  | times
  | slash
  | div
  | mod
  | and
  | equal
  | notEqual
  | less
  | lessOrEqual
  | greater
  | greaterOrEqual
deriving Repr, DecidableEq

namespace Connective

/-- The symbol of the operator. -/
def symbol : Connective → Symbol
  | plus => .plus
  | minus => .minus
  | or => .orWord
  | times => .star
  | slash => .slash
  | div => .divWord
  | mod => .modWord
  | and => .andWord
  | equal => .equal
  | notEqual => .notEqual
  | less => .less
  | lessOrEqual => .lessOrEqual
  | greater => .greater
  | greaterOrEqual => .greaterOrEqual

/-- How tightly the operator binds. -/
def rank : Connective → Rank
  | plus | minus | or => .adding
  | times | slash | div | mod | and => .multiplying
  | equal | notEqual | less | lessOrEqual | greater | greaterOrEqual => .comparing

/-- The operation the operator stands for. Both divisions are one operation. -/
def operator : Connective → Operator
  | plus => .add
  | minus => .sub
  | or => .or
  | times => .mul
  | slash | div => .div
  | mod => .mod
  | and => .and
  | equal => .equal
  | notEqual => .notEqual
  | less => .less
  | lessOrEqual => .lessOrEqual
  | greater => .greater
  | greaterOrEqual => .greaterOrEqual

/-- Whether the operator divides integers only. -/
def dividesIntegers : Connective → Bool
  | div | mod => true
  | _ => false

end Connective

/-- Expressions. -/
inductive Expr where
  | name (x : String)
  | constant (v : Value)
  | signed (minus : Bool) (e : Expr)
  | not (e : Expr)
  | binary (c : Connective) (left right : Expr)
deriving Repr, DecidableEq

/-- Statements. A compound statement is the sequence of its parts. -/
inductive Stmt where
  | skip
  | seq (first rest : Stmt)
  | assign (x : String) (e : Expr)
  | write (es : List Expr)
  | ifThen (condition : Expr) (body : Stmt)
  | ifElse (condition : Expr) (body otherwise : Stmt)
  | loop (condition : Expr) (body : Stmt)
deriving Repr, DecidableEq

/-- A program: its variables in the order of their declaration, and what it does. -/
structure Tree where
  vars : List (String × Ty)
  body : Stmt
deriving Repr, DecidableEq

/-- The constant a token stands for. -/
def TokenKind.value? : TokenKind → Option Value
  | .integer v => some (.integer v)
  | .real v => some (.real v)
  | .string v => some (.string v)
  | _ => none

/-- The parts of an expression, from the loosest on. -/
inductive Level where
  | comparison
  | sum
  | term
  | factor
deriving Repr, DecidableEq

/-- The symbol of a sign. -/
def signSymbol (minus : Bool) : Symbol := if minus then .minus else .plus

/-- The tokens that spell an expression. -/
inductive Expr.Spells : Level → List TokenKind → Expr → Prop
  | name (x : String) : Spells .factor [.identifier x] (.name x)
  | constant {k : TokenKind} {v : Value} (hv : k.value? = some v) :
    Spells .factor [k] (.constant v)
  | not {ts : List TokenKind} {e : Expr} (he : Spells .factor ts e) :
    Spells .factor (.symbol .notWord :: ts) (.not e)
  | brackets {ts : List TokenKind} {e : Expr} (he : Spells .comparison ts e) :
    Spells .factor (.symbol .leftParen :: (ts ++ [.symbol .rightParen])) e
  | ofFactor {ts : List TokenKind} {e : Expr} (he : Spells .factor ts e) : Spells .term ts e
  | multiply {c : Connective} {ts us : List TokenKind} {l r : Expr} (hc : c.rank = .multiplying)
    (hl : Spells .term ts l) (hr : Spells .factor us r) :
    Spells .term (ts ++ .symbol c.symbol :: us) (.binary c l r)
  | ofTerm {ts : List TokenKind} {e : Expr} (he : Spells .term ts e) : Spells .sum ts e
  | signed {ts : List TokenKind} {e : Expr} (minus : Bool) (he : Spells .term ts e) :
    Spells .sum (.symbol (signSymbol minus) :: ts) (.signed minus e)
  | add {c : Connective} {ts us : List TokenKind} {l r : Expr} (hc : c.rank = .adding)
    (hl : Spells .sum ts l) (hr : Spells .term us r) :
    Spells .sum (ts ++ .symbol c.symbol :: us) (.binary c l r)
  | ofSum {ts : List TokenKind} {e : Expr} (he : Spells .sum ts e) : Spells .comparison ts e
  | compare {c : Connective} {ts us : List TokenKind} {l r : Expr} (hc : c.rank = .comparing)
    (hl : Spells .sum ts l) (hr : Spells .sum us r) :
    Spells .comparison (ts ++ .symbol c.symbol :: us) (.binary c l r)

/-- The tokens that spell expressions with commas between them, at least one. -/
inductive Expr.SpellsAll : List TokenKind → List Expr → Prop
  | one {ts : List TokenKind} {e : Expr} (he : e.Spells .comparison ts) : SpellsAll ts [e]
  | more {ts us : List TokenKind} {e : Expr} {es : List Expr} (he : e.Spells .comparison ts)
    (hes : SpellsAll us es) : SpellsAll (ts ++ .symbol .comma :: us) (e :: es)

/-- The parts of the text that are statements. -/
inductive Part where
  | compound
  | statement
  | sequence
deriving Repr, DecidableEq

/-- The tokens that spell a statement. A sequence is what stands between `begin` and `end`. -/
inductive Stmt.Spells : Part → List TokenKind → Stmt → Prop
  | empty : Spells .compound [.symbol .beginWord, .symbol .endWord] .skip
  | block {ts : List TokenKind} {st : Stmt} (hs : Spells .sequence ts st) :
    Spells .compound (.symbol .beginWord :: (ts ++ [.symbol .endWord])) st
  | last {ts : List TokenKind} {st : Stmt} (hs : Spells .statement ts st) :
    Spells .sequence ts (.seq st .skip)
  | lastSemicolon {ts : List TokenKind} {st : Stmt} (hs : Spells .statement ts st) :
    Spells .sequence (ts ++ [.symbol .semicolon]) (.seq st .skip)
  | more {ts us : List TokenKind} {a b : Stmt} (ha : Spells .statement ts a)
    (hb : Spells .sequence us b) : Spells .sequence (ts ++ .symbol .semicolon :: us) (.seq a b)
  | ofCompound {ts : List TokenKind} {st : Stmt} (hs : Spells .compound ts st) :
    Spells .statement ts st
  | assign {ts : List TokenKind} {e : Expr} (x : String) (he : e.Spells .comparison ts) :
    Spells .statement (.identifier x :: .symbol .assignment :: ts) (.assign x e)
  | writeNothing {x : String} (hx : Scope.key x = Grammar.printName) :
    Spells .statement [.identifier x, .symbol .leftParen, .symbol .rightParen] (.write [])
  | write {ts : List TokenKind} {es : List Expr} {x : String}
    (hx : Scope.key x = Grammar.printName) (hes : Expr.SpellsAll ts es) :
    Spells .statement (.identifier x :: .symbol .leftParen :: (ts ++ [.symbol .rightParen]))
      (.write es)
  | ifThen {ts us : List TokenKind} {c : Expr} {a : Stmt} (hc : c.Spells .comparison ts)
    (ha : Spells .statement us a) :
    Spells .statement (.symbol .ifWord :: (ts ++ .symbol .thenWord :: us)) (.ifThen c a)
  | ifElse {ts us vs : List TokenKind} {c : Expr} {a b : Stmt} (hc : c.Spells .comparison ts)
    (ha : Spells .statement us a) (hb : Spells .statement vs b) :
    Spells .statement
      (.symbol .ifWord :: (ts ++ .symbol .thenWord :: (us ++ .symbol .elseWord :: vs)))
      (.ifElse c a b)
  | loop {ts us : List TokenKind} {c : Expr} {a : Stmt} (hc : c.Spells .comparison ts)
    (ha : Spells .statement us a) :
    Spells .statement (.symbol .whileWord :: (ts ++ .symbol .doWord :: us)) (.loop c a)

/-- The tokens of names with commas between them. -/
def nameTokens (x : String) (xs : List String) : List TokenKind :=
  .identifier x :: xs.flatMap fun y => [.symbol .comma, .identifier y]

/-- The tokens of names and their type. -/
def declarationTokens (x : String) (xs : List String) (typeName : String) : List TokenKind :=
  nameTokens x xs ++ [.symbol .colon, .identifier typeName, .symbol .semicolon]

/-- The tokens that spell the declarations of variables, at least one. -/
inductive SpellsVariables : List TokenKind → List (String × Ty) → Prop
  | one {n : String} {t : Ty} (x : String) (xs : List String) (ht : Ty.ofName? n = some t) :
    SpellsVariables (declarationTokens x xs n) ((x :: xs).map (·, t))
  | more {n : String} {t : Ty} {ts : List TokenKind} {vs : List (String × Ty)} (x : String)
    (xs : List String) (ht : Ty.ofName? n = some t) (hs : SpellsVariables ts vs) :
    SpellsVariables (declarationTokens x xs n ++ ts) ((x :: xs).map (·, t) ++ vs)

/-- The tokens before the variables of a program. -/
def headingTokens (x : String) : List TokenKind :=
  [.symbol .programWord, .identifier x, .symbol .semicolon]

/-- The tokens that spell a program, from its heading to the point that ends it. -/
inductive Tree.Spells : List TokenKind → Tree → Prop
  | plain {ts : List TokenKind} {st : Stmt} (x : String) (hs : st.Spells .compound ts) :
    Spells (headingTokens x ++ (ts ++ [.symbol .dot])) ⟨[], st⟩
  | declaring {ts us : List TokenKind} {vs : List (String × Ty)} {st : Stmt} (x : String)
    (hv : SpellsVariables us vs) (hs : st.Spells .compound ts) :
    Spells (headingTokens x ++ .symbol .varWord :: (us ++ (ts ++ [.symbol .dot]))) ⟨vs, st⟩

namespace Stmt

/-- Whether an `else` behind the statement would belong to an `if` in it. -/
def isOpen : Stmt → Bool
  | ifThen .. => true
  | ifElse _ _ b => b.isOpen
  | loop _ a => a.isOpen
  | skip | seq .. | assign .. | write _ => false

/-- Every `else` belongs to the nearest `if` that has none. -/
def NearestElse : Stmt → Prop
  | seq a b => a.NearestElse ∧ b.NearestElse
  | ifThen _ a => a.NearestElse
  | ifElse _ a b => a.isOpen = false ∧ a.NearestElse ∧ b.NearestElse
  | loop _ a => a.NearestElse
  | skip | assign .. | write _ => True

/-- Only a statement on its own can be followed by an `else` of one of its parts. -/
theorem isOpen_of_spells {part : Part} {ts : List TokenKind} {st : Stmt} (h : st.Spells part ts)
    (hp : part ≠ .statement) : st.isOpen = false := by
  induction h with
  | empty | last | lastSemicolon | more => rfl
  | block _ ih => exact ih (by simp)
  | ofCompound | assign | writeNothing | write | ifThen | ifElse | loop => exact absurd rfl hp

end Stmt
end MiniPascal
