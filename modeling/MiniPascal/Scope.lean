import MiniPascal.Program.Basic
import MiniPascal.Problem

/-! The names a program may use, and what they stand for. -/
namespace MiniPascal

/-- What a name stands for. -/
inductive Entry where
  | constant (v : Value)
  | var (t : Ty) (s : Slot)
  | type (t : Ty)
  | procedure (t : Ty)
  | function (t : Ty)
deriving Repr, DecidableEq, Inhabited

namespace Entry

/-- The type of the value, variable or result, or the type that is named. -/
def ty : Entry → Ty
  | constant v => v.ty
  | var t _ | type t | procedure t | function t => t

/-- What an error message calls the thing. -/
def role : Entry → String
  | constant _ => "constant"
  | var .. => "variable"
  | type _ => "type"
  | procedure _ => "procedure"
  | function _ => "function"

end Entry

/-- Names with their entries, and the types that are known. -/
structure Scope where
  entries : List (String × Entry)
  types : List Ty
deriving Repr, DecidableEq, Inhabited

namespace Scope

/-- Names that differ in the case of their letters are one name. -/
def key (name : String) : String := name.toLower

/-- No names. -/
def empty : Scope := ⟨[], []⟩

/-- The types and the truth values. -/
def builtin : Scope where
  entries := Ty.all.map (fun t => (t.name, .type t)) ++
    [("true", .constant (.boolean true)), ("false", .constant (.boolean false))]
  types := Ty.all

/-- What the name stands for here. -/
def find? (s : Scope) (name : String) : Option Entry := s.entries.lookup (key name)

/-- Whether the name is bound here. -/
def contains (s : Scope) (name : String) : Bool := (s.find? name).isSome

/-- Binds a name. -/
def insert (s : Scope) (name : String) (e : Entry) : Scope :=
  { s with entries := (key name, e) :: s.entries }

end Scope

/-- The scopes that are open, the innermost first. One scope is always open. -/
structure Scopes where
  inner : Scope
  outer : List Scope
deriving Repr, DecidableEq, Inhabited

namespace Scopes

/-- The scope of a program inside the built-in one. -/
def initial : Scopes := ⟨.empty, [.builtin]⟩

/-- All open scopes from the innermost outwards. -/
def toList (s : Scopes) : List Scope := s.inner :: s.outer

/-- How many scopes are open. -/
def depth (s : Scopes) : Nat := s.toList.length

/-- Opens a scope. -/
def enter (s : Scopes) : Scopes := ⟨.empty, s.toList⟩

/-- Closes the innermost scope, unless it is the only one. -/
def leave? (s : Scopes) : Option (Scope × Scopes) :=
  match s.outer with
  | [] => none
  | o :: os => some (s.inner, ⟨o, os⟩)

/-- The innermost meaning of a name. -/
def find? (s : Scopes) (name : String) : Option Entry := s.toList.findSome? (·.find? name)

/-- Whether some open scope binds the name. -/
def isDeclared (s : Scopes) (name : String) : Bool := s.toList.any (·.contains name)

/-- Binds a name in the innermost scope, unless some open scope binds it already. -/
def declare? (s : Scopes) (name : String) (e : Entry) : Option Scopes :=
  if s.isDeclared name then none else some { s with inner := s.inner.insert name e }

/-- Whether some open scope knows the type. -/
def isRegistered (s : Scopes) (t : Ty) : Bool := s.toList.any (·.types.contains t)

/-- The innermost meaning of a name, or the problem that it has none. -/
def lookup (s : Scopes) (name : String) (span : Span) : Except Problem Entry :=
  match s.find? name with
  | some e => .ok e
  | none => .error (.undefinedIdentifier span name)

/-- Binds a name, or reports that it is bound. -/
def declare (s : Scopes) (name : String) (e : Entry) (span : Span) : Except Problem Scopes :=
  match s.declare? name e with
  | some s => .ok s
  | none => .error (.duplicateIdentifier span name)

end Scopes
end MiniPascal
