import MiniPascal.Decimal.Layout

/-! The primitive types of the language and their values. -/
namespace MiniPascal

/-- The primitive types. -/
inductive Ty where
  | integer
  | real
  | string
  | boolean
deriving Repr, DecidableEq, Inhabited

namespace Ty

/-- Every type. -/
def all : List Ty := [integer, real, string, boolean]

/-- The name of the type in a program. -/
def name : Ty → String
  | integer => "integer"
  | real => "real"
  | string => "string"
  | boolean => "boolean"

/-- The type of that name, in letters of either case. -/
def ofName? (name : String) : Option Ty := all.find? (·.name == name.toLower)

/-- Integers and reals. -/
def isNumeric : Ty → Bool
  | integer | real => true
  | string | boolean => false

/-- Whether a value of one type may stand where another is expected: an integer may stand for a real. -/
def fits (found expected : Ty) : Bool :=
  found == expected || (found == integer && expected == real)

/-- The type that holds values of both types, if one fits the other. -/
def join? (a b : Ty) : Option Ty :=
  if a.fits b then some b else if b.fits a then some a else none

end Ty

/-- A value of one of the primitive types. Integers have 32 bits. -/
inductive Value where
  | integer (v : Int32)
  | real (v : Float)
  | string (v : String)
  | boolean (v : Bool)
deriving Repr, DecidableEq, Inhabited

/-- Reals in program texts: never mistaken for an integer, with a power of ten below 1e-4 and from
1e16 on. -/
def RealNotation.literal : RealNotation where
  positional e := -4 ≤ e && e < 16
  fraction := true
  plus := false
  tie := .up

/-- Reals as a running program prints them: always positional, integral values without a point. -/
def RealNotation.printed : RealNotation where
  positional _ := true
  fraction := false
  plus := false
  tie := .up

namespace Value

/-- The type of a value. -/
def ty : Value → Ty
  | integer _ => .integer
  | real _ => .real
  | string _ => .string
  | boolean _ => .boolean

/-- The value a variable of the type starts with. -/
def zero : Ty → Value
  | .integer => integer 0
  | .real => real 0
  | .string => string ""
  | .boolean => boolean false

/-- The value as a listing shows it. -/
def literal : Value → String
  | integer v => toString v.toInt
  | real v => RealNotation.literal.text v
  | string v => "'" ++ v ++ "'"
  | boolean true => "true"
  | boolean false => "false"

/-- The value as a running program prints it. -/
def printed : Value → String
  | integer v => toString v.toInt
  | real v => RealNotation.printed.text v
  | string v => v
  | boolean true => "True"
  | boolean false => "False"

@[simp] theorem ty_zero (t : Ty) : (zero t).ty = t := by cases t <;> rfl

end Value
end MiniPascal
