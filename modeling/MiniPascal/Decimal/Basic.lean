/-! Decimal fractions and the binary reals they round to. -/
namespace MiniPascal

/-- The number `digits * 10 ^ exponent`. -/
structure Decimal where
  digits : Nat
  exponent : Int
deriving Repr, DecidableEq, Inhabited

namespace Decimal

/-- The value of a decimal digit. -/
def digitValue (c : Char) : Nat := c.toNat - '0'.toNat

/-- The number a sequence of decimal digits spells. -/
def natOfDigits (cs : List Char) : Nat := cs.foldl (fun n c => 10 * n + digitValue c) 0

/-- The same number without trailing zeros among its digits. -/
def reduce (d : Decimal) : Decimal :=
  if d.digits = 0 then ⟨0, 0⟩
  else if d.digits % 10 = 0 then reduce ⟨d.digits / 10, d.exponent + 1⟩
  else d
termination_by d.digits
decreasing_by omega

/-- The real nearest to the number, ties to even; past the largest real it is infinite. -/
def toFloat (d : Decimal) : Float :=
  let r := d.reduce
  Float.ofScientific r.digits (r.exponent < 0) r.exponent.natAbs

end Decimal
end MiniPascal
