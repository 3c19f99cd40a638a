import MiniPascal.Decimal.Shortest

/-! How a real number is laid out as text. -/
namespace MiniPascal

/-- The choices a notation for reals leaves open. -/
structure RealNotation where
  /-- Whether the decimal exponent of the leading digit calls for positional notation. -/
  positional : Int → Bool
  /-- Whether an integral value written positionally shows a zero fraction. -/
  fraction : Bool
  /-- Whether an exponent shows a plus sign. -/
  plus : Bool
  /-- Which of two equally near digit sequences is written. -/
  tie : Tie

namespace RealNotation

/-- The digits of a positive decimal with the point where its exponent puts it. -/
def positionalText (n : RealNotation) (d : Decimal) : String :=
  let digits := Nat.toDigits 10 d.digits
  let point : Int := digits.length + d.exponent
  if 0 ≤ d.exponent then
    String.ofList (digits ++ List.replicate d.exponent.toNat '0') ++ if n.fraction then ".0" else ""
  else if 0 < point then
    String.ofList (digits.take point.toNat ++ '.' :: digits.drop point.toNat)
  else String.ofList ('0' :: '.' :: List.replicate point.natAbs '0' ++ digits)

/-- One digit before the point, the others behind it, and the power of ten. -/
def scientificText (n : RealNotation) (d : Decimal) : String :=
  let digits := Nat.toDigits 10 d.digits
  let power : Int := digits.length + d.exponent - 1
  let mantissa := match digits with
    | [c] => [c]
    | c :: cs => c :: '.' :: cs
    | [] => []
  let sign := if power < 0 then "-" else if n.plus then "+" else ""
  String.ofList mantissa ++ "e" ++ sign ++ toString power.natAbs

/-- The text of a decimal. -/
def decimalText (n : RealNotation) (d : Decimal) : String :=
  if d.digits = 0 then n.positionalText ⟨0, 0⟩
  else if n.positional (Decimal.length d.digits + d.exponent - 1) then n.positionalText d
  else n.scientificText d

/-- Whether the sign bit is set. -/
def signed (x : Float) : Bool := (1 <<< 63) ≤ x.toBits.toNat

/-- The text of a real in a notation. -/
def text (n : RealNotation) (x : Float) : String :=
  if x.isNaN then "NaN"
  else
    let magnitude := if x.isInf then "inf" else n.decimalText (Decimal.shortest n.tie x)
    if signed x then "-" ++ magnitude else magnitude

end RealNotation
end MiniPascal
