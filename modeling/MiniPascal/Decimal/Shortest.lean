import MiniPascal.Decimal.Basic

/-! The shortest decimal that reads back as a given real. The exact decimal expansion of the real is
cut after its first digit, its second digit, and so on, and rounded down or up there; the first of
these decimals that reads back is the answer. The whole expansion ends the search. -/
namespace MiniPascal

/-- Which of two equally near decimals is taken. -/
inductive Tie where
  | up
  | toEven
deriving Repr, DecidableEq

namespace Decimal

/-- The exact value of a finite real, its sign left out. -/
def ofFloat (x : Float) : Decimal :=
  let bits := x.toBits.toNat
  let scale := (bits >>> 52) % 2048
  let fraction := bits % (1 <<< 52)
  let mantissa := if scale = 0 then fraction else (1 <<< 52) + fraction
  let power : Int := (max scale 1 : Nat) - 1075
  if power < 0 then ⟨mantissa * Nat.pow 5 power.natAbs, power⟩ else ⟨mantissa <<< power.natAbs, 0⟩

/-- How many decimal digits the number has. -/
def length (n : Nat) : Nat := (Nat.toDigits 10 n).length

/-- The decimals just below and just above `d` whose last `dropped` digits are gone, nearer first. -/
def neighbours (tie : Tie) (d : Decimal) (dropped : Nat) : List Decimal :=
  let unit := Nat.pow 10 dropped
  let low := d.digits / unit
  let below : Decimal := ⟨low, d.exponent + dropped⟩
  let above : Decimal := ⟨low + 1, d.exponent + dropped⟩
  let upFirst := match compare (2 * (d.digits % unit)) unit with
    | .lt => false
    | .gt => true
    | .eq => match tie with
      | .up => true
      | .toEven => low % 2 = 1
  if upFirst then [above, below] else [below, above]

/-- The shortest decimal that reads back as the finite real `x`, its sign left out. -/
def shortest (tie : Tie) (x : Float) : Decimal :=
  let exact := ofFloat x
  let size := length exact.digits
  let found := (List.range size).findSome? fun n =>
    (exact.neighbours tie (size - (n + 1))).find? fun d => d.toFloat = x.abs
  (found.getD exact).reduce

end Decimal
end MiniPascal
