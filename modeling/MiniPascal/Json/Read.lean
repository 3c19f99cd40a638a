import MiniPascal.Json.Basic

/-! JSON values read from their text. Each reader answers a value and the text behind it. -/
namespace MiniPascal.Json

/-- Whether a character may stand between the parts of a JSON text. -/
def isBlank (c : Char) : Bool := c == ' ' || c == '\t' || c == '\n' || c == '\r'

/-- The text from the next part on. -/
def skipBlanks (cs : List Char) : List Char := cs.dropWhile isBlank

/-- The text behind a given word. -/
def afterWord? : List Char → List Char → Option (List Char)
  | [], cs => some cs
  | w :: ws, c :: cs => if w = c then afterWord? ws cs else none
  | _ :: _, [] => none

/-- The value of a hexadecimal digit. -/
def hexValue? (c : Char) : Option Nat :=
  if c.isDigit then some (c.toNat - '0'.toNat)
  else if 'a' ≤ c ∧ c ≤ 'f' then some (c.toNat - 'a'.toNat + 10)
  else if 'A' ≤ c ∧ c ≤ 'F' then some (c.toNat - 'A'.toNat + 10)
  else none

/-- A 16-bit unit written with four hexadecimal digits. -/
def unit? : List Char → Option (Nat × List Char)
  | a :: b :: c :: d :: cs => do
    let a ← hexValue? a
    let b ← hexValue? b
    let c ← hexValue? c
    let d ← hexValue? d
    return (((a * 16 + b) * 16 + c) * 16 + d, cs)
  | _ => none

/-- Whether a unit is the first half of a character outside the first plane. -/
def isHighHalf (n : Nat) : Bool := 0xD800 ≤ n && n < 0xDC00

/-- Whether a unit is the second half of a character outside the first plane. -/
def isLowHalf (n : Nat) : Bool := 0xDC00 ≤ n && n < 0xE000

/-- The character written with one unit, or with two that are halves of it. -/
def unitEscape? (cs : List Char) : Option (Char × List Char) := do
  let (high, cs) ← unit? cs
  if isHighHalf high then
    let cs ← afterWord? ['\\', 'u'] cs
    let (low, cs) ← unit? cs
    if isLowHalf low then
      return (Char.ofNat (0x10000 + (high - 0xD800) * 0x400 + (low - 0xDC00)), cs)
    else none
  else if isLowHalf high then none
  else return (Char.ofNat high, cs)

/-- The character written behind a backslash. -/
def escaped? : List Char → Option (Char × List Char)
  | 'u' :: cs => unitEscape? cs
  | '/' :: cs => some ('/', cs)
  | c :: cs => do
    let (char, _) ← shortEscapes.find? (·.2 == c)
    return (char, cs)
  | [] => none

/-- The characters of a string up to its closing quote. -/
def stringChars? : Nat → List Char → Option (List Char × List Char)
  | 0, _ => none
  | _ + 1, [] => none
  | bound + 1, c :: cs =>
    if c = '"' then some ([], cs)
    else if c = '\\' then do
      let (char, cs) ← escaped? cs
      let (chars, cs) ← stringChars? bound cs
      return (char :: chars, cs)
    else if c.toNat < 0x20 then none
    else do
      let (chars, cs) ← stringChars? bound cs
      return (c :: chars, cs)

/-- A string, its opening quote included. -/
def string? : List Char → Option (String × List Char)
  | '"' :: cs => do
    let (chars, cs) ← stringChars? (cs.length + 1) cs
    return (String.ofList chars, cs)
  | _ => none

/-- A run of digits, at least one. -/
def digits? (cs : List Char) : Option (List Char × List Char) :=
  let digits := cs.takeWhile Char.isDigit
  if digits.isEmpty then none else some (digits, cs.dropWhile Char.isDigit)

/-- The digits before the point. No digit follows a leading zero. -/
def whole? : List Char → Option (List Char × List Char)
  | '0' :: cs => some (['0'], cs)
  | cs => digits? cs

/-- The digits behind the point, if there is one. -/
def fraction? : List Char → Option (Option (List Char) × List Char)
  | '.' :: cs => do
    let (digits, cs) ← digits? cs
    return (some digits, cs)
  | cs => some (none, cs)

/-- The power of ten, if there is one. -/
def exponent? : List Char → Option (Option Int × List Char)
  | c :: cs =>
    if c = 'e' ∨ c = 'E' then do
      let negative := cs.head? == some '-'
      let signed := negative || cs.head? == some '+'
      let (digits, cs) ← digits? (if signed then cs.drop 1 else cs)
      let size : Int := Decimal.natOfDigits digits
      return (some (if negative then -size else size), cs)
    else some (none, c :: cs)
  | [] => some (none, [])

/-- The number with the given parts. A zero with a sign is a real, as are numbers with a fraction or
an exponent; a real past the largest one is refused. -/
def numberOf? (negative : Bool) (whole : List Char) (fraction : Option (List Char))
    (exponent : Option Int) : Option Json :=
  let digits := Decimal.natOfDigits (whole ++ fraction.getD [])
  if fraction.isNone && exponent.isNone && !(negative && digits == 0) then
    some (int (if negative then -digits else digits))
  else
    let size : Decimal := ⟨digits, exponent.getD 0 - (fraction.getD []).length⟩
    let x := size.toFloat
    if x.isFinite then some (real (if negative then -x else x)) else none

/-- A number. -/
def number? (cs : List Char) : Option (Json × List Char) := do
  let negative := cs.head? == some '-'
  let (whole, cs) ← whole? (if negative then cs.drop 1 else cs)
  let (fraction, cs) ← fraction? cs
  let (exponent, cs) ← exponent? cs
  let value ← numberOf? negative whole fraction exponent
  return (value, cs)

/-- Items separated by commas up to a closing bracket, the first of which begins here. -/
def items? (value? : List Char → Option (Json × List Char)) :
    Nat → List Char → Option (List Json × List Char)
  | 0, _ => none
  | bound + 1, cs => do
    let (j, cs) ← value? cs
    match skipBlanks cs with
    | ',' :: cs => do
      let (js, cs) ← items? value? bound cs
      return (j :: js, cs)
    | ']' :: cs => return ([j], cs)
    | _ => none

/-- Fields separated by commas up to a closing brace, the first of which begins here. -/
def fields? (value? : List Char → Option (Json × List Char)) :
    Nat → List Char → Option (List (String × Json) × List Char)
  | 0, _ => none
  | bound + 1, cs => do
    let (k, cs) ← string? (skipBlanks cs)
    let cs ← afterWord? [':'] (skipBlanks cs)
    let (j, cs) ← value? cs
    match skipBlanks cs with
    | ',' :: cs => do
      let (fs, cs) ← fields? value? bound cs
      return ((k, j) :: fs, cs)
    | '\x7d' :: cs => return ([(k, j)], cs)
    | _ => none

/-- A value nested no deeper than the bound. -/
def value? : Nat → List Char → Option (Json × List Char)
  | 0, _ => none
  | depth + 1, cs =>
    match skipBlanks cs with
    | [] => none
    | '"' :: cs => do
      let (s, cs) ← string? ('"' :: cs)
      return (string s, cs)
    | '[' :: cs =>
      match skipBlanks cs with
      | ']' :: cs => some (array [], cs)
      | cs => do
        let (js, cs) ← items? (value? depth) (cs.length + 1) cs
        return (array js, cs)
    | '\x7b' :: cs =>
      match skipBlanks cs with
      | '\x7d' :: cs => some (object [], cs)
      | cs => do
        let (fs, cs) ← fields? (value? depth) (cs.length + 1) cs
        return (object fs, cs)
    | 'n' :: cs => (afterWord? "ull".toList cs).map (null, ·)
    | 't' :: cs => (afterWord? "rue".toList cs).map (bool true, ·)
    | 'f' :: cs => (afterWord? "alse".toList cs).map (bool false, ·)
    | cs => number? cs

/-- The value a whole text stands for. -/
def parse? (text : String) : Option Json :=
  let cs := text.toList
  match value? (cs.length + 1) cs with
  | some (j, rest) => if (skipBlanks rest).isEmpty then some j else none
  | none => none

end MiniPascal.Json
