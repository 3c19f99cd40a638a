/-! Offsets and lengths in a text counted in UTF-8 bytes and in UTF-16 units. -/
namespace MiniPascal.Text

/-- The number of bytes the characters take in UTF-8. -/
def size : List Char → Nat
  | [] => 0
  | c :: cs => c.utf8Size + size cs

/-- A character outside the first plane takes two UTF-16 units. -/
def unit16Size (c : Char) : Nat := if c.toNat < 0x10000 then 1 else 2

/-- The number of UTF-16 units the characters take. -/
def size16 : List Char → Nat
  | [] => 0
  | c :: cs => unit16Size c + size16 cs

/-- Cuts the text at a byte offset. There is no cut past the end or inside a character. -/
def splitAt? : Nat → List Char → Option (List Char × List Char)
  | 0, cs => some ([], cs)
  | _ + 1, [] => none
  | n + 1, c :: cs =>
    if c.utf8Size ≤ n + 1 then
      (splitAt? (n + 1 - c.utf8Size) cs).map fun p => (c :: p.1, p.2)
    else none

/-- The characters of a stretch of `length` bytes from `offset`, if both ends are cuts. -/
def slice? (cs : List Char) (offset length : Nat) : Option (List Char) := do
  let (_, rest) ← splitAt? offset cs
  let (piece, _) ← splitAt? length rest
  return piece

/-- The character that starts at a byte offset. -/
def charAt? (cs : List Char) (offset : Nat) : Option Char :=
  (splitAt? offset cs).bind (·.2.head?)

@[simp] theorem size_nil : size [] = 0 := rfl

@[simp] theorem size_cons (c : Char) (cs : List Char) : size (c :: cs) = c.utf8Size + size cs := rfl

@[simp] theorem size_append (xs ys : List Char) : size (xs ++ ys) = size xs + size ys := by
  induction xs with
  | nil => simp [size]
  | cons c cs ih => simp [size, ih, Nat.add_assoc]

theorem splitAt?_size_append (xs ys : List Char) : splitAt? (size xs) (xs ++ ys) = some (xs, ys) := by
  induction xs with
  | nil => simp [size, splitAt?]
  | cons c cs ih =>
    obtain ⟨n, hn⟩ := Nat.exists_eq_succ_of_ne_zero (Nat.ne_of_gt c.utf8Size_pos)
    have hs : size (c :: cs) = (n + size cs) + 1 := by simp [size, hn]; omega
    have hr : n + size cs + 1 - c.utf8Size = size cs := by omega
    rw [hs, List.cons_append, splitAt?, hr, ih]
    simp [hn]

end MiniPascal.Text
