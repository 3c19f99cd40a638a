import MiniPascal.Text.Bytes

/-! Offsets between two characters of a text, at which it can be cut. -/
namespace MiniPascal.Text

section
variable {xs ys zs : List Char} {c : Char}

theorem slice?_append : slice? (xs ++ ys ++ zs) (size xs) (size ys) = some ys := by
  rw [slice?, List.append_assoc, splitAt?_size_append]
  simp [splitAt?_size_append]

theorem charAt?_append : charAt? (xs ++ c :: ys) (size xs) = some c := by
  rw [charAt?, splitAt?_size_append]
  rfl

theorem size_pos (h : xs ≠ []) : 1 ≤ size xs := by
  cases xs with
  | nil => exact absurd rfl h
  | cons c cs =>
    have hc := c.utf8Size_pos
    rw [size_cons]
    omega

theorem size_toList (s : String) : size s.toList = s.utf8ByteSize := by
  have h : ∀ cs, (String.ofList cs).utf8ByteSize = size cs := by
    intro cs
    induction cs with
    | nil => rfl
    | cons c cs ih => rw [String.ofList_cons, String.utf8ByteSize_append, ih,
        String.utf8ByteSize_singleton, size_cons]
  rw [← h, String.ofList_toList]

end

/-- The offset lies between two characters, or at an end of the text. -/
def IsCut (cs : List Char) (n : Nat) : Prop := ∃ front back, cs = front ++ back ∧ n = size front

section
variable {cs front back front' back' : List Char} {a b n : Nat}

theorem isCut_append (front back : List Char) : IsCut (front ++ back) (size front) :=
  ⟨front, back, rfl, rfl⟩

theorem isCut_zero (cs : List Char) : IsCut cs 0 := ⟨[], cs, rfl, rfl⟩

theorem isCut_size (cs : List Char) : IsCut cs (size cs) := ⟨cs, [], (List.append_nil cs).symm, rfl⟩

theorem IsCut.max (ha : IsCut cs a) (hb : IsCut cs b) : IsCut cs (max a b) := by
  rcases Nat.le_total a b with h | h
  · rwa [Nat.max_eq_right h]
  · rwa [Nat.max_eq_left h]

/-- The characters before a cut are the first of those before a later one. -/
theorem exists_append_of_size_le (h : front ++ back = front' ++ back')
    (hs : size front ≤ size front') : ∃ mid, front' = front ++ mid := by
  rcases List.append_eq_append_iff.1 h with ⟨mid, rfl, -⟩ | ⟨mid, rfl, -⟩
  · exact ⟨mid, rfl⟩
  · rw [size_append] at hs
    obtain rfl : mid = [] := by
      cases mid with
      | nil => rfl
      | cons c mid =>
        have hpos : 1 ≤ size (c :: mid) := size_pos (List.cons_ne_nil c mid)
        omega
    exact ⟨[], by simp⟩

/-- What lies between two cuts, and on both sides of it. -/
theorem IsCut.between (ha : IsCut cs a) (hb : IsCut cs b) (h : a ≤ b) :
    ∃ front mid back, cs = front ++ mid ++ back ∧ a = size front ∧ b = size (front ++ mid) := by
  obtain ⟨front, back, rfl, rfl⟩ := ha
  obtain ⟨front', back', hsplit, rfl⟩ := hb
  obtain ⟨mid, rfl⟩ := exists_append_of_size_le hsplit h
  exact ⟨front, mid, back', hsplit, rfl, rfl⟩

/-- A stretch between two cuts can be taken out. -/
theorem IsCut.isSome_slice? (ha : IsCut cs a) (hb : IsCut cs (a + n)) : (slice? cs a n).isSome := by
  obtain ⟨front, mid, back, rfl, rfl, hmid⟩ := ha.between hb (Nat.le_add_right a n)
  obtain rfl : n = size mid := by
    rw [size_append] at hmid
    omega
  rw [slice?_append]
  rfl

end
end MiniPascal.Text
