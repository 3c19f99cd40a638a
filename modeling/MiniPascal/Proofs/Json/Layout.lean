import MiniPascal.Proofs.Json.Text

/-! The two layouts of JSON are texts of the value they lay out, so both are read back. -/
namespace MiniPascal.Json

mutual

/-- Every real of the value is finite. -/
@[simp] def Finite : Json → Prop
  | real x => x.isFinite
  | array js => FiniteItems js
  | object fs => FiniteFields fs
  | _ => True

/-- Every real of the values is finite. -/
@[simp] def FiniteItems : List Json → Prop
  | [] => True
  | j :: js => Finite j ∧ FiniteItems js

/-- Every real of the fields is finite. -/
@[simp] def FiniteFields : List (String × Json) → Prop
  | [] => True
  | (_, j) :: fs => Finite j ∧ FiniteFields fs

end

/-- What follows an item in the text without blanks. -/
def compactBehindItem : List Json → List Char
  | [] => [']']
  | j :: js => ',' :: compactItems (j :: js)

/-- What follows a field in the text without blanks. -/
def compactBehindField : List (String × Json) → List Char
  | [] => ['\x7d']
  | f :: fs => ',' :: compactFields (f :: fs)

theorem compactItems_cons (j : Json) (js : List Json) :
    compactItems (j :: js) = compactChars j ++ compactBehindItem js := by
  cases js <;> rfl

theorem compactFields_cons (k : String) (j : Json) (fs : List (String × Json)) :
    compactFields ((k, j) :: fs) = quoted k ++ ':' :: (compactChars j ++ compactBehindField fs) := by
  cases fs <;> rfl

theorem blanks_nil : Blanks [] := by
  intro c hc
  cases hc

mutual

/-- The text without blanks is a text of the value. -/
theorem written_compactChars : ∀ j : Json, Finite j → Written j (compactChars j)
  | .null, _ => .null
  | .bool b, _ => .bool b
  | .int n, _ => .int n
  | .real _, h => .real h
  | .string s, _ => .string s
  | .array [], _ => .emptyArray
  | .array (j :: js), h => by
    rw [compactChars, compactItems_cons]
    exact .array blanks_nil (written_compactChars j h.1) (written_compactBehindItem js h.2)
  | .object [], _ => .emptyObject
  | .object ((k, j) :: fs), h => by
    rw [compactChars, compactFields_cons]
    exact .object blanks_nil blanks_nil (written_compactChars j h.1)
      (written_compactBehindField fs h.2)

theorem written_compactBehindItem :
    ∀ js : List Json, FiniteItems js → WrittenItems js (compactBehindItem js)
  | [], _ => .close blanks_nil
  | j :: js, h => by
    rw [compactBehindItem, compactItems_cons]
    exact .more blanks_nil blanks_nil (written_compactChars j h.1)
      (written_compactBehindItem js h.2)

theorem written_compactBehindField : ∀ fs : List (String × Json), FiniteFields fs →
    WrittenFields fs (compactBehindField fs)
  | [], _ => .close blanks_nil
  | (k, j) :: fs, h => by
    rw [compactBehindField, compactFields_cons]
    exact .more blanks_nil blanks_nil blanks_nil (written_compactChars j h.1)
      (written_compactBehindField fs h.2)

end

theorem blanks_newline (level : Nat) : Blanks (newline level) := by
  intro c hc
  rcases List.mem_cons.1 hc with rfl | hc
  · rfl
  · rw [List.eq_of_mem_replicate hc]
    rfl

theorem blanks_space : Blanks [' '] := by
  intro c hc
  rw [List.mem_singleton.1 hc]
  rfl

mutual

/-- The text with every item on a line of its own is a text of the value. -/
theorem written_prettyChars (level : Nat) : ∀ j : Json, Finite j → Written j (prettyChars level j)
  | .null, _ => .null
  | .bool b, _ => .bool b
  | .int n, _ => .int n
  | .real _, h => .real h
  | .string s, _ => .string s
  | .array [], _ => .emptyArray
  | .array (j :: js), h => by
    rw [prettyChars, List.append_assoc]
    exact .array (blanks_newline _) (written_prettyChars _ j h.1) (written_prettyItems level js h.2)
  | .object [], _ => .emptyObject
  | .object ((k, j) :: fs), h => by
    rw [prettyChars]
    simp only [List.append_assoc]
    exact .object (blanks_newline _) blanks_space (written_prettyChars _ j h.1)
      (written_prettyFields level fs h.2)

theorem written_prettyItems (level : Nat) :
    ∀ js : List Json, FiniteItems js → WrittenItems js (prettyItems level js)
  | [], _ => .close (blanks_newline _)
  | j :: js, h => by
    rw [prettyItems, List.append_assoc]
    exact .more blanks_nil (blanks_newline _) (written_prettyChars _ j h.1)
      (written_prettyItems level js h.2)

theorem written_prettyFields (level : Nat) : ∀ fs : List (String × Json), FiniteFields fs →
    WrittenFields fs (prettyFields level fs)
  | [], _ => .close (blanks_newline _)
  | (k, j) :: fs, h => by
    rw [prettyFields]
    simp only [List.append_assoc]
    exact .more blanks_nil (blanks_newline _) blanks_space (written_prettyChars _ j h.1)
      (written_prettyFields level fs h.2)

end

variable {j : Json}

end MiniPascal.Json
