import MiniPascal.Token.Reading

/-! What a lexeme spells. A token says what its characters say, and a lexeme is never taken for a
comment or for the end of the text. -/
namespace MiniPascal

/-- The kind of token that the characters spell. -/
structure TokenKind.Spelled (k : TokenKind) (chars : List Char) : Prop where
  notEnd : k ≠ .endOfText
  identifier : ∀ name, k = .identifier name → chars = name.toList
  string : ∀ v, k = .string v → chars = Lexeme.quote :: (v.toList ++ [Lexeme.quote])

theorem LexicalFault.spelled_tokenKind (f : LexicalFault) (chars : List Char) :
    f.tokenKind.Spelled chars := by
  cases f <;> exact ⟨by simp [tokenKind], by simp [tokenKind], by simp [tokenKind]⟩

namespace Lexeme

/-- A lexeme says what it spells, or has a fault of its own. -/
def Faithful (l : Lexeme) : Prop :=
  match l.outcome with
  | .ok k => k.isMeaningful ∧ k.Spelled l.chars
  | .error f => f ≠ .unclosedComment

variable {c : Char} {cs digits chars fraction rest whole : List Char} {d : Decimal}

theorem word_faithful : (word cs).Faithful := by
  simp only [Faithful, word]
  split
  · exact ⟨rfl, by simp, by simp, by simp⟩
  · refine ⟨rfl, by simp, ?_, by simp⟩
    intro name hname
    cases hname
    exact String.toList_ofList.symm

theorem string_faithful : (string cs).Faithful := by
  unfold string
  split
  · simp [Faithful]
  · split
    · refine ⟨rfl, by simp, by simp, ?_⟩
      intro v hv
      cases hv
      simp
    · simp [Faithful]

theorem integer_faithful : (integer digits rest).Faithful := by
  by_cases h : Decimal.natOfDigits digits < 0x80000000
  · simp only [Faithful, integer, if_pos h]
    exact ⟨rfl, by simp, by simp, by simp⟩
  · simp only [Faithful, integer, if_neg h]
    simp

theorem real_faithful : (real d chars rest).Faithful := by
  by_cases h : d.toFloat.isFinite
  · simp only [Faithful, real, if_pos h]
    exact ⟨rfl, by simp, by simp, by simp⟩
  · simp only [Faithful, real, if_neg h]
    simp

theorem scaled_faithful : (scaled whole fraction rest).Faithful := by
  unfold scaled
  split
  · split
    · exact integer_faithful
    · exact real_faithful
  · simp [Faithful]
  · exact real_faithful

theorem number_faithful : (number cs).Faithful := by
  unfold number
  split
  · exact scaled_faithful
  · split
    · dsimp only
      split
      · simp [Faithful]
      · exact scaled_faithful
    · exact scaled_faithful

theorem symbol_faithful : (symbol c cs).Faithful := by
  unfold symbol
  split
  · exact ⟨rfl, by simp, by simp, by simp⟩
  · split
    · exact ⟨rfl, by simp, by simp, by simp⟩
    · simp [Faithful]

theorem read_faithful (c : Char) (cs : List Char) : (read c cs).Faithful := by
  unfold read
  split
  · exact string_faithful
  · split
    · exact number_faithful
    · split
      · exact word_faithful
      · exact symbol_faithful

end Lexeme
end MiniPascal
