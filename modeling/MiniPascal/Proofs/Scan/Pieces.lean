import MiniPascal.Proofs.Scan.Locality
import MiniPascal.Proofs.Text.Lines

/-! What one reading takes from a text: a gap, then a lexeme. A gap is skipped whatever stands
behind it, and a lexeme without a fault lies on one line. -/
namespace MiniPascal

namespace Text

variable {cs xs ys : List Char} {p : Char → Bool}

theorem OnOneLine.append (hx : OnOneLine xs) (hy : OnOneLine ys) : OnOneLine (xs ++ ys) := by
  intro c hc
  rcases List.mem_append.1 hc with hc | hc
  · exact hx c hc
  · exact hy c hc

end Text

namespace Lexeme

variable {c : Char} {cs fraction mark rest whole : List Char} {value : Option Int}

theorem isStringChar_iff : isStringChar c ↔ c ≠ quote ∧ c ≠ '\r' ∧ c ≠ '\n' := by
  simp [isStringChar, and_assoc]

end Lexeme

namespace Gap

/-- A gap in front of which there were errors. -/
def behind (es : List LexicalError) (g : Gap) : Gap := { g with errors := es ++ g.errors }

/-- A text begins with a gap, in which there are errors, and goes on with a lexeme. -/
structure Parts (opened : Option Nat) (n : Nat) (cs gap : List Char) (es : List LexicalError)
    (c : Char) (rest : List Char) : Prop where
  split : cs = gap ++ c :: rest
  notBlank : ¬ isBlank c
  notBrace : c ≠ '\x7b'
  skip : ∀ ds, skip opened n (gap ++ ds) = (skip none (n + Text.size gap) ds).behind es

variable {opened later : Option Nat} {n : Nat} {c x : Char} {cs gap rest : List Char}
  {es ds : List LexicalError}

theorem skip_of_lexeme (hb : ¬ isBlank c) (hx : c ≠ '\x7b') :
    skip none n (c :: cs) = ⟨[], n, c :: cs⟩ := by
  rw [skip, if_neg hx, if_neg hb]

theorem Parts.skip_lexeme (h : Parts opened n cs gap es c rest) (us : List Char) :
    Gap.skip opened n (gap ++ c :: us) = ⟨es, n + Text.size gap, c :: us⟩ := by
  rw [h.skip, skip_of_lexeme h.notBlank h.notBrace, behind, List.append_nil]

/-- A character that belongs to the gap whatever stands behind it. -/
theorem Parts.cons (h : Parts later (n + x.utf8Size) cs gap es c rest)
    (hx : ∀ us, Gap.skip opened n (x :: us) =
      (Gap.skip later (n + x.utf8Size) us).behind ds) :
    Parts opened n (x :: cs) (x :: gap) (ds ++ es) c rest := by
  refine ⟨congrArg (x :: ·) h.split, h.notBlank, h.notBrace, fun us => ?_⟩
  have hsize : n + Text.size (x :: gap) = n + x.utf8Size + Text.size gap :=
    (Nat.add_assoc _ _ _).symm
  rw [List.cons_append, hx, h.skip, hsize, behind, behind, behind, List.append_assoc]

theorem exists_parts (h : (skip opened n cs).rest ≠ []) :
    ∃ gap es c rest, Parts opened n cs gap es c rest := by
  induction cs generalizing opened n with
  | nil => exact absurd rfl h
  | cons x cs ih =>
    have hbraces : '\x7b'.utf8Size = 1 ∧ '\x7d'.utf8Size = 1 := ⟨rfl, rfl⟩
    -- A character of the gap.
    have hcons : ∀ later ds, (∀ us, skip opened n (x :: us) =
        (skip later (n + x.utf8Size) us).behind ds) →
          ∃ gap es c rest, Parts opened n (x :: cs) gap es c rest := by
      intro later ds hx
      rw [hx] at h
      obtain ⟨gap, es, c, rest, hparts⟩ := ih h
      exact ⟨x :: gap, ds ++ es, c, rest, hparts.cons hx⟩
    cases opened with
    | some start =>
      by_cases hclose : x = '\x7d'
      · subst hclose
        exact hcons none [] fun us => by simp [skip, behind, hbraces]
      · by_cases hopen : x = '\x7b'
        · subst hopen
          exact hcons none [unclosed start] fun us => by simp [skip, behind, hbraces]
        · exact hcons (some start) [] fun us => by simp [skip, behind, hclose, hopen]
    | none =>
      by_cases hopen : x = '\x7b'
      · subst hopen
        exact hcons (some n) [] fun us => by simp [skip, behind, hbraces]
      · by_cases hblank : isBlank x
        · have hsize := utf8Size_of_isBlank hblank
          exact hcons none [] fun us => by simp [skip, behind, hopen, hblank, hsize]
        · exact ⟨[], [], x, cs, rfl, hblank, hopen, fun us => rfl⟩

end Gap

namespace Reading

variable {n : Nat} {cs gap rest : List Char} {es : List LexicalError} {c : Char}

theorem next_of_cons (h : (Gap.skip none n cs).rest = c :: rest) :
    next n cs = (ofLexeme (Gap.skip none n cs).errors (Gap.skip none n cs).offset
      (Lexeme.read c rest), (Lexeme.read c rest).rest) := by
  simp only [next, h]

/-- A token before the end of the text is that of a lexeme behind a gap. -/
theorem exists_parts (h : (next n cs).1.token.isEnd = false) :
    ∃ gap es c rest, Gap.Parts none n cs gap es c rest := by
  refine Gap.exists_parts fun hrest => ?_
  simp only [next, hrest] at h
  cases h

/-- The reading of a gap and a lexeme, whatever stands behind the first character. -/
theorem next_gap (h : Gap.Parts none n cs gap es c rest) (us : List Char) :
    next n (gap ++ c :: us) =
      (ofLexeme es (n + Text.size gap) (Lexeme.read c us), (Lexeme.read c us).rest) := by
  have hskip := h.skip_lexeme us
  have hrest : (Gap.skip none n (gap ++ c :: us)).rest = c :: us := by rw [hskip]
  rw [next_of_cons hrest, hskip]

theorem next_parts (h : Gap.Parts none n cs gap es c rest) : next n cs =
    (ofLexeme es (n + Text.size gap) (Lexeme.read c rest), (Lexeme.read c rest).rest) := by
  have hnext := next_gap h rest
  rwa [← h.split] at hnext

/-- A text divides into a gap, the characters of a lexeme, and what is left to read. -/
theorem split_parts (h : Gap.Parts none n cs gap es c rest) :
    cs = gap ++ (Lexeme.read c rest).chars ++ (next n cs).2 := by
  rw [next_parts h, List.append_assoc, Lexeme.read_chars]
  exact h.split

/-- The text of a token, with the gap before it, takes the room up to where the token ends. -/
theorem stop_of_split {front : List Char} (h : cs = front ++ (next n cs).2) :
    (next n cs).1.token.stop = n + Text.size front := by
  have hsize : _ = n + Text.size cs := stop_add_size
  have hcs := congrArg Text.size h
  rw [Text.size_append] at hcs
  omega

end Reading
end MiniPascal
