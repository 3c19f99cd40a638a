import MiniPascal.Proofs.Reading.Names
import MiniPascal.Proofs.Scan.Spacing

/-! What a text compiles to depends on the kinds of its tokens. Where they stand shows in nothing
but the places of the problems, so a text may be laid out in any way. -/
namespace MiniPascal

/-- The second text has the lexemes of the first, with blanks and comments around them. -/
structure Respaced (source source' : String) (front : List Char) (gaps : List (List Char)) :
    Prop where
  before : Filler front
  length : gaps.length = (lexemes source).length
  fillers : ∀ g ∈ gaps, Filler g
  inner : ∀ g ∈ gaps.dropLast, g ≠ []
  text : source'.toList = spaced front (lexemes source) gaps

section
variable {source source' : String} {front : List Char} {gaps : List (List Char)}

/-- Texts with the same tokens and no errors have the same outcome. -/
theorem sameOutcome_of_kinds (he : (tokenize source).2 = []) (he' : (tokenize source').2 = [])
    (hk : kindsOf source' = kindsOf source) : SameOutcome source source' := by
  have hmatches : List.Forall₂ (TokenKind.Matches Eq) (kindsOf source) (kindsOf source') := by
    rw [hk]
    exact List.forall₂_same.2 fun k _ => .refl k
  exact sameOutcome_of_seenAlike renaming_eq (seenAlike_of_errors_nil he he' hmatches)

/-- A text without lexical errors may be laid out in any way: with the same lexemes, blanks and
comments between them, it has the same tokens and the same outcome. -/
theorem compile_respaced (he : (tokenize source).2 = []) (h : Respaced source source' front gaps) :
    (tokenize source').2 = [] ∧ kindsOf source' = kindsOf source ∧ SameOutcome source source' := by
  obtain ⟨he', hkinds⟩ := readings_spaced he h.before h.length h.fillers h.inner h.text
  exact ⟨he', hkinds, sameOutcome_of_kinds he he' hkinds⟩

/-- Every lexeme on a line of its own, behind a comment with a quote and a reserved word. -/
theorem compile_respaced_lines :
    (tokenize "program p;begin print(1<>2)end.").2 = [] ∧
    Respaced "program p;begin print(1<>2)end."
      "\x7b'end\x7dprogram\np\n;\nbegin\nprint\n(\n1\n<>\n2\n)\nend\n.\n"
      "\x7b'end\x7d".toList (List.replicate 12 ['\n']) ∧
    SameOutcome "program p;begin print(1<>2)end."
      "\x7b'end\x7dprogram\np\n;\nbegin\nprint\n(\n1\n<>\n2\n)\nend\n.\n" := by
  have he : (tokenize "program p;begin print(1<>2)end.").2 = [] := by decide +kernel
  have hbody : ∀ x ∈ ['\x27', 'e', 'n', 'd'], x ≠ '\x7b' ∧ x ≠ '\x7d' := by simp
  have hcomment : Filler "\x7b'end\x7d".toList := .comment hbody .nil
  have hline : Filler ['\n'] := .blank rfl .nil
  have h : Respaced "program p;begin print(1<>2)end."
      "\x7b'end\x7dprogram\np\n;\nbegin\nprint\n(\n1\n<>\n2\n)\nend\n.\n"
      "\x7b'end\x7d".toList (List.replicate 12 ['\n']) := by
    refine ⟨hcomment, by decide +kernel, fun g hg => ?_, fun g hg => ?_, by decide +kernel⟩
    · rw [List.eq_of_mem_replicate hg]
      exact hline
    · rw [List.eq_of_mem_replicate (List.dropLast_subset _ hg)]
      simp
  exact ⟨he, h, (compile_respaced he h).2.2⟩

end
end MiniPascal
