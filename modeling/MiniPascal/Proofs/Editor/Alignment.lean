import MiniPascal.Proofs.Editor.Answers
import MiniPascal.Proofs.Reading.Heading

/-! The place of a rejection. It begins with a token and ends with one, and so an editor can show it
as a stretch of the text. -/
namespace MiniPascal

section
variable {source : String} {a : Span} {t : Token} {us : List Token} {r : Rejection}
  {e : Grammar.Stop} {s' : Grammar.State}

/-- A stretch of tokens that stand in order ends where the last of them does. -/
theorem Span.Spans.ends (h : a.Spans us)
    (ho : us.Pairwise fun t u => t.stop ≤ u.span.offset) :
    ∃ t ∈ us, ∃ u ∈ us, a.offset = t.span.offset ∧ a.stop = u.stop ∧ t.stop ≤ u.stop := by
  obtain ⟨t, u, ht, hu, rfl⟩ := h
  obtain ⟨vs, rfl⟩ := List.head?_eq_some_iff.1 ht
  have hmem : u ∈ t :: vs := List.mem_of_getLast? hu
  have hle : t.stop ≤ u.stop := by
    rcases List.mem_cons.1 hmem with rfl | hmem
    · exact Nat.le_refl _
    · exact Nat.le_trans ((List.pairwise_cons.1 ho).1 u hmem) (Nat.le_add_right _ _)
  refine ⟨t, List.mem_cons_self, u, hmem, rfl, ?_, hle⟩
  have hstart : t.span.offset ≤ t.stop := Nat.le_add_right _ _
  simp only [Span.stop]
  omega

end

namespace Editor

variable {source : String} {t : SourceText} {p : Problem} {q : Report} {rs : List Report}

end Editor
end MiniPascal
