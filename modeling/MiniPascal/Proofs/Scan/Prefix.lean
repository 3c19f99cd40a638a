import MiniPascal.Proofs.Scan.Apart
import MiniPascal.Proofs.Scan.Pieces

/-! Texts that are the same up to a point. Their readings are the same up to there, whatever stands
behind the point. -/
namespace MiniPascal

namespace Lexeme

/-- A point that is a lexeme has no other behind it. -/
theorem head_rest_of_point {c : Char} {cs : List Char} (h : (read c cs).chars = ['.']) :
    (read c cs).rest.head? ≠ some '.' := by
  intro hhead
  have hchars := read_chars c cs
  obtain ⟨us, hus⟩ := List.head?_eq_some_iff.1 hhead
  rw [h, hus] at hchars
  obtain ⟨rfl, rfl⟩ := List.cons.inj hchars
  cases h

end Lexeme

namespace Reading

variable {n : Nat} {c : Char} {cs gap r rest : List Char} {es : List LexicalError} {q : Reading}
  {qs us : List Reading}

/-- What stands behind a token may be replaced by what begins alike, or by what the token stands
apart from if a parser sees it. -/
theorem next_before (h : Gap.Parts none n cs gap es c rest)
    (hr : Alike (next n cs).2 r ∨ (next n cs).1.token.kind.isMeaningful ∧ Apart r) :
    next n (gap ++ (Lexeme.read c rest).chars ++ r) = ((next n cs).1, r) := by
  have hnext := next_parts h
  obtain ⟨us, hus, hread⟩ : ∃ us, (Lexeme.read c rest).chars ++ r = c :: us ∧
      Lexeme.read c us = (Lexeme.read c rest).before r := by
    rw [hnext] at hr
    rcases hr with hr | ⟨hm, hr⟩
    · exact Lexeme.read_local hr
    · cases ho : (Lexeme.read c rest).outcome with
      | ok k => exact Lexeme.read_apart ho hr
      | error f =>
        simp only [ofLexeme, ho] at hm
        rw [isMeaningful_tokenKind] at hm
        cases hm
  rw [List.append_assoc, hus, next_gap h, hread, hnext]
  rfl

theorem all_before (h : Gap.Parts none n cs gap es c rest)
    (hend : (next n cs).1.token.isEnd = false)
    (hr : Alike (next n cs).2 r ∨ (next n cs).1.token.kind.isMeaningful ∧ Apart r) :
    all n (gap ++ (Lexeme.read c rest).chars ++ r) =
      (next n cs).1 :: all (next n cs).1.token.stop r := by
  have hnext := next_before h hr
  have hend' : (next n (gap ++ (Lexeme.read c rest).chars ++ r)).1.token.isEnd = false :=
    hnext ▸ hend
  rw [all_of_not_end hend', hnext]

/-- Nothing follows a point that is the whole of a token and its gap but what is no point. -/
theorem head_of_point (h : Gap.Parts none n cs gap es c rest)
    (hpoint : gap ++ (Lexeme.read c rest).chars = ['.']) : (next n cs).2.head? ≠ some '.' := by
  have hchars : (Lexeme.read c rest).chars = ['.'] := by
    rcases List.append_eq_singleton_iff.1 hpoint with ⟨-, hchars⟩ | ⟨-, hchars⟩
    · exact hchars
    · exact absurd hchars (Lexeme.read_chars_ne_nil c rest)
  rw [next_parts h]
  exact Lexeme.head_rest_of_point hchars

/-- Texts go on alike behind the same characters, unless these are a point of which another could
make more. -/
theorem alike_append {front r' : List Char} (hf : front ≠ [])
    (hpoint : front = ['.'] → r.head? ≠ some '.' ∧ r'.head? ≠ some '.') :
    Alike (front ++ r) (front ++ r') := by
  rcases front with _ | ⟨x, _ | ⟨y, front⟩⟩
  · exact absurd rfl hf
  · refine ⟨rfl, fun hx => ?_⟩
    obtain rfl : x = '.' := Option.some.inj hx
    obtain ⟨h, h'⟩ := hpoint rfl
    exact iff_of_false h' h
  · exact ⟨rfl, fun _ => Iff.rfl⟩

theorem head_of_apart (h : Apart r) : r.head? ≠ some '.' := by
  intro hr
  have hmem := h '.' hr
  revert hmem
  decide

/-- A text of which something other than the end is read has not ended. -/
theorem not_isEnd_of_all (h : all n cs = qs ++ q :: us) (hq : q.token.isEnd = false) :
    (next n cs).1.token.isEnd = false := by
  cases hend : (next n cs).1.token.isEnd with
  | false => rfl
  | true =>
    rw [all_of_end hend] at h
    have hmem : q ∈ [(next n cs).1] := by
      rw [h]
      simp
    rw [← List.mem_singleton.1 hmem, hq] at hend
    cases hend

/-- A text may be cut behind a token that a parser sees, and continued with anything that the token
stands apart from. -/
theorem all_cut (h : all n cs = qs ++ q :: us) (hq : q.token.isEnd = false)
    (hm : q.token.kind.isMeaningful) : ∃ front rest, front ≠ [] ∧ cs = front ++ rest ∧
      q.token.stop = n + Text.size front ∧ (front = ['.'] → rest.head? ≠ some '.') ∧
      ∀ r, Apart r → all n (front ++ r) = qs ++ q :: all q.token.stop r := by
  induction qs generalizing n cs with
  | nil =>
    have hend := not_isEnd_of_all h hq
    obtain ⟨gap, es, c, rest, hparts⟩ := exists_parts hend
    have hsplit := split_parts hparts
    rw [all_of_not_end hend] at h
    obtain ⟨rfl, -⟩ := List.cons.inj h
    refine ⟨_, _, ?_, hsplit, stop_of_split hsplit, head_of_point hparts, fun r hr => ?_⟩
    · simp [Lexeme.read_chars_ne_nil]
    · exact all_before hparts hend (.inr ⟨hm, hr⟩)
  | cons q₀ qs ih =>
    have hend := not_isEnd_of_all h hq
    obtain ⟨gap, es, c, rest, hparts⟩ := exists_parts hend
    have hsplit := split_parts hparts
    rw [all_of_not_end hend] at h
    obtain ⟨rfl, hlater⟩ := List.cons.inj h
    obtain ⟨front, rest', hf, hrest, hstop, hpoint, hall⟩ := ih hlater
    refine ⟨gap ++ (Lexeme.read c rest).chars ++ front, rest', by simp [hf], ?_, ?_, ?_, ?_⟩
    · rw [List.append_assoc, ← hrest]
      exact hsplit
    · rw [hstop, stop_of_split hsplit, Text.size_append _ front, Nat.add_assoc]
    · intro hdot
      rcases List.append_eq_singleton_iff.1 hdot with ⟨hnil, -⟩ | ⟨-, hnil⟩
      · exact absurd (List.append_eq_nil_iff.1 hnil).2 (Lexeme.read_chars_ne_nil c rest)
      · exact absurd hnil hf
    · intro r hr
      have halike : Alike (next n cs).2 (front ++ r) := by
        rw [hrest]
        exact alike_append hf fun hdot => ⟨hpoint hdot, head_of_apart hr⟩
      rw [List.append_assoc, all_before hparts hend (.inl halike), hall r hr]
      rfl

end Reading
end MiniPascal
