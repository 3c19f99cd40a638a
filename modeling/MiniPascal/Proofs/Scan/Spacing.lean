import Mathlib.Data.List.Forall2
import MiniPascal.Proofs.Scan.Lexed

/-! Texts that are the same but for what separates their lexemes. They have the same tokens in other
places. -/
namespace MiniPascal

/-- The characters of a token in a text, unless it is the end of the text. -/
def Token.lexeme? (cs : List Char) (t : Token) : Option (List Char) :=
  if t.isEnd then none else Text.slice? cs t.span.offset t.span.length

/-- The lexemes of a text. -/
def lexemes (source : String) : List (List Char) :=
  (tokenize source).1.filterMap (Token.lexeme? source.toList)

/-- Lexemes with something before the first and behind each. -/
def spaced (front : List Char) (ws gaps : List (List Char)) : List Char :=
  front ++ (List.zipWith (· ++ ·) ws gaps).flatten

section
variable {cs g front w : List Char} {n : Nat} {k : TokenKind}
  {ws gaps : List (List Char)} {ks : List TokenKind}

/-- What begins with a filler stands apart. -/
theorem Filler.apart (h : Filler g) (hne : g ≠ []) : Apart (g ++ cs) := by
  cases h with
  | nil => exact absurd rfl hne
  | blank hc =>
    rintro x ⟨⟩
    exact mem_separators_iff.2 (.inl hc)
  | comment =>
    rintro x ⟨⟩
    exact mem_separators_iff.2 (.inr rfl)

/-- What stands apart from anything leads where it stands apart. -/
theorem Lexeme.Stands.leads (h : Stands w k) (hcs : Apart cs) : Leads w k cs := by
  obtain ⟨c, us, hw, hc, hread⟩ := h
  exact ⟨c, us, hw, hc, hread cs hcs⟩

/-- Lexemes that stand apart are those of a text, whatever fills the gaps. -/
theorem lexed_spaced (hws : List.Forall₂ Lexeme.Stands ws ks) (hf : Filler front)
    (hlength : gaps.length = ws.length) (hgaps : ∀ g ∈ gaps, Filler g)
    (hinner : ∀ g ∈ gaps.dropLast, g ≠ []) : Lexed (spaced front ws gaps) ks := by
  induction hws generalizing front gaps with
  | nil =>
    rw [spaced, List.zipWith_nil_left, List.flatten_nil, List.append_nil]
    exact .filler hf
  | @cons w k ws ks hw hws ih =>
    obtain ⟨g, gaps, rfl⟩ := List.exists_cons_of_length_eq_add_one hlength
    have hg : Filler g := hgaps g List.mem_cons_self
    have hapart : Apart (spaced g ws gaps) := by
      by_cases hne : g = []
      · cases gaps with
        | nil =>
          subst hne
          have hempty : spaced [] ws [] = [] := by simp [spaced]
          rw [hempty]
          rintro x ⟨⟩
        | cons g' gaps => exact absurd hne (hinner g List.mem_cons_self)
      · exact hg.apart hne
    have hsplit : spaced front (w :: ws) (g :: gaps) = front ++ (w ++ spaced g ws gaps) := by
      simp [spaced]
    have hlater : Lexed (spaced g ws gaps) ks :=
      ih hg (Nat.succ.inj hlength) (fun g' hg' => hgaps g' (List.mem_cons_of_mem g hg'))
        fun g' hg' => hinner g' (by
          cases gaps with
          | nil => cases hg'
          | cons => exact List.mem_cons_of_mem g hg')
    rw [hsplit]
    exact .lexeme hf (hw.leads hapart) hlater

namespace Reading

/-- A token without errors is what its characters make by themselves. -/
theorem next_of_clear (hend : (next n cs).1.token.isEnd = false) (he : (next n cs).1.errors = []) :
    ∃ gap w k, cs = gap ++ (w ++ (next n cs).2) ∧
      (next n cs).1.token = ⟨k, ⟨n + Text.size gap, Text.size w⟩⟩ ∧ Lexeme.Stands w k := by
  obtain ⟨gap, es, c, rest, hparts⟩ := exists_parts hend
  have hsplit := split_parts hparts
  have hfirst : c ∉ separators := by
    rw [mem_separators_iff]
    exact not_or.2 ⟨hparts.notBlank, hparts.notBrace⟩
  rw [List.append_assoc] at hsplit
  have hnext := next_parts hparts
  cases ho : (Lexeme.read c rest).outcome with
  | error f =>
    rw [hnext] at he
    simp [ofLexeme, ho] at he
  | ok k =>
    refine ⟨gap, _, k, hsplit, ?_, Lexeme.stands_read ho hfirst⟩
    rw [hnext]
    simp only [ofLexeme, ho]

/-- Where there are no errors, every lexeme makes its token by itself. -/
theorem stands_lexemes (n : Nat) (cs : List Char) :
    ∀ front, n = Text.size front → allErrors (all n cs) = [] →
      ∃ ks, (all n cs).map (·.token.kind) = ks ++ [.endOfText] ∧ List.Forall₂ Lexeme.Stands
        ((tokens (all n cs)).filterMap (Token.lexeme? (front ++ cs))) ks := by
  induction n, cs using all.induct with
  | case1 n cs step hend =>
    intro front _ _
    have hkind : (next n cs).1.token.kind = .endOfText := eq_of_beq hend
    have hnone : (next n cs).1.token.lexeme? (front ++ cs) = none := if_pos hend
    refine ⟨[], ?_, ?_⟩
    · rw [all_of_end hend, List.map_singleton, hkind]
      rfl
    · rw [all_of_end hend, tokens, List.map_singleton, List.filterMap_cons_none hnone]
      exact .nil
  | case2 n cs step hend ih =>
    intro front hn he
    have hnot : (next n cs).1.token.isEnd = false := Bool.eq_false_iff.2 hend
    rw [all_of_not_end hnot] at he ⊢
    simp only [allErrors, List.flatMap_cons, List.append_eq_nil_iff] at he
    obtain ⟨gap, w, k, hcs, htoken, hw⟩ := next_of_clear hnot he.1
    have hstop : (next n cs).1.token.stop = Text.size (front ++ gap ++ w) := by
      rw [htoken, Text.size_append, Text.size_append, ← hn]
      rfl
    have hsplit : front ++ cs = front ++ gap ++ w ++ (next n cs).2 := by
      rw [List.append_assoc, List.append_assoc, ← hcs]
    obtain ⟨ks, hkinds, hks⟩ := ih _ hstop he.2
    have hlexeme : (next n cs).1.token.lexeme? (front ++ cs) = some w := by
      refine (if_neg hend).trans ?_
      rw [hsplit, htoken, hn, ← Text.size_append]
      exact Text.slice?_append
    refine ⟨k :: ks, ?_, ?_⟩
    · have hkind : (next n cs).1.token.kind = k := by rw [htoken]
      rw [List.map_cons, hkind, List.cons_append]
      exact congrArg (k :: ·) hkinds
    · rw [tokens, List.map_cons, List.filterMap_cons_some hlexeme, hsplit]
      exact .cons hw hks

end Reading

/-- Without errors, a text has the same tokens whatever fills the gaps between its lexemes. -/
theorem readings_spaced {source source' : String} (he : (tokenize source).2 = [])
    (hf : Filler front) (hlength : gaps.length = (lexemes source).length)
    (hgaps : ∀ g ∈ gaps, Filler g) (hinner : ∀ g ∈ gaps.dropLast, g ≠ [])
    (hs : source'.toList = spaced front (lexemes source) gaps) :
    (tokenize source').2 = [] ∧
      (tokenize source').1.map (·.kind) = (tokenize source).1.map (·.kind) := by
  obtain ⟨ks, hkinds, hstands⟩ := Reading.stands_lexemes 0 source.toList [] rfl he
  have hlexed : Lexed source'.toList ks := by
    rw [hs]
    exact lexed_spaced hstands hf hlength hgaps hinner
  obtain ⟨he', hkinds'⟩ := kinds_of_lexed hlexed
  refine ⟨he', hkinds'.trans ?_⟩
  simp only [tokenize, Reading.tokens, List.map_map]
  exact hkinds.symm

end
end MiniPascal
