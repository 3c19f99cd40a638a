import MiniPascal.Proofs.Scan.Prefix

/-! Texts taken apart into lexemes and what fills the gaps between them. The scanner takes them
apart in the same way. -/
namespace MiniPascal

/-- Blanks and closed comments, one after another. -/
inductive Filler : List Char → Prop
  | nil : Filler []
  | blank {c : Char} {cs : List Char} (hc : Gap.isBlank c) (h : Filler cs) : Filler (c :: cs)
  | comment {body cs : List Char} (hbody : ∀ x ∈ body, x ≠ '\x7b' ∧ x ≠ '\x7d')
    (h : Filler cs) : Filler ('\x7b' :: (body ++ '\x7d' :: cs))

/-- In front of the rest, the characters are read as a token of the kind. -/
def Lexeme.Leads (w : List Char) (k : TokenKind) (rest : List Char) : Prop :=
  ∃ c us, w = c :: us ∧ c ∉ separators ∧ read c (us ++ rest) = ⟨.ok k, w, rest⟩

/-- The text is made up of lexemes of tokens of these kinds, with fillers around them. -/
inductive Lexed : List Char → List TokenKind → Prop
  | filler {g : List Char} (hg : Filler g) : Lexed g []
  | lexeme {front w rest : List Char} {k : TokenKind} {ks : List TokenKind} (hf : Filler front)
    (hw : Lexeme.Leads w k rest) (h : Lexed rest ks) : Lexed (front ++ (w ++ rest)) (k :: ks)

section
variable {c d : Char} {cs g body front rest us w : List Char} {n : Nat} {k : TokenKind}
  {ks : List TokenKind} {s : Symbol}

namespace Gap

theorem skip_body (hbody : ∀ x ∈ body, x ≠ '\x7b' ∧ x ≠ '\x7d') (start : Nat) :
    ∃ m, skip (some start) n (body ++ '\x7d' :: cs) = skip none m cs := by
  induction body generalizing n with
  | nil => exact ⟨n + 1, by simp [skip]⟩
  | cons x body ih =>
    obtain ⟨hopen, hclose⟩ := hbody x List.mem_cons_self
    obtain ⟨m, hm⟩ := @ih (n + x.utf8Size) fun y hy => hbody y (List.mem_cons_of_mem x hy)
    refine ⟨m, ?_⟩
    rw [List.cons_append, skip, if_neg hclose, if_neg hopen]
    exact hm

/-- A filler is skipped without errors. -/
theorem skip_filler (h : Filler g) : ∃ m, skip none n (g ++ cs) = skip none m cs := by
  induction h generalizing n with
  | nil => exact ⟨n, rfl⟩
  | @blank c cs' hc _ ih =>
    obtain ⟨m, hm⟩ := @ih (n + 1)
    have hne : c ≠ '\x7b' := by
      rintro rfl
      cases hc
    refine ⟨m, ?_⟩
    rw [List.cons_append, skip, if_neg hne, if_pos hc]
    exact hm
  | @comment body cs' hbody _ ih =>
    obtain ⟨m, hm⟩ := @skip_body (cs' ++ cs) body (n + 1) hbody n
    obtain ⟨m', hm'⟩ := @ih m
    refine ⟨m', ?_⟩
    rw [List.cons_append, List.append_assoc, skip, if_pos rfl]
    exact hm.trans hm'

end Gap

namespace Lexeme

theorem Leads.ne_end (h : Leads w k rest) : k ≠ .endOfText := by
  obtain ⟨c, us, rfl, -, hread⟩ := h
  have hfaithful := read_faithful c (us ++ rest)
  rw [hread] at hfaithful
  exact hfaithful.2.notEnd

end Lexeme

namespace Reading

/-- A lexeme behind a filler makes its token and nothing else. -/
theorem next_leads (hf : Filler front) (hw : Lexeme.Leads w k rest) :
    ∃ span, next n (front ++ (w ++ rest)) = (⟨⟨k, span⟩, []⟩, rest) := by
  obtain ⟨c, us, rfl, hc, hread⟩ := hw
  obtain ⟨m, hm⟩ := @Gap.skip_filler (c :: us ++ rest) front n hf
  obtain ⟨hblank, hbrace⟩ := not_or.1 (mt mem_separators_iff.2 hc)
  have hskip : Gap.skip none n (front ++ (c :: us ++ rest)) = ⟨[], m, c :: (us ++ rest)⟩ := by
    rw [hm, List.cons_append, Gap.skip, if_neg hbrace, if_neg hblank]
  have hrest : (Gap.skip none n (front ++ (c :: us ++ rest))).rest = c :: (us ++ rest) := by
    rw [hskip]
  refine ⟨⟨m, Text.size (c :: us)⟩, ?_⟩
  rw [next_of_cons hrest, hread, hskip]
  rfl

theorem next_filler (hf : Filler g) : ∃ m, next n g = (⟨.atEnd m, []⟩, []) := by
  obtain ⟨m, hm⟩ := @Gap.skip_filler [] g n hf
  rw [List.append_nil] at hm
  refine ⟨m, ?_⟩
  rw [next, hm]
  rfl

/-- The lexemes make their tokens, and nothing is wrong with the text. -/
theorem all_lexed (h : Lexed cs ks) : allErrors (all n cs) = [] ∧
    (all n cs).map (·.token.kind) = ks ++ [.endOfText] := by
  induction h generalizing n with
  | @filler g hg =>
    obtain ⟨m, hm⟩ := @next_filler g n hg
    have hend : (next n g).1.token.isEnd = true := by rw [hm]; rfl
    rw [all_of_end hend, hm]
    exact ⟨rfl, rfl⟩
  | @lexeme front w rest k ks hf hw _ ih =>
    obtain ⟨span, hnext⟩ := @next_leads front rest w n k hf hw
    have hend : (next n (front ++ (w ++ rest))).1.token.isEnd = false := by
      rw [hnext]
      exact beq_eq_false_iff_ne.2 hw.ne_end
    obtain ⟨herrors, hkinds⟩ := @ih (⟨k, span⟩ : Token).stop
    rw [all_of_not_end hend, hnext]
    exact ⟨herrors, congrArg (k :: ·) hkinds⟩

end Reading

theorem Lexed.next (hw : Lexeme.Leads w k rest) (h : Lexed rest ks) : Lexed (w ++ rest) (k :: ks) :=
  .lexeme .nil hw h

theorem Lexed.spaced (hw : Lexeme.Leads w k rest) (h : Lexed rest ks) :
    Lexed (' ' :: (w ++ rest)) (k :: ks) := .lexeme (.blank rfl .nil) hw h

/-- A text is scanned as it is made up. -/
theorem kinds_of_lexed {source : String} (h : Lexed source.toList ks) :
    (tokenize source).2 = [] ∧ (tokenize source).1.map (·.kind) = ks ++ [.endOfText] := by
  obtain ⟨herrors, hkinds⟩ := @Reading.all_lexed _ 0 ks h
  refine ⟨herrors, ?_⟩
  simp only [tokenize, Reading.tokens, List.map_map]
  exact hkinds

end
end MiniPascal
