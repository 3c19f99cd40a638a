import MiniPascal.Proofs.Scan.Lossless

/-! The errors of a text: those of the gaps are its unclosed comments, the others are its faulty
tokens, and they are reported from left to right. -/
namespace MiniPascal

/-- The token that stands for a faulty lexeme. -/
def LexicalError.token (e : LexicalError) : Token := ⟨e.fault.tokenKind, e.span⟩

/-- One error lies before another. -/
def LexicalError.Before (d e : LexicalError) : Prop := d.span.offset < e.span.offset

namespace Gap

/-- The errors of a gap that begins at an offset are unclosed comments in it, from left to right. -/
structure Reports (n : Nat) (g : Gap) : Prop where
  start : n ≤ g.offset
  within : ∀ e ∈ g.errors, n ≤ e.span.offset ∧ e.span.offset < g.offset
  comments : ∀ e ∈ g.errors, e.isUnclosed
  ordered : g.errors.Pairwise LexicalError.Before

variable {n k : Nat} {g : Gap} {cs : List Char}

theorem Reports.of_le (h : g.Reports n) (hk : k ≤ n) : g.Reports k := by
  refine ⟨Nat.le_trans hk h.start, fun e he => ?_, h.comments, h.ordered⟩
  obtain ⟨hstart, hstop⟩ := h.within e he
  exact ⟨Nat.le_trans hk hstart, hstop⟩

theorem reports_nil {rest : List Char} (h : n ≤ k) : Reports n ⟨[], k, rest⟩ :=
  ⟨h, by simp, by simp, .nil⟩

/-- An unclosed comment before a gap. -/
theorem Reports.cons (h : g.Reports n) (hk : k < n) :
    Reports k { g with errors := Gap.unclosed k :: g.errors } := by
  have hrest := h.of_le (Nat.le_of_lt hk)
  refine ⟨hrest.start, ?_, ?_, .cons (fun e he => ?_) h.ordered⟩
  · intro e he
    rcases List.mem_cons.1 he with rfl | he
    · exact ⟨Nat.le_refl _, Nat.lt_of_lt_of_le hk h.start⟩
    · exact hrest.within e he
  · intro e he
    rcases List.mem_cons.1 he with rfl | he
    · rfl
    · exact h.comments e he
  · exact Nat.lt_of_lt_of_le hk (h.within e he).1

/-- Skipping reports from where it begins, or from the brace on if that is within a comment. -/
theorem skip_reports (cs : List Char) : (∀ n, (skip none n cs).Reports n) ∧
    ∀ start n, start < n → (skip (some start) n cs).Reports start := by
  induction cs with
  | nil =>
    refine ⟨fun n => reports_nil (Nat.le_refl n), fun start n h => ?_⟩
    exact Reports.cons (reports_nil (Nat.le_refl n)) h
  | cons c cs ih =>
    obtain ⟨ihout, ihin⟩ := ih
    constructor
    · intro n
      simp only [skip]
      split
      · exact ihin n (n + 1) (Nat.lt_succ_self n)
      · split
        · exact (ihout (n + 1)).of_le (Nat.le_succ n)
        · exact reports_nil (Nat.le_refl n)
    · intro start n h
      simp only [skip]
      split
      · exact (ihout (n + 1)).of_le (Nat.le_succ_of_le (Nat.le_of_lt h))
      · split
        · exact (ihout (n + 1)).cons (Nat.lt_succ_of_lt h)
        · exact ihin start _ (Nat.lt_add_right _ h)

end Gap

namespace Reading

/-- The errors of a reading that begins at an offset: those of the gap lie before its token, and the
one of the token is there if and only if a parser does not see it. -/
structure Reports (n : Nat) (r : Reading) : Prop where
  start : n ≤ r.token.span.offset
  within : ∀ e ∈ r.errors, n ≤ e.span.offset ∧ e.span.offset ≤ r.token.span.offset
  before : r.token.kind.isMeaningful → ∀ e ∈ r.errors, e.span.offset < r.token.span.offset
  faulty : (r.errors.filter (!·.isUnclosed)).map (·.token) =
    [r.token].filter (!·.kind.isMeaningful)
  ordered : r.errors.Pairwise LexicalError.Before

variable {n : Nat} {cs : List Char} {g : Gap} {l : Lexeme}

theorem isMeaningful_tokenKind (f : LexicalFault) : f.tokenKind.isMeaningful = false := by
  cases f <;> rfl

theorem filter_unclosed_gap (h : g.Reports n) : g.errors.filter (!·.isUnclosed) = [] := by
  rw [List.filter_eq_nil_iff]
  intro e he
  simp [h.comments e he]

theorem reports_end (h : g.Reports n) : Reports n ⟨⟨.endOfText, ⟨g.offset, 0⟩⟩, g.errors⟩ := by
  refine ⟨h.start, fun e he => ?_, fun _ e he => (h.within e he).2, ?_, h.ordered⟩
  · exact ⟨(h.within e he).1, Nat.le_of_lt (h.within e he).2⟩
  · rw [filter_unclosed_gap h]
    rfl

theorem reports_lexeme (h : g.Reports n) (hl : l.Faithful) :
    (ofLexeme g.errors g.offset l).Reports n := by
  cases ho : l.outcome with
  | ok k =>
    simp only [Lexeme.Faithful, ho] at hl
    simp only [ofLexeme, ho]
    refine ⟨h.start, fun e he => ?_, fun _ e he => (h.within e he).2, ?_, h.ordered⟩
    · exact ⟨(h.within e he).1, Nat.le_of_lt (h.within e he).2⟩
    · rw [filter_unclosed_gap h]
      simp [hl.1]
  | error f =>
    simp only [Lexeme.Faithful, ho] at hl
    simp only [ofLexeme, ho]
    refine ⟨h.start, ?_, fun hm => ?_, ?_, ?_⟩
    · intro e he
      rcases List.mem_append.1 he with he | he
      · exact ⟨(h.within e he).1, Nat.le_of_lt (h.within e he).2⟩
      · rw [List.mem_singleton] at he
        subst he
        exact ⟨h.start, Nat.le_refl _⟩
    · rw [isMeaningful_tokenKind] at hm
      cases hm
    · rw [List.filter_append, filter_unclosed_gap h]
      simp [LexicalError.isUnclosed, hl, LexicalError.token, isMeaningful_tokenKind]
    · rw [List.pairwise_append]
      refine ⟨h.ordered, List.pairwise_singleton _ _, fun e he d hd => ?_⟩
      rw [List.mem_singleton] at hd
      subst hd
      exact (h.within e he).2

theorem next_reports (n : Nat) (cs : List Char) : (next n cs).1.Reports n := by
  have h := (Gap.skip_reports cs).1 n
  unfold next
  dsimp only
  split
  · exact reports_end h
  · next c rest _ => exact reports_lexeme h (Lexeme.read_faithful c rest)

/-- A token before the end of the text is not empty. -/
theorem offset_lt_stop (h : (next n cs).1.token.isEnd = false) :
    (next n cs).1.token.span.offset < (next n cs).1.token.stop := by
  unfold next at h ⊢
  dsimp only at h ⊢
  split at h
  · cases h
  · next c rest _ =>
    have hpos : 0 < Text.size (Lexeme.read c rest).chars :=
      Text.size_pos (Lexeme.read_chars_ne_nil c rest)
    rw [Token.stop, span_ofLexeme, Span.stop]
    exact Nat.lt_add_of_pos_right hpos

/-- The errors of a text lie one behind another. -/
theorem allErrors_ordered (n : Nat) (cs : List Char) :
    (allErrors (all n cs)).Pairwise LexicalError.Before ∧
    ∀ e ∈ allErrors (all n cs), n ≤ e.span.offset := by
  induction n, cs using all.induct with
  | case1 n cs step hend =>
    rw [all_of_end hend, allErrors, List.flatMap_singleton]
    exact ⟨(next_reports n cs).ordered, fun e he => ((next_reports n cs).within e he).1⟩
  | case2 n cs step hend ih =>
    have hnot : (next n cs).1.token.isEnd = false := Bool.eq_false_iff.2 hend
    obtain ⟨hordered, hstart⟩ := ih
    have h := next_reports n cs
    have hstop := offset_lt_stop hnot
    rw [all_of_not_end hnot, allErrors, List.flatMap_cons, ← allErrors]
    refine ⟨List.pairwise_append.2 ⟨h.ordered, hordered, fun d hd e he => ?_⟩, fun e he => ?_⟩
    · have hlater : (next n cs).1.token.stop ≤ e.span.offset := hstart e he
      exact Nat.lt_of_le_of_lt (h.within d hd).2 (Nat.lt_of_lt_of_le hstop hlater)
    · rcases List.mem_append.1 he with he | he
      · exact (h.within e he).1
      · have hlater : (next n cs).1.token.stop ≤ e.span.offset := hstart e he
        have hn := h.start
        omega

/-- The errors that are no unclosed comments are the tokens that a parser does not see. -/
theorem allErrors_faulty (n : Nat) (cs : List Char) :
    ((allErrors (all n cs)).filter (!·.isUnclosed)).map (·.token) =
      (tokens (all n cs)).filter (!·.kind.isMeaningful) := by
  induction n, cs using all.induct with
  | case1 n cs step hend =>
    rw [all_of_end hend, allErrors, List.flatMap_singleton]
    exact (next_reports n cs).faulty
  | case2 n cs step hend ih =>
    rw [all_of_not_end (Bool.eq_false_iff.2 hend), allErrors, List.flatMap_cons, ← allErrors,
      List.filter_append, List.map_append, (next_reports n cs).faulty, ih, ← List.filter_append]
    rfl

end Reading
end MiniPascal
