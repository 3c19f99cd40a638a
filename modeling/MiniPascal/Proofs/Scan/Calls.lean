import MiniPascal.Proofs.Scan.Gap

/-! A scanner asked for tokens in either way hands out one sequence, whatever the order of the
calls. -/
namespace MiniPascal

namespace Reading

variable {n k : Nat} {cs : List Char}

/-- The readings of a text without end. -/
def nth : Nat → List Char → Nat → Reading
  | n, cs, 0 => (next n cs).1
  | n, cs, k + 1 => nth (next n cs).1.token.stop (next n cs).2 k

theorem next_nil : next n [] = (⟨.atEnd n, []⟩, []) := rfl

theorem nth_nil : nth n [] k = ⟨.atEnd n, []⟩ := by
  induction k with
  | zero => rfl
  | succ k ih => exact ih

/-- There is no text behind its end. -/
theorem rest_of_end (h : (next n cs).1.token.isEnd = true) : (next n cs).2 = [] := by
  unfold next at h ⊢
  dsimp only at h ⊢
  split at h
  · rfl
  · next c rest hrest =>
    exact absurd (eq_of_beq h) (spelled_ofLexeme (Lexeme.read_faithful c rest)).notEnd

theorem stop_add_size : (next n cs).1.token.stop + Text.size (next n cs).2 = n + Text.size cs := by
  cases h : (next n cs).1.token.isEnd with
  | true =>
    obtain ⟨gs, -, -, htoken, -⟩ := next_of_end h
    rw [rest_of_end h, htoken]
    rfl
  | false =>
    obtain ⟨gs, chars, -, hsize, -⟩ := next_of_not_end h
    exact hsize

/-- Behind the readings up to the end, there is only the end. -/
theorem nth_eq (n : Nat) (cs : List Char) :
    ∀ k, nth n cs k = (all n cs)[k]?.getD ⟨.atEnd (n + Text.size cs), []⟩ := by
  induction n, cs using all.induct with
  | case1 n cs step hend =>
    intro k
    obtain ⟨gs, -, -, htoken, -⟩ := next_of_end hend
    rw [all_of_end hend]
    cases k with
    | zero => rfl
    | succ k =>
      rw [nth, rest_of_end hend, nth_nil, htoken]
      rfl
  | case2 n cs step hend ih =>
    intro k
    rw [all_of_not_end (Bool.eq_false_iff.2 hend)]
    cases k with
    | zero => rfl
    | succ k =>
      rw [nth, ih, stop_add_size]
      rfl

end Reading

namespace Scanner

/-- The two ways to ask a scanner for a token. -/
inductive Call where
  | nextToken
  | next
deriving DecidableEq

/-- The answer to a call, and the scanner behind it. -/
def answer (s : Scanner) : Call → Option Token × Scanner
  | .nextToken => (some s.nextToken.1, s.nextToken.2)
  | .next => s.next?

/-- The answers to calls one after another. -/
def answers : Scanner → List Call → List (Option Token)
  | _, [] => []
  | s, c :: calls => (s.answer c).1 :: answers (s.answer c).2 calls

/-- The scanner behind calls one after another. -/
def after : Scanner → List Call → Scanner
  | s, [] => s
  | s, c :: calls => after (s.answer c).2 calls

/-- The tokens among the answers. -/
def delivered (s : Scanner) (calls : List Call) : List Token := (s.answers calls).filterMap id

/-- Whether a call comes after the sequence has been handed out to its end. -/
def Over (s : Scanner) (c : Call) : Prop := c = .next ∧ s.finished = true

/-- The scanner behind a token that answers a call. -/
def passed (s : Scanner) (c : Call) : Scanner :=
  { s.nextToken.2 with finished := s.finished || (c == .next && s.nextToken.1.isEnd) }

variable {s : Scanner} {c : Call} {calls : List Call} {n : Nat}

theorem answer_of_over (h : s.Over c) : s.answer c = (none, s) := by
  obtain ⟨rfl, hf⟩ := h
  simp [answer, next?, hf]

theorem answer_of_not_over (h : ¬ s.Over c) : s.answer c = (some s.nextToken.1, s.passed c) := by
  cases c with
  | nextToken =>
    have hc : (Call.nextToken == Call.next) = false := rfl
    simp [answer, passed, hc, nextToken]
  | next =>
    have hf : s.finished = false := Bool.eq_false_iff.2 fun hf => h ⟨rfl, hf⟩
    simp [answer, next?, passed, hf]

theorem delivered_of_over (h : s.Over c) : s.delivered (c :: calls) = s.delivered calls := by
  rw [delivered, answers, answer_of_over h]
  rfl

theorem delivered_of_not_over (h : ¬ s.Over c) :
    s.delivered (c :: calls) = s.nextToken.1 :: (s.passed c).delivered calls := by
  rw [delivered, answers, answer_of_not_over h]
  rfl

/-- The tokens handed out are those of the text in order. -/
theorem delivered_eq : s.delivered calls =
    (List.range (s.delivered calls).length).map fun i => (Reading.nth s.offset s.rest i).token := by
  induction calls generalizing s with
  | nil => rfl
  | cons c calls ih =>
    by_cases h : s.Over c
    · rw [delivered_of_over h]
      exact ih
    · rw [delivered_of_not_over h, List.length_cons, List.range_succ_eq_map, List.map_cons,
        List.map_map]
      exact congrArg _ ih

/-- The errors met are those of the tokens handed out. -/
theorem errors_after : (s.after calls).errors = s.errors ++
    (List.range (s.delivered calls).length).flatMap fun i =>
      (Reading.nth s.offset s.rest i).errors := by
  induction calls generalizing s with
  | nil => simp [after, delivered, answers]
  | cons c calls ih =>
    by_cases h : s.Over c
    · rw [delivered_of_over h, after, answer_of_over h]
      exact ih
    · rw [delivered_of_not_over h, after, answer_of_not_over h, List.length_cons,
        List.range_succ_eq_map, List.flatMap_cons, List.flatMap_map, ← List.append_assoc]
      exact ih

/-- A call is left without a token only if it asks for more of the sequence than there is. -/
theorem answers_eq_none_iff : (s.answers calls)[n]? = some none ↔
    calls[n]? = some .next ∧ (s.finished = true ∨ ∃ k < n, calls[k]? = some .next ∧
      ∃ t, (s.answers calls)[k]? = some (some t) ∧ t.isEnd = true) := by
  induction calls generalizing s n with
  | nil => simp [answers]
  | cons c calls ih =>
    cases n with
    | zero =>
      by_cases h : s.Over c
      · have hover := h
        obtain ⟨rfl, hf⟩ := hover
        simp [answers, answer_of_over h, hf]
      · have hne : c = .next → s.finished ≠ true := fun hc hf => h ⟨hc, hf⟩
        simpa [answers, answer_of_not_over h] using hne
    | succ n =>
      rw [answers, List.getElem?_cons_succ, List.getElem?_cons_succ, ih, Nat.exists_lt_succ_left]
      by_cases h : s.Over c
      · have hf := h.2
        simp [answer_of_over h, hf]
      · have hfinished : (s.passed c).finished = true ↔
            s.finished = true ∨ c = .next ∧ s.nextToken.1.isEnd = true := by simp [passed]
        simp [answer_of_not_over h, hfinished, or_assoc]

/-- No text is lost between two calls. -/
theorem total_after (s : Scanner) (calls : List Call) :
    (s.after calls).offset + Text.size (s.after calls).rest = s.offset + Text.size s.rest := by
  induction calls generalizing s with
  | nil => rfl
  | cons c calls ih =>
    by_cases h : s.Over c
    · rw [after, answer_of_over h]
      exact ih s
    · rw [after, answer_of_not_over h]
      exact (ih _).trans Reading.stop_add_size

/-- At the end of the text, the token that marks it is handed out and nothing changes. -/
theorem nextToken_of_rest_nil (h : s.rest = []) : s.nextToken = (.atEnd s.offset, s) := by
  obtain ⟨offset, rest, errors, finished⟩ := s
  subst h
  simp [nextToken, Reading.next_nil]
  rfl

theorem rest_after_of_nil (h : s.rest = []) : (s.after calls).rest = [] := by
  induction calls generalizing s with
  | nil => exact h
  | cons c calls ih =>
    by_cases ho : s.Over c
    · rw [after, answer_of_over ho]
      exact ih h
    · rw [after, answer_of_not_over ho]
      refine ih ?_
      rw [passed, nextToken_of_rest_nil h]
      exact h

/-- Once the end has been handed out, there is no text left. -/
theorem rest_after_of_end {t : Token} (ht : t ∈ s.delivered calls) (h : t.isEnd = true) :
    (s.after calls).rest = [] := by
  induction calls generalizing s with
  | nil => cases ht
  | cons c calls ih =>
    by_cases ho : s.Over c
    · rw [delivered_of_over ho] at ht
      rw [after, answer_of_over ho]
      exact ih ht
    · rw [delivered_of_not_over ho] at ht
      rw [after, answer_of_not_over ho]
      rcases List.mem_cons.1 ht with rfl | ht
      · exact rest_after_of_nil (Reading.rest_of_end h)
      · exact ih ht

end Scanner
end MiniPascal
