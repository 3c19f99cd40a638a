import MiniPascal.Proofs.Reading.Diagnostics

/-! The places that the front end speaks of. Tokens, lexical errors and rejections all begin and end
between two characters of the text. -/
namespace MiniPascal

/-- The stretch begins and ends between two characters of the text. -/
structure Span.Fits (cs : List Char) (s : Span) : Prop where
  start : Text.IsCut cs s.offset
  stop : Text.IsCut cs s.stop

section
variable {cs : List Char} {ss : List Stretch} {s : Stretch} {t : Token} {k : Comment}

theorem Span.Fits.isSome_slice? {s : Span} (h : s.Fits cs) :
    (Text.slice? cs s.offset s.length).isSome := h.start.isSome_slice? h.stop

/-- From the same place up to where a token ends. -/
theorem Span.Fits.upTo {s : Span} {n : Nat} (h : s.Fits cs) (hn : Text.IsCut cs n) :
    Span.Fits cs ⟨s.offset, n - s.offset⟩ := by
  refine ⟨h.start, ?_⟩
  have hstop : Span.stop ⟨s.offset, n - s.offset⟩ = max s.offset n := by
    simp only [Span.stop]
    omega
  rw [hstop]
  exact h.start.max hn

namespace Layout

theorem isCut_start (h : Layout 0 cs ss) (hs : s ∈ ss) : Text.IsCut cs s.start := by
  obtain ⟨before, behind, rfl, hstart, -⟩ := h.split hs
  rw [hstart, Nat.zero_add, List.append_assoc]
  exact Text.isCut_append _ _

theorem isCut_stop (h : Layout 0 cs ss) (hs : s ∈ ss) : Text.IsCut cs s.stop := by
  obtain ⟨before, behind, rfl, hstart, -⟩ := h.split hs
  have hstop : s.stop = Text.size (before ++ s.chars) := by
    rw [Stretch.stop, hstart, Nat.zero_add, Text.size_append]
  rw [hstop]
  exact Text.isCut_append _ _

theorem fits_token (h : Layout 0 cs ss) (ht : t ∈ ss.filterMap Stretch.token?) :
    t.span.Fits cs := by
  obtain ⟨chars, hs⟩ := lexeme_of_mem ht
  refine ⟨h.isCut_start hs, ?_⟩
  have hstop := h.isCut_stop hs
  rwa [h.stop_lexeme hs] at hstop

/-- The brace that begins a comment. -/
theorem fits_brace (h : Layout 0 cs ss) (hk : k ∈ ss.filterMap Stretch.comment?) :
    Span.Fits cs ⟨k.start, 1⟩ := by
  obtain ⟨before, behind, rfl, hstart, -⟩ := h.split (comment_of_mem hk)
  have hbefore : k.start = Text.size before := hstart.trans (Nat.zero_add _)
  have hstop : k.start + 1 = Text.size (before ++ ['\x7b']) := by
    rw [hbefore, Text.size_append]
    rfl
  refine ⟨?_, ?_⟩
  · rw [hbefore, List.append_assoc]
    exact Text.isCut_append _ _
  · refine ⟨before ++ ['\x7b'], k.body ++ k.closing.toList ++ behind, ?_, hstop⟩
    simp [Stretch.chars, Comment.chars]

end Layout
end

section
variable {source : String} {t : Token} {e : LexicalError} {r : Rejection} {f : Failure}

/-- Tokens stand in order and do not overlap. -/
theorem tokens_ordered (source : String) :
    (tokenize source).1.Pairwise fun t u => t.stop ≤ u.span.offset := by
  obtain ⟨ks, hks⟩ := exists_accounts source
  exact hks.ordered

theorem fits_token (h : t ∈ (tokenize source).1) : t.span.Fits source.toList := by
  obtain ⟨ss, hlayout, htokens, -⟩ := (reported source).comments
  rw [htokens, List.mem_append, List.mem_singleton] at h
  rcases h with h | rfl
  · exact hlayout.fits_token h
  · have hend := Text.isCut_size source.toList
    rw [Text.size_toList] at hend
    exact ⟨hend, hend⟩

theorem fits_error (h : e ∈ (tokenize source).2) : e.span.Fits source.toList := by
  obtain ⟨ss, hlayout, -, hcomments⟩ := (reported source).comments
  by_cases hu : e.isUnclosed
  · have he : e ∈ (tokenize source).2.filter (·.isUnclosed) := List.mem_filter.2 ⟨h, hu⟩
    rw [hcomments] at he
    obtain ⟨k, hk, rfl⟩ := List.mem_map.1 he
    exact hlayout.fits_brace (List.mem_filter.1 hk).1
  · have he : e.token ∈ ((tokenize source).2.filter (!·.isUnclosed)).map (·.token) :=
      List.mem_map_of_mem (List.mem_filter.2 ⟨h, by simpa using hu⟩)
    rw [(reported source).tokens] at he
    exact fits_token (t := e.token) (List.mem_filter.1 he).1

/-- Reading the tokens of a text, places begin and end where tokens do. -/
def Grammar.Invariant.fits (cs : List Char) (ts : List Token) (h : ∀ t ∈ ts, t.span.Fits cs) :
    Grammar.Invariant where
  holds s := s.tokens <:+ ts ∧ Text.IsCut cs s.lastStop
  place := Span.Fits cs
  here hs := h _ (hs.1.mem List.mem_cons_self)
  spanFrom hs ha := ha.upTo hs.2
  advance := by
    intro s hs
    refine ⟨(Grammar.State.tokens_advance s).trans hs.1, ?_⟩
    have hcurrent : Text.IsCut cs s.current.stop := (h _ (hs.1.mem List.mem_cons_self)).stop
    unfold Grammar.State.advance
    split <;> exact hcurrent
  withCode _ hs := hs
  withScopes _ hs := hs

theorem fits_rejection (h : (Parse.ofSource source).stop = some (.rejected r)) :
    r.span.Fits source.toList := by
  have htokens : ∀ t ∈ (startOf source).tokens, t.span.Fits source.toList := fun t ht =>
    fits_token (tokens_startOf_sublist.subset ht)
  have hkept : (Grammar.Invariant.fits source.toList _ htokens).Kept (readProgram source) :=
    Grammar.Invariant.keeps_program (.fits source.toList _ htokens)
      ⟨List.suffix_refl _, Text.isCut_zero _⟩ _
  rw [ofSource_eq] at h
  cases hr : readProgram source with
  | ok u s => simp [hr] at h
  | error e s =>
    rw [hr] at hkept
    obtain ⟨-, r', rfl, hfits⟩ := hkept
    simp only [hr, Option.some.injEq, Grammar.Stop.rejected.injEq] at h
    exact h ▸ hfits

theorem span_lexical (e : LexicalError) : e.problem.span = e.span := by
  obtain ⟨fault, span⟩ := e
  cases fault <;> rfl

theorem span_rejection (r : Rejection) : r.problem.span = r.span := by
  obtain ⟨cause, span⟩ := r
  cases cause <;> rfl

theorem fits_failureOf {fatal : Option Problem} (hf : ∀ q ∈ fatal, q.span.Fits source.toList) :
    ∀ d ∈ (failureOf source fatal).all, d.problem.span.Fits source.toList := by
  intro d hd
  rcases List.mem_append.1 hd with hd | hd
  · obtain ⟨q, hq, rfl⟩ := List.mem_map.1 hd
    obtain ⟨e, he, rfl⟩ := List.mem_map.1 hq
    have hfits : e.problem.span.Fits source.toList := by
      rw [span_lexical]
      exact fits_error (List.mem_filter.1 he).1
    exact hfits
  · obtain ⟨q, hq, rfl⟩ := Option.map_eq_some_iff.1 (Option.mem_toList.1 hd)
    exact hf q hq

/-- Every problem lies between two characters of the text. -/
theorem fits_diagnostic (h : compile source = .error (.failure f)) :
    ∀ d ∈ f.all, d.problem.span.Fits source.toList := by
  rcases stop_ofSource source with hstop | ⟨r, hr⟩
  · have he : reached source ≠ [] := fun he => exists_failure_iff.1 ⟨f, h⟩ ⟨hstop, he⟩
    rw [compile_of_reached hstop he] at h
    cases h
    exact fits_failureOf (by simp)
  · rw [compile_of_rejected hr] at h
    cases h
    refine fits_failureOf ?_
    intro q hq
    cases hq
    rw [span_rejection]
    exact fits_rejection hr

end
end MiniPascal
