import MiniPascal.Proofs.Scan.Layout

/-! What stands before a token divides into blanks and comments, and the readings of a text divide
all of it. -/
namespace MiniPascal

namespace Gap

/-- The stretches lead from a text to where the gap ends, past comments with its errors. -/
structure Fills (g : Gap) (gs : List Stretch) (n : Nat) (cs : List Char) : Prop where
  noToken : gs.filterMap Stretch.token? = []
  errors : g.errors = (gs.filterMap Stretch.comment?).filterMap Comment.error?
  size : g.offset + Text.size g.rest = n + Text.size cs
  layout : ∀ ss, Layout g.offset g.rest ss → Layout n cs (gs ++ ss)

section
variable {g : Gap} {gs : List Stretch} {c : Char} {cs : List Char} {k : Comment} {n : Nat}

theorem utf8Size_of_isBlank (h : isBlank c) : c.utf8Size = 1 := by
  simp only [isBlank, Bool.or_eq_true, beq_iff_eq] at h
  rcases h with ((rfl | rfl) | rfl) | rfl <;> rfl

theorem Fills.blank (h : g.Fills gs (n + 1) cs) (hc : isBlank c) :
    g.Fills (.blank n c :: gs) n (c :: cs) := by
  have hsize : Text.size [c] = 1 := by simp [Text.size, utf8Size_of_isBlank hc]
  refine ⟨h.noToken, h.errors, ?_, fun ss hss => ?_⟩
  · have hg := h.size
    rw [← List.singleton_append, Text.size_append, hsize]
    omega
  · have hnext : Layout (Stretch.blank n c).stop cs (gs ++ ss) := by
      rw [Stretch.stop, Stretch.chars, hsize]
      exact h.layout ss hss
    exact .cons (s := .blank n c) hc False.elim hnext

theorem Fills.comment (h : g.Fills gs k.stop cs) (hk : k.Proper) (hc : k.closing ≠ none) :
    Fills { g with errors := k.error?.toList ++ g.errors } (.comment k :: gs) k.start
      (k.chars ++ cs) := by
  refine ⟨h.noToken, ?_, ?_, fun ss hss => ?_⟩
  · have hg := h.errors
    cases he : k.error? with
    | none => simpa [Stretch.comment?, he] using hg
    | some e => simpa [Stretch.comment?, he] using hg
  · have hg := h.size
    rw [Text.size_append]
    simp only [Comment.stop] at hg
    exact hg.trans (Nat.add_assoc _ _ _)
  · exact .cons (s := .comment k) hk (fun ho => absurd ho hc) (h.layout ss hss)

/-- A comment that a brace of either kind ends. -/
theorem Fills.ended {start : Nat} {body : List Char} {x : Char}
    (h : g.Fills gs (start + 1 + Text.size body + 1) cs)
    (hbody : ∀ y ∈ body, y ≠ '\x7b' ∧ y ≠ '\x7d') (hx : x = '\x7b' ∨ x = '\x7d') :
    Fills { g with errors := (Comment.mk start body (some x)).error?.toList ++ g.errors }
      (.comment ⟨start, body, some x⟩ :: gs) start ('\x7b' :: (body ++ x :: cs)) := by
  have hk : (Comment.mk start body (some x)).Proper := ⟨hbody, by simpa using hx⟩
  have hstop : (Comment.mk start body (some x)).stop = start + 1 + Text.size body + 1 := by
    have hbrace : '\x7b'.utf8Size = 1 := rfl
    have hsize : x.utf8Size = 1 := by rcases hx with rfl | rfl <;> rfl
    simp only [Comment.stop, Comment.chars, Option.toList_some, Text.size_cons, Text.size_append,
      Text.size_nil, hbrace, hsize]
    omega
  have hfills := Fills.comment (k := ⟨start, body, some x⟩) (hstop ▸ h) hk (by simp)
  simpa [Comment.chars] using hfills

/-- A comment that the end of the text cuts off. -/
theorem fills_open (hk : k.Proper) (hc : k.closing = none) :
    Fills ⟨[unclosed k.start], k.stop, []⟩ [.comment k] k.start k.chars := by
  refine ⟨rfl, ?_, rfl, fun ss hss => ?_⟩
  · simp [Stretch.comment?, Comment.error?, Comment.isClosed, hc]
  · have hlayout := Layout.cons (s := .comment k) hk (fun _ => rfl) hss
    rwa [List.append_nil] at hlayout

end

/-- Skipping fills the gap, from the brace on if it begins within a comment. -/
theorem skip_fills (cs : List Char) :
    (∀ n, ∃ gs, (skip none n cs).Fills gs n cs) ∧
    ∀ start body, (∀ x ∈ body, x ≠ '\x7b' ∧ x ≠ '\x7d') →
      ∃ gs, (skip (some start) (start + 1 + Text.size body) cs).Fills gs start
        ('\x7b' :: (body ++ cs)) := by
  induction cs with
  | nil =>
    constructor
    · intro n
      exact ⟨[], rfl, rfl, rfl, fun ss hss => hss⟩
    · intro start body hbody
      have hk : (Comment.mk start body none).Proper := ⟨hbody, by simp⟩
      have hstop : (Comment.mk start body none).stop = start + 1 + Text.size body := by
        simp [Comment.stop, Comment.chars, Nat.add_assoc]
        rfl
      have hfills := fills_open hk rfl
      rw [hstop] at hfills
      exact ⟨_, hfills⟩
  | cons c cs ih =>
    obtain ⟨ihout, ihin⟩ := ih
    constructor
    · intro n
      by_cases hc : c = '\x7b'
      · subst hc
        have hin := ihin n [] (by simp)
        simpa [skip] using hin
      · by_cases hb : isBlank c
        · obtain ⟨gs, hgs⟩ := ihout (n + 1)
          simp only [skip, if_neg hc, if_pos hb]
          exact ⟨_, hgs.blank hb⟩
        · simp only [skip, if_neg hc, if_neg hb]
          exact ⟨[], rfl, rfl, rfl, fun ss hss => hss⟩
    · intro start body hbody
      by_cases hclose : c = '\x7d'
      · subst hclose
        obtain ⟨gs, hgs⟩ := ihout (start + 1 + Text.size body + 1)
        simp only [skip, if_pos]
        exact ⟨_, hgs.ended hbody (.inr rfl)⟩
      · by_cases hopen : c = '\x7b'
        · subst hopen
          obtain ⟨gs, hgs⟩ := ihout (start + 1 + Text.size body + 1)
          simp only [skip, if_neg hclose, if_pos]
          exact ⟨_, hgs.ended hbody (.inl rfl)⟩
        · have hin := ihin start (body ++ [c]) (by
            intro x hx
            rcases List.mem_append.1 hx with hx | hx
            · exact hbody x hx
            · rw [List.mem_singleton] at hx
              subst hx
              exact ⟨hopen, hclose⟩)
          simp only [skip, if_neg hclose, if_neg hopen]
          simpa [Text.size, Nat.add_assoc] using hin

end Gap

/-- Whether the error is an unclosed comment. -/
def LexicalError.isUnclosed (e : LexicalError) : Bool := e.fault == .unclosedComment

theorem filter_unclosed_comments (ks : List Comment) :
    (ks.filterMap Comment.error?).filter (·.isUnclosed) = ks.filterMap Comment.error? := by
  rw [List.filter_eq_self]
  intro e he
  obtain ⟨k, -, hk⟩ := List.mem_filterMap.1 he
  unfold Comment.error? at hk
  split at hk
  · cases hk
  · cases hk
    rfl

/-- The token at the end of a text. -/
def Token.atEnd (n : Nat) : Token := ⟨.endOfText, ⟨n, 0⟩⟩

namespace Reading

variable {n offset : Nat} {cs : List Char} {es : List LexicalError} {l : Lexeme} {r : Reading}

theorem span_ofLexeme (es : List LexicalError) (offset : Nat) (l : Lexeme) :
    (ofLexeme es offset l).token.span = ⟨offset, Text.size l.chars⟩ := by
  unfold ofLexeme
  dsimp only
  split <;> rfl

theorem spelled_ofLexeme (h : l.Faithful) : (ofLexeme es offset l).token.kind.Spelled l.chars := by
  cases ho : l.outcome with
  | ok k =>
    simp only [Lexeme.Faithful, ho] at h
    simp only [ofLexeme, ho]
    exact h.2
  | error f =>
    simp only [ofLexeme, ho]
    exact f.spelled_tokenKind _

theorem unclosed_ofLexeme (h : l.Faithful) :
    (ofLexeme es offset l).errors.filter (·.isUnclosed) = es.filter (·.isUnclosed) := by
  cases ho : l.outcome with
  | ok k => simp only [ofLexeme, ho]
  | error f =>
    simp only [Lexeme.Faithful, ho] at h
    simp only [ofLexeme, ho]
    simp [LexicalError.isUnclosed, h]

theorem layout_ofLexeme {rest : List Char} {ss : List Stretch} (h : l.Faithful) (hn : l.chars ≠ [])
    (hss : Layout (ofLexeme es offset l).token.stop rest ss) :
    Layout offset (l.chars ++ rest) (.lexeme (ofLexeme es offset l).token l.chars :: ss) := by
  have hspan := span_ofLexeme es offset l
  have hstart : (Stretch.lexeme (ofLexeme es offset l).token l.chars).start = offset := by
    rw [Stretch.start, hspan]
  have hstop : (Stretch.lexeme (ofLexeme es offset l).token l.chars).stop =
      (ofLexeme es offset l).token.stop := by
    rw [Stretch.stop, hstart, Token.stop, hspan]
    rfl
  have hproper : (Stretch.lexeme (ofLexeme es offset l).token l.chars).Proper :=
    ⟨hn, by rw [hspan], spelled_ofLexeme h⟩
  have hlayout := Layout.cons hproper False.elim (hstop ▸ hss)
  rwa [hstart] at hlayout

/-- The reading at the end of a text: there is nothing before it but a gap. -/
theorem next_of_end (h : (next n cs).1.token.isEnd = true) :
    ∃ gs, Layout n cs gs ∧ gs.filterMap Stretch.token? = [] ∧
      (next n cs).1.token = .atEnd (n + Text.size cs) ∧
      (next n cs).1.errors = (gs.filterMap Stretch.comment?).filterMap Comment.error? := by
  obtain ⟨gs, hgs⟩ := (Gap.skip_fills cs).1 n
  unfold next at h ⊢
  dsimp only at h ⊢
  split at h
  · next hrest =>
    have hsize := hgs.size
    rw [hrest, Text.size_nil, Nat.add_zero] at hsize
    have hlayout := hgs.layout []
    rw [hrest, List.append_nil] at hlayout
    exact ⟨gs, hlayout (.nil _), hgs.noToken, by rw [Token.atEnd, hsize], hgs.errors⟩
  · next c rest hrest =>
    exact absurd (eq_of_beq h) (spelled_ofLexeme (Lexeme.read_faithful c rest)).notEnd

/-- The reading of a lexeme: a gap, then the lexeme. -/
theorem next_of_not_end (h : (next n cs).1.token.isEnd = false) :
    ∃ gs chars, gs.filterMap Stretch.token? = [] ∧
      (next n cs).1.token.stop + Text.size (next n cs).2 = n + Text.size cs ∧
      (next n cs).1.errors.filter (·.isUnclosed) =
        (gs.filterMap Stretch.comment?).filterMap Comment.error? ∧
      ∀ ss, Layout (next n cs).1.token.stop (next n cs).2 ss →
        Layout n cs (gs ++ .lexeme (next n cs).1.token chars :: ss) := by
  obtain ⟨gs, hgs⟩ := (Gap.skip_fills cs).1 n
  unfold next at h ⊢
  dsimp only at h ⊢
  split at h
  · cases h
  · next c rest hrest =>
    have hchars := Lexeme.read_chars c rest
    refine ⟨gs, (Lexeme.read c rest).chars, hgs.noToken, ?_, ?_, fun ss hss => ?_⟩
    · have hsize := hgs.size
      rw [hrest, ← hchars, Text.size_append] at hsize
      rw [Token.stop, span_ofLexeme, ← hsize]
      exact Nat.add_assoc _ _ _
    · rw [unclosed_ofLexeme (Lexeme.read_faithful c rest), hgs.errors, filter_unclosed_comments]
    · refine hgs.layout _ ?_
      rw [hrest, ← hchars]
      exact layout_ofLexeme (Lexeme.read_faithful c rest) (Lexeme.read_chars_ne_nil c rest) hss

/-- All of a text divides into the lexemes of its tokens, blanks, and comments, and the unclosed
ones among these are reported. -/
theorem all_layout (n : Nat) (cs : List Char) : ∃ ss, Layout n cs ss ∧
    tokens (all n cs) = ss.filterMap Stretch.token? ++ [.atEnd (n + Text.size cs)] ∧
    (allErrors (all n cs)).filter (·.isUnclosed) =
      (ss.filterMap Stretch.comment?).filterMap Comment.error? := by
  induction n, cs using all.induct with
  | case1 n cs step hend =>
    obtain ⟨gs, hlayout, hnone, htoken, herrors⟩ := next_of_end hend
    refine ⟨gs, hlayout, ?_, ?_⟩
    · rw [all_of_end hend, hnone, tokens, List.map_cons, htoken]
      rfl
    · rw [all_of_end hend, allErrors, List.flatMap_singleton, herrors, filter_unclosed_comments]
  | case2 n cs step hend ih =>
    obtain ⟨gs, chars, hnone, hsize, herrors, hlayout⟩ := next_of_not_end (Bool.eq_false_iff.2 hend)
    obtain ⟨ss, hss, htokens, herrors'⟩ := ih
    refine ⟨_, hlayout ss hss, ?_, ?_⟩
    · rw [all_of_not_end (Bool.eq_false_iff.2 hend), tokens, List.map_cons, ← tokens, htokens,
        hsize, List.filterMap_append, hnone]
      rfl
    · rw [all_of_not_end (Bool.eq_false_iff.2 hend), allErrors, List.flatMap_cons, ← allErrors,
        List.filter_append, herrors, herrors', List.filterMap_append, List.filterMap_append]
      rfl

end Reading
end MiniPascal
