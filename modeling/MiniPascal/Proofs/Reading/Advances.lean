import MiniPascal.Proofs.Reading.Diagnostics
import MiniPascal.Proofs.Reading.Halting
import MiniPascal.Proofs.Scan.Skipping

/-! Every text is read to an end. The scanner moves on with every token, and so do the rules and the
loops of the grammar: none of them comes round again before another token has been passed. So no
more tokens are passed than the text has, and rules are nested no deeper than a multiple of them. -/
namespace MiniPascal.Grammar

/-- Reading a text as a program, with a journal. -/
def journal (source : String) : List Note × EStateM.Result Stop State Unit :=
  Journaled.program (startOf source).kinds.length (startOf source)

/-- The journal of a reading that never comes round without passing a token. -/
structure Advances (tokens : List Token) (notes : List Note) : Prop where
  /-- No loop and no nesting is cut off by a bound. -/
  unspent : .spent ∉ notes
  /-- A token is passed only if it has no fault and is not the end of the text. -/
  meaningful : ∀ t, .pass t ∈ notes → t.kind ≠ .endOfText ∧ t.kind.isMeaningful
  /-- The end of the text is left over. -/
  passed : (passedIn notes).length < tokens.length
  /-- A rule is entered within itself only after a token that has been passed in between. -/
  nested : ∀ front back, notes = front ++ back → (Watch.start.after front).frames.Pairwise
    fun inner outer => inner.1 = outer.1 → outer.2 < inner.2
  /-- Between two rounds of a loop, a token is passed. -/
  rounds : ∀ l front between back,
    notes = front ++ .round l :: (between ++ .round l :: back) → ∃ t, .pass t ∈ between
  /-- There are fifteen rules, and at most so many are nested for each token. -/
  depth : ∀ front back, notes = front ++ back →
    (Watch.start.after front).frames.length ≤ 15 * tokens.length

section
variable {w : Watch} {notes front between back : List Note} {t : Token} {l : Loop}
  {fs : List (Rule × Nat)} {n : Nat}

theorem mem_passedIn : t ∈ passedIn notes ↔ .pass t ∈ notes := by
  rw [passedIn, List.mem_filterMap]
  constructor
  · rintro ⟨note, hmem, htoken⟩
    cases note with
    | pass u =>
      cases htoken
      exact hmem
    | _ => cases htoken
  · intro hmem
    exact ⟨_, hmem, rfl⟩

theorem mem_rounds_after {r : Loop × Nat} (h : r ∈ w.rounds) : r ∈ (w.after notes).rounds := by
  induction notes generalizing w with
  | nil => exact h
  | cons note notes ih =>
    apply ih
    cases note with
    | round l => exact List.mem_cons_of_mem _ h
    | _ => exact h

theorem exists_pass_between (h : InOrder w (front ++ .round l :: (between ++ .round l :: back))) :
    ∃ t, .pass t ∈ between := by
  have hsplit : front ++ .round l :: (between ++ .round l :: back) =
      (front ++ .round l :: between) ++ (.round l :: back) := by simp
  rw [hsplit] at h
  have hsound : ((w.after (front ++ .round l :: between)).see (.round l)).Sound := by
    have hlast := @InOrder.sound_after w (front ++ .round l :: between ++ [.round l]) back
    rw [after_append] at hlast
    exact hlast (by simpa using h)
  have hearly : (l, (w.after front).passed) ∈ (w.after (front ++ .round l :: between)).rounds := by
    rw [after_append]
    exact mem_rounds_after (w := (w.after front).see (.round l)) List.mem_cons_self
  have hpassed : (w.after (front ++ .round l :: between)).passed =
      (w.after front).passed + (passedIn between).length := by
    rw [after_append]
    exact passed_after
  have hbefore := (List.pairwise_cons.1 hsound.rounds).1 _ hearly
  have hpos : 0 < (passedIn between).length := by
    rcases hbefore with hlt | ⟨-, hlevel⟩
    · dsimp only [beginning] at hlt
      omega
    · exact absurd hlevel (Nat.lt_irrefl _)
  obtain ⟨t, ht⟩ := List.exists_mem_of_length_pos hpos
  exact ⟨t, mem_passedIn.1 ht⟩

theorem level_lt (r : Rule) : r.level < 15 := by
  cases r <;> decide

/-- Rules that were entered one after another at so many points are no more than the points. -/
theorem length_frames_le (h : fs.Pairwise fun inner outer => Before (entry outer) (entry inner))
    (hn : ∀ f ∈ fs, 15 * f.2 + f.1.level < n) : fs.length ≤ n := by
  induction h generalizing n with
  | nil => exact Nat.zero_le n
  | @cons f fs hfirst _ ih =>
    have houter : fs.length ≤ 15 * f.2 + f.1.level := by
      apply ih
      intro g hg
      have hbefore := hfirst g hg
      have hlevel := level_lt g.1
      unfold Before entry at hbefore
      dsimp only at hbefore
      omega
    have hinner := hn f List.mem_cons_self
    rw [List.length_cons]
    omega

theorem nested_of_sound (h : w.Sound) :
    w.frames.Pairwise fun inner outer => inner.1 = outer.1 → outer.2 < inner.2 := by
  refine h.frames.imp fun hbefore hsame => ?_
  rcases hbefore with hlt | ⟨-, hlevel⟩
  · exact hlt
  · rw [entry, entry, hsame] at hlevel
    exact absurd hlevel (Nat.lt_irrefl _)

theorem depth_of_sound (h : w.Sound) (hn : w.passed < n) : w.frames.length ≤ 15 * n := by
  apply length_frames_le h.frames
  intro f hf
  have hentered := h.entered f hf
  have hlevel := level_lt f.1
  omega

end

section
variable {source : String}

/-- With a journal, a text is read as it is without one, and the tokens in the journal are those
that are passed. -/
theorem journal_keeps : (journal source).2 = readProgram source ∧
    InOrder Watch.start (journal source).1 ∧
    passedIn (journal source).1 ++ (ending (readProgram source)).tokens =
      (startOf source).tokens := by
  have hlength : (startOf source).kinds.length = (startOf source).tokens.length := by
    simp [State.kinds, State.tokens]
  have hstart : Mark.Fits ⟨(startOf source).kinds.length, 0, 0, false⟩ (startOf source)
      Watch.start := by
    refine ⟨ended_startOf, Nat.le_of_eq hlength.symm, ⟨.nil, .nil, ?_⟩, ?_, ?_, by simp⟩
    · intro f hf
      cases hf
    · intro f hf
      cases hf
    · intro r hr
      cases hr
  have hmoves := moves_program (Nat.le_refl (startOf source).kinds.length)
  obtain ⟨hread, horder, hkept⟩ := hmoves _ (Nat.le_refl _) 0 (Nat.le_refl _) 0 false _ _ hstart
  refine ⟨hread, horder, ?_⟩
  have hsame : readProgram source = (journal source).2 := hread.symm
  rw [hsame]
  cases hr : (journal source).2 with
  | ok u s =>
    rw [journal] at hr
    rw [hr] at hkept
    exact hkept.1
  | error e s =>
    rw [journal] at hr
    rw [hr] at hkept
    exact hkept

theorem journal_advances : Advances (startOf source).tokens (journal source).1 := by
  obtain ⟨-, horder, htokens⟩ := @journal_keeps source
  have hpassed : (passedIn (journal source).1).length < (startOf source).tokens.length := by
    rw [← htokens, List.length_append]
    exact Nat.lt_add_of_pos_right (Nat.succ_pos _)
  have hsound : ∀ front back, (journal source).1 = front ++ back →
      (Watch.start.after front).Sound := by
    intro front back hsplit
    rw [hsplit] at horder
    exact horder.sound_after
  refine ⟨fun hspent => horder.allowed hspent, ?_, hpassed, ?_, ?_, ?_⟩
  · intro t ht
    refine ⟨horder.allowed ht, ?_⟩
    have hmem : t ∈ (startOf source).tokens := by
      rw [← htokens]
      exact List.mem_append_left _ (mem_passedIn.2 ht)
    rw [tokens_startOf, seen, Reading.tokens_meaningful] at hmem
    exact (List.mem_filter.1 hmem).2
  · intro front back hsplit
    exact nested_of_sound (hsound front back hsplit)
  · intro l front between back hsplit
    rw [hsplit] at horder
    exact exists_pass_between horder
  · intro front back hsplit
    refine depth_of_sound (hsound front back hsplit) ?_
    rw [hsplit, passedIn_append, List.length_append] at hpassed
    have hfront : (Watch.start.after front).passed = 0 + (passedIn front).length := passed_after
    omega

/-- Whatever the text, its scanner moves on with every token, hands a parser the tokens without a
fault, and the parser passes them one after another, never twice at the same rule or loop without
one in between, until it is done. -/
theorem reading_advances (source : String) : (∀ s : Scanner, s.Progresses) ∧
    (Scanner.ofString source).Feeds (startOf source).tokens ∧
    (startOf source).tokens.length ≤ (tokenize source).1.length ∧
    (journal source).2 = readProgram source ∧
    passedIn (journal source).1 ++ (ending (readProgram source)).tokens =
      (startOf source).tokens ∧
    Advances (startOf source).tokens (journal source).1 := by
  obtain ⟨hread, -, htokens⟩ := @journal_keeps source
  have hfeeds := Scanner.feeds_ofString source
  rw [← tokens_startOf] at hfeeds
  exact ⟨Scanner.progresses, hfeeds, tokens_startOf_sublist.length_le, hread, htokens,
    journal_advances⟩

end
end MiniPascal.Grammar
