import MiniPascal.Proofs.Reading.Lookahead
import MiniPascal.Proofs.Reading.Trailing

/-! A rejection depends on the text that has been read. Where reading stops before the end of a
text, what stands behind the token at hand may be replaced by a line feed and any other text. -/
namespace MiniPascal

namespace Reading

variable {m : Reading} {rs qs ms : List Reading}

/-- What a parser sees up to a token comes from the readings up to it, whatever those behind it. -/
theorem split_meaningful (h : meaningful rs = qs ++ m :: ms) : ∃ ps q us, rs = ps ++ q :: us ∧
    q.token = m.token ∧ ∀ vs, meaningful (ps ++ q :: vs) = qs ++ m :: meaningful vs := by
  induction rs generalizing qs m ms with
  | nil => simp [meaningful] at h
  | cons r rs ih =>
    rw [meaningful] at h
    by_cases hr : r.token.kind.isMeaningful
    · rw [if_pos hr] at h
      cases qs with
      | nil =>
        obtain ⟨rfl, -⟩ := List.cons.inj h
        refine ⟨[], r, rs, rfl, rfl, fun vs => ?_⟩
        rw [List.nil_append, meaningful, if_pos hr, List.nil_append]
      | cons q qs =>
        obtain ⟨rfl, hrest⟩ := List.cons.inj h
        obtain ⟨ps, q, us, rfl, htoken, hall⟩ := ih hrest
        refine ⟨r :: ps, q, us, rfl, htoken, fun vs => ?_⟩
        rw [List.cons_append, meaningful, if_pos hr, hall, List.cons_append]
    · rw [if_neg hr] at h
      split at h
      · simp at h
      · next m' ms' hms =>
        -- The token that a parser sees next takes over the errors of one that it does not see.
        cases qs with
        | nil =>
          obtain ⟨rfl, -⟩ := List.cons.inj h
          have hfirst : meaningful rs = [] ++ m' :: ms' := hms
          obtain ⟨ps, q, us, rfl, htoken, hall⟩ := ih hfirst
          refine ⟨r :: ps, q, us, rfl, htoken, fun vs => ?_⟩
          rw [List.cons_append, meaningful, if_neg hr, hall]
          rfl
        | cons q qs =>
          obtain ⟨rfl, rfl⟩ := List.cons.inj h
          have hlater : meaningful rs = (m' :: qs) ++ m :: ms := hms
          obtain ⟨ps, q, us, rfl, htoken, hall⟩ := ih hlater
          refine ⟨r :: ps, q, us, rfl, htoken, fun vs => ?_⟩
          rw [List.cons_append, meaningful, if_neg hr, hall]
          rfl

end Reading

section
variable {source source' : String} {m : Reading} {qs ms ms' : List Reading} {e : Grammar.Stop}

/-- What a parser sees of a text up to a token, it sees however the text goes on behind a line
feed. -/
theorem seen_followedBy (h : seen source = qs ++ m :: ms) (hend : m.token.isEnd = false) :
    ∃ front back, source.toList = front ++ back ∧ m.token.stop = Text.size front ∧
      ∀ t, ∃ ms', seen (followedBy front t) = qs ++ m :: ms' := by
  have hmem : m ∈ seen source := by
    rw [h]
    exact List.mem_append_right _ List.mem_cons_self
  obtain ⟨ps, q, us, hread, htoken, hall⟩ := Reading.split_meaningful h
  have hq : q.token.isEnd = false := by rwa [htoken]
  have hm : q.token.kind.isMeaningful := by
    rw [htoken]
    exact Reading.isMeaningful_of_mem hmem
  obtain ⟨front, back, -, hsplit, hstop, -, hcut⟩ := Reading.all_cut hread hq hm
  rw [htoken, Nat.zero_add] at hstop
  refine ⟨front, back, hsplit, hstop, fun t =>
    ⟨Reading.meaningful (Reading.all q.token.stop ('\n' :: t.toList)), ?_⟩⟩
  have hapart : Apart ('\n' :: t.toList) := by
    rintro x ⟨⟩
    decide
  rw [seen, readings, followedBy, String.toList_ofList, hcut _ hapart]
  exact hall _

/-- Texts of which a parser sees the same up to a token begin to be read in the same way. -/
theorem startOf_of_seen (h : seen source = qs ++ m :: ms) (h' : seen source' = qs ++ m :: ms') :
    ∃ xs, (startOf source).ahead = xs ++ Reading.tokens ms ∧
      startOf source' = (startOf source).withAhead (xs ++ Reading.tokens ms') := by
  rw [startOf, startOf, h, h']
  cases qs with
  | nil => exact ⟨[], rfl, rfl⟩
  | cons r rs =>
    refine ⟨Reading.tokens rs ++ [m.token], ?_, ?_⟩
    · simp [Reading.tokens]
    · simp [Reading.tokens, Grammar.State.withAhead]

/-- Where reading a text stops at a token before its end, it stops in the same way in every text of
which a parser sees the same up to that token. -/
theorem readProgram_of_seen {s : Grammar.State} (h : seen source = qs ++ m :: ms)
    (h' : seen source' = qs ++ m :: ms') (hne : ms ≠ []) (hr : readProgram source = .error e s)
    (hahead : s.ahead = Reading.tokens ms) :
    readProgram source' = .error e (s.withAhead (Reading.tokens ms')) := by
  obtain ⟨xs, hxs, hstart⟩ := startOf_of_seen h h'
  have hlength : (startOf source).kinds.length = xs.length + ms.length + 1 := by
    simp [Grammar.State.kinds, hxs, Reading.tokens]
  have hlength' : (startOf source').kinds.length = xs.length + ms'.length + 1 := by
    simp [hstart, Grammar.State.withAhead, Grammar.State.kinds, Reading.tokens]
  have hlocal : Grammar.Local (xs.length + 1) (Grammar.program (startOf source).kinds.length)
      (Grammar.program (startOf source').kinds.length) :=
    Grammar.local_program (by omega) (by omega)
  have hne' : Reading.tokens ms ≠ [] := fun hnil => hne (List.map_eq_nil_iff.1 hnil)
  have hdone : (Grammar.stateOf (readProgram source)).ahead = [] ++ Reading.tokens ms := by
    rw [hr]
    exact hahead
  have hsame := hlocal.same hne' hxs (Nat.lt_succ_self _) hdone (Reading.tokens ms')
  have hread : Grammar.program (startOf source).kinds.length (startOf source) = .error e s := hr
  rw [hread, ← hstart] at hsame
  exact hsame

/-- A rejection before the end of a text stays as it is, with all that has been made of the text,
whatever follows behind the token at hand and a line feed. -/
theorem ofSource_followedBy (h : (Parse.ofSource source).stop = some e)
    (hend : (Parse.ofSource source).current.isEnd = false) :
    ∃ front back, Text.splitAt? (Parse.ofSource source).current.stop source.toList =
        some (front, back) ∧
      ∀ t, Parse.ofSource (followedBy front t) = Parse.ofSource source := by
  rw [ofSource_eq] at h hend
  cases hr : readProgram source with
  | ok u s =>
    rw [hr] at h
    cases h
  | error e' s =>
    rw [hr] at hend
    obtain ⟨⟨ts, hts⟩, -⟩ : Grammar.Leaves (startOf source) (.error e' s) :=
      hr ▸ leaves_readProgram source
    rw [tokens_startOf] at hts
    obtain ⟨qs, rest, hseen, -, hrest⟩ := List.map_eq_append_iff.1 hts.symm
    obtain ⟨m, ms, rfl, hm, hms⟩ := List.map_eq_cons_iff.1 hrest
    have hcurrent : m.token.isEnd = false := by rwa [hm]
    obtain ⟨front, back, hsplit, hstop, hfollowed⟩ := seen_followedBy hseen hcurrent
    have hne : ms ≠ [] := by
      rintro rfl
      have hlast : ((seen source).map (·.token.kind)).getLast? = some .endOfText :=
        Reading.getLast?_meaningful Reading.getLast?_all
      rw [hseen, List.map_append, List.map_singleton, List.getLast?_concat] at hlast
      rw [Token.isEnd, Option.some.inj hlast] at hcurrent
      cases hcurrent
    refine ⟨front, back, ?_, fun t => ?_⟩
    · rw [ofSource_eq, hr]
      show Text.splitAt? s.current.stop source.toList = some (front, back)
      rw [← hm, hstop, hsplit]
      exact Text.splitAt?_size_append front back
    · obtain ⟨ms', hseen'⟩ := hfollowed t
      have hr' := readProgram_of_seen hseen hseen' hne hr hms.symm
      have herrors : errorsAt source s = Reading.allErrors (qs ++ [m]) :=
        errorsAt_of_split hseen (by rw [← hms]; exact List.length_map _)
      have herrors' : errorsAt (followedBy front t) (s.withAhead (Reading.tokens ms')) =
          Reading.allErrors (qs ++ [m]) := errorsAt_of_split hseen' (List.length_map _)
      rw [ofSource_eq, ofSource_eq, hr, hr']
      simp only [herrors, herrors']
      rfl

/-- The missing semicolon is what is wrong, however the block goes on. -/
theorem ofSource_followedBy_missing_semicolon :
    Parse.ofSource "program p ? begin\n? \x7b" = Parse.ofSource "program p ? begin end." := by
  have hstop : (Parse.ofSource "program p ? begin end.").stop = some (.rejected
      ⟨.unexpected (.symbol .semicolon) (.symbol .beginWord), ⟨12, 5⟩⟩) := by decide +kernel
  have hend : (Parse.ofSource "program p ? begin end.").current.isEnd = false := by decide +kernel
  obtain ⟨front, back, hsplit, hfollowed⟩ := ofSource_followedBy hstop hend
  have hcut : Text.splitAt? (Parse.ofSource "program p ? begin end.").current.stop
      "program p ? begin end.".toList = some ("program p ? begin".toList, " end.".toList) := by
    decide +kernel
  obtain ⟨rfl, -⟩ := Prod.mk.inj (Option.some.inj (hcut.symm.trans hsplit))
  have htext : followedBy "program p ? begin".toList "? \x7b" = "program p ? begin\n? \x7b" := by
    decide +kernel
  rw [← htext]
  exact hfollowed "? \x7b"

end
end MiniPascal
