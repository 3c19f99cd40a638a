import MiniPascal.Proofs.Reading.Diagnostics
import MiniPascal.Proofs.Scan.Prefix

/-! Texts in which the malformed tokens have been blanked out. No other token is read differently
for it, wherever it stands, and a parser sees the same. -/
namespace MiniPascal

instance (t : Token) (b : Nat) : Decidable (t.Covers b) :=
  inferInstanceAs (Decidable (t.span.offset ≤ b ∧ b < t.stop))

/-- Whether an offset lies in a token that a parser does not see. -/
def isPassedOver (ts : List Token) (b : Nat) : Bool :=
  ts.any fun t => !t.kind.isMeaningful && decide (t.Covers b)

/-- The characters at an offset, with a space in the place of each byte of those that are hidden. -/
def blankFrom (hidden : Nat → Bool) (n : Nat) : List Char → List Char
  | [] => []
  | c :: cs =>
    (if hidden n then List.replicate c.utf8Size ' ' else [c]) ++
      blankFrom hidden (n + c.utf8Size) cs

/-- The text with a space in the place of each byte of its malformed and unknown tokens. -/
def blanked (source : String) : String :=
  String.ofList (blankFrom (isPassedOver (tokenize source).1) 0 source.toList)

section
variable {n m b : Nat} {hidden : Nat → Bool} {cs us xs ys : List Char} {t : Token}
  {ts : List Token}

theorem blankFrom_append : blankFrom hidden n (xs ++ ys) =
    blankFrom hidden n xs ++ blankFrom hidden (n + Text.size xs) ys := by
  induction xs generalizing n with
  | nil => rfl
  | cons x xs ih =>
    rw [List.cons_append, blankFrom, blankFrom, ih, Text.size_cons, List.append_assoc,
      Nat.add_assoc]

theorem blankFrom_of_seen (h : ∀ b, n ≤ b → b < n + Text.size cs → hidden b = false) :
    blankFrom hidden n cs = cs := by
  induction cs generalizing n with
  | nil => rfl
  | cons c cs ih =>
    have hc := c.utf8Size_pos
    rw [Text.size_cons] at h
    have hfirst : hidden n = false := h n (Nat.le_refl n) (by omega)
    rw [blankFrom, ih fun b hn hb => h b (by omega) (by omega), hfirst]
    rfl

theorem blankFrom_of_hidden (h : ∀ b, n ≤ b → b < n + Text.size cs → hidden b = true) :
    blankFrom hidden n cs = List.replicate (Text.size cs) ' ' := by
  induction cs generalizing n with
  | nil => rfl
  | cons c cs ih =>
    have hc := c.utf8Size_pos
    rw [Text.size_cons] at h
    have hfirst : hidden n = true := h n (Nat.le_refl n) (by omega)
    rw [blankFrom, ih fun b hn hb => h b (by omega) (by omega), hfirst, if_pos rfl,
      List.replicate_append_replicate, Text.size_cons]

theorem size_blankFrom : Text.size (blankFrom hidden n cs) = Text.size cs := by
  have hspaces : ∀ k, Text.size (List.replicate k ' ') = k := by
    intro k
    induction k with
    | zero => rfl
    | succ k ih =>
      have hspace : ' '.utf8Size = 1 := rfl
      rw [List.replicate_succ, Text.size_cons, ih, hspace, Nat.add_comm]
  induction cs generalizing n with
  | nil => rfl
  | cons c cs ih =>
    rw [blankFrom, Text.size_append, ih, Text.size_cons]
    split
    · rw [hspaces]
    · rfl

theorem isPassedOver_cons : isPassedOver (t :: ts) b =
    ((!t.kind.isMeaningful && decide (t.Covers b)) || isPassedOver ts b) := rfl

/-- Nothing is passed over before the first token. -/
theorem isPassedOver_of_lt (hts : ∀ t ∈ ts, m ≤ t.span.offset) (hb : b < m) :
    isPassedOver ts b = false := by
  refine List.any_eq_false.2 fun t ht hcovers => ?_
  have hstart := hts t ht
  obtain ⟨-, hcovers⟩ := Bool.and_eq_true_iff.1 hcovers
  have hstart' := (of_decide_eq_true hcovers).1
  omega

theorem isPassedOver_before (hts : ∀ u ∈ ts, t.stop ≤ u.span.offset) (hb : b < t.span.offset) :
    isPassedOver (t :: ts) b = false := by
  have hle : t.span.offset ≤ t.stop := Nat.le_add_right _ _
  refine isPassedOver_of_lt (fun u hu => ?_) hb
  rcases List.mem_cons.1 hu with rfl | hu
  · exact Nat.le_refl _
  · exact Nat.le_trans hle (hts u hu)

theorem isPassedOver_within (hts : ∀ u ∈ ts, t.stop ≤ u.span.offset) (hb : t.Covers b) :
    isPassedOver (t :: ts) b = !t.kind.isMeaningful := by
  rw [isPassedOver_cons, isPassedOver_of_lt hts hb.2, decide_eq_true hb, Bool.and_true,
    Bool.or_false]

theorem isPassedOver_behind (hb : t.stop ≤ b) : isPassedOver (t :: ts) b = isPassedOver ts b := by
  have hnot : ¬ t.Covers b := fun h => Nat.not_lt.2 hb h.2
  rw [isPassedOver_cons, decide_eq_false hnot, Bool.and_false, Bool.false_or]

namespace Gap

/-- Spaces are skipped. -/
theorem skip_spaces (k : Nat) : skip none n (List.replicate k ' ' ++ cs) = skip none (n + k) cs := by
  induction k generalizing n with
  | zero => rfl
  | succ k ih =>
    have hspace : isBlank ' ' := rfl
    have hnext : skip none n (' ' :: (List.replicate k ' ' ++ cs)) =
        skip none (n + 1) (List.replicate k ' ' ++ cs) := by
      rw [skip, if_neg (by decide), if_pos hspace]
    rw [List.replicate_succ, List.cons_append, hnext, ih, Nat.add_assoc, Nat.add_comm 1]

/-- A gap does not consist of a point. -/
theorem Parts.ne_point {c : Char} {gap rest : List Char} {es : List LexicalError}
    (h : Parts none n cs gap es c rest) : gap ≠ ['.'] := by
  rintro rfl
  have hpoint := h.skip_lexeme rest
  have hskip : Gap.skip none n (['.'] ++ c :: rest) = ⟨[], n, '.' :: c :: rest⟩ :=
    skip_of_lexeme (by decide) (by decide)
  have hoffset : n = n + Text.size ['.'] := congrArg Gap.offset (hskip.symm.trans hpoint)
  have hone : Text.size ['.'] = 1 := rfl
  omega

end Gap

namespace Reading

/-- A reading behind errors that came before it. -/
def behind (es : List LexicalError) (r : Reading) : Reading := { r with errors := es ++ r.errors }

/-- A reading with no errors but those of unclosed comments. -/
def unclosed (r : Reading) : Reading := { r with errors := r.errors.filter (·.isUnclosed) }

variable {c : Char} {gap rest : List Char} {es : List LexicalError}

/-- The second text is the first with spaces in the place of the tokens that a parser does not
see. -/
inductive Blanks : Nat → List Char → List Char → Prop
  | ended {n : Nat} {cs : List Char} (h : (next n cs).1.token.isEnd = true) : Blanks n cs cs
  | seen {n : Nat} {cs gap rest us : List Char} {es : List LexicalError} {c : Char}
    (hp : Gap.Parts none n cs gap es c rest) (hm : (next n cs).1.token.kind.isMeaningful)
    (h : Blanks (next n cs).1.token.stop (next n cs).2 us) :
    Blanks n cs (gap ++ (Lexeme.read c rest).chars ++ us)
  | passed {n : Nat} {cs gap rest us : List Char} {es : List LexicalError} {c : Char}
    (hp : Gap.Parts none n cs gap es c rest)
    (hm : (next n cs).1.token.kind.isMeaningful = false)
    (h : Blanks (next n cs).1.token.stop (next n cs).2 us) :
    Blanks n cs (gap ++ (List.replicate (Text.size (Lexeme.read c rest).chars) ' ' ++ us))

theorem not_isEnd_of_parts (h : Gap.Parts none n cs gap es c rest) :
    (next n cs).1.token.isEnd = false := by
  rw [next_parts h]
  exact beq_eq_false_iff_ne.2 (spelled_ofLexeme (Lexeme.read_faithful c rest)).notEnd

/-- A text with blanks begins as before, or with a blank. -/
theorem Blanks.alike (h : Blanks n cs us) : Alike cs us ∨ Apart us := by
  induction h with
  | ended => exact .inl ⟨rfl, fun _ => Iff.rfl⟩
  | @seen n cs gap rest us es c hp hm h ih =>
    have hne : gap ++ (Lexeme.read c rest).chars ≠ [] := by simp [Lexeme.read_chars_ne_nil]
    have halike : Alike (gap ++ (Lexeme.read c rest).chars ++ (next n cs).2)
        (gap ++ (Lexeme.read c rest).chars ++ us) := by
      refine alike_append hne fun hpoint => ?_
      have hrest := head_of_point hp hpoint
      rcases ih with ih | ih
      · exact ⟨hrest, by rwa [ih.head]⟩
      · exact ⟨hrest, head_of_apart ih⟩
    rw [← split_parts hp] at halike
    exact .inl halike
  | @passed n cs gap rest us es c hp hm h ih =>
    by_cases hgap : gap = []
    · refine .inr ?_
      subst hgap
      have hpos : 1 ≤ Text.size (Lexeme.read c rest).chars :=
        Text.size_pos (Lexeme.read_chars_ne_nil c rest)
      obtain ⟨k, hk⟩ := Nat.exists_eq_succ_of_ne_zero (Nat.ne_of_gt hpos)
      rw [hk, List.replicate_succ]
      rintro x ⟨⟩
      decide
    · refine .inl ?_
      have hsplit := hp.split
      rw [hsplit]
      exact alike_append hgap fun hpoint => absurd hpoint hp.ne_point

/-- A token that a parser sees comes with no errors but those of the gap before it. -/
theorem unclosed_of_meaningful (h : (next n cs).1.token.kind.isMeaningful) :
    (next n cs).1.unclosed = (next n cs).1 := by
  have hfaulty := (next_reports n cs).faulty
  rw [List.filter_cons_of_neg (by simpa using h), List.filter_nil, List.map_eq_nil_iff,
    List.filter_eq_nil_iff] at hfaulty
  have hall : (next n cs).1.errors.filter (·.isUnclosed) = (next n cs).1.errors :=
    List.filter_eq_self.2 fun e he => by simpa using hfaulty e he
  rw [unclosed, hall]

/-- A gap in front of which there were errors makes a reading in front of which there were. -/
theorem next_behind (h : Gap.skip none n xs = (Gap.skip none m ys).behind es) :
    next n xs = ((next m ys).1.behind es, (next m ys).2) := by
  simp only [next, h, Gap.behind]
  cases (Gap.skip none m ys).rest with
  | nil => rfl
  | cons c rest =>
    simp only [ofLexeme]
    cases (Lexeme.read c rest).outcome with
    | ok k => rfl
    | error f => simp only [behind, List.append_assoc]

theorem all_behind (h : Gap.skip none n xs = (Gap.skip none m ys).behind es) :
    ∃ r rs, all m ys = r :: rs ∧ all n xs = r.behind es :: rs := by
  have hnext := next_behind h
  cases hend : (next m ys).1.token.isEnd with
  | true =>
    have hend' : (next n xs).1.token.isEnd = true := by rwa [hnext]
    refine ⟨_, _, all_of_end hend, ?_⟩
    rw [all_of_end hend', hnext]
  | false =>
    have hend' : (next n xs).1.token.isEnd = false := by rwa [hnext]
    refine ⟨_, _, all_of_not_end hend, ?_⟩
    rw [all_of_not_end hend', hnext]
    rfl

/-- Where there are spaces in the place of a token, its gap goes on up to where it ended. -/
theorem skip_passed (h : Gap.Parts none n cs gap es c rest) (us : List Char) :
    Gap.skip none n (gap ++ (List.replicate (Text.size (Lexeme.read c rest).chars) ' ' ++ us)) =
      (Gap.skip none (next n cs).1.token.stop us).behind es := by
  have hstop : (next n cs).1.token.stop = _ := stop_of_split (split_parts h)
  rw [h.skip, Gap.skip_spaces, hstop, Text.size_append, Nat.add_assoc]

/-- The unclosed comments before a token are the errors of its gap. -/
theorem filter_errors_parts (h : Gap.Parts none n cs gap es c rest) :
    (next n cs).1.errors.filter (·.isUnclosed) = es := by
  have hskip := h.skip_lexeme rest
  rw [← h.split] at hskip
  have hcomments := ((Gap.skip_reports cs).1 n).comments
  rw [hskip] at hcomments
  rw [next_parts h, unclosed_ofLexeme (Lexeme.read_faithful c rest)]
  exact List.filter_eq_self.2 hcomments

/-- With blanks, a text has the readings that a parser sees, with no errors but unclosed
comments. -/
theorem all_of_blanks (h : Blanks n cs us) :
    all n us = (meaningful (all n cs)).map unclosed := by
  induction h with
  | @ended n cs hend =>
    have hm : (next n cs).1.token.kind.isMeaningful := by
      have hkind : (next n cs).1.token.kind = .endOfText := eq_of_beq hend
      rw [hkind]
      rfl
    rw [all_of_end hend, meaningful, if_pos hm, meaningful, List.map_singleton,
      unclosed_of_meaningful hm]
  | @seen n cs gap rest us es c hp hm h ih =>
    have hend := not_isEnd_of_parts hp
    have hus : Alike (next n cs).2 us ∨ (next n cs).1.token.kind.isMeaningful ∧ Apart us := by
      rcases h.alike with halike | hapart
      · exact .inl halike
      · exact .inr ⟨hm, hapart⟩
    rw [all_before hp hend hus, ih, all_of_not_end hend, meaningful, if_pos hm, List.map_cons,
      unclosed_of_meaningful hm]
  | @passed n cs gap rest us es c hp hm h ih =>
    obtain ⟨r, rs, hall, hbehind⟩ := all_behind (skip_passed hp us)
    obtain ⟨m, ms, hms⟩ := exists_meaningful_cons (next n cs).1.token.stop (next n cs).2
    rw [hall, hms, List.map_cons] at ih
    obtain ⟨rfl, rfl⟩ := List.cons.inj ih
    have herrors : m.unclosed.behind es =
        unclosed { m with errors := (next n cs).1.errors ++ m.errors } := by
      simp only [unclosed, behind, List.filter_append, filter_errors_parts hp]
    rw [hbehind, all_of_not_end (not_isEnd_of_parts hp), meaningful, if_neg (by simp [hm]), hms,
      List.map_cons, herrors]

theorem start_le_tokens (n : Nat) (cs : List Char) :
    ∀ t ∈ tokens (all n cs), n ≤ t.span.offset := by
  induction n, cs using all.induct with
  | case1 n cs step hend =>
    intro t ht
    rw [all_of_end hend, tokens, List.map_singleton, List.mem_singleton] at ht
    subst ht
    exact (next_reports n cs).start
  | case2 n cs step hend ih =>
    have hnot : (next n cs).1.token.isEnd = false := Bool.eq_false_iff.2 hend
    intro t ht
    rw [all_of_not_end hnot, tokens, List.map_cons] at ht
    rcases List.mem_cons.1 ht with rfl | ht
    · exact (next_reports n cs).start
    · have hstart := (next_reports n cs).start
      have hstop := offset_lt_stop hnot
      have hlater : (next n cs).1.token.stop ≤ t.span.offset := ih t ht
      omega

/-- A text is blanked piece by piece: a gap, a lexeme, and what is left to read. -/
theorem blankFrom_parts (hp : Gap.Parts none n cs gap es c rest)
    (hgap : ∀ b, n ≤ b → b < n + Text.size gap → hidden b = false) :
    blankFrom hidden n cs =
      gap ++ blankFrom hidden (n + Text.size gap) (Lexeme.read c rest).chars ++
        blankFrom hidden (next n cs).1.token.stop (next n cs).2 := by
  have hsplit := split_parts hp
  calc blankFrom hidden n cs
    _ = blankFrom hidden n (gap ++ (Lexeme.read c rest).chars ++ (next n cs).2) :=
      congrArg _ hsplit
    _ = _ := by
      rw [blankFrom_append, blankFrom_append, blankFrom_of_seen hgap, stop_of_split hsplit]

/-- If a lexeme is hidden as a whole when a parser does not see its token, and else not at all, the
text is blanked if what is behind the lexeme is. -/
theorem Blanks.step (hp : Gap.Parts none n cs gap es c rest)
    (hgap : ∀ b, n ≤ b → b < n + Text.size gap → hidden b = false)
    (hlexeme : ∀ b, n + Text.size gap ≤ b →
      b < n + Text.size gap + Text.size (Lexeme.read c rest).chars →
      hidden b = !(next n cs).1.token.kind.isMeaningful)
    (hrest : Blanks (next n cs).1.token.stop (next n cs).2
      (blankFrom hidden (next n cs).1.token.stop (next n cs).2)) :
    Blanks n cs (blankFrom hidden n cs) := by
  rw [blankFrom_parts hp hgap]
  cases hm : (next n cs).1.token.kind.isMeaningful with
  | true =>
    rw [hm] at hlexeme
    rw [blankFrom_of_seen hlexeme]
    exact .seen hp hm hrest
  | false =>
    rw [hm] at hlexeme
    rw [blankFrom_of_hidden hlexeme, List.append_assoc]
    exact .passed hp hm hrest

/-- Hiding what is passed over blanks a text. -/
theorem blanks_blankFrom (h : ∀ b, n ≤ b → hidden b = isPassedOver (tokens (all n cs)) b) :
    Blanks n cs (blankFrom hidden n cs) := by
  induction n, cs using all.induct with
  | case1 n cs step hend =>
    have hseen : ∀ b, n ≤ b → b < n + Text.size cs → hidden b = false := by
      intro b hb _
      have hkind : (next n cs).1.token.kind = .endOfText := eq_of_beq hend
      rw [h b hb, all_of_end hend, tokens, List.map_singleton, isPassedOver_cons, hkind]
      rfl
    rw [blankFrom_of_seen hseen]
    exact .ended hend
  | case2 n cs step hend ih =>
    have hnot : (next n cs).1.token.isEnd = false := Bool.eq_false_iff.2 hend
    obtain ⟨gap, es, c, rest, hp⟩ := exists_parts hnot
    have hstop : (next n cs).1.token.stop =
        n + Text.size gap + Text.size (Lexeme.read c rest).chars := by
      rw [stop_of_split (split_parts hp), Text.size_append, Nat.add_assoc]
    have hstart : (next n cs).1.token.span.offset = n + Text.size gap := by
      rw [next_parts hp, span_ofLexeme]
    have hlater := start_le_tokens (next n cs).1.token.stop (next n cs).2
    rw [all_of_not_end hnot, tokens, List.map_cons, ← tokens] at h
    refine .step hp (fun b hn hb => ?_) (fun b hn hb => ?_) (ih fun b hb => ?_)
    · rw [h b hn]
      exact isPassedOver_before hlater (by omega)
    · rw [h b (by omega)]
      exact isPassedOver_within hlater ⟨by omega, by omega⟩
    · have hle : (next n cs).1.token.stop ≤ b := hb
      rw [h b (by omega)]
      exact isPassedOver_behind hle

end Reading
end
end MiniPascal
