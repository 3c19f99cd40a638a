import MiniPascal.Compile
import MiniPascal.Proofs.Scan.Calls
import MiniPascal.Proofs.Text.Cut

/-! Nothing of a text is lost in reading it token by token. -/
namespace MiniPascal

/-- The offset lies in a token. -/
def Token.Covers (t : Token) (b : Nat) : Prop := t.span.offset ≤ b ∧ b < t.stop

/-- The offset lies in a comment. -/
def Comment.Covers (k : Comment) (b : Nat) : Prop := k.start ≤ b ∧ b < k.stop

namespace Layout

variable {cs : List Char} {ss : List Stretch} {s u : Stretch} {t : Token} {k : Comment}

theorem slice (h : Layout 0 cs ss) (hs : s ∈ ss) :
    Text.slice? cs s.start (Text.size s.chars) = some s.chars := by
  obtain ⟨before, behind, rfl, hstart, -⟩ := h.split hs
  rw [hstart, Nat.zero_add]
  exact Text.slice?_append

theorem stop_le (h : Layout 0 cs ss) (hs : s ∈ ss) : s.stop ≤ Text.size cs := by
  obtain ⟨before, behind, rfl, hstart, -⟩ := h.split hs
  rw [Stretch.stop, hstart, Text.size_append, Text.size_append]
  omega

theorem lexeme_of_mem (ht : t ∈ ss.filterMap Stretch.token?) : ∃ chars, .lexeme t chars ∈ ss := by
  obtain ⟨s, hs, hst⟩ := List.mem_filterMap.1 ht
  cases s with
  | lexeme u chars =>
    cases hst
    exact ⟨chars, hs⟩
  | blank | comment => cases hst

theorem comment_of_mem (hk : k ∈ ss.filterMap Stretch.comment?) : .comment k ∈ ss := by
  obtain ⟨s, hs, hsk⟩ := List.mem_filterMap.1 hk
  cases s with
  | comment c =>
    cases hsk
    exact hs
  | blank | lexeme => cases hsk

/-- A token lies where its lexeme does. -/
theorem stop_lexeme {n : Nat} {chars : List Char} (h : Layout n cs ss) (ht : .lexeme t chars ∈ ss) :
    (Stretch.lexeme t chars).stop = t.stop := by
  obtain ⟨-, hlength, -⟩ := h.proper ht
  rw [Token.stop, Span.stop, hlength]
  rfl

theorem ordered_tokens {n : Nat} (h : Layout n cs ss) :
    (ss.filterMap Stretch.token?).Pairwise fun t u => t.stop ≤ u.span.offset := by
  rw [List.pairwise_filterMap]
  refine List.Pairwise.imp_of_mem (fun {s u} hs _ hsu t ht v hv => ?_) h.ordered
  cases s with
  | lexeme t' chars =>
    cases ht
    rw [← h.stop_lexeme hs]
    cases u with
    | lexeme =>
      cases hv
      exact hsu
    | blank | comment => cases hv
  | blank | comment => cases ht

/-- Two stretches are one or lie apart. -/
theorem apart {n : Nat} (h : Layout n cs ss) (hs : s ∈ ss) (hu : u ∈ ss) :
    s = u ∨ s.stop ≤ u.start ∨ u.stop ≤ s.start := by
  induction h with
  | nil => cases hs
  | cons _ _ h ih =>
    rcases List.mem_cons.1 hs with rfl | hs'
    · rcases List.mem_cons.1 hu with rfl | hu'
      · exact .inl rfl
      · exact .inr (.inl (h.start_le hu'))
    · rcases List.mem_cons.1 hu with rfl | hu'
      · exact .inr (.inr (h.start_le hs'))
      · exact ih hs' hu'

/-- The value of a string constant stands between its quotes. -/
theorem slice_string {chars : List Char} {v : String} (h : Layout 0 cs ss)
    (hs : .lexeme t chars ∈ ss) (hv : t.kind = .string v) :
    Text.slice? cs (t.span.offset + 1) (t.span.length - 2) = some v.toList := by
  obtain ⟨-, hlength, hspelled⟩ := h.proper hs
  obtain rfl := hspelled.string v hv
  obtain ⟨before, behind, hcs, hstart, -⟩ := h.split hs
  have hquote : Lexeme.quote.utf8Size = 1 := rfl
  have hoffset : t.span.offset + 1 = Text.size (before ++ [Lexeme.quote]) := by
    have hbefore : t.span.offset = 0 + Text.size before := hstart
    rw [hbefore, Text.size_append, Text.size_cons, hquote, Text.size_nil]
    omega
  have hinner : t.span.length - 2 = Text.size v.toList := by
    rw [hlength, Text.size_cons, Text.size_append, Text.size_cons, hquote, Text.size_nil]
    omega
  have hsplit : cs = before ++ [Lexeme.quote] ++ v.toList ++ Lexeme.quote :: behind := by
    rw [hcs]
    simp [Stretch.chars]
  rw [hoffset, hinner, hsplit]
  exact Text.slice?_append

theorem charAt?_blank {n : Nat} {c : Char} (h : Layout 0 cs ss) (hs : .blank n c ∈ ss) :
    Text.charAt? cs n = some c := by
  obtain ⟨before, behind, rfl, hstart, -⟩ := h.split hs
  have hn : n = Text.size before := hstart.trans (Nat.zero_add _)
  rw [hn, List.append_assoc]
  exact Text.charAt?_append

theorem slice_lexeme {chars : List Char} (h : Layout 0 cs ss) (hs : .lexeme t chars ∈ ss) :
    Text.slice? cs t.span.offset t.span.length = some chars := by
  obtain ⟨-, hlength, -⟩ := h.proper hs
  rw [hlength]
  exact h.slice hs

/-- A comment that no brace ends lasts to the end of the text. -/
theorem stop_endless (h : Layout 0 cs ss) (hs : .comment k ∈ ss) (hc : k.closing = none) :
    k.stop = Text.size cs := by
  obtain ⟨before, behind, hsplit, hstart, hopen⟩ := h.split hs
  have hk : k.start = 0 + Text.size before := hstart
  rw [hsplit, hopen hc, List.append_nil, Text.size_append, Comment.stop, hk, Nat.zero_add]
  rfl

/-- Every offset in the text lies in the lexeme of a token, a blank, or a comment. -/
theorem covered {b : Nat} (h : Layout 0 cs ss) (hb : b < Text.size cs) :
    (∃ t ∈ ss.filterMap Stretch.token?, t.Covers b) ∨
      (∃ c, Text.charAt? cs b = some c ∧ Gap.isBlank c) ∨
      ∃ k ∈ ss.filterMap Stretch.comment?, k.Covers b := by
  obtain ⟨s, hs, hstart, hstop⟩ := h.covers (Nat.zero_le b) (by omega)
  cases s with
  | blank n c =>
    have hblank : Gap.isBlank c := h.proper hs
    have hwidth : (Stretch.blank n c).stop = n + 1 := by
      simp [Stretch.stop, Stretch.start, Stretch.chars, Gap.utf8Size_of_isBlank hblank]
    have hn : b = n := Nat.le_antisymm (by omega) hstart
    exact .inr (.inl ⟨c, hn ▸ h.charAt?_blank hs, hblank⟩)
  | comment k => exact .inr (.inr ⟨k, List.mem_filterMap.2 ⟨_, hs, rfl⟩, hstart, hstop⟩)
  | lexeme t chars =>
    exact .inl ⟨t, List.mem_filterMap.2 ⟨_, hs, rfl⟩, hstart, h.stop_lexeme hs ▸ hstop⟩

end Layout

/-- The comments that a text has where its tokens are not. Offsets count bytes, and a stretch of
text begins and ends between two characters. -/
structure Accounts (source : String) (comments : List Comment) : Prop where
  ordered : (tokenize source).1.Pairwise fun t u => t.stop ≤ u.span.offset
  ended : ∃ ts, (tokenize source).1 = ts ++ [.atEnd source.utf8ByteSize] ∧
    ∀ t ∈ ts, t.isEnd = false
  stretch : ∀ t ∈ (tokenize source).1, t.isEnd = false → 1 ≤ t.span.length ∧
    (Text.slice? source.toList t.span.offset t.span.length).isSome
  identifier : ∀ t ∈ (tokenize source).1, ∀ name, t.kind = .identifier name →
    Text.slice? source.toList t.span.offset t.span.length = some name.toList
  string : ∀ t ∈ (tokenize source).1, ∀ v, t.kind = .string v →
    Text.slice? source.toList (t.span.offset + 1) (t.span.length - 2) = some v.toList
  comment : ∀ k ∈ comments, k.Proper ∧
    Text.slice? source.toList k.start (Text.size k.chars) = some k.chars ∧
    (k.closing = none → k.stop = source.utf8ByteSize)
  apart : ∀ k ∈ comments, ∀ t ∈ (tokenize source).1, k.stop ≤ t.span.offset ∨ t.stop ≤ k.start
  covered : ∀ b < source.utf8ByteSize, (∃ t ∈ (tokenize source).1, t.Covers b) ∨
    (∃ c, Text.charAt? source.toList b = some c ∧ Gap.isBlank c) ∨ ∃ k ∈ comments, k.Covers b
  reported : (tokenize source).2.filter (·.isUnclosed) =
    (comments.filter (!·.isClosed)).map fun k => Gap.unclosed k.start

section
variable {source : String} {ss : List Stretch} {t : Token}

theorem filterMap_error? (ks : List Comment) :
    ks.filterMap Comment.error? = (ks.filter (!·.isClosed)).map fun k => Gap.unclosed k.start := by
  induction ks with
  | nil => rfl
  | cons k ks ih => cases hk : k.isClosed <;> simp [Comment.error?, hk, ih]

/-- A division of the text into stretches accounts for all of it. -/
theorem Layout.accounts (h : Layout 0 source.toList ss)
    (ht : (tokenize source).1 = ss.filterMap Stretch.token? ++ [.atEnd source.utf8ByteSize])
    (he : (tokenize source).2.filter (·.isUnclosed) =
      (ss.filterMap Stretch.comment?).filterMap Comment.error?) :
    Accounts source (ss.filterMap Stretch.comment?) := by
  have hlexeme : ∀ t ∈ (tokenize source).1, t = .atEnd source.utf8ByteSize ∨
      ∃ chars, .lexeme t chars ∈ ss := by
    intro t hmem
    rw [ht, List.mem_append, List.mem_singleton] at hmem
    rcases hmem with hmem | rfl
    · exact .inr (lexeme_of_mem hmem)
    · exact .inl rfl
  constructor
  case ordered =>
    rw [ht, List.pairwise_append]
    refine ⟨h.ordered_tokens, List.pairwise_singleton _ _, fun t hmem u hu => ?_⟩
    obtain ⟨chars, hs⟩ := lexeme_of_mem hmem
    rw [List.mem_singleton] at hu
    subst hu
    rw [← h.stop_lexeme hs]
    exact Nat.le_trans (h.stop_le hs) (Nat.le_of_eq (Text.size_toList source))
  case ended =>
    refine ⟨_, ht, fun t hmem => ?_⟩
    obtain ⟨chars, hs⟩ := lexeme_of_mem hmem
    obtain ⟨-, -, hspelled⟩ := h.proper hs
    exact beq_eq_false_iff_ne.2 hspelled.notEnd
  case stretch =>
    intro t hmem hend
    rcases hlexeme t hmem with rfl | ⟨chars, hs⟩
    · cases hend
    · obtain ⟨hne, hlength, -⟩ := h.proper hs
      rw [h.slice_lexeme hs, hlength]
      exact ⟨Text.size_pos hne, rfl⟩
  case identifier =>
    intro t hmem name hname
    rcases hlexeme t hmem with rfl | ⟨chars, hs⟩
    · cases hname
    · obtain ⟨-, -, hspelled⟩ := h.proper hs
      rw [h.slice_lexeme hs, hspelled.identifier name hname]
  case string =>
    intro t hmem v hv
    rcases hlexeme t hmem with rfl | ⟨chars, hs⟩
    · cases hv
    · exact h.slice_string hs hv
  case comment =>
    intro k hk
    have hs := comment_of_mem hk
    exact ⟨h.proper hs, h.slice hs, fun hc => (h.stop_endless hs hc).trans (Text.size_toList _)⟩
  case apart =>
    intro k hk t hmem
    have hs := comment_of_mem hk
    rcases hlexeme t hmem with rfl | ⟨chars, hs'⟩
    · exact .inl (Nat.le_trans (h.stop_le hs) (Nat.le_of_eq (Text.size_toList source)))
    · rcases h.apart hs hs' with heq | happart | happart
      · cases heq
      · exact .inl happart
      · exact .inr (h.stop_lexeme hs' ▸ happart)
  case covered =>
    intro b hb
    rw [← Text.size_toList] at hb
    rcases h.covered hb with ⟨t, hmem, hcovers⟩ | hblank | hcomment
    · refine .inl ⟨t, ?_, hcovers⟩
      rw [ht]
      exact List.mem_append_left _ hmem
    · exact .inr (.inl hblank)
    · exact .inr (.inr hcomment)
  case reported => rw [he, filterMap_error?]

end

/-- The tokens of a text that calls of both kinds hand out: always the same in the same order, with
the errors up to the last of them, and the end for ever. Only a sequence that has been handed out to
its end is over. -/
structure Delivers (source : String) (calls : List Scanner.Call) : Prop where
  stream : (Scanner.ofString source).delivered calls =
    (List.range ((Scanner.ofString source).delivered calls).length).map fun n =>
      (tokenize source).1.getD n (.atEnd source.utf8ByteSize)
  errors : ((Scanner.ofString source).after calls).errors =
    Reading.allErrors ((readings source).take ((Scanner.ofString source).delivered calls).length)
  exhausted : ∀ n : Nat, ((Scanner.ofString source).answers calls)[n]? = some none ↔
    calls[n]? = some .next ∧ ∃ k < n, calls[k]? = some .next ∧
      ∃ t, ((Scanner.ofString source).answers calls)[k]? = some (some t) ∧ t.isEnd = true
  ended : ∀ t ∈ (Scanner.ofString source).delivered calls, t.isEnd = true →
    ((Scanner.ofString source).after calls).nextToken =
      (.atEnd source.utf8ByteSize, (Scanner.ofString source).after calls)

section
variable {source : String} {calls : List Scanner.Call}

theorem errors_getD {rs : List Reading} {r : Reading} (hr : r.errors = []) (n : Nat) :
    ((List.range n).flatMap fun k => (rs[k]?.getD r).errors) = Reading.allErrors (rs.take n) := by
  induction rs generalizing n with
  | nil =>
    rw [List.take_nil]
    exact List.flatMap_eq_nil_iff.2 fun k _ => hr
  | cons q rs ih =>
    cases n with
    | zero => rfl
    | succ n =>
      rw [List.range_succ_eq_map, List.flatMap_cons, List.flatMap_map]
      exact congrArg _ (ih n)

theorem Scanner.delivers (source : String) (calls : List Scanner.Call) : Delivers source calls := by
  have hnth : ∀ k, Reading.nth 0 source.toList k =
      (readings source)[k]?.getD ⟨.atEnd source.utf8ByteSize, []⟩ := by
    intro k
    rw [Reading.nth_eq, Nat.zero_add, Text.size_toList]
    rfl
  constructor
  case stream =>
    refine delivered_eq.trans (List.map_congr_left fun k _ => ?_)
    change (Reading.nth 0 source.toList k).token = _
    rw [hnth, List.getD_eq_getElem?_getD, tokenize, Reading.tokens, List.getElem?_map]
    cases (readings source)[k]? <;> rfl
  case errors =>
    rw [← errors_getD (r := ⟨.atEnd source.utf8ByteSize, []⟩) rfl, errors_after]
    refine (List.nil_append _).trans ?_
    exact congrArg (List.flatMap · _) (funext fun k => congrArg Reading.errors (hnth k))
  case exhausted =>
    intro n
    rw [answers_eq_none_iff]
    simp [ofString]
  case ended =>
    intro t ht hend
    have hrest := rest_after_of_end ht hend
    have htotal := total_after (ofString source) calls
    rw [hrest] at htotal
    have hoffset : ((ofString source).after calls).offset = source.utf8ByteSize := by
      refine htotal.trans ?_
      rw [← Text.size_toList]
      exact Nat.zero_add _
    rw [nextToken_of_rest_nil hrest, hoffset]

/-- Tokens, blanks and comments make up all of a text. -/
theorem exists_accounts (source : String) : ∃ comments, Accounts source comments := by
  obtain ⟨ss, hlayout, htokens, herrors⟩ := Reading.all_layout 0 source.toList
  rw [Nat.zero_add, Text.size_toList] at htokens
  exact ⟨_, hlayout.accounts htokens herrors⟩

/-- Reading a text loses nothing: tokens, blanks and comments make up all of it, unclosed comments
are reported, and every way to ask for the tokens hands out the same. -/
theorem scan_lossless (source : String) :
    (∃ comments, Accounts source comments) ∧ ∀ calls, Delivers source calls :=
  ⟨exists_accounts source, Scanner.delivers source⟩

end
end MiniPascal
