import MiniPascal.Compile
import MiniPascal.Proofs.Scan.Gap
import MiniPascal.Proofs.Text.Cut

/-! The symbols of a text. Where a token is a symbol, the text spells that symbol, and in letters of
either case if it is a word. -/
namespace MiniPascal

namespace Lexeme

/-- If the lexeme is a symbol, its characters spell it. -/
def SpellsSymbol (l : Lexeme) : Prop :=
  ∀ y, l.outcome = .ok (.symbol y) → (String.ofList l.chars).toLower = y.spelling

variable {c : Char} {cs digits chars fraction rest whole : List Char} {d : Decimal}

theorem spelling_of_ofWord? {w : String} {y : Symbol} (h : Symbol.ofWord? w = some y) :
    w.toLower = y.spelling := by
  have hfound : (y.spelling == w.toLower) = true :=
    List.find?_some (p := fun s : Symbol => s.spelling == w.toLower) h
  exact (eq_of_beq hfound).symm

theorem word_spellsSymbol : (word cs).SpellsSymbol := by
  intro y hy
  simp only [word] at hy
  split at hy
  · next hw =>
    cases hy
    exact spelling_of_ofWord? hw
  · cases hy

theorem string_spellsSymbol : (string cs).SpellsSymbol := by
  intro y hy
  unfold string at hy
  split at hy
  · cases hy
  · split at hy <;> cases hy

theorem integer_spellsSymbol : (integer digits rest).SpellsSymbol := by
  intro y hy
  simp only [integer] at hy
  split at hy <;> cases hy

theorem real_spellsSymbol : (real d chars rest).SpellsSymbol := by
  intro y hy
  simp only [real] at hy
  split at hy <;> cases hy

theorem scaled_spellsSymbol : (scaled whole fraction rest).SpellsSymbol := by
  unfold scaled
  split
  · split
    · exact integer_spellsSymbol
    · exact real_spellsSymbol
  · intro y hy
    cases hy
  · exact real_spellsSymbol

theorem number_spellsSymbol : (number cs).SpellsSymbol := by
  unfold number
  split
  · exact scaled_spellsSymbol
  · split
    · dsimp only
      split
      · intro y hy
        cases hy
      · exact scaled_spellsSymbol
    · exact scaled_spellsSymbol

theorem spelling_of_ofPair? {e : Char} {y : Symbol} (h : Symbol.ofPair? c e = some y) :
    (String.ofList [c, e]).toLower = y.spelling := by
  unfold Symbol.ofPair? at h
  split at h <;> cases h <;> decide +kernel

theorem spelling_of_ofChar? {y : Symbol} (h : Symbol.ofChar? c = some y) :
    (String.ofList [c]).toLower = y.spelling := by
  unfold Symbol.ofChar? at h
  split at h <;> cases h <;> decide +kernel

theorem symbol_spellsSymbol : (symbol c cs).SpellsSymbol := by
  intro y hy
  unfold symbol at hy ⊢
  split at hy
  · next s hs =>
    cases hy
    obtain ⟨e, he, hpair⟩ := Option.bind_eq_some_iff.1 hs
    obtain ⟨cs, rfl⟩ := List.head?_eq_some_iff.1 he
    exact spelling_of_ofPair? hpair
  · split at hy
    · next s hs =>
      cases hy
      exact spelling_of_ofChar? hs
    · cases hy

theorem read_spellsSymbol (c : Char) (cs : List Char) : (read c cs).SpellsSymbol := by
  unfold read
  split
  · exact string_spellsSymbol
  · split
    · exact number_spellsSymbol
    · split
      · exact word_spellsSymbol
      · exact symbol_spellsSymbol

end Lexeme

namespace Reading

/-- What is skipped stands in front of what is left. -/
theorem skip_split (opened : Option Nat) (n : Nat) (cs : List Char) :
    ∃ gap, cs = gap ++ (Gap.skip opened n cs).rest ∧
      (Gap.skip opened n cs).offset = n + Text.size gap := by
  induction cs generalizing opened n with
  | nil => exact ⟨[], rfl, rfl⟩
  | cons c cs ih =>
    -- A character that is skipped joins the gap behind it.
    have hjoin : ∀ opened size, c.utf8Size = size →
        ∃ gap, c :: cs = gap ++ (Gap.skip opened (n + size) cs).rest ∧
          (Gap.skip opened (n + size) cs).offset = n + Text.size gap := by
      rintro opened _ rfl
      obtain ⟨gap, hgap, hoffset⟩ := ih opened (n + c.utf8Size)
      refine ⟨c :: gap, ?_, ?_⟩
      · rw [List.cons_append, ← hgap]
      · rw [hoffset, Text.size_cons, Nat.add_assoc]
    cases opened with
    | some start =>
      by_cases hclose : c = '\x7d'
      · subst hclose
        simpa only [Gap.skip, if_pos] using hjoin none 1 rfl
      · by_cases hopen : c = '\x7b'
        · subst hopen
          simpa only [Gap.skip, if_neg hclose, if_pos] using hjoin none 1 rfl
        · simpa only [Gap.skip, if_neg hclose, if_neg hopen] using hjoin (some start) _ rfl
    | none =>
      by_cases hopen : c = '\x7b'
      · subst hopen
        simpa only [Gap.skip, if_pos] using hjoin (some n) 1 rfl
      · by_cases hblank : Gap.isBlank c
        · simpa only [Gap.skip, if_neg hopen, if_pos hblank] using
            hjoin none 1 (Gap.utf8Size_of_isBlank hblank)
        · refine ⟨[], ?_, ?_⟩ <;> simp [Gap.skip, hopen, hblank]

variable {n : Nat} {cs : List Char} {r : Reading} {y : Symbol}

/-- The characters at a place of the text from an offset on spell the symbol. -/
def SymbolAt (n : Nat) (cs : List Char) (y : Symbol) (a : Span) : Prop :=
  ∃ before chars behind, cs = before ++ chars ++ behind ∧
    a = ⟨n + Text.size before, Text.size chars⟩ ∧ (String.ofList chars).toLower = y.spelling

theorem SymbolAt.behind {before : List Char} {a : Span}
    (h : SymbolAt (n + Text.size before) cs y a) : SymbolAt n (before ++ cs) y a := by
  obtain ⟨front, chars, behind, rfl, rfl, hspelled⟩ := h
  refine ⟨before ++ front, chars, behind, by simp, ?_, hspelled⟩
  rw [Text.size_append, Nat.add_assoc]

/-- A text divides into what stands in front of the text behind its first token, and that text. -/
theorem next_split (n : Nat) (cs : List Char) :
    ∃ front, cs = front ++ (next n cs).2 ∧ (next n cs).1.token.stop = n + Text.size front := by
  obtain ⟨gap, hgap, hoffset⟩ := skip_split none n cs
  unfold next
  dsimp only
  split
  · next hrest =>
    rw [hrest, List.append_nil] at hgap
    exact ⟨gap, by simp [hgap], by rw [← hoffset]; rfl⟩
  · next c rest hrest =>
    refine ⟨gap ++ (Lexeme.read c rest).chars, ?_, ?_⟩
    · rw [List.append_assoc, Lexeme.read_chars, ← hrest]
      exact hgap
    · rw [Token.stop, span_ofLexeme, Text.size_append, ← Nat.add_assoc, ← hoffset]
      rfl

theorem symbolAt_next (h : (next n cs).1.token.kind = .symbol y) :
    SymbolAt n cs y (next n cs).1.token.span := by
  obtain ⟨gap, hgap, hoffset⟩ := skip_split none n cs
  unfold next at h ⊢
  dsimp only at h ⊢
  split at h
  · cases h
  · next c rest hrest =>
    refine ⟨gap, (Lexeme.read c rest).chars, (Lexeme.read c rest).rest, ?_, ?_, ?_⟩
    · rw [List.append_assoc, Lexeme.read_chars, ← hrest]
      exact hgap
    · rw [span_ofLexeme, hoffset]
    · apply Lexeme.read_spellsSymbol c rest y
      unfold ofLexeme at h
      dsimp only at h
      split at h
      · next kind hkind =>
        rw [hkind]
        exact congrArg Except.ok h
      · next fault _ => cases fault <;> cases h

/-- Where a token is a symbol, the text spells it. -/
theorem symbolAt_all (hr : r ∈ all n cs) (h : r.token.kind = .symbol y) :
    SymbolAt n cs y r.token.span := by
  induction n, cs using all.induct with
  | case1 n cs step hend =>
    rw [all_of_end hend, List.mem_singleton] at hr
    subst hr
    exact symbolAt_next h
  | case2 n cs step hend ih =>
    rw [all_of_not_end (Bool.eq_false_iff.2 hend)] at hr
    rcases List.mem_cons.1 hr with rfl | hr
    · exact symbolAt_next h
    · obtain ⟨front, hfront, hstop⟩ := next_split n cs
      have hbehind := ih hr
      rw [hstop] at hbehind
      rw [hfront]
      exact hbehind.behind

end Reading

/-- Where a token of a text is a symbol, the text spells it. -/
theorem slice_symbol {source : String} {t : Token} {y : Symbol} (ht : t ∈ (tokenize source).1)
    (h : t.kind = .symbol y) :
    ∃ chars, Text.slice? source.toList t.span.offset t.span.length = some chars ∧
      (String.ofList chars).toLower = y.spelling := by
  obtain ⟨r, hr, rfl⟩ := List.mem_map.1 ht
  obtain ⟨before, chars, behind, hsplit, hspan, hspelled⟩ := Reading.symbolAt_all hr h
  refine ⟨chars, ?_, hspelled⟩
  rw [hspan, hsplit, Nat.zero_add]
  exact Text.slice?_append

end MiniPascal
