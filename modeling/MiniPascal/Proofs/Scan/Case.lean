import MiniPascal.Proofs.Scan.Gap

/-! The case of letters. A text in small letters has the tokens and errors of the text it comes
from, except that its names and string constants are in small letters as well. -/
namespace MiniPascal

/-- The characters in small letters. -/
def lowered (cs : List Char) : List Char := cs.map Char.toLower

theorem toLower_of_not_isUpper {c : Char} (h : c.isUpper = false) : c.toLower = c :=
  dif_neg (of_decide_eq_false h)

/-- What does not tell a capital from its small letter does not see that one takes its place. -/
theorem toLower_congr {β : Type} {f : Char → β}
    (h : ∀ n < 26, f (Char.ofNat (97 + n)) = f (Char.ofNat (65 + n))) (c : Char) :
    f c.toLower = f c := by
  by_cases hc : c.isUpper
  · have hbounds : 65 ≤ c.toNat ∧ c.toNat ≤ 90 := of_decide_eq_true hc
    obtain ⟨n, hn⟩ := Nat.exists_eq_add_of_le hbounds.1
    have hcapital : c = Char.ofNat (65 + n) := by rw [← hn, Char.ofNat_toNat]
    have hsmall : ∀ n < 26, (Char.ofNat (65 + n)).toLower = Char.ofNat (97 + n) := by decide
    rw [hcapital, hsmall n (by omega)]
    exact h n (by omega)
  · rw [toLower_of_not_isUpper (Bool.eq_false_iff.2 hc)]

section
variable {c d : Char} {cs ds : List Char} {p : Char → Bool}

@[simp] theorem toLower_toLower (c : Char) : c.toLower.toLower = c.toLower :=
  toLower_congr (by decide) c

theorem isDigit_toLower (c : Char) : c.toLower.isDigit = c.isDigit := toLower_congr (by decide) c

theorem isAlpha_toLower (c : Char) : c.toLower.isAlpha = c.isAlpha := toLower_congr (by decide) c

theorem utf8Size_toLower (c : Char) : c.toLower.utf8Size = c.utf8Size :=
  toLower_congr (by decide) c

/-- A character that is no letter comes from none but itself. -/
theorem toLower_eq_iff (hd : d.isAlpha = false) : c.toLower = d ↔ c = d := by
  have hfix : ∀ e : Char, e.isAlpha = false → e.toLower = e := fun e he =>
    toLower_of_not_isUpper (Bool.or_eq_false_iff.1 he).1
  constructor
  · rintro rfl
    rw [isAlpha_toLower] at hd
    exact (hfix c hd).symm
  · rintro rfl
    exact hfix c hd

@[simp] theorem lowered_nil : lowered [] = [] := rfl

@[simp] theorem lowered_cons : lowered (c :: cs) = c.toLower :: lowered cs := rfl

@[simp] theorem lowered_append : lowered (cs ++ ds) = lowered cs ++ lowered ds := List.map_append

@[simp] theorem lowered_eq_nil_iff : lowered cs = [] ↔ cs = [] := List.map_eq_nil_iff

theorem lowered_lowered (cs : List Char) : lowered (lowered cs) = lowered cs := by
  simp [lowered, Function.comp_def]

@[simp] theorem size_lowered (cs : List Char) : Text.size (lowered cs) = Text.size cs := by
  induction cs with
  | nil => rfl
  | cons c cs ih => rw [lowered_cons, Text.size_cons, Text.size_cons, utf8Size_toLower, ih]

theorem takeWhile_lowered (hp : ∀ c, p c.toLower = p c) :
    (lowered cs).takeWhile p = lowered (cs.takeWhile p) := by
  have hcomp : p ∘ Char.toLower = p := funext hp
  rw [lowered, List.takeWhile_map, hcomp]
  rfl

theorem dropWhile_lowered (hp : ∀ c, p c.toLower = p c) :
    (lowered cs).dropWhile p = lowered (cs.dropWhile p) := by
  have hcomp : p ∘ Char.toLower = p := funext hp
  rw [lowered, List.dropWhile_map, hcomp]
  rfl

/-- Characters none of which is a letter. -/
theorem lowered_of_not_isAlpha (h : ∀ c ∈ cs, c.isAlpha = false) : lowered cs = cs := by
  refine (List.map_congr_left fun c hc => ?_).trans (List.map_id cs)
  exact (toLower_eq_iff (h c hc)).2 rfl

theorem not_isAlpha_of_isDigit (h : c.isDigit) : c.isAlpha = false := by
  have hle : c.toNat ≤ 57 := of_decide_eq_true (Bool.and_eq_true_iff.1 h).2
  have hcapital : ¬ 65 ≤ c.toNat := by omega
  have hsmall : ¬ 97 ≤ c.toNat := by omega
  refine Bool.or_eq_false_iff.2 ⟨decide_eq_false fun hc => hcapital hc.1, ?_⟩
  exact Bool.and_eq_false_iff.2 (.inl (decide_eq_false hsmall))

theorem lowered_takeWhile_isDigit (cs : List Char) :
    lowered (cs.takeWhile Char.isDigit) = cs.takeWhile Char.isDigit :=
  lowered_of_not_isAlpha fun _ hc =>
    not_isAlpha_of_isDigit (List.all_eq_true.1 List.all_takeWhile _ hc)

theorem head?_lowered (hd : d.isAlpha = false) :
    (lowered cs).head? = some d ↔ cs.head? = some d := by
  cases cs with
  | nil => rfl
  | cons c cs =>
    rw [lowered_cons, List.head?_cons, List.head?_cons, Option.some_inj, Option.some_inj]
    exact toLower_eq_iff hd

theorem toLower_ofList (cs : List Char) :
    (String.ofList cs).toLower = String.ofList (lowered cs) := by
  have hmap : (String.ofList cs).toLower = (String.ofList cs).map Char.toLower := rfl
  apply String.toList_inj.1
  rw [hmap, String.toList_map, String.toList_ofList, String.toList_ofList]
  rfl

end

/-- The kind of token with its letters in small. -/
def TokenKind.lowered : TokenKind → TokenKind
  | .identifier name => .identifier name.toLower
  | .string v => .string v.toLower
  | k => k

/-- The lexeme of the text in small letters. -/
def Lexeme.lowered (l : Lexeme) : Lexeme :=
  ⟨l.outcome.map TokenKind.lowered, MiniPascal.lowered l.chars, MiniPascal.lowered l.rest⟩

namespace Lexeme

variable {c : Char} {cs digits chars fraction rest whole : List Char} {d : Decimal}

theorem word_lowered : word (MiniPascal.lowered cs) = (word cs).lowered := by
  have hp : ∀ c : Char, c.toLower.isAlphanum = c.isAlphanum := toLower_congr (by decide)
  have hname : (String.ofList (MiniPascal.lowered (cs.takeWhile Char.isAlphanum))).toLower =
      (String.ofList (cs.takeWhile Char.isAlphanum)).toLower := by
    rw [toLower_ofList, toLower_ofList, lowered_lowered]
  simp only [word, lowered, takeWhile_lowered hp, dropWhile_lowered hp, Symbol.ofWord?, hname]
  split
  · rfl
  · rw [← toLower_ofList]
    rfl

theorem string_lowered : string (MiniPascal.lowered cs) = (string cs).lowered := by
  have hp : ∀ c : Char, isStringChar c.toLower = isStringChar c := toLower_congr (by decide)
  have hquote : quote.isAlpha = false := rfl
  have hquote' : quote.toLower = quote := rfl
  simp only [string, takeWhile_lowered hp, dropWhile_lowered hp]
  cases hrest : cs.dropWhile isStringChar with
  | nil => rfl
  | cons c rest =>
    simp only [lowered_cons, toLower_eq_iff hquote]
    by_cases hc : c = quote
    · simp only [if_pos hc, lowered, lowered_append, lowered_cons, hquote', lowered_nil,
        Except.map, TokenKind.lowered, toLower_ofList]
    · simp only [if_neg hc, lowered, lowered_cons, hquote', Except.map]

theorem integer_lowered (h : MiniPascal.lowered digits = digits) :
    integer digits (MiniPascal.lowered rest) = (integer digits rest).lowered := by
  simp only [integer, lowered, h]
  split <;> rfl

theorem real_lowered :
    real d (MiniPascal.lowered chars) (MiniPascal.lowered rest) = (real d chars rest).lowered := by
  simp only [real, lowered]
  split <;> rfl

theorem scale?_lowered : scale? (MiniPascal.lowered cs) = (scale? cs).map fun scale =>
    (MiniPascal.lowered scale.1, scale.2.1, MiniPascal.lowered scale.2.2) := by
  have hmark : ∀ c : Char, isScaleMark c.toLower = isScaleMark c := toLower_congr (by decide)
  have hsign : isSign ∘ Char.toLower = isSign := funext (toLower_congr (by decide))
  cases cs with
  | nil => rfl
  | cons mark cs =>
    have hletters : MiniPascal.lowered ((cs.take 1).filter isSign) = (cs.take 1).filter isSign := by
      refine lowered_of_not_isAlpha fun c hc => ?_
      have hc := (List.mem_filter.1 hc).2
      simp only [isSign, Bool.or_eq_true, beq_iff_eq] at hc
      rcases hc with rfl | rfl <;> rfl
    have hsigns : ((MiniPascal.lowered cs).take 1).filter isSign = (cs.take 1).filter isSign := by
      rw [MiniPascal.lowered, ← List.map_take, List.filter_map, hsign]
      exact hletters
    simp only [scale?, lowered_cons, hmark, hsigns]
    split
    · have hdrop : ∀ n, (MiniPascal.lowered cs).drop n = MiniPascal.lowered (cs.drop n) := fun n =>
        List.map_drop.symm
      simp only [hdrop, takeWhile_lowered isDigit_toLower, dropWhile_lowered isDigit_toLower,
        lowered_takeWhile_isDigit, Option.map_some, lowered_cons, lowered_append, hletters]
    · rfl

theorem scaled_lowered (hw : MiniPascal.lowered whole = whole)
    (hf : MiniPascal.lowered fraction = fraction) :
    scaled whole fraction (MiniPascal.lowered rest) = (scaled whole fraction rest).lowered := by
  have hchars : MiniPascal.lowered (whole ++ fraction) = whole ++ fraction := by
    rw [lowered_append, hw, hf]
  simp only [scaled, scale?_lowered]
  cases scale? rest with
  | none =>
    simp only [Option.map_none]
    split
    · exact integer_lowered hw
    · rw [← real_lowered, hchars]
  | some scale =>
    obtain ⟨mark, size, rest⟩ := scale
    cases size with
    | none => simp only [Option.map_some, lowered, lowered_append, hw, hf, Except.map]
    | some size =>
      simp only [Option.map_some]
      rw [← real_lowered, lowered_append, hchars]

theorem number_lowered : number (MiniPascal.lowered cs) = (number cs).lowered := by
  have hwhole := lowered_takeWhile_isDigit cs
  have hplain : ∀ rest, scaled (cs.takeWhile Char.isDigit) [] (MiniPascal.lowered rest) =
      (scaled (cs.takeWhile Char.isDigit) [] rest).lowered := fun _ =>
    scaled_lowered hwhole lowered_nil
  simp only [number, takeWhile_lowered isDigit_toLower, dropWhile_lowered isDigit_toLower, hwhole]
  cases cs.dropWhile Char.isDigit with
  | nil => exact hplain []
  | cons point rest =>
    have hpoint : point.toLower = '.' ↔ point = '.' := toLower_eq_iff rfl
    have hnext : (MiniPascal.lowered rest).head? = some '.' ↔ rest.head? = some '.' :=
      head?_lowered rfl
    simp only [lowered_cons, hpoint, ne_eq, hnext]
    split
    · next h =>
      have hdigits := lowered_takeWhile_isDigit rest
      have hdot : '.'.toLower = '.' := rfl
      simp only [takeWhile_lowered isDigit_toLower, dropWhile_lowered isDigit_toLower, hdigits]
      split
      · simp only [lowered, lowered_append, hwhole, lowered_cons, hdot, lowered_nil, Except.map]
      · refine scaled_lowered hwhole ?_
        rw [lowered_cons, hdot, hdigits]
    · exact hplain (point :: rest)

/-- No symbol of two characters ends with a letter. -/
theorem ofPair?_of_isAlpha {e : Char} (h : e.isAlpha) : Symbol.ofPair? c e = none := by
  unfold Symbol.ofPair?
  split
  all_goals first | rfl | exact absurd h (by decide)

theorem ofPair?_toLower (c e : Char) : Symbol.ofPair? c e.toLower = Symbol.ofPair? c e := by
  cases he : e.isAlpha with
  | true =>
    have hlower : e.toLower.isAlpha = true := (isAlpha_toLower e).trans he
    rw [ofPair?_of_isAlpha he, ofPair?_of_isAlpha hlower]
  | false => rw [(toLower_eq_iff he).2 rfl]

theorem symbol_lowered (h : c.isAlpha = false) :
    symbol c (MiniPascal.lowered cs) = (symbol c cs).lowered := by
  have hc : c.toLower = c := (toLower_eq_iff h).2 rfl
  have hpair : (MiniPascal.lowered cs).head?.bind (Symbol.ofPair? c) =
      cs.head?.bind (Symbol.ofPair? c) := by
    cases cs with
    | nil => rfl
    | cons e cs => exact ofPair?_toLower c e
  simp only [symbol, hpair]
  cases cs.head?.bind (Symbol.ofPair? c) with
  | some s =>
    have hfront : (MiniPascal.lowered cs).take 1 = MiniPascal.lowered (cs.take 1) :=
      List.map_take.symm
    have hback : (MiniPascal.lowered cs).drop 1 = MiniPascal.lowered (cs.drop 1) :=
      List.map_drop.symm
    simp only [lowered, lowered_cons, hc, hfront, hback, Except.map, TokenKind.lowered]
  | none =>
    cases Symbol.ofChar? c with
    | some s => simp only [lowered, lowered_cons, lowered_nil, hc, Except.map, TokenKind.lowered]
    | none => simp only [lowered, lowered_cons, lowered_nil, hc, Except.map]

/-- A lexeme of a text in small letters is the lexeme of the text in small letters. -/
theorem read_lowered (c : Char) (cs : List Char) :
    read c.toLower (MiniPascal.lowered cs) = (read c cs).lowered := by
  have hquote : c.toLower = quote ↔ c = quote := toLower_eq_iff rfl
  simp only [read, hquote, isDigit_toLower, isAlpha_toLower]
  split
  · exact string_lowered
  · split
    · exact @number_lowered (c :: cs)
    · split
      · exact @word_lowered (c :: cs)
      · next h =>
        have hc : c.isAlpha = false := Bool.eq_false_iff.2 h
        rw [(toLower_eq_iff hc).2 rfl]
        exact symbol_lowered hc

end Lexeme

/-- Blanks and comments are skipped the same way in small letters. -/
theorem Gap.skip_lowered (opened : Option Nat) (n : Nat) (cs : List Char) :
    skip opened n (lowered cs) =
      { skip opened n cs with rest := lowered (skip opened n cs).rest } := by
  have hblank : ∀ c : Char, isBlank c.toLower = isBlank c := toLower_congr (by decide)
  have hclose : ∀ c : Char, c.toLower = '\x7d' ↔ c = '\x7d' := fun c => toLower_eq_iff rfl
  have hopen : ∀ c : Char, c.toLower = '\x7b' ↔ c = '\x7b' := fun c => toLower_eq_iff rfl
  induction cs generalizing opened n with
  | nil => rfl
  | cons c cs ih =>
    cases opened with
    | some start =>
      simp only [lowered_cons, skip, hclose, hopen, utf8Size_toLower, ih]
      split
      · rfl
      · split <;> rfl
    | none =>
      simp only [lowered_cons, skip, hopen, hblank, ih]
      split
      · rfl
      · split <;> rfl

namespace Reading

/-- The reading of the text in small letters. -/
def lowered (r : Reading) : Reading :=
  { r with token := { r.token with kind := r.token.kind.lowered } }

theorem ofLexeme_lowered (errors : List LexicalError) (n : Nat) (l : Lexeme) :
    ofLexeme errors n l.lowered = (ofLexeme errors n l).lowered := by
  simp only [ofLexeme, Lexeme.lowered, size_lowered]
  cases l.outcome with
  | ok k => rfl
  | error f => cases f <;> rfl

theorem next_lowered (n : Nat) (cs : List Char) : next n (MiniPascal.lowered cs) =
    ((next n cs).1.lowered, MiniPascal.lowered (next n cs).2) := by
  simp only [next, Gap.skip_lowered]
  cases (Gap.skip none n cs).rest with
  | nil => rfl
  | cons c rest =>
    simp only [lowered_cons, Lexeme.read_lowered, ofLexeme_lowered]
    rfl

theorem isEnd_lowered (r : Reading) : r.lowered.token.isEnd = r.token.isEnd := by
  obtain ⟨⟨kind, span⟩, errors⟩ := r
  cases kind <;> rfl

/-- A text in small letters is read as the text is, in small letters. -/
theorem all_lowered (n : Nat) (cs : List Char) :
    all n (MiniPascal.lowered cs) = (all n cs).map lowered := by
  induction n, cs using all.induct with
  | case1 n cs step hend =>
    have hend' : (next n (MiniPascal.lowered cs)).1.token.isEnd = true := by
      rw [next_lowered, isEnd_lowered]
      exact hend
    rw [all_of_end hend', all_of_end hend, next_lowered]
    rfl
  | case2 n cs step hend ih =>
    have hnot : (next n cs).1.token.isEnd = false := Bool.eq_false_iff.2 hend
    have hnot' : (next n (MiniPascal.lowered cs)).1.token.isEnd = false := by
      rw [next_lowered, isEnd_lowered]
      exact hnot
    rw [all_of_not_end hnot', all_of_not_end hnot, next_lowered, List.map_cons]
    exact congrArg _ ih

/-- Texts that differ in nothing but the case of letters have the same readings in small letters. -/
theorem map_lowered_readings {source source' : String}
    (h : MiniPascal.lowered source.toList = MiniPascal.lowered source'.toList) :
    (readings source).map lowered = (readings source').map lowered := by
  rw [readings, readings, ← all_lowered, ← all_lowered, h]

end Reading
end MiniPascal
