import MiniPascal.Proofs.Decimal.Overflow
import MiniPascal.Proofs.Scan.Pieces

/-! How a number is scanned. It is an integer if nothing behind its digits makes it a real, it lacks
a digit where one is due, or it is the longest real that the text begins with. -/
namespace MiniPascal

/-- A sign, or none. -/
def OptionalSign (cs : List Char) : Prop := cs = [] ∨ cs = ['+'] ∨ cs = ['-']

/-- A number without a scale factor: digits, and perhaps a point with digits behind it. -/
structure Mantissa where
  whole : List Char
  fraction : Option (List Char)
  whole_digits : Digits whole
  fraction_digits : ∀ ds, fraction = some ds → Digits ds

/-- A scale factor: a mark, perhaps a sign, and digits. -/
structure Scale where
  mark : Char
  sign : List Char
  digits : List Char
  mark_eq : mark = 'e' ∨ mark = 'E'
  sign_eq : OptionalSign sign
  digits_digits : Digits digits

/-- A number as a text can have it. -/
structure Numeral extends Mantissa where
  scale : Option Scale

/-- The point and the digits behind it. -/
def Mantissa.point (m : Mantissa) : List Char := m.fraction.elim [] ('.' :: ·)

def Mantissa.chars (m : Mantissa) : List Char := m.whole ++ m.point

def Scale.chars (s : Scale) : List Char := s.mark :: (s.sign ++ s.digits)

/-- The power of ten. -/
def Scale.exponent (s : Scale) : Int :=
  if s.sign = ['-'] then -Decimal.natOfDigits s.digits else Decimal.natOfDigits s.digits

namespace Numeral

def chars (n : Numeral) : List Char := n.toMantissa.chars ++ n.scale.elim [] Scale.chars

/-- The number that is written. -/
def value (n : Numeral) : ℚ :=
  (Decimal.natOfDigits n.whole +
    n.fraction.elim 0 fun ds => (Decimal.natOfDigits ds : ℚ) / 10 ^ ds.length) *
      10 ^ n.scale.elim 0 Scale.exponent

/-- The decimal that is written. -/
def decimal (n : Numeral) : Decimal :=
  ⟨Decimal.natOfDigits (n.whole ++ n.fraction.getD []),
    n.scale.elim 0 Scale.exponent - (n.fraction.getD []).length⟩

/-- No other number that the text begins with is longer. -/
def Longest (n : Numeral) (cs : List Char) : Prop :=
  n.chars <+: cs ∧ ∀ m : Numeral, m.chars <+: cs → m.chars.length ≤ n.chars.length

theorem value_decimal (n : Numeral) : n.decimal.value = n.value := by
  have hten : (10 : ℚ) ≠ 0 := by norm_num
  cases hf : n.fraction with
  | none => simp [decimal, Decimal.value, value, hf]
  | some ds =>
    simp only [decimal, Decimal.value, value, hf, Option.getD_some, Option.elim_some,
      Decimal.natOfDigits_append, zpow_sub₀ hten, zpow_natCast]
    push_cast
    field_simp

end Numeral

/-- No digit is next. -/
def NoDigit (rest : List Char) : Prop := ∀ c ∈ rest.head?, c.isDigit = false

/-- A point is next that is not the first of two. -/
def Pointed (rest : List Char) : Prop := ∃ cs, rest = '.' :: cs ∧ cs.head? ≠ some '.'

/-- No mark of a scale factor is next. -/
def NoMark (rest : List Char) : Prop := ∀ c ∈ rest.head?, c ≠ 'e' ∧ c ≠ 'E'

/-- What stands behind the digits of an integer. -/
structure EndsInteger (rest : List Char) : Prop where
  noDigit : NoDigit rest
  noMark : NoMark rest
  notPointed : ¬ Pointed rest

/-- A number that lacks a digit: its characters up to there, and what stands there instead. -/
inductive Unfinished : List Char → List Char → Prop
  | point {whole rest : List Char} (hw : Digits whole) (hp : rest.head? ≠ some '.')
    (hd : NoDigit rest) : Unfinished (whole ++ ['.']) rest
  | scale (m : Mantissa) {mark : Char} {sign rest : List Char} (hm : mark = 'e' ∨ mark = 'E')
    (hs : OptionalSign sign) (hn : sign = [] → ∀ c ∈ rest.head?, c ≠ '+' ∧ c ≠ '-')
    (hd : NoDigit rest) : Unfinished (m.chars ++ mark :: sign) rest

namespace Lexeme

variable {mark : Char} {cs ds piece r rest sign : List Char} {m : Mantissa}

theorem span_digits (hd : ∀ c ∈ ds, c.isDigit = true) (hr : NoDigit rest) :
    (ds ++ rest).takeWhile Char.isDigit = ds ∧ (ds ++ rest).dropWhile Char.isDigit = rest := by
  rw [List.takeWhile_append_of_pos hd, List.dropWhile_append_of_pos hd]
  cases rest with
  | nil => simp
  | cons c rest => simp [hr c rfl]

theorem digits_takeWhile : ∀ c ∈ cs.takeWhile Char.isDigit, c.isDigit = true :=
  List.all_eq_true.1 List.all_takeWhile

theorem noDigit_dropWhile : NoDigit (cs.dropWhile Char.isDigit) := by
  intro c hc
  have hstop := List.head?_dropWhile_not Char.isDigit cs
  rw [Option.mem_def.1 hc] at hstop
  exact hstop

theorem noDigit_cons {c : Char} (h : c.isDigit = false) : NoDigit (c :: cs) := by
  intro d hd
  cases hd
  exact h

theorem noDigit_of_takeWhile (h : cs.takeWhile Char.isDigit = []) : NoDigit cs := by
  have hsplit := List.takeWhile_append_dropWhile (p := Char.isDigit) (l := cs)
  rw [h, List.nil_append] at hsplit
  rw [← hsplit]
  exact noDigit_dropWhile

theorem isDigit_head (h : Digits ds) : ∀ c ∈ (ds ++ rest).head?, c.isDigit = true := by
  obtain ⟨d, ds, rfl⟩ := List.exists_cons_of_ne_nil h.1
  intro c hc
  cases hc
  exact h.2 d List.mem_cons_self

theorem signOf_optional (cs : List Char) : OptionalSign (signOf cs) := by
  cases cs with
  | nil => exact .inl rfl
  | cons c cs =>
    by_cases hc : isSign c
    · have hsign : signOf (c :: cs) = [c] := by simp [signOf, hc]
      simp only [isSign, Bool.or_eq_true, beq_iff_eq] at hc
      rw [hsign]
      rcases hc with rfl | rfl
      · exact .inr (.inl rfl)
      · exact .inr (.inr rfl)
    · exact .inl (by simp [signOf, hc])

theorem signOf_eq_nil_iff : signOf cs = [] ↔ ∀ c ∈ cs.head?, c ≠ '+' ∧ c ≠ '-' := by
  cases cs with
  | nil => simp [signOf]
  | cons c cs => simp [signOf, isSign]

theorem signOf_append_of (hs : OptionalSign sign)
    (hn : sign = [] → ∀ c ∈ rest.head?, c ≠ '+' ∧ c ≠ '-') : signOf (sign ++ rest) = sign := by
  rcases hs with rfl | rfl | rfl
  · exact signOf_eq_nil_iff.2 (hn rfl)
  · rfl
  · rfl

/-- A scale factor of which a digit may be missing. -/
theorem scale?_append (hm : mark = 'e' ∨ mark = 'E') (hs : OptionalSign sign)
    (hn : sign = [] → ∀ c ∈ (ds ++ rest).head?, c ≠ '+' ∧ c ≠ '-')
    (hd : ∀ c ∈ ds, c.isDigit = true) (hr : NoDigit rest) :
    scale? (mark :: (sign ++ (ds ++ rest))) = some (scaleOf mark sign ds rest) := by
  have hmark : isScaleMark mark = true := by rcases hm with rfl | rfl <;> rfl
  obtain ⟨htake, hdrop⟩ := span_digits hd hr
  rw [scale?_cons, if_pos hmark, signOf_append_of hs hn, List.drop_left, htake, hdrop]

theorem scale?_chars_append (s : Scale) (hr : NoDigit rest) :
    scale? (s.chars ++ rest) = some (s.chars, some s.exponent, rest) := by
  have hn : s.sign = [] → ∀ c ∈ (s.digits ++ rest).head?, c ≠ '+' ∧ c ≠ '-' := by
    intro _ c hc
    have hdigit := isDigit_head s.digits_digits c hc
    constructor
    · rintro rfl
      cases hdigit
    · rintro rfl
      cases hdigit
  have hscale := scale?_append s.mark_eq s.sign_eq hn s.digits_digits.2 hr
  rw [Scale.chars, List.cons_append, List.append_assoc, hscale, scaleOf,
    if_neg s.digits_digits.1]
  rfl

theorem scale?_missing (hm : mark = 'e' ∨ mark = 'E') (hs : OptionalSign sign)
    (hn : sign = [] → ∀ c ∈ rest.head?, c ≠ '+' ∧ c ≠ '-') (hr : NoDigit rest) :
    scale? (mark :: sign ++ rest) = some (mark :: sign, none, rest) := by
  have hscale := @scale?_append mark [] rest sign hm hs hn (by simp) hr
  simpa [scaleOf] using hscale

theorem scale?_of_noMark (h : NoMark rest) : scale? rest = none := by
  cases rest with
  | nil => rfl
  | cons c rest =>
    have hc := h c rfl
    rw [scale?_cons, if_neg (by simp [isScaleMark, hc])]

/-- A text begins with a scale factor, or with one that lacks its digits, or with neither. -/
theorem scale_cases (r : List Char) : NoMark r ∨
    (∃ mark sign rest, r = mark :: sign ++ rest ∧ (mark = 'e' ∨ mark = 'E') ∧ OptionalSign sign ∧
      (sign = [] → ∀ c ∈ rest.head?, c ≠ '+' ∧ c ≠ '-') ∧ NoDigit rest) ∨
    ∃ (s : Scale) (rest : List Char), r = s.chars ++ rest ∧ NoDigit rest := by
  cases r with
  | nil => exact .inl (by simp [NoMark])
  | cons mark cs =>
    by_cases hm : mark = 'e' ∨ mark = 'E'
    · have hsplit := signOf_append cs
      generalize cs.drop (signOf cs).length = us at hsplit
      by_cases hnone : us.takeWhile Char.isDigit = []
      · refine .inr (.inl ⟨mark, signOf cs, us, by rw [List.cons_append, hsplit], hm,
          signOf_optional cs, fun hnil => ?_, ?_⟩)
        · rw [hnil, List.nil_append] at hsplit
          rw [hsplit]
          exact signOf_eq_nil_iff.1 hnil
        · exact noDigit_of_takeWhile hnone
      · refine .inr (.inr ⟨⟨mark, signOf cs, us.takeWhile Char.isDigit, hm, signOf_optional cs,
          hnone, digits_takeWhile⟩, us.dropWhile Char.isDigit, ?_, noDigit_dropWhile⟩)
        simp [Scale.chars, hsplit]
    · refine .inl fun c hc => ?_
      cases hc
      exact not_or.1 hm

/-- What stands behind a number that has no scale factor yet. -/
def Stops (m : Mantissa) (r : List Char) : Prop := NoDigit r ∧ (m.fraction = none → ¬ Pointed r)

theorem number_mantissa (hr : Stops m r) : number (m.chars ++ r) = scaled m.whole m.point r := by
  cases hf : m.fraction with
  | none =>
    obtain ⟨htake, hdrop⟩ := span_digits m.whole_digits.2 hr.1
    have hnone := hr.2 hf
    rw [Mantissa.chars, Mantissa.point, hf, Option.elim_none, List.append_nil, number_eq, htake,
      hdrop]
    cases r with
    | nil => rfl
    | cons c r => exact numberEnd_other fun hc => hnone ⟨r, by rw [hc.1], hc.2⟩
  | some ds =>
    have hds := m.fraction_digits ds hf
    obtain ⟨hwhole, hbehind⟩ :=
      span_digits m.whole_digits.2 (@noDigit_cons (ds ++ r) '.' rfl)
    obtain ⟨htake, hdrop⟩ := span_digits hds.2 hr.1
    have hne : (ds ++ r).head? ≠ some '.' := fun hdot => by
      cases isDigit_head hds '.' hdot
    rw [Mantissa.chars, Mantissa.point, hf, Option.elim_some, List.append_assoc, List.cons_append,
      number_eq, hwhole, hbehind, numberEnd_point hne, htake, hdrop, if_neg hds.1]

/-- A text that begins with a digit begins with a number that lacks a digit behind its point, or
with one that can have a scale factor. -/
theorem mantissa_cases (h : ∃ c ∈ cs.head?, c.isDigit = true) :
    (∃ piece rest, cs = piece ++ rest ∧ Unfinished piece rest) ∨
    ∃ (m : Mantissa) (r : List Char), cs = m.chars ++ r ∧ Stops m r := by
  have hsplit := List.takeWhile_append_dropWhile (p := Char.isDigit) (l := cs)
  have hwhole : Digits (cs.takeWhile Char.isDigit) := by
    obtain ⟨c, hc, hdigit⟩ := h
    obtain ⟨us, rfl⟩ := List.head?_eq_some_iff.1 hc
    exact ⟨by simp [hdigit], digits_takeWhile⟩
  have hstop : NoDigit (cs.dropWhile Char.isDigit) := noDigit_dropWhile
  generalize cs.takeWhile Char.isDigit = whole, cs.dropWhile Char.isDigit = rest at *
  subst hsplit
  by_cases hp : Pointed rest
  · obtain ⟨ys, rfl, hdot⟩ := hp
    by_cases hnone : ys.takeWhile Char.isDigit = []
    · exact .inl ⟨whole ++ ['.'], ys, by simp, .point hwhole hdot (noDigit_of_takeWhile hnone)⟩
    · refine .inr ⟨⟨whole, some (ys.takeWhile Char.isDigit), hwhole, ?_⟩,
        ys.dropWhile Char.isDigit, by simp [Mantissa.chars, Mantissa.point], noDigit_dropWhile, ?_⟩
      · rintro ds hds
        cases hds
        exact ⟨hnone, digits_takeWhile⟩
      · exact fun hf => nomatch hf
  · exact .inr ⟨⟨whole, none, hwhole, fun ds hds => nomatch hds⟩, rest,
      by simp [Mantissa.chars, Mantissa.point], hstop, fun _ => hp⟩

theorem number_of_endsInteger (hd : Digits ds) (hr : EndsInteger rest) :
    number (ds ++ rest) = integer ds rest := by
  have hstop : Stops ⟨ds, none, hd, fun us hus => nomatch hus⟩ rest :=
    ⟨hr.noDigit, fun _ => hr.notPointed⟩
  have hnumber := number_mantissa hstop
  rw [Mantissa.chars, Mantissa.point, Option.elim_none, List.append_nil] at hnumber
  rw [hnumber, scaled, scale?_of_noMark hr.noMark]
  rfl

/-- A mark of a scale factor ends what is before it. -/
theorem stops_mark (hm : mark = 'e' ∨ mark = 'E') : Stops m (mark :: cs) := by
  refine ⟨noDigit_cons (by rcases hm with rfl | rfl <;> rfl), ?_⟩
  rintro - ⟨us, hus, -⟩
  obtain ⟨rfl, -⟩ := List.cons.inj hus
  rcases hm with h | h <;> cases h

theorem number_of_unfinished (h : Unfinished piece rest) :
    number (piece ++ rest) = ⟨.error .malformedNumber, piece, rest⟩ := by
  cases h with
  | @point whole _ hw hp hd =>
    obtain ⟨htake, hdrop⟩ := span_digits hw.2 (@noDigit_cons rest '.' rfl)
    obtain ⟨hnone, -⟩ := @span_digits [] rest (by simp) hd
    rw [List.append_assoc, List.singleton_append, number_eq, htake, hdrop, numberEnd_point hp]
    exact if_pos hnone
  | @scale m mark sign _ hm hs hn hd =>
    rw [List.append_assoc, List.cons_append, number_mantissa (stops_mark hm), ← List.cons_append,
      scaled, scale?_missing hm hs hn hd]
    rfl

theorem point_drop (m : Mantissa) : m.point.drop 1 = m.fraction.getD [] := by
  rw [Mantissa.point]
  cases m.fraction <;> rfl

theorem number_of_scale {n : Numeral} {s : Scale} (hs : n.scale = some s) (hr : NoDigit rest) :
    number (n.chars ++ rest) = real n.decimal n.chars rest := by
  have hstop : Stops n.toMantissa (s.chars ++ rest) := stops_mark s.mark_eq
  rw [Numeral.chars, hs, Option.elim_some, List.append_assoc, number_mantissa hstop, scaled,
    scale?_chars_append s hr]
  simp only [point_drop, Numeral.decimal, hs, Option.elim_some]
  rfl

theorem number_of_fraction {n : Numeral} (hs : n.scale = none) (hf : n.fraction ≠ none)
    (hr : NoDigit rest) (hm : NoMark rest) :
    number (n.chars ++ rest) = real n.decimal n.chars rest := by
  have hstop : Stops n.toMantissa rest := ⟨hr, fun hnone => absurd hnone hf⟩
  have hpoint : n.point ≠ [] := by
    obtain ⟨ds, hds⟩ := Option.ne_none_iff_exists'.1 hf
    simp [Mantissa.point, hds]
  rw [Numeral.chars, hs, Option.elim_none, List.append_nil, number_mantissa hstop, scaled,
    scale?_of_noMark hm, if_neg hpoint]
  simp only [point_drop, Numeral.decimal, hs, Option.elim_none, zero_sub]
  rfl

/-- What a text that begins with a digit begins with. -/
theorem number_cases (h : ∃ c ∈ cs.head?, c.isDigit = true) :
    (∃ ds rest, cs = ds ++ rest ∧ Digits ds ∧ EndsInteger rest) ∨
    (∃ piece rest, cs = piece ++ rest ∧ Unfinished piece rest) ∨
    ∃ (n : Numeral) (rest : List Char), cs = n.chars ++ rest ∧
      number cs = real n.decimal n.chars rest := by
  obtain hpoint | ⟨m, r, rfl, hr⟩ := mantissa_cases h
  · exact .inr (.inl hpoint)
  · obtain hmark | ⟨mark, sign, rest, rfl, hm, hs, hn, hd⟩ | ⟨s, rest, rfl, hd⟩ := scale_cases r
    · cases hf : m.fraction with
      | none =>
        refine .inl ⟨m.whole, r, by simp [Mantissa.chars, Mantissa.point, hf], m.whole_digits, ?_⟩
        exact ⟨hr.1, hmark, hr.2 hf⟩
      | some ds =>
        have hchars : m.chars = (Numeral.mk m none).chars := (List.append_nil _).symm
        have hfraction : (Numeral.mk m none).fraction ≠ none := by simp [hf]
        refine .inr (.inr ⟨⟨m, none⟩, r, by rw [hchars], ?_⟩)
        rw [hchars]
        exact number_of_fraction rfl hfraction hr.1 hmark
    · exact .inr (.inl ⟨m.chars ++ mark :: sign, rest, by simp, .scale m hm hs hn hd⟩)
    · have hchars : m.chars ++ (s.chars ++ rest) = (Numeral.mk m (some s)).chars ++ rest :=
        (List.append_assoc _ _ _).symm
      refine .inr (.inr ⟨⟨m, some s⟩, rest, hchars, ?_⟩)
      rw [hchars]
      exact number_of_scale rfl hd

/-- What is read begins with what is read before a scale factor. -/
theorem prefix_scaled {whole fraction : List Char} :
    whole ++ fraction <+: (scaled whole fraction rest).chars := by
  unfold scaled
  split
  · split
    · next hf =>
      rw [hf, List.append_nil]
      exact List.prefix_refl _
    · exact List.prefix_refl _
  · exact List.prefix_append _ _
  · exact List.prefix_append _ _

theorem prefix_numberEnd {whole : List Char} : whole <+: (numberEnd whole rest).chars := by
  unfold numberEnd
  split
  · exact (List.prefix_append _ _).trans prefix_scaled
  · split
    · dsimp only
      split
      · exact List.prefix_append _ _
      · exact (List.prefix_append _ _).trans prefix_scaled
    · exact (List.prefix_append _ _).trans prefix_scaled

/-- Digits go on as far as they can. -/
theorem exists_digits (hd : Digits ds) (r : List Char) : ∃ us rest, ds ++ r = ds ++ us ++ rest ∧
    Digits (ds ++ us) ∧ NoDigit rest := by
  refine ⟨r.takeWhile Char.isDigit, r.dropWhile Char.isDigit, by simp, ⟨by simp [hd.1], ?_⟩,
    noDigit_dropWhile⟩
  intro c hc
  rcases List.mem_append.1 hc with hc | hc
  · exact hd.2 c hc
  · exact digits_takeWhile c hc

/-- A number at the beginning of a text is read, or a longer piece is. -/
theorem length_le_number (n : Numeral) (r : List Char) :
    n.chars.length ≤ (number (n.chars ++ r)).chars.length := by
  obtain ⟨m, scale⟩ := n
  cases scale with
  | some s =>
    obtain ⟨us, rest, hsplit, hdigits, hstop⟩ := exists_digits s.digits_digits r
    let long : Numeral := ⟨m, some { s with digits := s.digits ++ us, digits_digits := hdigits }⟩
    have htext : (Numeral.mk m (some s)).chars ++ r = long.chars ++ rest := by
      simpa [Numeral.chars, Scale.chars, long] using hsplit
    have hchars : long.chars = (Numeral.mk m (some s)).chars ++ us := by
      simp [Numeral.chars, Scale.chars, long]
    rw [htext, number_of_scale rfl hstop]
    show _ ≤ long.chars.length
    rw [hchars, List.length_append]
    exact Nat.le_add_right _ _
  | none =>
    rw [Numeral.chars, Option.elim_none, List.append_nil]
    cases hf : m.fraction with
    | some ds =>
      obtain ⟨us, rest, hsplit, hdigits, hstop⟩ := exists_digits (m.fraction_digits ds hf) r
      let long : Mantissa := ⟨m.whole, some (ds ++ us), m.whole_digits, fun _ h => by
        cases h
        exact hdigits⟩
      have htext : m.chars ++ r = long.chars ++ rest := by
        simpa [Mantissa.chars, Mantissa.point, hf, long] using hsplit
      have hchars : long.chars = m.chars ++ us := by
        simp [Mantissa.chars, Mantissa.point, hf, long]
      have hprefix : long.chars <+: (number (m.chars ++ r)).chars := by
        rw [htext, number_mantissa ⟨hstop, fun h => absurd h (by simp [long])⟩]
        exact prefix_scaled
      rw [hchars] at hprefix
      exact ((List.prefix_append _ _).trans hprefix).length_le
    | none =>
      have hprefix : m.whole <+: (number (m.whole ++ r)).chars := by
        rw [number_eq, List.takeWhile_append_of_pos m.whole_digits.2]
        exact (List.prefix_append _ _).trans prefix_numberEnd
      rw [Mantissa.chars, Mantissa.point, hf, Option.elim_none, List.append_nil]
      exact hprefix.length_le

theorem longest_of_number {n : Numeral} (hsplit : cs = n.chars ++ rest)
    (h : (number cs).chars = n.chars) : n.Longest cs := by
  refine ⟨⟨rest, hsplit.symm⟩, ?_⟩
  rintro m ⟨r, hr⟩
  have hle := length_le_number m r
  rwa [hr, h] at hle

theorem read_digit {c : Char} (h : c.isDigit = true) : read c cs = number (c :: cs) := by
  have hquote : c ≠ quote := by
    rintro rfl
    cases h
  rw [read, if_neg hquote, if_pos h]

end Lexeme

namespace Scanner

/-- The gap before the next token. -/
def gap (s : Scanner) : Gap := Gap.skip none s.offset s.rest

/-- The next token is a piece of text of some kind, with no errors in it but the given ones, and
what is left to read is what stands behind it. -/
structure Takes (s : Scanner) (piece : List Char) (kind : TokenKind) (faults : List LexicalFault) :
    Prop where
  token : s.nextToken.1 = ⟨kind, ⟨s.gap.offset, Text.size piece⟩⟩
  errors : s.nextToken.2.errors =
    s.errors ++ s.gap.errors ++ faults.map (⟨·, ⟨s.gap.offset, Text.size piece⟩⟩)
  offset : s.nextToken.2.offset = s.gap.offset + Text.size piece
  rest : s.gap.rest = piece ++ s.nextToken.2.rest

/-- How a number is read. -/
structure TakesNumber (s : Scanner) : Prop where
  /-- An integer, if it fits into 31 bits. -/
  integer : ∀ digits rest, s.gap.rest = digits ++ rest → Digits digits → EndsInteger rest →
    (Decimal.natOfDigits digits ≤ 0x7fffffff → ∃ v : Int32,
      v.toInt = Decimal.natOfDigits digits ∧ s.Takes digits (.integer v) []) ∧
    (0x7fffffff < Decimal.natOfDigits digits → s.Takes digits .malformed [.numberOutOfRange])
  /-- A number that lacks a digit. -/
  unfinished : ∀ piece rest, s.gap.rest = piece ++ rest → Unfinished piece rest →
    s.Takes piece .malformed [.malformedNumber]
  /-- Any other is the longest real there is, if there is a real large enough. -/
  real : (∀ digits rest, s.gap.rest = digits ++ rest → Digits digits → ¬ EndsInteger rest) →
    (∀ piece rest, s.gap.rest = piece ++ rest → ¬ Unfinished piece rest) →
    ∃ (n : Numeral) (d : Decimal), n.Longest s.gap.rest ∧ d.value = n.value ∧
      (d.toFloat.isInf = false → s.Takes n.chars (.real d.toFloat) []) ∧
      (d.toFloat.isInf = true → s.Takes n.chars .malformed [.numberOutOfRange])

variable {s : Scanner} {piece rest : List Char} {k : TokenKind} {f : LexicalFault}

theorem takes_of_reading {l : Lexeme} {faults : List LexicalFault}
    (h : ∃ c ∈ s.gap.rest.head?, c.isDigit = true) (hn : Lexeme.number s.gap.rest = l)
    (hr : Reading.ofLexeme s.gap.errors s.gap.offset l =
      ⟨⟨k, ⟨s.gap.offset, Text.size l.chars⟩⟩, s.gap.errors ++
        faults.map (⟨·, ⟨s.gap.offset, Text.size l.chars⟩⟩)⟩) : s.Takes l.chars k faults := by
  obtain ⟨c, hc, hdigit⟩ := h
  obtain ⟨us, hus⟩ := List.head?_eq_some_iff.1 hc
  have hread : Lexeme.read c us = l := by rw [Lexeme.read_digit hdigit, ← hus, hn]
  have hnext := Reading.next_of_cons hus
  rw [hread] at hnext
  have hnext : Reading.next s.offset s.rest = (_, l.rest) := hnext.trans (congrArg (·, l.rest) hr)
  have hsplit := Lexeme.number_chars s.gap.rest
  rw [hn] at hsplit
  refine ⟨?_, ?_, ?_, ?_⟩
  · rw [nextToken, hnext]
  · rw [nextToken, hnext, List.append_assoc]
  · rw [nextToken, hnext]
    rfl
  · rw [nextToken, hnext]
    exact hsplit.symm

theorem takes_of_ok (h : ∃ c ∈ s.gap.rest.head?, c.isDigit = true)
    (hn : Lexeme.number s.gap.rest = ⟨.ok k, piece, rest⟩) : s.Takes piece k [] :=
  takes_of_reading h hn (by simp [Reading.ofLexeme])

theorem takes_of_error (h : ∃ c ∈ s.gap.rest.head?, c.isDigit = true)
    (hn : Lexeme.number s.gap.rest = ⟨.error f, piece, rest⟩) : s.Takes piece f.tokenKind [f] :=
  takes_of_reading h hn rfl

/-- Where a digit is next, a number is read. -/
theorem takesNumber_of_digit (h : ∃ c ∈ s.gap.rest.head?, c.isDigit = true) : s.TakesNumber where
  integer digits rest hsplit hd hr := by
    have hnumber : Lexeme.number s.gap.rest = Lexeme.integer digits rest := by
      rw [hsplit, Lexeme.number_of_endsInteger hd hr]
    constructor
    · intro hfits
      have hlt : Decimal.natOfDigits digits < 0x80000000 := by omega
      rw [Lexeme.integer, if_pos hlt] at hnumber
      exact ⟨_, Int32.toInt_ofNat_of_lt hlt, takes_of_ok h hnumber⟩
    · intro hlarge
      rw [Lexeme.integer, if_neg (by omega)] at hnumber
      exact takes_of_error h hnumber
  unfinished piece rest hsplit hu := by
    have hnumber := Lexeme.number_of_unfinished hu
    rw [← hsplit] at hnumber
    exact takes_of_error h hnumber
  real hinteger hunfinished := by
    obtain ⟨ds, rest, hsplit, hd, hr⟩ | ⟨piece, rest, hsplit, hu⟩ | ⟨n, rest, hsplit, hnumber⟩ :=
      Lexeme.number_cases h
    · exact absurd hr (hinteger ds rest hsplit hd)
    · exact absurd hu (hunfinished piece rest hsplit)
    · have hlongest := Lexeme.longest_of_number hsplit (by rw [hnumber]; rfl)
      refine ⟨n, n.decimal, hlongest, n.value_decimal, fun hsmall => ?_, fun hlarge => ?_⟩
      · have hfinite : n.decimal.toFloat.isFinite = true := by
          rw [Decimal.isFinite_toFloat, hsmall]
          rfl
        rw [Lexeme.real, if_pos hfinite] at hnumber
        exact takes_of_ok h hnumber
      · have hinfinite : ¬ n.decimal.toFloat.isFinite = true := by
          rw [Decimal.isFinite_toFloat, hlarge]
          decide
        rw [Lexeme.real, if_neg hinfinite] at hnumber
        exact takes_of_error h hnumber

/-- Leading zeros, and a point that is the first of two. -/
theorem takesNumber_of_digit_range :
    (∃ c ∈ (ofString " 007..9").gap.rest.head?, c.isDigit = true) ∧
      (ofString " 007..9").Takes ['0', '0', '7'] (.integer 7) [] := by
  have hdigit : ∃ c ∈ (ofString " 007..9").gap.rest.head?, c.isDigit = true :=
    ⟨'0', by decide +kernel, rfl⟩
  have hdigits : Digits ['0', '0', '7'] := ⟨by simp, by simp⟩
  have hends : EndsInteger ['.', '.', '9'] := by
    refine ⟨by simp [NoDigit], by simp [NoMark], ?_⟩
    rintro ⟨cs, hcs, hdot⟩
    obtain ⟨-, rfl⟩ := List.cons.inj hcs
    exact hdot rfl
  have hsplit : (ofString " 007..9").gap.rest = ['0', '0', '7'] ++ ['.', '.', '9'] := by
    decide +kernel
  obtain ⟨v, hv, htakes⟩ := ((takesNumber_of_digit hdigit).integer _ _ hsplit hdigits hends).1
    (by decide +kernel)
  have hseven : v = 7 := Int32.toInt_inj.1 hv
  exact ⟨hdigit, hseven ▸ htakes⟩

end Scanner
end MiniPascal
