import MiniPascal.Proofs.Reading.Constants
import MiniPascal.Proofs.Scan.Case
import MiniPascal.Proofs.Scan.Numerals
import MiniPascal.Proofs.Text.Numbers

/-! Constants in a listing. A real is written as a number that a program text can have, which reads
as its magnitude and cannot be taken for an integer. So the text of a constant tells which it is. -/
namespace MiniPascal

/-- The scale factor of a power of ten, which can show a plus sign. -/
def Scale.ofInt (plus : Bool) (e : Int) : Scale where
  mark := 'e'
  sign := if e < 0 then ['-'] else if plus then ['+'] else []
  digits := Nat.toDigits 10 e.natAbs
  mark_eq := .inl rfl
  sign_eq := by
    split
    · exact .inr (.inr rfl)
    · split
      · exact .inr (.inl rfl)
      · exact .inl rfl
  digits_digits := Json.digits_toDigits _

theorem Scale.exponent_ofInt (plus : Bool) (e : Int) : (ofInt plus e).exponent = e := by
  by_cases hneg : e < 0
  · simp [exponent, ofInt, hneg, abs_of_neg hneg]
  · cases plus <;> simp [exponent, ofInt, hneg, abs_of_nonneg (not_lt.1 hneg)]

/-- Something behind its first digits makes the number a real. -/
def Numeral.IsReal (n : Numeral) : Prop := n.fraction ≠ none ∨ n.scale ≠ none

/-- The characters are a real number of a program text, and it stands for the decimal. -/
def SpellsReal (cs : List Char) (d : Decimal) : Prop :=
  ∃ n : Numeral, n.IsReal ∧ cs = n.chars ∧ n.decimal.value = d.value

section
variable {cs : List Char} {d : Decimal} {n : Numeral}

/-- A real number of a program text is scanned as a whole. -/
theorem Numeral.IsReal.number (h : n.IsReal) :
    Lexeme.number n.chars = Lexeme.real n.decimal n.chars [] := by
  have hdigit : NoDigit [] := by simp [NoDigit]
  rw [← List.append_nil n.chars]
  cases hs : n.scale with
  | some s => rw [Lexeme.number_of_scale hs hdigit, List.append_nil]
  | none =>
    have hf : n.fraction ≠ none := h.resolve_right (not_not.2 hs)
    rw [Lexeme.number_of_fraction hs hf hdigit (by simp [NoMark]), List.append_nil]

theorem spellsReal_of_shows (h : Json.Shows cs d) : SpellsReal cs d := by
  obtain ⟨⟨whole, fraction, exponent⟩, hp, rfl, hreal, hvalue⟩ := h
  refine ⟨⟨⟨whole, fraction, hp.whole, hp.fraction⟩, exponent.map (Scale.ofInt true)⟩, ?_, ?_, ?_⟩
  · simpa [Numeral.IsReal, ← Option.isSome_iff_ne_none] using hreal
  · have hpoint : Json.Parts.fractionText fraction = fraction.elim [] ('.' :: ·) := by
      cases fraction <;> rfl
    have hscale : Json.Parts.exponentText exponent =
        (exponent.map (Scale.ofInt true)).elim [] Scale.chars := by
      cases exponent with
      | none => rfl
      | some e =>
        simp only [Json.Parts.exponentText, Option.map_some, Option.elim_some, Scale.chars,
          Scale.ofInt, if_true]
        split <;> rfl
    simp [Json.Parts.text, Numeral.chars, Mantissa.chars, Mantissa.point, hpoint, hscale]
  · refine Eq.trans (congrArg Decimal.value ?_) hvalue
    cases exponent with
    | none => rfl
    | some e => simp [Numeral.decimal, Json.Parts.decimal, Scale.exponent_ofInt]

theorem spellsReal_positional (h : 0 < d.digits ∨ d = ⟨0, 0⟩) :
    SpellsReal (RealNotation.literal.positionalText d).toList d :=
  spellsReal_of_shows (Json.shows_positional h)

theorem spellsReal_scientific (d : Decimal) :
    SpellsReal (RealNotation.literal.scientificText d).toList d := by
  have hdigits := Json.digits_toDigits d.digits
  have hvalue := Decimal.natOfDigits_toDigits d.digits
  unfold RealNotation.scientificText
  dsimp only
  generalize Nat.toDigits 10 d.digits = digits at *
  generalize hpower : (digits.length : Int) + d.exponent - 1 = power
  have htext : ∀ mantissa : List Char, (String.ofList mantissa ++ "e" ++
      (if power < 0 then "-" else if RealNotation.literal.plus then "+" else "") ++
      toString power.natAbs).toList = mantissa ++ (Scale.ofInt false power).chars := by
    intro mantissa
    have hsign : (if power < 0 then "-" else if RealNotation.literal.plus then "+" else "").toList =
        (Scale.ofInt false power).sign := by
      by_cases hneg : power < 0 <;> simp [Scale.ofInt, hneg, RealNotation.literal]
    simp only [String.toList_append, String.toList_ofList, hsign, Nat.toString_eq_ofList_toDigits]
    simp [Scale.chars, Scale.ofInt]
  cases digits with
  | nil => exact absurd rfl hdigits.1
  | cons c cs =>
    have hwhole : Digits [c] := ⟨by simp, by simpa using hdigits.2 c (by simp)⟩
    cases cs with
    | nil =>
      refine ⟨⟨⟨[c], none, hwhole, by simp⟩, some (.ofInt false power)⟩, .inr (by simp), ?_, ?_⟩
      · rw [htext]
        simp [Numeral.chars, Mantissa.chars, Mantissa.point]
      · apply congrArg
        simp only [Numeral.decimal, Option.getD_none, List.append_nil, hvalue, Option.elim_some,
          Scale.exponent_ofInt]
        congr 1
        simp at hpower ⊢
        omega
    | cons c' cs =>
      have hfraction : ∀ ds, some (c' :: cs) = some ds → Digits ds := by
        rintro ds ⟨⟩
        exact ⟨by simp, fun x hx => hdigits.2 x (List.mem_cons_of_mem _ hx)⟩
      refine ⟨⟨⟨[c], some (c' :: cs), hwhole, hfraction⟩, some (.ofInt false power)⟩,
        .inr (by simp), ?_, ?_⟩
      · rw [htext]
        simp [Numeral.chars, Mantissa.chars, Mantissa.point]
      · apply congrArg
        simp only [Numeral.decimal, Option.getD_some, List.singleton_append, hvalue,
          Option.elim_some, Scale.exponent_ofInt]
        congr 1
        simp at hpower ⊢
        omega

theorem spellsReal_decimalText (d : Decimal) :
    SpellsReal (RealNotation.literal.decimalText d).toList d := by
  unfold RealNotation.decimalText
  split
  case isTrue h0 =>
    obtain ⟨n, hn, htext, hvalue⟩ := @spellsReal_positional ⟨0, 0⟩ (.inr rfl)
    refine ⟨n, hn, htext, hvalue.trans ?_⟩
    simp [Decimal.value, h0]
  case isFalse h0 =>
    split
    case isTrue => exact spellsReal_positional (.inl (by omega))
    case isFalse => exact spellsReal_scientific d

/-- A finite real is written as its sign and a number that reads as its magnitude. -/
theorem exists_numeral {x : Float} (h : x.isFinite) : ∃ n : Numeral, n.IsReal ∧
    (RealNotation.literal.text x).toList =
      (if RealNotation.signed x then ['-'] else []) ++ n.chars ∧
    n.decimal.toFloat = x.abs := by
  obtain ⟨n, hn, htext, hvalue⟩ := spellsReal_decimalText (Decimal.shortest .up x)
  refine ⟨n, hn, ?_, ?_⟩
  · obtain ⟨hnan, hinf⟩ := isFinite_iff.1 h
    rw [← htext, RealNotation.text, hnan, hinf]
    simp only [Bool.false_eq_true, if_false]
    split
    · rw [String.toList_append]
      rfl
    · rfl
  · rw [Decimal.toFloat_eq_of_value hvalue, Decimal.toFloat_shortest .up h]

end

/-- What begins with a digit. -/
def DigitFirst (cs : List Char) : Prop := ∃ c us, cs = c :: us ∧ c.isDigit = true

/-- The type that a constant in a listing seems to have. -/
def shownTy (cs : List Char) : Ty :=
  if cs.head? = some Lexeme.quote then .string
  else if cs.head?.any Char.isAlpha then .boolean
  else if cs.all fun c => c.isDigit || c == '-' then .integer
  else .real

section
variable {cs ds : List Char} {a b : Bool}

theorem Digits.digitFirst (h : Digits ds) : DigitFirst (ds ++ cs) := by
  obtain ⟨c, us, rfl⟩ := List.exists_cons_of_ne_nil h.1
  exact ⟨c, us ++ cs, rfl, h.2 c List.mem_cons_self⟩

theorem Numeral.digitFirst (n : Numeral) : DigitFirst n.chars := by
  rw [chars, Mantissa.chars, List.append_assoc]
  exact n.whole_digits.digitFirst

/-- A sign shows. -/
theorem sign_append_inj (hc : DigitFirst cs) (hd : DigitFirst ds)
    (h : (if a then ['-'] else []) ++ cs = (if b then ['-'] else []) ++ ds) : a = b ∧ cs = ds := by
  obtain ⟨c, us, rfl, hc⟩ := hc
  obtain ⟨d, vs, rfl, hd⟩ := hd
  cases a <;> cases b
  · exact ⟨rfl, h⟩
  · obtain ⟨rfl, -⟩ := List.cons.inj h
    cases hc
  · obtain ⟨rfl, -⟩ := List.cons.inj h
    cases hd
  · exact ⟨rfl, (List.cons.inj h).2⟩

theorem shownTy_signed (hc : DigitFirst cs) : shownTy ((if a then ['-'] else []) ++ cs) =
    if cs.all fun c => c.isDigit || c == '-' then .integer else .real := by
  obtain ⟨c, us, rfl, hc⟩ := hc
  have hquote : c ≠ Lexeme.quote := by
    rintro rfl
    cases hc
  have halpha : c.isAlpha = false := not_isAlpha_of_isDigit hc
  have hminus : '-' ≠ Lexeme.quote ∧ '-'.isAlpha = false := by decide
  cases a <;> simp [shownTy, hquote, halpha, hminus]

theorem digitFirst_toDigits (n : Nat) : DigitFirst (Nat.toDigits 10 n) := by
  have hfirst : DigitFirst (Nat.toDigits 10 n ++ []) := (Json.digits_toDigits n).digitFirst
  rwa [List.append_nil] at hfirst

theorem toDigits_injective {n m : Nat} (h : Nat.toDigits 10 n = Nat.toDigits 10 m) : n = m := by
  have hvalues := congrArg Decimal.natOfDigits h
  rwa [Decimal.natOfDigits_toDigits, Decimal.natOfDigits_toDigits] at hvalues

theorem toString_injective {n m : Int} (h : toString n = toString m) : n = m := by
  have hlists := congrArg String.toList h
  rw [toList_toString, toList_toString] at hlists
  obtain ⟨hsign, hdigits⟩ :=
    sign_append_inj (digitFirst_toDigits _) (digitFirst_toDigits _) hlists
  have hneg : n < 0 ↔ m < 0 := decide_eq_decide.1 hsign
  have habs : n.natAbs = m.natAbs := toDigits_injective hdigits
  omega

/-- A real shows that it is no integer. -/
theorem Numeral.IsReal.exists_mark {n : Numeral} (h : n.IsReal) :
    ∃ c ∈ n.chars, c.isDigit = false ∧ c ≠ '-' := by
  rcases h with h | h
  · obtain ⟨ds, hds⟩ := Option.ne_none_iff_exists'.1 h
    exact ⟨'.', by simp [Numeral.chars, Mantissa.chars, Mantissa.point, hds], by decide⟩
  · obtain ⟨s, hs⟩ := Option.ne_none_iff_exists'.1 h
    refine ⟨s.mark, by simp [Numeral.chars, hs, Scale.chars], ?_⟩
    rcases s.mark_eq with hm | hm <;> rw [hm] <;> decide

end

namespace Value

variable {v w : Value}

theorem shownTy_literal (h : v.Writable) : shownTy v.literal.toList = v.ty := by
  cases v with
  | integer v =>
    rw [literal, toList_toString, shownTy_signed (digitFirst_toDigits _), if_pos]
    · rfl
    · rw [List.all_eq_true]
      intro c hc
      rw [Decimal.isDigit_toDigits hc, Bool.true_or]
  | real x =>
    obtain ⟨n, hn, htext, -⟩ := exists_numeral h
    obtain ⟨c, hc, hdigit, hminus⟩ := hn.exists_mark
    rw [literal, htext, shownTy_signed n.digitFirst, if_neg]
    · rfl
    · rw [List.all_eq_true]
      intro hall
      simpa [hdigit, hminus] using hall c hc
  | string s => simp [literal, shownTy, Lexeme.quote]; rfl
  | boolean b => cases b <;> decide

/-- Each constant of a text has a text of its own in listings. -/
theorem literal_injective (hv : v.Writable) (hw : w.Writable) (h : v.literal = w.literal) :
    v = w := by
  have hty : v.ty = w.ty := by rw [← shownTy_literal hv, h, shownTy_literal hw]
  cases v <;> cases w <;> cases hty
  case integer.integer v w =>
    have hint : v.toInt = w.toInt := toString_injective h
    rw [Int32.toInt_inj.1 hint]
  case real.real x y =>
    obtain ⟨n, hn, hx, habs⟩ := exists_numeral hv
    obtain ⟨m, hm, hy, habs'⟩ := exists_numeral hw
    -- The sign shows, and the scanner makes one real of the characters behind it.
    have htext : RealNotation.literal.text x = RealNotation.literal.text y := h
    rw [htext, hy] at hx
    obtain ⟨hsign, hchars⟩ := sign_append_inj m.digitFirst n.digitFirst hx
    have hread : Lexeme.real n.decimal n.chars [] = Lexeme.real m.decimal m.chars [] := by
      rw [← hn.number, ← hm.number, hchars]
    have hsame : x.abs = y.abs := by
      have houtcome := congrArg Lexeme.outcome hread
      simpa only [Lexeme.real, habs, habs', Json.isFinite_abs hv, Json.isFinite_abs hw, if_true,
        Except.ok.injEq, TokenKind.real.injEq] using houtcome
    have hxy : x = y := by rw [← signed_abs hv, ← signed_abs hw, hsame, hsign]
    rw [hxy]
  case string.string s t =>
    have hlists := congrArg String.toList h
    simp only [literal, String.toList_append, List.append_assoc, List.append_cancel_left_eq,
      List.append_cancel_right_eq, String.toList_inj] at hlists
    rw [hlists]
  case boolean.boolean a b =>
    cases a <;> cases b
    · rfl
    · exact absurd h (by decide)
    · exact absurd h (by decide)
    · rfl

theorem onOneLine_literal (h : v.Writable) : Text.OnOneLine v.literal.toList := by
  have hquote : Text.OnOneLine "'".toList := by decide
  cases v with
  | integer v => exact Text.onOneLine_int _
  | real x => exact RealNotation.literal.onOneLine_text x
  | string s =>
    have hbody : Text.OnOneLine s.toList := by
      intro c hc
      exact (Lexeme.isStringChar_iff.1 (h c hc)).2
    rw [literal, String.toList_append, String.toList_append]
    exact (hquote.append hbody).append hquote
  | boolean b => cases b <;> decide

end Value
end MiniPascal
