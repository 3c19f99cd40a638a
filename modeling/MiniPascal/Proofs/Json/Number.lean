import MiniPascal.Json.Read
import MiniPascal.Proofs.Decimal.Shortest

/-! Numbers read back from their JSON text. A text is taken apart into the digits before the point,
the digits behind it and the power of ten, and what is read depends on these parts alone. -/
namespace MiniPascal

namespace Decimal

@[simp] theorem natOfDigits_toDigits (n : Nat) : natOfDigits (Nat.toDigits 10 n) = n := by
  rw [natOfDigits_eq, Nat.ofDigitChars_ten_toDigits]

@[simp] theorem natOfDigits_zeros (n : Nat) : natOfDigits (List.replicate n '0') = 0 := by
  rw [natOfDigits_eq, Nat.ofDigitChars_replicate_zero, Nat.mul_zero]

theorem isDigit_toDigits {n : Nat} {c : Char} (h : c ∈ Nat.toDigits 10 n) : c.isDigit :=
  Nat.isDigit_of_mem_toDigits (by omega) (by omega) h

/-- No number but zero is written with a leading zero. -/
theorem head_toDigits {n : Nat} (hn : 0 < n) : (Nat.toDigits 10 n).head? ≠ some '0' := by
  induction n using Nat.strong_induction_on with
  | _ n ih =>
    rw [Nat.toDigits_eq_if (by omega)]
    split
    · simp
      omega
    · rw [List.head?_append_of_ne_nil _ Nat.toDigits_ne_nil]
      exact ih _ (by omega) (by omega)

end Decimal

/-- An integer is written with its sign and its digits. -/
theorem toList_toString (n : Int) :
    (toString n).toList = (if decide (n < 0) then ['-'] else []) ++ Nat.toDigits 10 n.natAbs := by
  show n.repr.toList = _
  rw [Int.repr_eq_if]
  by_cases hneg : n < 0
  · have habs : (-n).toNat = n.natAbs := by omega
    simp [hneg, not_le.2 hneg, habs, Nat.repr_eq_ofList_toDigits]
  · have habs : n.toNat = n.natAbs := by omega
    simp [hneg, not_lt.1 hneg, habs, Nat.repr_eq_ofList_toDigits]

namespace Json

/-- What may stand behind a number: nothing that could still belong to it. -/
def Ends (rest : List Char) : Prop :=
  ∀ c, rest.head? = some c → c.isDigit = false ∧ c ≠ '.' ∧ c ≠ 'e' ∧ c ≠ 'E'

theorem digits_toDigits (n : Nat) : Digits (Nat.toDigits 10 n) :=
  ⟨Nat.toDigits_ne_nil, fun _ => Decimal.isDigit_toDigits⟩

/-- The parts of a number: the digits before the point, those behind it, and the power of ten. -/
structure Parts where
  whole : List Char
  fraction : Option (List Char)
  exponent : Option Int

namespace Parts

/-- The parts as a text may have them: no digit follows a leading zero. -/
structure WellFormed (p : Parts) : Prop where
  whole : Digits p.whole
  leading : p.whole.head? = some '0' → p.whole = ['0']
  fraction : ∀ ds, p.fraction = some ds → Digits ds

/-- The text of the fraction. -/
def fractionText : Option (List Char) → List Char
  | none => []
  | some ds => '.' :: ds

/-- The text of the power of ten. -/
def exponentText : Option Int → List Char
  | none => []
  | some e => 'e' :: (if e < 0 then '-' else '+') :: Nat.toDigits 10 e.natAbs

/-- The text of the parts. -/
def text (p : Parts) : List Char :=
  p.whole ++ (fractionText p.fraction ++ exponentText p.exponent)

/-- The decimal the parts stand for. -/
def decimal (p : Parts) : Decimal :=
  ⟨Decimal.natOfDigits (p.whole ++ p.fraction.getD []),
    p.exponent.getD 0 - (p.fraction.getD []).length⟩

end Parts

section Readers
variable {ds rest : List Char}

theorem digits?_append (h : Digits ds) (hr : ∀ c, rest.head? = some c → c.isDigit = false) :
    digits? (ds ++ rest) = some (ds, rest) := by
  have hend : rest.takeWhile Char.isDigit = [] ∧ rest.dropWhile Char.isDigit = rest := by
    cases rest with
    | nil => exact ⟨rfl, rfl⟩
    | cons c cs =>
      have hc : ¬ c.isDigit = true := by simp [hr c rfl]
      exact ⟨List.takeWhile_cons_of_neg hc, List.dropWhile_cons_of_neg hc⟩
  have hne : ds.isEmpty = false := by simpa using h.1
  simp only [digits?, List.takeWhile_append_of_pos h.2, List.dropWhile_append_of_pos h.2, hend.1,
    hend.2, List.append_nil, hne]
  rfl

theorem whole?_append (h : Digits ds) (hlead : ds.head? = some '0' → ds = ['0'])
    (hr : ∀ c, rest.head? = some c → c.isDigit = false) :
    whole? (ds ++ rest) = some (ds, rest) := by
  unfold whole?
  split
  case h_1 cs heq =>
    cases ds with
    | nil => exact absurd rfl h.1
    | cons d ds =>
      injection heq with hd heq
      subst hd
      have := hlead rfl
      simp_all
  case h_2 => exact digits?_append h hr

theorem fraction?_text {fraction : Option (List Char)} (h : ∀ ds, fraction = some ds → Digits ds)
    (hr : ∀ c, rest.head? = some c → c.isDigit = false ∧ c ≠ '.') :
    fraction? (Parts.fractionText fraction ++ rest) = some (fraction, rest) := by
  cases fraction with
  | none =>
    cases rest with
    | nil => rfl
    | cons c cs =>
      have hc := (hr c rfl).2
      unfold fraction? Parts.fractionText
      split <;> simp_all
  | some ds =>
    have := digits?_append (h ds rfl) fun c hc => (hr c hc).1
    simp [Parts.fractionText, fraction?, this]

theorem exponent?_text (exponent : Option Int) (hr : Ends rest) :
    exponent? (Parts.exponentText exponent ++ rest) = some (exponent, rest) := by
  cases exponent with
  | none =>
    cases rest with
    | nil => rfl
    | cons c cs =>
      obtain ⟨-, -, he, hE⟩ := hr c rfl
      simp [Parts.exponentText, exponent?, he, hE]
  | some e =>
    have := digits?_append (digits_toDigits e.natAbs) fun c hc => (hr c hc).1
    by_cases hneg : e < 0
    · simp [Parts.exponentText, exponent?, hneg, this, abs_of_neg hneg]
    · simp [Parts.exponentText, exponent?, hneg, this, abs_of_nonneg (not_lt.1 hneg)]

/-- Neither a point nor a power of ten begins with a digit, and no power of ten with a point. -/
theorem head_exponentText (exponent : Option Int) (hr : Ends rest) :
    ∀ c, (Parts.exponentText exponent ++ rest).head? = some c → c.isDigit = false ∧ c ≠ '.' := by
  intro c hc
  cases exponent with
  | none => exact ⟨(hr c hc).1, (hr c hc).2.1⟩
  | some e =>
    obtain rfl : 'e' = c := by simpa [Parts.exponentText] using hc
    decide

theorem head_fractionText (fraction : Option (List Char)) (exponent : Option Int)
    (hr : Ends rest) :
    ∀ c, (Parts.fractionText fraction ++ (Parts.exponentText exponent ++ rest)).head? = some c →
      c.isDigit = false := by
  intro c hc
  cases fraction with
  | none => exact (head_exponentText exponent hr c hc).1
  | some ds =>
    obtain rfl : '.' = c := by simpa [Parts.fractionText] using hc
    decide

/-- A number is read up to its end, and what is read depends on its parts. -/
theorem number?_text {p : Parts} (hp : p.WellFormed) (negative : Bool) (hr : Ends rest) :
    number? ((if negative then ['-'] else []) ++ (p.text ++ rest)) =
      (numberOf? negative p.whole p.fraction p.exponent).map (·, rest) := by
  have hwhole := whole?_append hp.whole hp.leading (head_fractionText p.fraction p.exponent hr)
  have hfraction := fraction?_text hp.fraction (head_exponentText p.exponent hr)
  have hexponent := exponent?_text p.exponent hr
  have hsign : (p.text ++ rest).head? ≠ some '-' := by
    obtain ⟨hne, hdigits⟩ := hp.whole
    cases hw : p.whole with
    | nil => exact absurd hw hne
    | cons d ds =>
      have hd := hdigits d (by simp [hw])
      intro h
      obtain rfl : d = '-' := by simpa [Parts.text, hw] using h
      simp at hd
  have hrest : p.text ++ rest =
      p.whole ++ (Parts.fractionText p.fraction ++ (Parts.exponentText p.exponent ++ rest)) := by
    simp [Parts.text]
  generalize hcs : (if negative then ['-'] else []) ++ (p.text ++ rest) = cs
  have hhead : (cs.head? == some '-') = negative := by
    subst hcs
    cases negative with
    | true => rfl
    | false => exact beq_eq_false_iff_ne.2 hsign
  have hdrop : (if negative then cs.drop 1 else cs) = p.text ++ rest := by
    subst hcs
    cases negative <;> rfl
  simp only [number?, hhead, hdrop, hrest, hwhole, hfraction, hexponent, Option.bind_eq_bind,
    Option.bind_some]
  rw [Option.map_eq_bind]
  rfl

end Readers

/-- A text that shows a decimal as a real: its parts stand for the same number, and one of them tells
the real from an integer. -/
def Shows (text : List Char) (d : Decimal) : Prop :=
  ∃ p : Parts, p.WellFormed ∧ text = p.text ∧ (p.fraction.isSome ∨ p.exponent.isSome) ∧
    p.decimal.value = d.value

section Layout
variable {d : Decimal}

theorem digits_zeros_append {ds : List Char} (h : Digits ds) (k : Nat) :
    Digits (List.replicate k '0' ++ ds) ∧ Digits (ds ++ List.replicate k '0') := by
  obtain ⟨hne, hdigits⟩ := h
  have hzeros : ∀ c ∈ List.replicate k '0', c.isDigit := by
    intro c hc
    rw [List.eq_of_mem_replicate hc]
    rfl
  constructor <;> refine ⟨by simp [hne], ?_⟩ <;> intro c hc <;>
    rcases List.mem_append.1 hc with hc | hc <;> first | exact hdigits c hc | exact hzeros c hc

theorem shows_integral (h : 0 < d.digits ∨ d = ⟨0, 0⟩) (he : 0 ≤ d.exponent) :
    Shows (Nat.toDigits 10 d.digits ++ List.replicate d.exponent.toNat '0' ++ ['.', '0']) d := by
  refine ⟨⟨Nat.toDigits 10 d.digits ++ List.replicate d.exponent.toNat '0', some ['0'], none⟩,
    ⟨(digits_zeros_append (digits_toDigits _) _).2, ?_, ?_⟩, ?_, .inl rfl, ?_⟩
  · intro hhead
    rcases h with hpos | rfl
    · rw [List.head?_append_of_ne_nil _ Nat.toDigits_ne_nil] at hhead
      exact absurd hhead (Decimal.head_toDigits hpos)
    · rfl
  · rintro ds ⟨⟩
    exact ⟨by simp, by simp⟩
  · simp [Parts.text, Parts.fractionText, Parts.exponentText]
  · rw [Decimal.value_eq_iff (by simp [Parts.decimal]; omega)]
    have hzero : Decimal.natOfDigits ['0'] = 0 := rfl
    have hexponent : (d.exponent + 1).toNat = d.exponent.toNat + 1 := by omega
    simp [Parts.decimal, Decimal.natOfDigits_append, hzero, hexponent, mul_comm]

theorem shows_inner (h : 0 < d.digits) (he : d.exponent < 0) {point : Nat}
    (hpoint : (point : Int) = (Nat.toDigits 10 d.digits).length + d.exponent) (hpos : 0 < point) :
    Shows ((Nat.toDigits 10 d.digits).take point ++ '.' :: (Nat.toDigits 10 d.digits).drop point)
      d := by
  have hlen : point < (Nat.toDigits 10 d.digits).length := by omega
  have hdigits := digits_toDigits d.digits
  refine ⟨⟨(Nat.toDigits 10 d.digits).take point, some ((Nat.toDigits 10 d.digits).drop point),
    none⟩, ⟨⟨?_, ?_⟩, ?_, ?_⟩, ?_, .inl rfl, ?_⟩
  · simp
    omega
  · intro c hc
    exact hdigits.2 c (List.mem_of_mem_take hc)
  · intro hhead
    rw [List.head?_take, if_neg (by omega)] at hhead
    exact absurd hhead (Decimal.head_toDigits h)
  · rintro ds ⟨⟩
    refine ⟨?_, fun c hc => hdigits.2 c (List.mem_of_mem_drop hc)⟩
    simp
    omega
  · simp [Parts.text, Parts.fractionText, Parts.exponentText]
  · apply congrArg
    simp only [Parts.decimal, Option.getD_some, List.take_append_drop,
      Decimal.natOfDigits_toDigits, Option.getD_none, List.length_drop]
    congr 1
    omega

theorem shows_below (he : d.exponent < 0) {zeros : Nat}
    (hzeros : (zeros : Int) = -((Nat.toDigits 10 d.digits).length + d.exponent)) :
    Shows ('0' :: '.' :: List.replicate zeros '0' ++ Nat.toDigits 10 d.digits) d := by
  refine ⟨⟨['0'], some (List.replicate zeros '0' ++ Nat.toDigits 10 d.digits), none⟩,
    ⟨⟨by simp, by simp⟩, fun _ => rfl, ?_⟩, ?_, .inl rfl, ?_⟩
  · rintro ds ⟨⟩
    exact (digits_zeros_append (digits_toDigits _) _).1
  · simp [Parts.text, Parts.fractionText, Parts.exponentText]
  · have hzero : Decimal.natOfDigits ['0'] = 0 := rfl
    apply congrArg
    simp only [Parts.decimal, Option.getD_some, Decimal.natOfDigits_append, hzero,
      Decimal.natOfDigits_zeros, Decimal.natOfDigits_toDigits, Option.getD_none, List.length_append,
      List.length_replicate]
    cases d
    simp at *
    omega

theorem shows_positional (h : 0 < d.digits ∨ d = ⟨0, 0⟩) :
    Shows (RealNotation.json.positionalText d).toList d := by
  unfold RealNotation.positionalText
  dsimp only
  split
  case isTrue he =>
    have hfraction : (if RealNotation.json.fraction then ".0" else "").toList = ['.', '0'] := rfl
    rw [String.toList_append, String.toList_ofList, hfraction]
    exact shows_integral h he
  case isFalse he =>
    have hpos : 0 < d.digits := by
      rcases h with h | rfl
      · exact h
      · exact absurd le_rfl he
    split <;> rw [String.toList_ofList]
    case isTrue hpoint => exact shows_inner hpos (by omega) (by omega) (by omega)
    case isFalse hpoint => exact shows_below (by omega) (by omega)

theorem shows_scientific (h : 0 < d.digits) :
    Shows (RealNotation.json.scientificText d).toList d := by
  have hdigits := digits_toDigits d.digits
  have hhead := Decimal.head_toDigits h
  have hvalue := Decimal.natOfDigits_toDigits d.digits
  unfold RealNotation.scientificText
  dsimp only
  generalize Nat.toDigits 10 d.digits = digits at *
  generalize hpower : (digits.length : Int) + d.exponent - 1 = power
  have htext : ∀ mantissa : List Char, (String.ofList mantissa ++ "e" ++
      (if power < 0 then "-" else if RealNotation.json.plus then "+" else "") ++
      toString power.natAbs).toList = mantissa ++ Parts.exponentText (some power) := by
    intro mantissa
    have hsign : (if power < 0 then "-" else if RealNotation.json.plus then "+" else "").toList =
        [if power < 0 then '-' else '+'] := by
      split <;> rfl
    simp only [String.toList_append, String.toList_ofList, hsign, Nat.toString_eq_ofList_toDigits]
    simp [Parts.exponentText]
  cases digits with
  | nil => exact absurd rfl hdigits.1
  | cons c cs =>
    have hwhole : Digits [c] := ⟨by simp, by simpa using hdigits.2 c (by simp)⟩
    have hlead : [c].head? = some '0' → [c] = ['0'] := by simp
    cases cs with
    | nil =>
      refine ⟨⟨[c], none, some power⟩, ⟨hwhole, hlead, by simp⟩, htext _, .inr rfl, ?_⟩
      apply congrArg
      simp only [Parts.decimal, Option.getD_none, List.append_nil, hvalue, Option.getD_some]
      congr 1
      simp at hpower ⊢
      omega
    | cons c' cs =>
      refine ⟨⟨[c], some (c' :: cs), some power⟩, ⟨hwhole, hlead, ?_⟩, ?_, .inr rfl, ?_⟩
      · rintro ds ⟨⟩
        exact ⟨by simp, fun x hx => hdigits.2 x (List.mem_cons_of_mem _ hx)⟩
      · rw [htext]
        simp [Parts.text, Parts.fractionText]
      · apply congrArg
        simp only [Parts.decimal, Option.getD_some, List.singleton_append, hvalue]
        congr 1
        simp at hpower ⊢
        omega

/-- The text of a decimal shows it as a real. -/
theorem shows_decimalText (d : Decimal) : Shows (RealNotation.json.decimalText d).toList d := by
  unfold RealNotation.decimalText
  split
  case isTrue h0 =>
    obtain ⟨p, hp, htext, hreal, hvalue⟩ := @shows_positional ⟨0, 0⟩ (.inr rfl)
    refine ⟨p, hp, htext, hreal, hvalue.trans ?_⟩
    simp [Decimal.value, h0]
  case isFalse h0 =>
    split
    case isTrue => exact shows_positional (.inl (by omega))
    case isFalse => exact shows_scientific (by omega)

end Layout

section Numbers
variable {rest : List Char}

theorem isFinite_abs {x : Float} (h : x.isFinite) : x.abs.isFinite := by
  have hunpack : x.toModel.unpack.isFinite = true := h
  show x.abs.toModel.unpack.isFinite
  rw [unpack_abs h]
  generalize x.toModel.unpack = u at hunpack
  cases u <;> exact hunpack

/-- A finite real is read back from its text. -/
theorem number?_realText {x : Float} (h : x.isFinite) (hr : Ends rest) :
    number? (realText x ++ rest) = some (.real x, rest) := by
  obtain ⟨p, hp, htext, hreal, hvalue⟩ := shows_decimalText (Decimal.shortest .toEven x)
  have hfloat : p.decimal.toFloat = x.abs := by
    rw [Decimal.toFloat_eq_of_value hvalue, Decimal.toFloat_shortest .toEven h]
  have hnumber : numberOf? (RealNotation.signed x) p.whole p.fraction p.exponent =
      some (.real x) := by
    have hkind : (p.fraction.isNone && p.exponent.isNone) = false := by
      cases hf : p.fraction <;> cases he : p.exponent <;> simp_all
    unfold numberOf?
    simp only [hkind, Bool.false_and, Bool.false_eq_true, if_false]
    change (if p.decimal.toFloat.isFinite = true then _ else _) = _
    rw [hfloat, if_pos (isFinite_abs h)]
    show some (Json.real (if RealNotation.signed x then -p.decimal.toFloat else p.decimal.toFloat)) = _
    rw [hfloat, signed_abs h]
  have hchars : realText x =
      (if RealNotation.signed x then ['-'] else []) ++ p.text := by
    obtain ⟨hnan, hinf⟩ := isFinite_iff.1 h
    unfold realText RealNotation.text
    simp only [h, if_true, hnan, hinf, Bool.false_eq_true, if_false, ← htext]
    split
    · simp [RealNotation.json]
    · rfl
  rw [hchars, List.append_assoc, number?_text hp _ hr, hnumber]
  rfl

/-- An integer is read back from its text. -/
theorem number?_int (n : Int) (hr : Ends rest) :
    number? ((toString n).toList ++ rest) = some (.int n, rest) := by
  have hp : (Parts.mk (Nat.toDigits 10 n.natAbs) none none).WellFormed := by
    refine ⟨digits_toDigits _, ?_, by simp⟩
    intro hhead
    rcases Nat.eq_zero_or_pos n.natAbs with h0 | hpos
    · simp only [h0]
      rfl
    · exact absurd hhead (Decimal.head_toDigits hpos)
  have hchars : (toString n).toList = (if decide (n < 0) then ['-'] else []) ++
      (Parts.mk (Nat.toDigits 10 n.natAbs) none none).text := by
    rw [toList_toString]
    simp [Parts.text, Parts.fractionText, Parts.exponentText]
  have hnumber : numberOf? (decide (n < 0)) (Nat.toDigits 10 n.natAbs) none none =
      some (.int n) := by
    by_cases hneg : n < 0
    · have hpos : n ≠ 0 := by omega
      simp [numberOf?, hneg, hpos, abs_of_neg hneg]
    · simp [numberOf?, hneg, abs_of_nonneg (not_lt.1 hneg)]
  rw [hchars, List.append_assoc, number?_text hp _ hr, hnumber]
  rfl

end Numbers

end Json
end MiniPascal
