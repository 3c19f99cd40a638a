import MiniPascal.Proofs.Json.Number
import MiniPascal.Proofs.Scan.Lexed
import MiniPascal.Proofs.Scan.Numerals

/-! Lexemes that are known by what they spell: strings in quotes, the digits of integers, and
symbols that go with no other. -/
namespace MiniPascal

/-- The tokens of an integer as it is printed. -/
def integerTokens (n : Int32) : List TokenKind :=
  if n.toInt < 0 then [.symbol .minus, .integer (-n)] else [.integer n]

namespace Lexeme

variable {c d : Char} {ds rest us w : List Char} {k : TokenKind} {s : Symbol} {v : String}

theorem leads_cons_iff : Leads (c :: us) k rest ↔ c ∉ separators ∧
    (read c (us ++ rest)).outcome = .ok k ∧ (read c (us ++ rest)).rest = rest := by
  constructor
  · rintro ⟨_, _, ⟨⟩, hc, hread⟩
    rw [hread]
    exact ⟨hc, rfl, rfl⟩
  · rintro ⟨hc, ho, hr⟩
    refine ⟨c, us, rfl, hc, ?_⟩
    have hchars := read_chars c (us ++ rest)
    generalize read c (us ++ rest) = l at *
    obtain ⟨outcome, chars, rest'⟩ := l
    obtain rfl : rest' = rest := hr
    obtain rfl : outcome = .ok k := ho
    rw [show chars = c :: us from List.append_cancel_right hchars]

instance : Decidable (Leads w k rest) :=
  match w with
  | [] => isFalse (by rintro ⟨_, _, ⟨⟩, -⟩)
  | _ :: _ => decidable_of_iff' _ leads_cons_iff

/-- A lexeme that is read in front of one character is read in front of more, unless that is a
point. -/
theorem Leads.more (h : Leads w k [d]) (hd : d ≠ '.') : Leads w k (d :: rest) := by
  obtain ⟨c, us, rfl, hc, hread⟩ := h
  have halike : Alike (read c (us ++ [d])).rest (d :: rest) := by
    rw [hread]
    exact alike_cons hd
  obtain ⟨cs', hchars, hlocal⟩ := read_local halike
  rw [hread] at hchars hlocal
  have hcs : us ++ d :: rest = cs' := (List.cons.inj hchars).2
  exact ⟨c, us, rfl, hc, by rw [hcs, hlocal]; rfl⟩

theorem leads_symbol (hc : c ∉ separators) (hread : read c = symbol c)
    (hs : Symbol.ofChar? c = some s) (hpair : ∀ d, Symbol.ofPair? c d = none) :
    Leads [c] (.symbol s) rest := by
  have hnone : rest.head?.bind (Symbol.ofPair? c) = none := by
    cases rest with
    | nil => rfl
    | cons d rest => exact hpair d
  refine ⟨c, [], rfl, hc, ?_⟩
  rw [hread, List.nil_append, symbol, hnone]
  simp only [hs]

theorem leads_string (h : ∀ x ∈ v.toList, isStringChar x) :
    Leads (quote :: (v.toList ++ [quote])) (.string v) rest := by
  have hstop : isStringChar quote = false := by decide
  refine ⟨quote, v.toList ++ [quote], rfl, by decide, ?_⟩
  have hread : read quote = string := by
    funext ds
    exact if_pos rfl
  rw [hread, string_eq, List.append_assoc, List.takeWhile_append_of_pos h,
    List.dropWhile_append_of_pos h]
  simp [stringEnd, hstop]

theorem endsInteger_cons (hd : c.isDigit = false) (hm : c ≠ 'e' ∧ c ≠ 'E') (hp : c ≠ '.') :
    EndsInteger (c :: rest) := by
  refine ⟨noDigit_cons hd, ?_, ?_⟩
  · rintro x ⟨⟩
    exact hm
  · rintro ⟨cs, hcs, -⟩
    exact hp (List.cons.inj hcs).1

theorem leads_digits (hd : Digits ds) (hr : EndsInteger rest)
    (hn : Decimal.natOfDigits ds < 2 ^ 31) :
    Leads ds (.integer (Int32.ofNat (Decimal.natOfDigits ds))) rest := by
  have hnumber := number_of_endsInteger hd hr
  obtain ⟨d, ds, rfl⟩ := List.exists_cons_of_ne_nil hd.1
  have hdigit : d.isDigit = true := hd.2 d List.mem_cons_self
  have hseparators : separators.any Char.isDigit = false := rfl
  have hfits : Decimal.natOfDigits (d :: ds) < 0x80000000 := hn
  refine ⟨d, ds, rfl, fun hsep => List.any_eq_false.1 hseparators d hsep hdigit, ?_⟩
  rw [read_digit hdigit, ← List.cons_append, hnumber, integer, if_pos hfits]

end Lexeme

section
variable {n : Int32} {rest : List Char} {ks : List TokenKind}

theorem ofNat_natAbs (n : Int32) :
    Int32.ofNat n.toInt.natAbs = if n.toInt < 0 then -n else n := by
  rw [← Int32.ofInt_eq_ofNat]
  split
  · have habs : ((n.toInt.natAbs : Nat) : Int) = -n.toInt := by omega
    rw [habs, Int32.ofInt_neg, Int32.ofInt_toInt]
  · have habs : ((n.toInt.natAbs : Nat) : Int) = n.toInt := by omega
    rw [habs, Int32.ofInt_toInt]

/-- An integer is scanned as it is printed: its digits, and a sign before them if it is negative.
The digits of the least integer are too many. -/
theorem lexed_integer (hn : n ≠ Int32.minValue) (hr : EndsInteger rest) (h : Lexed rest ks) :
    Lexed ((toString n.toInt).toList ++ rest) (integerTokens n ++ ks) := by
  have hlow := Int32.le_toInt n
  have hhigh := Int32.toInt_lt n
  have hmin : n.toInt ≠ -2 ^ 31 := by
    rw [← Int32.toInt_minValue]
    exact fun hsame => hn (Int32.toInt_inj.1 hsame)
  have hfits : Decimal.natOfDigits (Nat.toDigits 10 n.toInt.natAbs) < 2 ^ 31 := by
    rw [Decimal.natOfDigits_toDigits]
    omega
  have hdigits := Lexeme.leads_digits (Json.digits_toDigits _) hr hfits
  rw [Decimal.natOfDigits_toDigits, ofNat_natAbs] at hdigits
  rw [toList_toString, integerTokens]
  by_cases hneg : n.toInt < 0
  · have hminus : Lexeme.Leads ['-'] (.symbol .minus) (Nat.toDigits 10 n.toInt.natAbs ++ rest) :=
      Lexeme.leads_symbol (by decide) rfl rfl fun _ => rfl
    rw [if_pos hneg] at hdigits
    simp only [hneg, decide_true, if_true, List.append_assoc]
    exact .next hminus (.next hdigits h)
  · rw [if_neg hneg] at hdigits
    simp only [hneg, decide_false, if_false, Bool.false_eq_true, List.nil_append]
    exact .next hdigits h

end
end MiniPascal
