import MiniPascal.Proofs.Scan.Locality

/-! Lexemes that stand apart. With a blank, a comment or the end of the text behind it, a lexeme
without a fault is read as before, whatever it was cut out of. -/
namespace MiniPascal

/-- The characters at which every lexeme ends. -/
def separators : List Char := [' ', '\t', '\r', '\n', '\x7b']

/-- The text is at its end or begins with what separates lexemes. -/
def Apart (cs : List Char) : Prop := ∀ x ∈ cs.head?, x ∈ separators

variable {c d : Char} {cs mark fraction rest whole ys r : List Char} {k : TokenKind}
  {p : Char → Bool}

/-- What holds of no separator does not hold where a text that stands apart begins. -/
theorem Apart.head (hr : Apart r) (hp : separators.any p = false) : ∀ x ∈ r.head?, p x = false :=
  fun x hx => Bool.eq_false_iff.2 (List.any_eq_false.1 hp x (hr x hx))

theorem Symbol.ofPair?_separator (hd : d ∈ separators) : ofPair? c d = none := by
  have hne : d ≠ '=' ∧ d ≠ '>' ∧ d ≠ '.' := by
    revert hd
    simp only [separators, List.mem_cons, List.not_mem_nil, or_false]
    rintro (rfl | rfl | rfl | rfl | rfl) <;> decide
  obtain ⟨hequal, hgreater, hdot⟩ := hne
  unfold ofPair?
  split <;> first | rfl | contradiction

theorem mem_separators_iff : c ∈ separators ↔ Gap.isBlank c ∨ c = '\x7b' := by
  simp [separators, Gap.isBlank, or_assoc]

namespace Lexeme

theorem word_apart (hr : Apart r) : word ((word cs).chars ++ r) = (word cs).before r := by
  obtain ⟨ht, hd⟩ := @span_stop _ Char.isAlphanum cs r (hr.head rfl)
  have hsplit : (word cs).chars ++ r = cs.takeWhile Char.isAlphanum ++ r := rfl
  rw [hsplit, word, ht, hd]
  rfl

/-- A string constant ends with its quote. -/
theorem string_apart (h : (string cs).outcome = .ok k) :
    ∃ cs', (string cs).chars ++ r = quote :: cs' ∧ string cs' = (string cs).before r := by
  rw [string_eq cs] at h ⊢
  cases hrest : cs.dropWhile isStringChar with
  | nil =>
    rw [hrest] at h
    cases h
  | cons x ys =>
    rw [hrest] at h
    by_cases hx : x = quote
    · subst hx
      obtain ⟨ht, hd⟩ := @span_stop _ isStringChar cs (quote :: r) (by
        rintro y ⟨⟩
        rfl)
      refine ⟨cs.takeWhile isStringChar ++ quote :: r, by simp [stringEnd], ?_⟩
      rw [string_eq, ht, hd]
      simp [stringEnd, before]
    · rw [stringEnd, if_neg hx] at h
      cases h

/-- A scale factor with digits ends with them. -/
theorem scale?_apart {n : Int} (h : scale? cs = some (mark, some n, rest)) (hr : Apart r) :
    scale? (mark ++ r) = some (mark, some n, r) := by
  cases cs with
  | nil => cases h
  | cons m xs =>
    rw [scale?_cons] at h
    split at h
    · next hm =>
      generalize hds : xs.drop (signOf xs).length = ds at h
      simp only [scaleOf, Option.some.injEq, Prod.mk.injEq] at h
      obtain ⟨rfl, hn, -⟩ := h
      obtain ⟨hdigits, hn⟩ : ds.takeWhile Char.isDigit ≠ [] ∧ _ := by
        split at hn
        · cases hn
        · next hne => exact ⟨hne, hn⟩
      have hsign : signOf (signOf xs ++ (ds.takeWhile Char.isDigit ++ r)) = signOf xs := by
        refine signOf_before ?_
        rw [hds]
        exact head?_takeWhile_append hdigits
      obtain ⟨ht, hd⟩ := @span_stop _ Char.isDigit ds r (hr.head rfl)
      rw [List.cons_append, List.cons_append, List.append_assoc, scale?_cons, if_pos hm, hsign,
        List.drop_left, ht, hd, scaleOf, if_neg hdigits, hn]
      rfl
    · cases h

theorem scale?_eq_none_of_apart (hr : Apart r) : scale? r = none := by
  cases r with
  | nil => rfl
  | cons x xs =>
    have hx : isScaleMark x = false := hr.head rfl x rfl
    rw [scale?_cons, hx]
    rfl

theorem scaled_apart (h : (scaled whole fraction ys).outcome = .ok k) (hr : Apart r) :
    ∃ zs, (scaled whole fraction ys).chars ++ r = whole ++ fraction ++ zs ∧
      scaled whole fraction zs = (scaled whole fraction ys).before r ∧
      ∀ x ∈ zs.head?, x.isDigit = false ∧ x ≠ '.' := by
  have hhead : ∀ x ∈ r.head?, x.isDigit = false ∧ x ≠ '.' := by
    intro x hx
    have hdigit := hr.head (p := Char.isDigit) rfl x hx
    have hpoint := hr.head (p := (· == '.')) rfl x hx
    exact ⟨hdigit, beq_eq_false_iff_ne.1 hpoint⟩
  cases hs : scale? ys with
  | none =>
    refine ⟨r, ?_, ?_, hhead⟩
    · by_cases hf : fraction = []
      · simp [scaled, hs, hf, integer]
      · simp [scaled, hs, hf, real]
    · by_cases hf : fraction = []
      · simp only [scaled, hs, hf, scale?_eq_none_of_apart hr, if_true]
        rfl
      · simp only [scaled, hs, if_neg hf, scale?_eq_none_of_apart hr]
        rfl
  | some scale =>
    obtain ⟨mark, value, rest⟩ := scale
    cases value with
    | none =>
      simp only [scaled, hs] at h
      cases h
    | some size =>
      refine ⟨mark ++ r, by simp [scaled, hs, real], ?_, ?_⟩
      · simp only [scaled, hs, scale?_apart hs hr]
        rfl
      · obtain ⟨m, ms, rfl, hm⟩ := scale?_mark hs
        rintro x ⟨⟩
        simp only [isScaleMark, Bool.or_eq_true, beq_iff_eq] at hm
        rcases hm with rfl | rfl <;> decide

/-- Unless a point is next, a number has no fraction. -/
theorem numberEnd_scaled (h : ∀ x ∈ ys.head?, x ≠ '.') :
    numberEnd whole ys = scaled whole [] ys := by
  cases ys with
  | nil => rfl
  | cons x ys => exact numberEnd_other fun hx => h x rfl hx.1

theorem numberEnd_apart (h : (numberEnd whole ys).outcome = .ok k) (hr : Apart r) :
    ∃ zs, (numberEnd whole ys).chars ++ r = whole ++ zs ∧
      numberEnd whole zs = (numberEnd whole ys).before r ∧ ∀ x ∈ zs.head?, x.isDigit = false := by
  by_cases hp : ∃ us, ys = '.' :: us ∧ us.head? ≠ some '.'
  · obtain ⟨us, rfl, hus⟩ := hp
    rw [numberEnd_point hus] at h ⊢
    by_cases hd : us.takeWhile Char.isDigit = []
    · rw [if_pos hd] at h
      cases h
    · rw [if_neg hd] at h ⊢
      obtain ⟨zs, hchars, hscaled, hzs⟩ := scaled_apart h hr
      obtain ⟨ht, hdrop⟩ := @span_stop _ Char.isDigit us zs fun x hx => (hzs x hx).1
      refine ⟨'.' :: (us.takeWhile Char.isDigit ++ zs), by simp [hchars], ?_, by
        rintro x ⟨⟩
        rfl⟩
      rw [numberEnd_point ((head?_takeWhile_append hd).symm ▸ hus), ht, if_neg hd, hdrop, hscaled]
  · have hwhole : numberEnd whole ys = scaled whole [] ys := by
      cases ys with
      | nil => rfl
      | cons x us => exact numberEnd_other fun hx => hp ⟨us, by rw [hx.1], hx.2⟩
    rw [hwhole] at h ⊢
    obtain ⟨zs, hchars, hscaled, hzs⟩ := scaled_apart h hr
    refine ⟨zs, by simpa using hchars, ?_, fun x hx => (hzs x hx).1⟩
    rw [numberEnd_scaled fun x hx => (hzs x hx).2, hscaled]

theorem number_apart (h : (number cs).outcome = .ok k) (hr : Apart r) :
    number ((number cs).chars ++ r) = (number cs).before r := by
  rw [number_eq cs] at h ⊢
  obtain ⟨zs, hchars, hend, hzs⟩ := numberEnd_apart h hr
  obtain ⟨ht, hd⟩ := @span_stop _ Char.isDigit cs zs hzs
  rw [hchars, number_eq, ht, hd, hend]

theorem symbol_apart (h : (symbol c cs).outcome = .ok k) (hr : Apart r) :
    ∃ cs', (symbol c cs).chars ++ r = c :: cs' ∧ symbol c cs' = (symbol c cs).before r := by
  cases hpair : cs.head?.bind (Symbol.ofPair? c) with
  | some s =>
    obtain ⟨d, hd, hs⟩ := Option.bind_eq_some_iff.1 hpair
    obtain ⟨ds, rfl⟩ := List.head?_eq_some_iff.1 hd
    exact ⟨d :: r, by simp [symbol, hs], by simp [symbol, hs, before]⟩
  | none =>
    have hnone : r.head?.bind (Symbol.ofPair? c) = none := by
      cases r with
      | nil => rfl
      | cons d ds => exact Symbol.ofPair?_separator (hr d rfl)
    cases hs : Symbol.ofChar? c with
    | some s => exact ⟨r, by simp [symbol, hpair, hs], by simp [symbol, hpair, hnone, hs, before]⟩
    | none =>
      simp only [symbol, hpair, hs] at h
      cases h

/-- A lexeme without a fault is read from its characters wherever it stands apart. -/
theorem read_apart (h : (read c cs).outcome = .ok k) (hr : Apart r) :
    ∃ cs', (read c cs).chars ++ r = c :: cs' ∧ read c cs' = (read c cs).before r := by
  obtain ⟨us, hus⟩ := chars_read_eq_cons c cs
  rcases read_cases c with ⟨rfl, hread⟩ | hread | hread | hread
  · rw [hread] at h ⊢
    exact string_apart h
  · rw [hread] at h hus ⊢
    refine ⟨us ++ r, by rw [hus]; rfl, ?_⟩
    rw [← number_apart h hr, hus]
    rfl
  · rw [hread] at hus ⊢
    refine ⟨us ++ r, by rw [hus]; rfl, ?_⟩
    rw [← word_apart hr, hus]
    rfl
  · rw [hread] at h ⊢
    exact symbol_apart h hr

/-- The characters make a token of the kind by themselves, whatever they stand apart from. -/
def Stands (w : List Char) (k : TokenKind) : Prop :=
  ∃ c us, w = c :: us ∧ c ∉ separators ∧
    ∀ r, Apart r → read c (us ++ r) = ⟨.ok k, w, r⟩

theorem stands_read (h : (read c cs).outcome = .ok k) (hc : c ∉ separators) :
    Stands (read c cs).chars k := by
  obtain ⟨us, hus⟩ := chars_read_eq_cons c cs
  refine ⟨c, us, hus, hc, fun r hr => ?_⟩
  obtain ⟨cs', hchars, hread⟩ := read_apart h hr
  rw [hus] at hchars
  have hcs : us ++ r = cs' := (List.cons.inj hchars).2
  rw [hcs, hread, before, h]

end Lexeme
end MiniPascal
