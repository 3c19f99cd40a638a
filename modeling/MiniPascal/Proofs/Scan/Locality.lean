import MiniPascal.Proofs.Scan.Errors

/-! How far a lexeme looks. It sees no more of the text behind it than the character that is next
and whether two points are next, so what stands further behind may be replaced. -/
namespace MiniPascal

/-- A span ends where its characters do. -/
theorem span_stop {α : Type} {p : α → Bool} {xs ys : List α} (h : ∀ y ∈ ys.head?, p y = false) :
    (xs.takeWhile p ++ ys).takeWhile p = xs.takeWhile p ∧
      (xs.takeWhile p ++ ys).dropWhile p = ys := by
  have hxs : ∀ x ∈ xs.takeWhile p, p x := List.all_eq_true.1 List.all_takeWhile
  rw [List.takeWhile_append_of_pos hxs, List.dropWhile_append_of_pos hxs]
  cases ys with
  | nil => simp
  | cons y ys => simp [h y rfl]

/-- What a span stops at decides where it ends. -/
theorem span_append {α : Type} {p : α → Bool} {xs ys : List α}
    (h : ys.head? = (xs.dropWhile p).head?) :
    (xs.takeWhile p ++ ys).takeWhile p = xs.takeWhile p ∧
      (xs.takeWhile p ++ ys).dropWhile p = ys := by
  refine span_stop fun y hy => ?_
  have hstop := List.head?_dropWhile_not p xs
  rw [← h, hy] at hstop
  exact hstop

/-- The texts begin alike, as far as a lexeme in front of them can tell. -/
structure Alike (xs ys : List Char) : Prop where
  head : ys.head? = xs.head?
  points : xs.head? = some '.' → (ys.tail.head? = some '.' ↔ xs.tail.head? = some '.')

theorem alike_cons {x : Char} {xs ys : List Char} (h : x ≠ '.') : Alike (x :: xs) (x :: ys) :=
  ⟨rfl, fun hx => absurd (Option.some.inj hx) h⟩

namespace Lexeme

/-- The lexeme with another text behind it. -/
def before (l : Lexeme) (rest : List Char) : Lexeme := { l with rest }

variable {c : Char} {cs mark fraction rest whole ys r : List Char} {value : Option Int}

theorem word_local (h : Alike (word cs).rest r) :
    word ((word cs).chars ++ r) = (word cs).before r := by
  obtain ⟨ht, hd⟩ := span_append h.head
  have hsplit : (word cs).chars ++ r = cs.takeWhile Char.isAlphanum ++ r := rfl
  rw [hsplit, word, ht, hd]
  rfl

/-- What ends a string constant of which the characters have been read. -/
def stringEnd (body : List Char) : List Char → Lexeme
  | [] => ⟨.error .unterminatedString, quote :: body, []⟩
  | c :: rest =>
    if c = quote then ⟨.ok (.string (String.ofList body)), quote :: body ++ [quote], rest⟩
    else ⟨.error .unterminatedString, quote :: body, c :: rest⟩

theorem stringEnd_local {body : List Char} (h : Alike (stringEnd body ys).rest r) :
    ∃ zs, (stringEnd body ys).chars ++ r = quote :: (body ++ zs) ∧
      stringEnd body zs = (stringEnd body ys).before r ∧ zs.head? = ys.head? := by
  cases ys with
  | nil =>
    obtain rfl : r = [] := List.head?_eq_none_iff.1 h.head
    exact ⟨[], rfl, rfl, rfl⟩
  | cons c ys =>
    by_cases hc : c = quote
    · subst hc
      exact ⟨quote :: r, by simp [stringEnd], by simp [stringEnd, before], rfl⟩
    · simp only [stringEnd, if_neg hc] at h ⊢
      obtain ⟨zs, rfl⟩ : ∃ zs, r = c :: zs := List.head?_eq_some_iff.1 h.head
      exact ⟨c :: zs, rfl, by simp [before, hc], rfl⟩

theorem string_eq (cs : List Char) :
    string cs = stringEnd (cs.takeWhile isStringChar) (cs.dropWhile isStringChar) := rfl

theorem string_local (h : Alike (string cs).rest r) :
    ∃ cs', (string cs).chars ++ r = quote :: cs' ∧ string cs' = (string cs).before r := by
  rw [string_eq cs] at h ⊢
  obtain ⟨zs, hchars, hend, hhead⟩ := stringEnd_local h
  obtain ⟨ht, hd⟩ := span_append hhead
  refine ⟨cs.takeWhile isStringChar ++ zs, hchars, ?_⟩
  rw [string_eq, ht, hd]
  exact hend

/-- The sign at the head of a text. -/
def signOf (cs : List Char) : List Char := (cs.take 1).filter isSign

theorem signOf_congr (h : ys.head? = cs.head?) : signOf ys = signOf cs := by
  cases cs with
  | nil => rw [List.head?_eq_none_iff.1 h]
  | cons c cs =>
    obtain ⟨zs, rfl⟩ := List.head?_eq_some_iff.1 h
    rfl

theorem signOf_append (cs : List Char) : signOf cs ++ cs.drop (signOf cs).length = cs := by
  cases cs with
  | nil => rfl
  | cons c cs => by_cases hc : isSign c <;> simp [signOf, hc]

/-- What stands behind a sign may be replaced by what begins with the same character. -/
theorem signOf_before (h : ys.head? = (cs.drop (signOf cs).length).head?) :
    signOf (signOf cs ++ ys) = signOf cs := by
  have hcs := signOf_append cs
  generalize cs.drop (signOf cs).length = ds at h hcs
  refine signOf_congr (Eq.trans ?_ (congrArg List.head? hcs))
  cases signOf cs with
  | nil => exact h
  | cons => rfl

/-- The digits of a scale factor may be followed by anything that begins alike. -/
theorem signOf_digits (h : r.head? = ((cs.drop (signOf cs).length).dropWhile Char.isDigit).head?) :
    signOf (signOf cs ++ ((cs.drop (signOf cs).length).takeWhile Char.isDigit ++ r)) =
      signOf cs := by
  refine signOf_before ?_
  generalize cs.drop (signOf cs).length = ds at h
  cases ds with
  | nil => simpa using h
  | cons d ds =>
    by_cases hdigit : d.isDigit
    · rw [List.takeWhile_cons_of_pos hdigit]
      rfl
    · rw [List.takeWhile_cons_of_neg hdigit]
      rw [List.dropWhile_cons_of_neg hdigit] at h
      exact h

/-- A scale factor of which the sign and the digits have been read. -/
def scaleOf (mark : Char) (sign digits rest : List Char) : List Char × Option Int × List Char :=
  let size : Int := Decimal.natOfDigits digits
  (mark :: sign ++ digits,
    if digits = [] then none else some (if sign = ['-'] then -size else size), rest)

theorem scale?_cons (m : Char) (cs : List Char) : scale? (m :: cs) = if isScaleMark m then
    some (scaleOf m (signOf cs) ((cs.drop (signOf cs).length).takeWhile Char.isDigit)
      ((cs.drop (signOf cs).length).dropWhile Char.isDigit)) else none := rfl

/-- A scale factor may be followed by anything that begins alike. -/
theorem scale?_local (h : scale? cs = some (mark, value, rest)) (hr : r.head? = rest.head?) :
    scale? (mark ++ r) = some (mark, value, r) := by
  cases cs with
  | nil => cases h
  | cons m xs =>
    rw [scale?_cons] at h
    split at h
    · next hm =>
      simp only [scaleOf, Option.some.injEq, Prod.mk.injEq] at h
      obtain ⟨rfl, rfl, rfl⟩ := h
      have hsign := signOf_digits hr
      obtain ⟨ht, hd⟩ := span_append hr
      rw [List.cons_append, List.cons_append, List.append_assoc, scale?_cons, if_pos hm, hsign,
        List.drop_left, ht, hd]
      rfl
    · cases h

theorem scale?_eq_none (h : scale? cs = none) (hr : r.head? = cs.head?) : scale? r = none := by
  cases cs with
  | nil =>
    rw [List.head?_eq_none_iff.1 hr]
    rfl
  | cons c cs =>
    obtain ⟨zs, rfl⟩ := List.head?_eq_some_iff.1 hr
    by_cases hm : isScaleMark c
    · simp [scale?, hm] at h
    · simp [scale?, hm]

/-- Only a mark of its own makes a scale factor. -/
theorem scale?_mark (h : scale? cs = some (mark, value, rest)) :
    ∃ m ms, mark = m :: ms ∧ isScaleMark m := by
  cases cs with
  | nil => cases h
  | cons m xs =>
    rw [scale?_cons] at h
    split at h
    · next hm =>
      simp only [scaleOf, Option.some.injEq, Prod.mk.injEq] at h
      obtain ⟨rfl, -, -⟩ := h
      exact ⟨m, _, rfl, hm⟩
    · cases h

/-- A point is no such mark. -/
theorem alike_of_scale? (h : scale? cs = some (mark, value, rest)) : Alike cs (mark ++ r) := by
  obtain ⟨m, ms, rfl, hm⟩ := scale?_mark h
  rw [← scale?_chars h]
  refine alike_cons ?_
  rintro rfl
  cases hm

theorem scaled_local (h : Alike (scaled whole fraction ys).rest r) :
    ∃ zs, (scaled whole fraction ys).chars ++ r = whole ++ fraction ++ zs ∧
      scaled whole fraction zs = (scaled whole fraction ys).before r ∧ Alike ys zs := by
  cases hs : scale? ys with
  | none =>
    by_cases hf : fraction = []
    · subst hf
      simp only [scaled, hs, if_true] at h ⊢
      refine ⟨r, by simp [integer], ?_, h⟩
      rw [scale?_eq_none hs h.head]
      rfl
    · simp only [scaled, hs, if_neg hf] at h ⊢
      refine ⟨r, rfl, ?_, h⟩
      rw [scale?_eq_none hs h.head]
      rfl
  | some scale =>
    obtain ⟨mark, value, rest⟩ := scale
    cases value with
    | none =>
      simp only [scaled, hs] at h ⊢
      refine ⟨mark ++ r, by simp, ?_, alike_of_scale? hs⟩
      rw [scale?_local hs h.head]
      rfl
    | some size =>
      simp only [scaled, hs] at h ⊢
      refine ⟨mark ++ r, by simp [real], ?_, alike_of_scale? hs⟩
      rw [scale?_local hs h.head]
      rfl

/-- What ends a number of which the integer digits have been read. -/
def numberEnd (whole : List Char) : List Char → Lexeme
  | [] => scaled whole [] []
  | point :: rest =>
    if point = '.' ∧ rest.head? ≠ some '.' then
      let digits := rest.takeWhile Char.isDigit
      if digits = [] then ⟨.error .malformedNumber, whole ++ ['.'], rest⟩
      else scaled whole ('.' :: digits) (rest.dropWhile Char.isDigit)
    else scaled whole [] (point :: rest)

theorem number_eq (cs : List Char) :
    number cs = numberEnd (cs.takeWhile Char.isDigit) (cs.dropWhile Char.isDigit) := rfl

theorem numberEnd_point (h : ys.head? ≠ some '.') : numberEnd whole ('.' :: ys) =
    if ys.takeWhile Char.isDigit = [] then ⟨.error .malformedNumber, whole ++ ['.'], ys⟩
    else scaled whole ('.' :: ys.takeWhile Char.isDigit) (ys.dropWhile Char.isDigit) :=
  if_pos ⟨rfl, h⟩

theorem numberEnd_other (h : ¬ (c = '.' ∧ ys.head? ≠ some '.')) :
    numberEnd whole (c :: ys) = scaled whole [] (c :: ys) := if_neg h

theorem takeWhile_eq_nil {α : Type} {p : α → Bool} {xs zs : List α} (h : xs.takeWhile p = [])
    (hz : zs.head? = xs.head?) : zs.takeWhile p = [] := by
  cases xs with
  | nil =>
    obtain rfl : zs = [] := List.head?_eq_none_iff.1 hz
    rfl
  | cons x xs =>
    obtain ⟨us, rfl⟩ := List.head?_eq_some_iff.1 hz
    by_cases hx : p x
    · simp [List.takeWhile_cons_of_pos hx] at h
    · exact List.takeWhile_cons_of_neg hx

theorem head?_takeWhile_append {α : Type} {p : α → Bool} {xs zs : List α}
    (h : xs.takeWhile p ≠ []) : (xs.takeWhile p ++ zs).head? = xs.head? := by
  cases xs with
  | nil => exact absurd rfl h
  | cons x xs =>
    by_cases hx : p x
    · rw [List.takeWhile_cons_of_pos hx]
      rfl
    · exact absurd (List.takeWhile_cons_of_neg hx) h

theorem numberEnd_local (h : Alike (numberEnd whole ys).rest r) :
    ∃ zs, (numberEnd whole ys).chars ++ r = whole ++ zs ∧
      numberEnd whole zs = (numberEnd whole ys).before r ∧ zs.head? = ys.head? := by
  cases ys with
  | nil =>
    obtain rfl : r = [] := List.head?_eq_none_iff.1 h.head
    exact ⟨[], by simp [numberEnd, scaled, scale?, integer], rfl, rfl⟩
  | cons point ys =>
    by_cases hp : point = '.' ∧ ys.head? ≠ some '.'
    · obtain ⟨rfl, hy⟩ := hp
      by_cases hd : ys.takeWhile Char.isDigit = []
      · rw [numberEnd_point hy, if_pos hd] at h ⊢
        refine ⟨'.' :: r, by simp, ?_, rfl⟩
        rw [numberEnd_point (h.head ▸ hy), if_pos (takeWhile_eq_nil hd h.head)]
        rfl
      · rw [numberEnd_point hy, if_neg hd] at h ⊢
        obtain ⟨zs, hchars, hscaled, halike⟩ := scaled_local h
        obtain ⟨ht, hdrop⟩ := span_append halike.head
        refine ⟨'.' :: (ys.takeWhile Char.isDigit ++ zs), by simp [hchars], ?_, rfl⟩
        rw [numberEnd_point ((head?_takeWhile_append hd).symm ▸ hy), ht, if_neg hd, hdrop, hscaled]
    · rw [numberEnd_other hp] at h ⊢
      obtain ⟨zs, hchars, hscaled, halike⟩ := scaled_local h
      obtain ⟨us, rfl⟩ := List.head?_eq_some_iff.1 halike.head
      refine ⟨point :: us, by simp [hchars], ?_, rfl⟩
      have hother : ¬ (point = '.' ∧ us.head? ≠ some '.') := by
        rintro ⟨rfl, hus⟩
        have hy : ys.head? = some '.' := Classical.byContradiction fun hne => hp ⟨rfl, hne⟩
        exact hus ((halike.points rfl).2 hy)
      rw [numberEnd_other hother, hscaled]

theorem number_local (h : Alike (number cs).rest r) :
    number ((number cs).chars ++ r) = (number cs).before r := by
  rw [number_eq cs] at h ⊢
  obtain ⟨zs, hchars, hend, hhead⟩ := numberEnd_local h
  obtain ⟨ht, hd⟩ := span_append hhead
  rw [hchars, number_eq, ht, hd, hend]

theorem symbol_local (h : Alike (symbol c cs).rest r) :
    ∃ cs', (symbol c cs).chars ++ r = c :: cs' ∧ symbol c cs' = (symbol c cs).before r := by
  cases hpair : cs.head?.bind (Symbol.ofPair? c) with
  | some s =>
    obtain ⟨d, hd, hs⟩ := Option.bind_eq_some_iff.1 hpair
    obtain ⟨ds, rfl⟩ := List.head?_eq_some_iff.1 hd
    refine ⟨d :: r, by simp [symbol, hs], by simp [symbol, hs, before]⟩
  | none =>
    have hrest : (symbol c cs).rest = cs := by
      simp only [symbol, hpair]
      split <;> rfl
    rw [hrest] at h
    have hpair' : r.head?.bind (Symbol.ofPair? c) = none := h.head ▸ hpair
    refine ⟨r, ?_, ?_⟩
    · simp only [symbol, hpair]
      split <;> rfl
    · simp only [symbol, hpair, hpair']
      split <;> rfl

/-- A lexeme begins with the character it was read from. -/
theorem chars_read_eq_cons (c : Char) (cs : List Char) : ∃ us, (read c cs).chars = c :: us := by
  have hchars := read_chars c cs
  cases h : (read c cs).chars with
  | nil => exact absurd h (read_chars_ne_nil c cs)
  | cons d us =>
    rw [h] at hchars
    exact ⟨us, by rw [(List.cons.inj hchars).1]⟩

/-- What the first character makes of a text. -/
theorem read_cases (c : Char) : (c = quote ∧ read c = string) ∨
    (read c = fun ds => number (c :: ds)) ∨ (read c = fun ds => word (c :: ds)) ∨
    read c = symbol c := by
  by_cases hq : c = quote
  · exact .inl ⟨hq, funext fun ds => by simp [read, hq]⟩
  · by_cases hd : c.isDigit
    · exact .inr (.inl (funext fun ds => by simp [read, hq, hd]))
    · by_cases ha : c.isAlpha
      · exact .inr (.inr (.inl (funext fun ds => by simp [read, hq, hd, ha])))
      · exact .inr (.inr (.inr (funext fun ds => by simp [read, hq, hd, ha])))

/-- What stands behind a lexeme may be replaced by what begins alike. -/
theorem read_local (h : Alike (read c cs).rest r) :
    ∃ cs', (read c cs).chars ++ r = c :: cs' ∧ read c cs' = (read c cs).before r := by
  obtain ⟨us, hus⟩ := chars_read_eq_cons c cs
  rcases read_cases c with ⟨rfl, hread⟩ | hread | hread | hread
  · rw [hread] at h ⊢
    exact string_local h
  · rw [hread] at h hus ⊢
    refine ⟨us ++ r, by rw [hus]; rfl, ?_⟩
    rw [← number_local h, hus]
    rfl
  · rw [hread] at h hus ⊢
    refine ⟨us ++ r, by rw [hus]; rfl, ?_⟩
    rw [← word_local h, hus]
    rfl
  · rw [hread] at h ⊢
    exact symbol_local h

end Lexeme
end MiniPascal
