import MiniPascal.Proofs.Json.Number

/-! Texts of JSON values. Blanks may stand between their parts, and whatever the blanks, a text of a
value reads as that value. -/
namespace MiniPascal.Json

section Strings
variable {cs rest : List Char}

theorem hexValue?_hexDigit (n : Nat) : hexValue? (hexDigit n) = some (n % 16) := by
  have h : ∀ k : Fin 16, hexValue? (Nat.digitChar k) = some k.val := by decide
  exact h ⟨n % 16, Nat.mod_lt _ (by omega)⟩

theorem unitEscape?_control {c : Char} (h : c.toNat < 0x20) :
    unitEscape? ('0' :: '0' :: hexDigit (c.toNat / 16) :: hexDigit c.toNat :: cs) = some (c, cs) := by
  have hzero : hexValue? '0' = some 0 := rfl
  have hunit : c.toNat / 16 % 16 * 16 + c.toNat % 16 = c.toNat := by omega
  have hhigh : isHighHalf c.toNat = false := by simp [isHighHalf]; omega
  have hlow : isLowHalf c.toNat = false := by simp [isLowHalf]; omega
  simp [unitEscape?, unit?, hzero, hexValue?_hexDigit, hunit, hhigh, hlow]

theorem escaped?_shortEscape {c letter : Char} (h : shortEscapes.lookup c = some letter) :
    escaped? (letter :: cs) = some (c, cs) := by
  obtain ⟨before, behind, hsplit, -⟩ := List.lookup_eq_some_iff.1 h
  have hmem : (c, letter) ∈ shortEscapes := by simp [hsplit]
  simp only [shortEscapes, List.mem_cons, Prod.mk.injEq, List.not_mem_nil, or_false] at hmem
  rcases hmem with ⟨rfl, rfl⟩ | ⟨rfl, rfl⟩ | ⟨rfl, rfl⟩ | ⟨rfl, rfl⟩ | ⟨rfl, rfl⟩ | ⟨rfl, rfl⟩ |
    ⟨rfl, rfl⟩ <;> rfl

/-- A character is read back from the way it is written inside a string. -/
theorem stringChars?_escape (c : Char) (cs : List Char) (bound : Nat) :
    stringChars? (bound + 1) (escape c ++ cs) =
      (stringChars? bound cs).map fun (chars, rest) => (c :: chars, rest) := by
  unfold escape
  split
  case h_1 letter hletter =>
    simp [stringChars?, escaped?_shortEscape hletter, Option.map_eq_bind]
  case h_2 hnone =>
    split
    case isTrue hcontrol =>
      simp [stringChars?, escaped?, unitEscape?_control hcontrol, Option.map_eq_bind]
    case isFalse hplain =>
      have hquote : c ≠ '"' := by
        rintro rfl
        exact absurd hnone (by decide)
      have hslash : c ≠ '\\' := by
        rintro rfl
        exact absurd hnone (by decide)
      simp [stringChars?, hquote, hslash, hplain, Option.map_eq_bind]

theorem stringChars?_flatMap (chars rest : List Char) {bound : Nat} (h : chars.length < bound) :
    stringChars? bound (chars.flatMap escape ++ '"' :: rest) = some (chars, rest) := by
  induction chars generalizing bound with
  | nil =>
    obtain ⟨n, rfl⟩ : ∃ n, bound = n + 1 := ⟨bound - 1, by omega⟩
    rfl
  | cons c chars ih =>
    obtain ⟨n, rfl⟩ : ∃ n, bound = n + 1 := ⟨bound - 1, by omega⟩
    rw [List.flatMap_cons, List.append_assoc, stringChars?_escape, ih (by simpa using h)]
    rfl

theorem length_le_escape (chars : List Char) : chars.length ≤ (chars.flatMap escape).length := by
  induction chars with
  | nil => simp
  | cons c chars ih =>
    have : 0 < (escape c).length := by
      unfold escape
      split <;> [skip; split] <;> simp
    simp only [List.flatMap_cons, List.length_append, List.length_cons]
    omega

/-- A string is read back. -/
theorem string?_quoted (s : String) (rest : List Char) :
    string? (quoted s ++ rest) = some (s, rest) := by
  have hlen := length_le_escape s.toList
  have hbound : s.toList.length < (s.toList.flatMap escape ++ '"' :: rest).length + 1 := by
    rw [List.length_append]
    omega
  have hquoted : quoted s ++ rest = '"' :: (s.toList.flatMap escape ++ '"' :: rest) := by
    simp [quoted]
  rw [hquoted, string?, stringChars?_flatMap s.toList rest hbound]
  simp

end Strings

/-- Blanks only. -/
def Blanks (bs : List Char) : Prop := ∀ c ∈ bs, isBlank c

section Blanks
variable {bs cs : List Char} {depth : Nat}

theorem skipBlanks_append (h : Blanks bs) (cs : List Char) :
    skipBlanks (bs ++ cs) = skipBlanks cs := List.dropWhile_append_of_pos h

theorem skipBlanks_cons {c : Char} (h : isBlank c = false) : skipBlanks (c :: cs) = c :: cs :=
  List.dropWhile_cons_of_neg (by simp [h])

theorem value?_blanks (h : Blanks bs) (cs : List Char) :
    value? depth (bs ++ cs) = value? depth cs := by
  cases depth with
  | zero => rfl
  | succ depth => simp only [value?, skipBlanks_append h]

end Blanks

mutual

/-- The texts of a value. Blanks may stand behind brackets, commas and colons and before commas and
closing brackets. -/
inductive Written : Json → List Char → Prop where
  | null : Written .null "null".toList
  | bool (b : Bool) : Written (.bool b) (if b then "true" else "false").toList
  | int (n : Int) : Written (.int n) (toString n).toList
  | real {x : Float} (h : x.isFinite) : Written (.real x) (realText x)
  | string (s : String) : Written (.string s) (quoted s)
  | emptyArray : Written (.array []) ['[', ']']
  | array {bs text rest : List Char} {j : Json} {js : List Json} (hbs : Blanks bs)
      (hj : Written j text) (hjs : WrittenItems js rest) :
      Written (.array (j :: js)) ('[' :: (bs ++ (text ++ rest)))
  | emptyObject : Written (.object []) ['\x7b', '\x7d']
  | object {bs cs text rest : List Char} {k : String} {j : Json} {fs : List (String × Json)}
      (hbs : Blanks bs) (hcs : Blanks cs) (hj : Written j text) (hfs : WrittenFields fs rest) :
      Written (.object ((k, j) :: fs))
        ('\x7b' :: (bs ++ (quoted k ++ ':' :: (cs ++ (text ++ rest)))))

/-- The texts of the items behind the first, up to the closing bracket. -/
inductive WrittenItems : List Json → List Char → Prop where
  | close {bs : List Char} (hbs : Blanks bs) : WrittenItems [] (bs ++ [']'])
  | more {bs cs text rest : List Char} {j : Json} {js : List Json} (hbs : Blanks bs)
      (hcs : Blanks cs) (hj : Written j text) (hjs : WrittenItems js rest) :
      WrittenItems (j :: js) (bs ++ ',' :: (cs ++ (text ++ rest)))

/-- The texts of the fields behind the first, up to the closing brace. -/
inductive WrittenFields : List (String × Json) → List Char → Prop where
  | close {bs : List Char} (hbs : Blanks bs) : WrittenFields [] (bs ++ ['\x7d'])
  | more {bs cs ds text rest : List Char} {k : String} {j : Json} {fs : List (String × Json)}
      (hbs : Blanks bs) (hcs : Blanks cs) (hds : Blanks ds) (hj : Written j text)
      (hfs : WrittenFields fs rest) :
      WrittenFields ((k, j) :: fs)
        (bs ++ ',' :: (cs ++ (quoted k ++ ':' :: (ds ++ (text ++ rest)))))

end

section Values
variable {bs cs text rest behind : List Char} {j : Json} {js : List Json}
  {fs : List (String × Json)} {depth bound : Nat}

/-- Behind a value there may be a blank, a comma or a closing bracket. -/
theorem ends_of_head {c : Char} (h : isBlank c ∨ c ∈ [',', ']', '\x7d']) : Ends (c :: cs) := by
  intro c' hc'
  obtain rfl : c = c' := by simpa using hc'
  simp only [isBlank, Bool.or_eq_true, beq_iff_eq, List.mem_cons, List.not_mem_nil, or_false] at h
  rcases h with (((rfl | rfl) | rfl) | rfl) | rfl | rfl | rfl <;> decide

theorem Blanks.ends {c : Char} (h : Blanks bs) (hc : c ∈ [',', ']', '\x7d']) :
    Ends (bs ++ c :: cs) := by
  cases bs with
  | nil => exact ends_of_head (.inr hc)
  | cons b bs => exact ends_of_head (.inl (h b (by simp)))

theorem WrittenItems.ends (h : WrittenItems js rest) (behind : List Char) :
    Ends (rest ++ behind) := by
  cases h with
  | close hbs =>
    rw [List.append_assoc]
    exact hbs.ends (by simp)
  | more hbs =>
    rw [List.append_assoc]
    exact hbs.ends (by simp)

theorem WrittenFields.ends (h : WrittenFields fs rest) (behind : List Char) :
    Ends (rest ++ behind) := by
  cases h with
  | close hbs =>
    rw [List.append_assoc]
    exact hbs.ends (by simp)
  | more hbs =>
    rw [List.append_assoc]
    exact hbs.ends (by simp)

theorem head_of_number? {v : Json} (h : number? cs = some (v, rest)) :
    ∃ c cs', cs = c :: cs' ∧ (c = '-' ∨ c.isDigit) := by
  cases cs with
  | nil => simp [number?, whole?, digits?] at h
  | cons c cs =>
    refine ⟨c, cs, rfl, ?_⟩
    by_cases hminus : c = '-'
    · exact .inl hminus
    · right
      have hwhole : ∃ r, whole? (c :: cs) = some r := by
        cases hw : whole? (c :: cs) with
        | none => simp [number?, hminus, hw] at h
        | some r => exact ⟨r, rfl⟩
      obtain ⟨r, hr⟩ := hwhole
      unfold whole? at hr
      split at hr
      case h_1 heq =>
        injection heq with hc
        subst hc
        rfl
      case h_2 =>
        by_cases hc : c.isDigit = true
        · exact hc
        · simp [digits?, hc] at hr

theorem not_isBlank {c : Char} (h : c = '-' ∨ c.isDigit) : isBlank c = false ∧ c ≠ ']' := by
  rcases h with rfl | h
  · decide
  · constructor
    · by_contra hblank
      simp only [isBlank, Bool.not_eq_false, Bool.or_eq_true, beq_iff_eq] at hblank
      rcases hblank with ((rfl | rfl) | rfl) | rfl <;> simp at h
    · rintro rfl
      simp at h

theorem value?_of_number? {v : Json} (h : number? cs = some (v, rest)) :
    value? (depth + 1) cs = some (v, rest) := by
  obtain ⟨c, cs', rfl, hc⟩ := head_of_number? h
  unfold value?
  rw [skipBlanks_cons (not_isBlank hc).1]
  split <;> simp_all

theorem ends_nil : Ends [] := by
  intro c hc
  cases hc

/-- Values begin with neither a blank nor a closing bracket. -/
theorem Written.head (h : Written j text) :
    ∃ c cs, text = c :: cs ∧ isBlank c = false ∧ c ≠ ']' := by
  have hnumber : ∀ {t : List Char} {v : Json}, number? (t ++ []) = some (v, []) →
      ∃ c cs, t = c :: cs ∧ isBlank c = false ∧ c ≠ ']' := by
    intro t v ht
    rw [List.append_nil] at ht
    obtain ⟨c, cs, rfl, hc⟩ := head_of_number? ht
    exact ⟨c, cs, rfl, not_isBlank hc⟩
  cases h with
  | null => exact ⟨'n', "ull".toList, rfl, by decide, by decide⟩
  | bool b =>
    cases b with
    | true => exact ⟨'t', "rue".toList, rfl, by decide, by decide⟩
    | false => exact ⟨'f', "alse".toList, rfl, by decide, by decide⟩
  | int n => exact hnumber (number?_int n ends_nil)
  | real hx => exact hnumber (number?_realText hx ends_nil)
  | string s => exact ⟨'"', _, rfl, by decide, by decide⟩
  | emptyArray => exact ⟨'[', _, rfl, by decide, by decide⟩
  | array => exact ⟨'[', _, rfl, by decide, by decide⟩
  | emptyObject => exact ⟨'\x7b', _, rfl, by decide, by decide⟩
  | object => exact ⟨'\x7b', _, rfl, by decide, by decide⟩

theorem Written.length_pos (h : Written j text) : 0 < text.length := by
  obtain ⟨c, cs, rfl, -, -⟩ := h.head
  exact Nat.zero_lt_succ _

/-- A bracket opens a list of items, unless the next part closes it. -/
theorem value?_array {c : Char} (hbs : Blanks bs) (hc : isBlank c = false) (hne : c ≠ ']') :
    value? (depth + 1) ('[' :: (bs ++ c :: cs)) =
      (items? (value? depth) ((c :: cs).length + 1) (c :: cs)).map fun (js, rest) =>
        (array js, rest) := by
  have hopen : skipBlanks ('[' :: (bs ++ c :: cs)) = '[' :: (bs ++ c :: cs) := skipBlanks_cons rfl
  have hnext : skipBlanks (bs ++ c :: cs) = c :: cs := by
    rw [skipBlanks_append hbs, skipBlanks_cons hc]
  unfold value?
  simp only [hopen, hnext, Option.map_eq_bind]
  split
  case h_1 heq => simp_all
  case h_2 => rfl

/-- A brace opens a list of fields, unless the next part closes it. -/
theorem value?_object (hbs : Blanks bs) :
    value? (depth + 1) ('\x7b' :: (bs ++ '"' :: cs)) =
      (fields? (value? depth) (('"' :: cs).length + 1) ('"' :: cs)).map fun (fs, rest) =>
        (object fs, rest) := by
  have hopen : skipBlanks ('\x7b' :: (bs ++ '"' :: cs)) = '\x7b' :: (bs ++ '"' :: cs) :=
    skipBlanks_cons rfl
  have hnext : skipBlanks (bs ++ '"' :: cs) = '"' :: cs := by
    rw [skipBlanks_append hbs, skipBlanks_cons rfl]
  unfold value?
  simp only [hopen, hnext, Option.map_eq_bind]
  rfl

theorem value?_of_items? (hbs : Blanks bs) (hj : Written j text)
    (h : items? (value? depth) ((text ++ (rest ++ behind)).length + 1) (text ++ (rest ++ behind)) =
      some (js, behind)) :
    value? (depth + 1) ('[' :: (bs ++ (text ++ rest)) ++ behind) = some (array js, behind) := by
  obtain ⟨c, cs, rfl, hblank, hne⟩ := hj.head
  have hchars : '[' :: (bs ++ (c :: cs ++ rest)) ++ behind =
      '[' :: (bs ++ c :: (cs ++ (rest ++ behind))) := by simp
  rw [List.cons_append] at h
  rw [hchars, value?_array hbs hblank hne, h]
  rfl

theorem value?_of_fields? {k : String} (hbs : Blanks bs)
    (h : fields? (value? depth) ((quoted k ++ cs).length + 1) (quoted k ++ cs) =
      some (fs, behind)) :
    value? (depth + 1) ('\x7b' :: (bs ++ (quoted k ++ cs))) = some (object fs, behind) := by
  have hquoted : quoted k ++ cs = '"' :: (k.toList.flatMap escape ++ ['"'] ++ cs) := rfl
  rw [hquoted] at h ⊢
  rw [value?_object hbs, h]
  rfl

theorem skipBlanks_quoted (s : String) (behind : List Char) :
    skipBlanks (quoted s ++ behind) = quoted s ++ behind := skipBlanks_cons rfl

theorem value?_string (s : String) (behind : List Char) :
    value? (depth + 1) (quoted s ++ behind) = some (string s, behind) := by
  have hquoted : quoted s ++ behind = '"' :: (s.toList.flatMap escape ++ ['"'] ++ behind) := rfl
  have hread := string?_quoted s behind
  unfold value?
  rw [skipBlanks_quoted]
  rw [hquoted] at hread ⊢
  simp only [hread, Option.bind_eq_bind, Option.bind_some]
  rfl

end Values

mutual

/-- Whatever the blanks, a text of a value reads as that value. -/
theorem value?_written {text behind : List Char} {j : Json} {depth : Nat} (h : Written j text)
    (hd : text.length ≤ depth) (hr : Ends behind) :
    value? depth (text ++ behind) = some (j, behind) := by
  have hpos := h.length_pos
  obtain ⟨depth, rfl⟩ : ∃ n, depth = n + 1 := ⟨depth - 1, by omega⟩
  cases h with
  | null => rfl
  | bool b => cases b <;> rfl
  | int n => exact value?_of_number? (number?_int n hr)
  | real hx => exact value?_of_number? (number?_realText hx hr)
  | string s => exact value?_string s behind
  | emptyArray => rfl
  | emptyObject => rfl
  | @array bs text rest j js hbs hj hjs =>
    simp only [List.length_cons, List.length_append] at hd
    have hv : value? depth (text ++ (rest ++ behind)) = some (j, rest ++ behind) :=
      value?_written hj (by omega) (hjs.ends behind)
    have hitems : items? (value? depth) ((text ++ (rest ++ behind)).length + 1)
        (text ++ (rest ++ behind)) = some (j :: js, behind) :=
      items?_written hjs (by omega) (by simp; omega) hv
    exact value?_of_items? hbs hj hitems
  | @object bs cs text rest k j fs hbs hcs hj hfs =>
    simp only [List.length_cons, List.length_append] at hd
    have hv : value? depth (cs ++ (text ++ (rest ++ behind))) = some (j, rest ++ behind) := by
      rw [value?_blanks hcs]
      exact value?_written hj (by omega) (hfs.ends behind)
    have hkey : string? (skipBlanks (quoted k ++ ':' :: (cs ++ (text ++ (rest ++ behind))))) =
        some (k, ':' :: (cs ++ (text ++ (rest ++ behind)))) := by
      rw [skipBlanks_quoted, string?_quoted]
    have hfields : fields? (value? depth)
        ((quoted k ++ ':' :: (cs ++ (text ++ (rest ++ behind)))).length + 1)
        (quoted k ++ ':' :: (cs ++ (text ++ (rest ++ behind)))) = some ((k, j) :: fs, behind) :=
      fields?_written hfs (by omega) (by simp; omega) hkey hv
    have hchars : '\x7b' :: (bs ++ (quoted k ++ ':' :: (cs ++ (text ++ rest)))) ++ behind =
        '\x7b' :: (bs ++ (quoted k ++ ':' :: (cs ++ (text ++ (rest ++ behind))))) := by simp
    rw [hchars]
    exact value?_of_fields? hbs hfields
termination_by text.length
decreasing_by all_goals (subst_vars; simp only [List.length_cons, List.length_append]; omega)

/-- Behind an item that is read, the items that follow are read up to the closing bracket. -/
theorem items?_written {cs rest behind : List Char} {j : Json} {js : List Json} {depth bound : Nat}
    (h : WrittenItems js rest) (hd : rest.length ≤ depth) (hb : rest.length ≤ bound)
    (hv : value? depth cs = some (j, rest ++ behind)) :
    items? (value? depth) bound cs = some (j :: js, behind) := by
  cases h with
  | @close bs hbs =>
    obtain ⟨bound, rfl⟩ : ∃ n, bound = n + 1 := ⟨bound - 1, by simp at hb; omega⟩
    have hnext : skipBlanks (bs ++ [']'] ++ behind) = ']' :: behind := by
      rw [List.append_assoc, skipBlanks_append hbs, List.singleton_append, skipBlanks_cons rfl]
    simp only [items?, hv, Option.bind_eq_bind, Option.bind_some, hnext]
    rfl
  | @more bs ds text rest j js hbs hds hj hjs =>
    simp only [List.length_cons, List.length_append] at hd hb
    obtain ⟨bound, rfl⟩ : ∃ n, bound = n + 1 := ⟨bound - 1, by omega⟩
    have hnext : skipBlanks (bs ++ ',' :: (ds ++ (text ++ rest)) ++ behind) =
        ',' :: (ds ++ (text ++ (rest ++ behind))) := by
      rw [List.append_assoc, skipBlanks_append hbs, List.cons_append, skipBlanks_cons rfl]
      simp
    have hvalue : value? depth (ds ++ (text ++ (rest ++ behind))) = some (j, rest ++ behind) := by
      rw [value?_blanks hds]
      exact value?_written hj (by omega) (hjs.ends behind)
    have hrest : items? (value? depth) bound (ds ++ (text ++ (rest ++ behind))) =
        some (j :: js, behind) := items?_written hjs (by omega) (by omega) hvalue
    simp only [items?, hv, Option.bind_eq_bind, Option.bind_some, hnext, hrest]
    rfl
termination_by rest.length
decreasing_by all_goals (subst_vars; simp only [List.length_cons, List.length_append]; omega)

/-- Behind a field whose value is read, the fields that follow are read up to the closing brace. -/
theorem fields?_written {cs text rest behind : List Char} {k : String} {j : Json}
    {fs : List (String × Json)} {depth bound : Nat} (h : WrittenFields fs rest)
    (hd : rest.length ≤ depth) (hb : rest.length ≤ bound)
    (hk : string? (skipBlanks cs) = some (k, ':' :: text))
    (hv : value? depth text = some (j, rest ++ behind)) :
    fields? (value? depth) bound cs = some ((k, j) :: fs, behind) := by
  have hcolon : afterWord? [':'] (skipBlanks (':' :: text)) = some text := rfl
  cases h with
  | @close bs hbs =>
    obtain ⟨bound, rfl⟩ : ∃ n, bound = n + 1 := ⟨bound - 1, by simp at hb; omega⟩
    have hnext : skipBlanks (bs ++ ['\x7d'] ++ behind) = '\x7d' :: behind := by
      rw [List.append_assoc, skipBlanks_append hbs, List.singleton_append, skipBlanks_cons rfl]
    simp only [fields?, hk, hcolon, hv, Option.bind_eq_bind, Option.bind_some, hnext]
    rfl
  | @more bs ds es text rest k j fs hbs hds hes hj hfs =>
    simp only [List.length_cons, List.length_append] at hd hb
    obtain ⟨bound, rfl⟩ : ∃ n, bound = n + 1 := ⟨bound - 1, by omega⟩
    have hnext : skipBlanks (bs ++ ',' :: (ds ++ (quoted k ++ ':' :: (es ++ (text ++ rest)))) ++
        behind) = ',' :: (ds ++ (quoted k ++ ':' :: (es ++ (text ++ (rest ++ behind))))) := by
      rw [List.append_assoc, skipBlanks_append hbs, List.cons_append, skipBlanks_cons rfl]
      simp
    have hkey : string? (skipBlanks (ds ++ (quoted k ++ ':' :: (es ++ (text ++ (rest ++ behind)))))) =
        some (k, ':' :: (es ++ (text ++ (rest ++ behind)))) := by
      rw [skipBlanks_append hds, skipBlanks_quoted, string?_quoted]
    have hvalue : value? depth (es ++ (text ++ (rest ++ behind))) = some (j, rest ++ behind) := by
      rw [value?_blanks hes]
      exact value?_written hj (by omega) (hfs.ends behind)
    have hrest := fields?_written hfs (by omega) (by omega : rest.length ≤ bound) hkey hvalue
    simp only [fields?, hk, hcolon, hv, Option.bind_eq_bind, Option.bind_some, hnext, hrest]
    rfl
termination_by rest.length
decreasing_by all_goals (subst_vars; simp only [List.length_cons, List.length_append]; omega)

end

end MiniPascal.Json
