import MiniPascal.Editor.Position
import MiniPascal.Proofs.Text.Lines

/-! The place of an offset. It depends on the characters before the offset alone, and more
characters never lead to an earlier place. -/
namespace MiniPascal.Editor

namespace Position

/-- The place behind characters that begin at a place. A line break leads to the start of the next
line, and so does the first half of one. -/
def after (p : Position) : List Char → Position
  | [] => p
  | '\r' :: '\n' :: cs => after ⟨p.line + 1, 0⟩ cs
  | c :: cs =>
    if c = '\r' ∨ c = '\n' then after ⟨p.line + 1, 0⟩ cs
    else after ⟨p.line, p.character + Text.unit16Size c⟩ cs

/-- The first place is not behind the second. -/
def Precedes (p q : Position) : Prop :=
  p.line < q.line ∨ p.line = q.line ∧ p.character ≤ q.character

variable {p q r : Position} {c : Char} {cs body brk rest : List Char}

theorem Precedes.refl (p : Position) : p.Precedes p := .inr ⟨rfl, Nat.le_refl _⟩

theorem Precedes.trans (hpq : p.Precedes q) (hqr : q.Precedes r) : p.Precedes r := by
  unfold Precedes at *
  omega

theorem origin_precedes (p : Position) : Precedes ⟨0, 0⟩ p := by
  rcases Nat.eq_zero_or_pos p.line with h | h
  · exact .inr ⟨h.symm, Nat.zero_le _⟩
  · exact .inl h

theorem after_cons (hc : ¬ (c = '\r' ∨ c = '\n')) :
    p.after (c :: cs) = after ⟨p.line, p.character + Text.unit16Size c⟩ cs := by
  rw [after, if_neg hc]
  exact fun _ hr _ => hc (.inl hr)

theorem after_line (hb : Text.OnOneLine body) :
    p.after (body ++ rest) = after ⟨p.line, p.character + Text.size16 body⟩ rest := by
  induction body generalizing p with
  | nil => rfl
  | cons c cs ih =>
    have hc := hb c List.mem_cons_self
    have hcs : Text.OnOneLine cs := fun d hd => hb d (List.mem_cons_of_mem c hd)
    have hsum : p.character + Text.unit16Size c + Text.size16 cs =
        p.character + Text.size16 (c :: cs) := Nat.add_assoc _ _ _
    rw [List.cons_append, after_cons (not_or.2 hc), ih hcs, hsum]

theorem after_break (hk : Text.Break brk rest) :
    p.after (brk ++ rest) = after ⟨p.line + 1, 0⟩ rest := by
  cases hk with
  | pair => simp [after]
  | lf => simp [after]
  | cr h =>
    rw [List.singleton_append, after, if_pos (.inl rfl)]
    rintro cs - rfl
    exact h rfl

/-- Characters lead forwards. -/
theorem precedes_after (p : Position) (cs : List Char) : p.Precedes (p.after cs) := by
  induction p, cs using after.induct with
  | case1 p => exact .refl p
  | case2 p cs ih => exact Precedes.trans (.inl (Nat.lt_succ_self _)) ih
  | case3 p c cs hpair hc ih =>
    rw [← List.singleton_append, after_break (Text.break_single hc hpair)]
    exact Precedes.trans (.inl (Nat.lt_succ_self _)) ih
  | case4 p c cs hpair hc ih =>
    have hstep : p.Precedes ⟨p.line, p.character + Text.unit16Size c⟩ :=
      .inr ⟨rfl, Nat.le_add_right _ _⟩
    rw [after_cons hc]
    exact hstep.trans ih

theorem precedes_after_break (hc : c = '\r' ∨ c = '\n') (cs : List Char) :
    Precedes ⟨p.line + 1, 0⟩ (p.after (c :: cs)) := by
  by_cases hpair : ∃ ds, c = '\r' ∧ cs = '\n' :: ds
  · obtain ⟨ds, rfl, rfl⟩ := hpair
    exact precedes_after _ ds
  · have hk := Text.break_single hc fun ds hr hcs => hpair ⟨ds, hr, hcs⟩
    rw [← List.singleton_append, after_break hk]
    exact precedes_after _ cs

/-- More characters never lead to an earlier place. -/
theorem after_precedes_append (p : Position) (xs ys : List Char) :
    (p.after xs).Precedes (p.after (xs ++ ys)) := by
  induction p, xs using after.induct with
  | case1 p => exact precedes_after p ys
  | case2 p cs ih => exact ih
  | case3 p c cs hpair hc ih =>
    have hc₁ : p.after (c :: cs) = after ⟨p.line + 1, 0⟩ cs :=
      after_break (Text.break_single hc hpair)
    rw [hc₁]
    cases cs with
    -- The characters may end within a line break.
    | nil => exact precedes_after_break hc ys
    | cons d ds =>
      have hpair' : ∀ es, c = '\r' → d :: (ds ++ ys) = '\n' :: es → False := by
        intro es hr heq
        cases heq
        exact hpair ds hr rfl
      have hc₂ : p.after (c :: (d :: ds ++ ys)) = after ⟨p.line + 1, 0⟩ (d :: ds ++ ys) :=
        after_break (Text.break_single hc hpair')
      rw [List.cons_append, hc₂]
      exact ih
  | case4 p c cs hpair hc ih =>
    rw [List.cons_append, after_cons hc, after_cons hc]
    exact ih

end Position

section
variable {n line offset : Nat} {whole before cs xs ys : List Char} {l k : Line} {ls : List Line}

/-- The place of an offset of a text, sought in lines of which the first has the given number. -/
def placeIn (whole : List Char) (line : Nat) (ls : List Line) (offset : Nat) : Option Position :=
  let index := ls.countP (·.start ≤ offset) - 1
  let column := offset - (ls[index]?.map (·.start)).getD 0
  if ls[index]?.any (·.length < column) then some ⟨line + index + 1, 0⟩
  else (Text.slice? whole (offset - column) column).map fun cs => ⟨line + index, Text.size16 cs⟩

theorem position?_eq {t : SourceText} (h : offset ≤ t.size) :
    position? t offset = placeIn t.chars 0 t.lines offset := by
  simp only [position?, placeIn, Nat.min_eq_left h, SourceText.lineColumn, SourceText.lineIndex,
    SourceText.slice?, Nat.zero_add]

/-- An offset before all other lines belongs to the first. -/
theorem placeIn_first (hl : l.start ≤ offset) (hls : ∀ k ∈ ls, offset < k.start) :
    placeIn whole line (l :: ls) offset =
      if l.length < offset - l.start then some ⟨line + 1, 0⟩
      else (Text.slice? whole l.start (offset - l.start)).map fun cs => ⟨line, Text.size16 cs⟩ := by
  have hnone : ls.countP (·.start ≤ offset) = 0 :=
    List.countP_eq_zero.2 fun k hk => by simpa using hls k hk
  have hcount : (l :: ls).countP (·.start ≤ offset) - 1 = 0 := by
    rw [List.countP_cons_of_pos (by simpa using hl), hnone]
  have hback : offset - (offset - l.start) = l.start := by omega
  have hfirst : (l :: ls)[0]? = some l := rfl
  rw [placeIn, hcount, hfirst, Option.map_some, Option.getD_some, Option.any_some, hback]
  by_cases h : l.length < offset - l.start
  · rw [if_pos (decide_eq_true h), if_pos h]
  · rw [if_neg fun hd => h (of_decide_eq_true hd), if_neg h]
    rfl

/-- Behind the first line, but before the second, there is its break. -/
theorem placeIn_break (hl : l.start + l.length < offset) (hls : ∀ k ∈ ls, offset < k.start) :
    placeIn whole line (l :: ls) offset = some ⟨line + 1, 0⟩ := by
  rw [placeIn_first (by omega) hls, if_pos (by omega)]

/-- An offset in or behind the second line is looked for from there. -/
theorem placeIn_rest (hl : l.start ≤ offset) (hk : k.start ≤ offset) :
    placeIn whole line (l :: k :: ls) offset = placeIn whole (line + 1) (k :: ls) offset := by
  have hcount : (l :: k :: ls).countP (·.start ≤ offset) - 1 =
      ((k :: ls).countP (·.start ≤ offset) - 1) + 1 := by
    rw [List.countP_cons_of_pos (by simpa using hl), List.countP_cons_of_pos (by simpa using hk)]
    rfl
  have hline : ∀ index, line + (index + 1) = line + 1 + index := fun index => by omega
  rw [placeIn, placeIn, hcount, List.getElem?_cons_succ, hline]

/-- The place of an offset within the first line. -/
theorem placeIn_body (hx : Text.OnOneLine xs)
    (hls : ∀ k ∈ ls, Text.size before + Text.size xs < k.start)
    (hl : l.start = Text.size before) (hlength : Text.size xs ≤ l.length) :
    placeIn (before ++ (xs ++ ys)) line (l :: ls) (Text.size before + Text.size xs) =
      some (Position.after ⟨line, 0⟩ xs) := by
  have hafter : Position.after ⟨line, 0⟩ xs = ⟨line, Text.size16 xs⟩ := by
    have h := @Position.after_line ⟨line, 0⟩ xs [] hx
    rw [List.append_nil, Nat.zero_add] at h
    exact h
  have hcolumn : Text.size before + Text.size xs - Text.size before = Text.size xs := by omega
  rw [placeIn_first (by omega) hls, hl, hcolumn, if_neg (by omega), ← List.append_assoc,
    Text.slice?_append, hafter]
  rfl

/-- The place of an offset between two characters is where the characters before it lead. -/
theorem placeIn_of_rows (h : Text.Rows n cs ls) (hn : n = Text.size before) (hcs : cs = xs ++ ys)
    (hne : cs ≠ []) :
    placeIn (before ++ cs) line ls (n + Text.size xs) = some (Position.after ⟨line, 0⟩ xs) := by
  induction h generalizing before line xs with
  | nil => exact absurd rfl hne
  | @last body n hb =>
    subst hcs hn
    have hx : Text.OnOneLine xs := fun c hc => hb c (List.mem_append_left ys hc)
    refine placeIn_body hx (by simp) rfl ?_
    rw [Text.size_append]
    exact Nat.le_add_right _ _
  | @cons n body brk rest ls hb hk hrows ih =>
    have hlater := hrows.start_le
    have hbrk := hk.pos
    have hsize : Text.size (body ++ brk) = Text.size body + Text.size brk := Text.size_append _ _
    rw [List.append_assoc] at hcs ⊢
    rcases hk.cut hcs with ⟨mid, rfl⟩ | ⟨rfl, rfl⟩ | ⟨tail, rfl, rfl⟩
    · have hx : Text.OnOneLine xs := fun c hc => hb c (List.mem_append_left mid hc)
      have hxs : Text.size xs ≤ Text.size (xs ++ mid) := by
        rw [Text.size_append]
        exact Nat.le_add_right _ _
      subst hn
      rw [List.append_assoc]
      refine placeIn_body hx (fun k hk => ?_) rfl hxs
      have hstart := hlater k hk
      omega
    · have hpair : Text.size ['\r', '\n'] = 2 := rfl
      have hxs : Text.size (body ++ ['\r']) = Text.size body + 1 := Text.size_append _ _
      have hafter : Position.after ⟨line, 0⟩ (body ++ ['\r']) = ⟨line + 1, 0⟩ := by
        rw [Position.after_line hb]
        rfl
      rw [hafter]
      refine placeIn_break ?_ fun k hk => ?_
      · show n + Text.size body < n + Text.size (body ++ ['\r'])
        omega
      · have hstart := hlater k hk
        omega
    · have hxs : Text.size (body ++ (brk ++ tail)) = Text.size (body ++ brk) + Text.size tail := by
        rw [← List.append_assoc, Text.size_append]
      rw [Position.after_line hb, Position.after_break hk.left]
      by_cases hrest : tail ++ ys = []
      · obtain ⟨rfl, rfl⟩ := List.append_eq_nil_iff.1 hrest
        rw [hrows.eq_nil]
        refine placeIn_break ?_ (by simp)
        show n + Text.size body < n + Text.size (body ++ (brk ++ []))
        omega
      · obtain ⟨l, ls', rfl, hl⟩ := hrows.head hrest
        have hbefore : n + Text.size (body ++ brk) = Text.size (before ++ (body ++ brk)) := by
          rw [Text.size_append before, hn]
        have hoffset : n + Text.size (body ++ (brk ++ tail)) =
            n + Text.size (body ++ brk) + Text.size tail := by omega
        have hstart : l.start ≤ n + Text.size (body ++ brk) + Text.size tail := by omega
        have hfirst : n ≤ n + Text.size (body ++ brk) + Text.size tail := by omega
        have hnext : placeIn (before ++ (body ++ brk) ++ (tail ++ ys)) (line + 1) (l :: ls')
            (n + Text.size (body ++ brk) + Text.size tail) =
            some (Position.after ⟨line + 1, 0⟩ tail) := ih hbefore rfl hrest
        rw [hoffset, placeIn_rest hfirst hstart, ← hnext]
        simp

/-- The place of an offset between two characters is where the characters before it lead. -/
theorem position?_append {t : SourceText} (h : t.chars = xs ++ ys) :
    position? t (Text.size xs) = some (Position.after ⟨0, 0⟩ xs) := by
  have hsize : t.size = Text.size xs + Text.size ys := by rw [t.size_eq, h, Text.size_append]
  rw [position?_eq (by omega)]
  by_cases hne : t.chars = []
  · obtain ⟨rfl, rfl⟩ := List.append_eq_nil_iff.1 (h.symm.trans hne)
    have hlines := Text.rows_lines t
    rw [hne] at hlines
    rw [hne, hlines.eq_nil]
    rfl
  · have hplace : placeIn ([] ++ t.chars) 0 t.lines (0 + Text.size xs) =
        some (Position.after ⟨0, 0⟩ xs) := placeIn_of_rows (Text.rows_lines t) rfl h hne
    rwa [Nat.zero_add] at hplace

/-- Later cuts have later places. -/
theorem position?_of_le {t : SourceText} {a b : Nat} (ha : Text.IsCut t.chars a)
    (hb : Text.IsCut t.chars b) (h : a ≤ b) :
    ∃ p q, position? t a = some p ∧ position? t b = some q ∧ p.Precedes q := by
  obtain ⟨front, mid, back, hsplit, rfl, rfl⟩ := ha.between hb h
  have hfront : t.chars = front ++ (mid ++ back) := by rw [hsplit, List.append_assoc]
  exact ⟨_, _, position?_append hfront, position?_append hsplit,
    Position.after_precedes_append _ front mid⟩

theorem exists_position {t : SourceText} (h : Text.IsCut t.chars offset) :
    ∃ p, position? t offset = some p := by
  obtain ⟨p, -, hp, -⟩ := position?_of_le h h (Nat.le_refl offset)
  exact ⟨p, hp⟩

end
end MiniPascal.Editor
