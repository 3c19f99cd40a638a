import MiniPascal.Text.Line
import MiniPascal.Proofs.Text.Cut

/-! How a text divides into lines: stretches without a break, each but possibly the last with the
break that ends it. -/
namespace MiniPascal
namespace Text

/-- There is no line break in the characters. -/
def OnOneLine (cs : List Char) : Prop := ∀ c ∈ cs, c ≠ '\r' ∧ c ≠ '\n'

/-- A line break ends the characters. -/
def EndsInBreak (cs : List Char) : Prop := ∃ c ∈ cs.getLast?, c = '\r' ∨ c = '\n'

/-- A line break, and what can stand behind it. -/
inductive Break : List Char → List Char → Prop
  | pair (rest : List Char) : Break ['\r', '\n'] rest
  | cr {rest : List Char} (h : rest.head? ≠ some '\n') : Break ['\r'] rest
  | lf (rest : List Char) : Break ['\n'] rest

/-- The lines of a text that begins at an offset. -/
inductive Rows : Nat → List Char → List Line → Prop
  | nil (n : Nat) : Rows n [] []
  | last {body : List Char} (n : Nat) (hb : OnOneLine body) (hne : body ≠ []) :
    Rows n body [⟨n, size body, size body⟩]
  | cons {n : Nat} {body brk rest : List Char} {ls : List Line} (hb : OnOneLine body)
    (hk : Break brk rest) (h : Rows (n + size (body ++ brk)) rest ls) :
    Rows n (body ++ brk ++ rest) (⟨n, size body, size (body ++ brk)⟩ :: ls)

variable {n : Nat} {c : Char} {cs body brk rest xs ys : List Char} {l : Line} {ls : List Line}

theorem OnOneLine.concat (h : OnOneLine body) (hr : c ≠ '\r') (hn : c ≠ '\n') :
    OnOneLine (body ++ [c]) := by
  intro d hd
  rcases List.mem_append.1 hd with hd | hd
  · exact h d hd
  · rw [List.mem_singleton] at hd
    subst hd
    exact ⟨hr, hn⟩

theorem not_endsInBreak (hx : OnOneLine body) : ¬ EndsInBreak body := by
  rintro ⟨c, hc, hbreak⟩
  have hline := hx c (List.mem_of_getLast? hc)
  rcases hbreak with rfl | rfl
  · exact hline.1 rfl
  · exact hline.2 rfl

theorem Break.endsInBreak (h : Break brk rest) : EndsInBreak (body ++ brk) := by
  cases h with
  | pair => exact ⟨'\n', by simp, .inr rfl⟩
  | lf => exact ⟨'\n', by simp, .inr rfl⟩
  | cr => exact ⟨'\r', by simp, .inl rfl⟩

theorem Break.pos (h : Break brk rest) : 1 ≤ size brk := by
  cases h <;> exact size_pos (List.cons_ne_nil _ _)

/-- A break of one character. -/
theorem break_single (hc : c = '\r' ∨ c = '\n') (hpair : ∀ ds, c = '\r' → cs = '\n' :: ds → False) :
    Break [c] cs := by
  rcases hc with rfl | rfl
  · refine .cr fun hlf => ?_
    obtain ⟨ds, rfl⟩ := List.head?_eq_some_iff.1 hlf
    exact hpair ds rfl rfl
  · exact .lf cs

theorem OnOneLine.nil : OnOneLine [] := fun _ hc => absurd hc List.not_mem_nil

/-- A line of which the break begins at an offset. -/
theorem Rows.break {offset : Nat} (hb : OnOneLine body) (hk : Break brk rest)
    (ho : offset = n + size body) (hr : Rows (offset + size brk) rest ls) :
    Rows n (body ++ (brk ++ rest)) (⟨n, offset - n, offset - n + size brk⟩ :: ls) := by
  have hsize : size (body ++ brk) = size body + size brk := size_append body brk
  have hlength : offset - n = size body := by omega
  have hstop : offset + size brk = n + size (body ++ brk) := by omega
  rw [hstop] at hr
  rw [hlength, ← hsize, ← List.append_assoc]
  exact .cons hb hk hr

/-- The rows of a text whose first line has been read up to an offset. -/
theorem split_rows {offset : Nat} (hb : OnOneLine body) (ho : offset = n + size body) :
    Rows n (body ++ cs) (Line.split n offset cs) := by
  induction n, offset, cs using Line.split.induct generalizing body with
  | case1 n offset h =>
    have hlength : offset - n = size body := by omega
    have hne : body ≠ [] := by
      rintro rfl
      rw [size_nil] at ho
      omega
    rw [List.append_nil, Line.split, if_pos h, hlength]
    exact .last n hb hne
  | case2 n offset h =>
    obtain rfl : body = [] := by
      cases body with
      | nil => rfl
      | cons c cs =>
        have hpos : 1 ≤ size (c :: cs) := size_pos (List.cons_ne_nil c cs)
        omega
    rw [Line.split, if_neg h]
    exact .nil n
  | case3 n offset cs ih =>
    have hrows := Rows.break hb (.pair cs) ho (ih .nil rfl)
    rwa [Line.split]
  | case4 n offset c cs hpair hc ih =>
    have hone : size [c] = 1 := by rcases hc with rfl | rfl <;> rfl
    have hrows := Rows.break hb (break_single hc hpair) ho (hone.symm ▸ ih .nil rfl)
    rw [hone] at hrows
    rw [Line.split, if_pos hc]
    · exact hrows
    · exact hpair
  | case5 n offset c cs hpair hc ih =>
    have hc' : c ≠ '\r' ∧ c ≠ '\n' := not_or.1 hc
    have hnext : offset + c.utf8Size = n + size (body ++ [c]) := by
      rw [size_append, size_cons, size_nil]
      omega
    have hrows := ih (hb.concat hc'.1 hc'.2) hnext
    rw [List.append_assoc] at hrows
    rw [Line.split, if_neg hc]
    · exact hrows
    · exact hpair

/-- The line table of a text is made up of its lines. -/
theorem rows_lines (t : SourceText) : Rows 0 t.chars t.lines := by
  rw [t.lines_eq]
  exact split_rows .nil rfl

/-- No line begins before the text. -/
theorem Rows.start_le (h : Rows n cs ls) : ∀ l ∈ ls, n ≤ l.start := by
  induction h with
  | nil => intro l hl; cases hl
  | last =>
    intro l hl
    rw [List.mem_singleton] at hl
    subst hl
    exact Nat.le_refl _
  | cons _ _ _ ih =>
    intro l hl
    rcases List.mem_cons.1 hl with rfl | hl
    · exact Nat.le_refl _
    · exact Nat.le_trans (Nat.le_add_right _ _) (ih l hl)

/-- Whether a break is a break shows in what follows first. -/
theorem Break.left (h : Break brk (xs ++ ys)) : Break brk xs := by
  cases h with
  | pair => exact .pair xs
  | lf => exact .lf xs
  | cr h =>
    refine .cr fun hlf => h ?_
    obtain ⟨cs, rfl⟩ := List.head?_eq_some_iff.1 hlf
    rfl

/-- A cut of a text is in or behind its first line, in the break that ends it, or behind that. -/
theorem Break.cut (hk : Break brk rest) (h : body ++ (brk ++ rest) = xs ++ ys) :
    (∃ mid, body = xs ++ mid) ∨ (xs = body ++ ['\r'] ∧ brk = ['\r', '\n']) ∨
      ∃ tail, xs = body ++ (brk ++ tail) ∧ rest = tail ++ ys := by
  rcases List.append_eq_append_iff.1 h with ⟨mid, rfl, hmid⟩ | ⟨mid, hbody, -⟩
  · rcases mid with _ | ⟨c, mid⟩
    · exact .inl ⟨[], by simp⟩
    · cases hk with
      | cr | lf =>
        obtain ⟨rfl, rfl⟩ := List.cons.inj hmid
        exact .inr (.inr ⟨mid, rfl, rfl⟩)
      | pair =>
        obtain ⟨rfl, hrest⟩ := List.cons.inj hmid
        rcases mid with _ | ⟨d, mid⟩
        · exact .inr (.inl ⟨rfl, rfl⟩)
        · obtain ⟨rfl, rfl⟩ := List.cons.inj hrest
          exact .inr (.inr ⟨mid, rfl, rfl⟩)
  · exact .inl ⟨mid, hbody⟩

/-- The first line begins where the text does. -/
theorem Rows.head (h : Rows n cs ls) (hne : cs ≠ []) : ∃ l ls', ls = l :: ls' ∧ l.start = n := by
  cases h with
  | nil => exact absurd rfl hne
  | last => exact ⟨_, [], rfl, rfl⟩
  | cons => exact ⟨_, _, rfl, rfl⟩

theorem Rows.eq_nil (h : Rows n [] ls) : ls = [] := by
  generalize hcs : ([] : List Char) = cs at h
  cases h with
  | nil => rfl
  | last _ _ hne => exact absurd hcs.symm hne
  | cons _ hk _ =>
    have hbrk := hk.pos
    have hsize := congrArg size hcs
    simp only [size_nil, size_append] at hsize
    omega

end Text
end MiniPascal
