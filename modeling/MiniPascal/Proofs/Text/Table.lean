import Mathlib.Algebra.GroupWithZero.Nat
import MiniPascal.Proofs.Text.Lines

/-! The line table of a text. Its lines follow one another from the beginning of the text to its
end, each but possibly the last ends with one break, and every offset belongs to one line. -/
namespace MiniPascal
namespace Text

/-- A line of a text that begins at an offset, and its characters without a break. Only the end of
the text can end a line that has no break. -/
inductive Row (n : Nat) : List Char → Line → List Char → Prop
  | broken (before : List Char) {body brk behind : List Char} (hb : OnOneLine body)
    (hk : Break brk behind) : Row n (before ++ body ++ (brk ++ behind))
      ⟨n + size before, size body, size body + size brk⟩ body
  | unbroken (before : List Char) {body : List Char} (hb : OnOneLine body) (hne : body ≠ []) :
    Row n (before ++ body) ⟨n + size before, size body, size body⟩ body

section
variable {n i p : Nat} {cs body : List Char} {l m : Line} {ls : List Line}

/-- A line behind other characters. -/
theorem Row.append (front : List Char) (h : Row (n + size front) cs l body) :
    Row n (front ++ cs) l body := by
  cases h with
  | broken before hb hk =>
    rw [Nat.add_assoc, ← size_append, ← List.append_assoc, ← List.append_assoc front]
    exact .broken (front ++ before) hb hk
  | unbroken before hb hne =>
    rw [Nat.add_assoc, ← size_append, ← List.append_assoc]
    exact .unbroken (front ++ before) hb hne

/-- Every line of the table is one of the text. -/
theorem Rows.row (h : Rows n cs ls) (hl : l ∈ ls) : ∃ body, Row n cs l body := by
  induction h with
  | nil => cases hl
  | @last body n hb hne =>
    rw [List.mem_singleton] at hl
    subst hl
    exact ⟨body, .unbroken [] hb hne⟩
  | @cons n body brk rest ls hb hk hrows ih =>
    rcases List.mem_cons.1 hl with rfl | hl
    · rw [size_append, List.append_assoc]
      exact ⟨body, .broken [] hb hk⟩
    · obtain ⟨own, hrow⟩ := ih hl
      exact ⟨own, hrow.append (body ++ brk)⟩

theorem Row.stop_le (h : Row n cs l body) : l.start + l.fullLength ≤ n + size cs := by
  cases h with
  | broken =>
    simp only [size_append]
    omega
  | unbroken => simp only [size_append, Nat.add_assoc, Nat.le_refl]

/-- No line is without characters. -/
theorem Row.pos (h : Row n cs l body) : 1 ≤ l.fullLength := by
  cases h with
  | broken before hb hk => exact Nat.le_trans hk.pos (Nat.le_add_left _ _)
  | unbroken before hb hne => exact size_pos hne

/-- A line has no break if it is at the end of a text that does not end with one. -/
theorem Row.unbroken_iff (h : Row n cs l body) :
    l.fullLength = l.length ↔ l.start + l.fullLength = n + size cs ∧ ¬ EndsInBreak cs := by
  cases h with
  | @broken before body brk behind hb hk =>
    have hpos := hk.pos
    simp only [size_append]
    constructor
    · intro h
      omega
    · rintro ⟨hstop, hnot⟩
      cases behind with
      | nil =>
        rw [List.append_nil] at hnot
        exact absurd hk.endsInBreak hnot
      | cons c behind =>
        have hbehind := size_pos (List.cons_ne_nil c behind)
        omega
  | @unbroken before body hb hne =>
    rw [size_append, Nat.add_assoc]
    refine ⟨fun _ => ⟨rfl, ?_⟩, fun _ => rfl⟩
    rintro ⟨c, hc, hbreak⟩
    rw [List.getLast?_append, List.getLast?_eq_some_getLast hne] at hc
    refine not_endsInBreak hb ⟨c, ?_, hbreak⟩
    rwa [List.getLast?_eq_some_getLast hne]

theorem Row.slice? (h : Row 0 cs l body) : slice? cs l.start l.length = some body := by
  cases h with
  | broken =>
    rw [Nat.zero_add]
    exact slice?_append
  | unbroken before =>
    rw [Nat.zero_add, ← List.append_nil (before ++ body)]
    exact slice?_append

/-- The lines of a text take it up. -/
theorem Rows.sum_eq (h : Rows n cs ls) : (ls.map (·.fullLength)).sum = size cs := by
  induction h with
  | nil => rfl
  | last => simp
  | cons _ _ _ ih => rw [List.map_cons, List.sum_cons, ih, ← size_append]

/-- A line begins where those before it end. -/
theorem Rows.start_eq (h : Rows n cs ls) (hi : ls[i]? = some l) :
    l.start = n + ((ls.take i).map (·.fullLength)).sum := by
  induction h generalizing i with
  | nil => cases hi
  | last =>
    cases i with
    | zero =>
      cases hi
      rfl
    | succ i => cases hi
  | cons hb hk hrows ih =>
    cases i with
    | zero =>
      cases hi
      rfl
    | succ i =>
      rw [List.take_succ_cons, List.map_cons, List.sum_cons, ← Nat.add_assoc]
      exact ih hi

/-- A line ends where the next begins. -/
theorem Rows.stop_eq (h : Rows n cs ls) (hi : ls[i]? = some l) :
    l.start + l.fullLength = n + ((ls.take (i + 1)).map (·.fullLength)).sum := by
  rw [h.start_eq hi, List.take_add_one, hi]
  simp [Nat.add_assoc]

/-- Later lines begin later. -/
theorem Rows.increasing (h : Rows n cs ls) : ls.Pairwise (·.start < ·.start) := by
  induction h with
  | nil => exact .nil
  | last => exact List.pairwise_singleton _ _
  | @cons n body brk rest ls hb hk hrows ih =>
    refine List.pairwise_cons.2 ⟨fun k hk' => ?_, ih⟩
    have hstart := hrows.start_le k hk'
    have hpos := hk.pos
    rw [size_append] at hstart
    show n < k.start
    omega

theorem Rows.next_eq (h : Rows n cs ls) (hi : ls[i]? = some l) (hm : ls[i + 1]? = some m) :
    m.start = l.start + l.fullLength := by
  rw [h.start_eq hm, h.stop_eq hi]

/-- The last line is the one that ends with the text. -/
theorem Rows.last_iff (h : Rows n cs ls) (hi : ls[i]? = some l) :
    i + 1 = ls.length ↔ l.start + l.fullLength = n + size cs := by
  have hlt := (List.getElem?_eq_some_iff.1 hi).1
  constructor
  · intro hlast
    rw [h.stop_eq hi, hlast, List.take_length, h.sum_eq]
  · intro hstop
    rcases Nat.lt_or_ge (i + 1) ls.length with hnext | hnone
    · -- A further line would lie behind the text.
      have hm : ls[i + 1]? = some ls[i + 1] := List.getElem?_eq_getElem hnext
      obtain ⟨body, hrow⟩ := h.row (List.mem_of_getElem? hm)
      have hle := hrow.stop_le
      have hpos := hrow.pos
      have hstart := h.next_eq hi hm
      omega
    · omega

/-- The lines that begin up to an offset are the first ones. -/
theorem lt_countP_iff (hls : ls.Pairwise (·.start < ·.start)) (hi : ls[i]? = some l) :
    i < ls.countP (·.start ≤ p) ↔ l.start ≤ p := by
  induction ls generalizing i with
  | nil => cases hi
  | cons k ls ih =>
    obtain ⟨hk, hls⟩ := List.pairwise_cons.1 hls
    by_cases hp : k.start ≤ p
    · rw [List.countP_cons_of_pos (by simpa using hp)]
      cases i with
      | zero =>
        cases hi
        simpa using hp
      | succ i =>
        rw [Nat.succ_lt_succ_iff]
        exact ih hls hi
    · have hnone : (k :: ls).countP (·.start ≤ p) = 0 := List.countP_eq_zero.2 fun d hd => by
        rcases List.mem_cons.1 hd with rfl | hd
        · simpa using hp
        · have hlater := hk d hd
          simp only [decide_eq_true_eq]
          omega
      have hlater : k.start ≤ l.start := by
        rcases List.mem_cons.1 (List.mem_of_getElem? hi) with rfl | hl
        · exact Nat.le_refl _
        · exact Nat.le_of_lt (hk l hl)
      rw [hnone]
      omega

end
end Text

namespace SourceText

/-- What a line table says about its text. -/
structure Table (t : SourceText) : Prop where
  /-- The lines follow one another from the beginning of the text. -/
  contiguous : ∀ i l, t.lines[i]? = some l →
    l.start = ((t.lines.take i).map (·.fullLength)).sum
  /-- Together they are as long as the text. -/
  covering : (t.lines.map (·.fullLength)).sum = t.size
  /-- The text of a line is on one line, and one break is behind it, or the end of the text. -/
  rows : ∀ i l, t.lines[i]? = some l →
    ∃ body, t.lineText? i = some body ∧ Text.Row 0 t.chars l body
  /-- Only a last line can be without a break, and it is if the text does not end with one. -/
  unbroken : ∀ i l, t.lines[i]? = some l →
    (l.fullLength = l.length ↔ i + 1 = t.lines.length ∧ ¬ Text.EndsInBreak t.chars)
  /-- Later lines begin later. -/
  increasing : t.lines.Pairwise (·.start < ·.start)
  /-- The lines up to that of an offset are those that begin up to it, so that it can be searched
  for. -/
  searched : ∀ p i l, t.lines[i]? = some l → (i ≤ t.lineIndex p ↔ l.start ≤ p)
  /-- The line of an offset in the text is the one that the offset is in. -/
  inside : ∀ p, p < t.size → ∀ i, t.lineIndex p = i ↔
    ∃ l, t.lines[i]? = some l ∧ l.start ≤ p ∧ p < l.start + l.fullLength
  /-- Other offsets belong to the last line, if there is one. -/
  beyond : ∀ p, t.size ≤ p → t.lineIndex p = t.lines.length - 1
  /-- Only a text without characters has no lines. -/
  empty : t.lines = [] ↔ t.size = 0
  /-- Later offsets belong to later lines. -/
  monotone : ∀ p q, p ≤ q → t.lineIndex p ≤ t.lineIndex q
  /-- The column of an offset leads from the beginning of its line to it. -/
  column : ∀ p, ∃ c, t.lineColumn p = (t.lineIndex p, c) ∧
    (t.lines[t.lineIndex p]?.map (·.start)).getD 0 + c = p

variable {t : SourceText} {i p : Nat} {l : Line}

theorem lines_eq_nil_iff : t.lines = [] ↔ t.size = 0 := by
  have hsum := (Text.rows_lines t).sum_eq
  rw [← t.size_eq] at hsum
  constructor
  · intro hnil
    rw [← hsum, hnil]
    rfl
  · intro hzero
    refine List.eq_nil_iff_forall_not_mem.2 fun l hl => ?_
    obtain ⟨body, hrow⟩ := (Text.rows_lines t).row hl
    have hstop := hrow.stop_le
    have hpos := hrow.pos
    rw [← t.size_eq] at hstop
    omega

/-- A line begins up to an offset if it is not behind the line of the offset. -/
theorem le_lineIndex_iff (hi : t.lines[i]? = some l) : i ≤ t.lineIndex p ↔ l.start ≤ p := by
  have hlt := (List.getElem?_eq_some_iff.1 hi).1
  have hfirst : t.lines[0]? = some t.lines[0] := List.getElem?_eq_getElem (by omega)
  have hstart : t.lines[0].start = 0 := (Text.rows_lines t).start_eq hfirst
  have hcount : 0 < t.lines.countP (·.start ≤ p) :=
    (Text.lt_countP_iff (Text.rows_lines t).increasing hfirst).2 (by omega)
  rw [← Text.lt_countP_iff (Text.rows_lines t).increasing hi, lineIndex]
  omega

theorem lineIndex_lt (hne : t.lines ≠ []) (p : Nat) : t.lineIndex p < t.lines.length := by
  have hle : t.lines.countP (·.start ≤ p) ≤ t.lines.length := List.countP_le_length
  have hpos := List.length_pos_iff.2 hne
  rw [lineIndex]
  omega

/-- The line of an offset begins up to it. -/
theorem exists_line (hne : t.lines ≠ []) (p : Nat) :
    ∃ l, t.lines[t.lineIndex p]? = some l ∧ l.start ≤ p := by
  have hindex := lineIndex_lt hne p
  have hl : t.lines[t.lineIndex p]? = some t.lines[t.lineIndex p] := List.getElem?_eq_getElem hindex
  exact ⟨_, hl, (le_lineIndex_iff hl).1 (Nat.le_refl _)⟩

/-- A line that begins up to an offset and ends behind it is that of the offset. -/
theorem lineIndex_eq (hi : t.lines[i]? = some l) (hstart : l.start ≤ p)
    (hstop : p < l.start + l.fullLength) : t.lineIndex p = i := by
  have hle := (le_lineIndex_iff hi).2 hstart
  rcases Nat.lt_or_ge i (t.lineIndex p) with hlt | hge
  · -- The next line would begin up to the offset too.
    have hne : t.lines ≠ [] := List.ne_nil_of_mem (List.mem_of_getElem? hi)
    have hindex := lineIndex_lt hne p
    have hm : t.lines[i + 1]? = some t.lines[i + 1] := List.getElem?_eq_getElem (by omega)
    have hnext := (le_lineIndex_iff (p := p) hm).1 hlt
    rw [(Text.rows_lines t).next_eq hi hm] at hnext
    omega
  · omega

/-- An offset in the text is in its line. -/
theorem exists_line_of_lt (h : p < t.size) :
    ∃ l, t.lines[t.lineIndex p]? = some l ∧ l.start ≤ p ∧ p < l.start + l.fullLength := by
  have hne : t.lines ≠ [] := fun hnil => by
    have hzero := lines_eq_nil_iff.1 hnil
    omega
  obtain ⟨l, hl, hstart⟩ := exists_line hne p
  refine ⟨l, hl, hstart, ?_⟩
  rcases Nat.lt_or_ge (t.lineIndex p + 1) t.lines.length with hnext | hlast
  · have hm : t.lines[t.lineIndex p + 1]? = some t.lines[t.lineIndex p + 1] :=
      List.getElem?_eq_getElem hnext
    rw [← (Text.rows_lines t).next_eq hl hm]
    have hbehind := (not_congr (le_lineIndex_iff (p := p) hm)).1 (by omega)
    omega
  · have hindex := lineIndex_lt hne p
    have hstop := ((Text.rows_lines t).last_iff hl).1 (by omega)
    rw [hstop, ← t.size_eq]
    omega

theorem lineIndex_of_le (h : t.size ≤ p) : t.lineIndex p = t.lines.length - 1 := by
  by_cases hne : t.lines = []
  · simp [lineIndex, hne]
  · have hindex := lineIndex_lt hne p
    have hl : t.lines[t.lines.length - 1]? = some t.lines[t.lines.length - 1] :=
      List.getElem?_eq_getElem (by omega)
    obtain ⟨body, hrow⟩ := (Text.rows_lines t).row (List.mem_of_getElem? hl)
    have hstop := hrow.stop_le
    rw [← t.size_eq] at hstop
    have hlast := (le_lineIndex_iff (p := p) hl).2 (by omega)
    omega

/-- The line table of every text is as it should be. -/
theorem lines_table (t : SourceText) : t.Table where
  contiguous i l hi := by
    have hstart := (Text.rows_lines t).start_eq hi
    rwa [Nat.zero_add] at hstart
  covering := by rw [(Text.rows_lines t).sum_eq, t.size_eq]
  rows i l hi := by
    obtain ⟨body, hrow⟩ := (Text.rows_lines t).row (List.mem_of_getElem? hi)
    refine ⟨body, ?_, hrow⟩
    rw [lineText?, hi]
    exact hrow.slice?
  unbroken i l hi := by
    obtain ⟨body, hrow⟩ := (Text.rows_lines t).row (List.mem_of_getElem? hi)
    rw [hrow.unbroken_iff, (Text.rows_lines t).last_iff hi]
  increasing := (Text.rows_lines t).increasing
  searched _ _ _ hi := le_lineIndex_iff hi
  inside p h i := by
    constructor
    · rintro rfl
      exact exists_line_of_lt h
    · rintro ⟨l, hi, hstart, hstop⟩
      exact lineIndex_eq hi hstart hstop
  beyond p h := lineIndex_of_le h
  empty := lines_eq_nil_iff
  monotone p q h := by
    have hmono : t.lines.countP (·.start ≤ p) ≤ t.lines.countP (·.start ≤ q) :=
      List.countP_mono_left fun l _ hl => by
        simp only [decide_eq_true_eq] at hl ⊢
        exact Nat.le_trans hl h
    rw [lineIndex, lineIndex]
    omega
  column p := by
    refine ⟨_, rfl, ?_⟩
    by_cases hne : t.lines = []
    · simp [hne]
    · obtain ⟨l, hl, hstart⟩ := exists_line hne p
      rw [hl]
      exact Nat.add_sub_cancel' hstart

end SourceText
end MiniPascal
