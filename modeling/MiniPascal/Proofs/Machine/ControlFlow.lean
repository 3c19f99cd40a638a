import Mathlib.Data.List.Nodup
import Mathlib.Data.List.Pairwise
import MiniPascal.Proofs.Machine.Targets
import MiniPascal.Proofs.Reading.Source
import MiniPascal.Proofs.Tree.Regions

/-! The control flow of compiled programs. Labels are marked and jumped to once, the stretches of
choices and loops are nested, no jump leaves or enters one, and only loops jump back. -/
namespace MiniPascal

/-- The instruction neither ends a run nor names a slot from a number on. -/
@[simp] def Instr.Confined (count : Nat) : Instr → Prop
  | load s | store s => s.index.toNat < count
  | halt => False
  | _ => True

/-- All instructions of the code are confined. -/
def Confined (count : Nat) (is : List Instr) : Prop := ∀ i ∈ is, i.Confined count

section
variable {count n : Nat} {is js : List Instr} {names : Names} {vs : List (String × Ty)}

@[simp] theorem confined_nil : Confined count [] := by simp [Confined]

@[simp] theorem confined_cons {i : Instr} :
    Confined count (i :: is) ↔ i.Confined count ∧ Confined count is := List.forall_mem_cons

@[simp] theorem confined_append :
    Confined count (is ++ js) ↔ Confined count is ∧ Confined count js := List.forall_mem_append

@[simp] theorem confined_connective (c : Connective) (t : Option Ty) :
    Confined count (c.code t) := by
  unfold Connective.code
  split
  · simp
  · cases c <;> simp [Connective.operator, Operator.code]

/-- The variables have slots below a number. -/
def SlotsBelow (names : Names) (count : Nat) : Prop :=
  ∀ x t s, names x = some (.var t s) → s.index.toNat < count

theorem confined_expr (hn : SlotsBelow names count) (e : Expr) : Confined count (e.code names) := by
  induction e with
  | name x =>
    cases hx : names x with
    | none => simp [Expr.code, hx]
    | some entry =>
      cases entry with
      | var t s => simpa [Expr.code, hx, Entry.code] using hn x t s hx
      | _ => simp [Expr.code, hx, Entry.code]
  | constant v => simp [Expr.code]
  | signed minus e ih => cases minus <;> simp [Expr.code, ih]
  | not e ih => simp [Expr.code, ih]
  | binary c l r ihl ihr => simp [Expr.code, ihl, ihr]

theorem confined_assignCode (hn : SlotsBelow names count) (x : String) (e : Expr) :
    Confined count (assignCode names x e) := by
  unfold assignCode
  split
  · next t s u hx he =>
    have hslot := hn x t s hx
    unfold storeCode
    split <;> simpa [confined_expr hn] using hslot
  · simp

theorem confined_writeCode (hn : SlotsBelow names count) (es : List Expr) :
    Confined count (es.flatMap (·.printCode names)) := by
  induction es with
  | nil => simp
  | cons e es ih =>
    rw [List.flatMap_cons, confined_append]
    refine ⟨?_, ih⟩
    cases ht : e.type? names <;> simp [Expr.printCode, ht, confined_expr hn]

theorem confined_stmt (hn : SlotsBelow names count) (n : Nat) (st : Stmt) :
    Confined count (st.code names n) := by
  induction st generalizing n with
  | skip => simp [Stmt.code]
  | assign x e => exact confined_assignCode hn x e
  | write es => exact confined_writeCode hn es
  | seq a b iha ihb => simp [Stmt.code, iha, ihb]
  | ifThen c a ih => simp [Stmt.code, Stmt.choiceCode, confined_expr hn, ih]
  | ifElse c a b iha ihb =>
    simp [Stmt.code, Stmt.choiceCode, confined_expr hn, iha, ihb]
  | loop c a ih => simp [Stmt.code, Stmt.loopCode, confined_expr hn, ih]

theorem toNat_slotOf_le (n : Nat) : (slotOf n).index.toNat ≤ n := Nat.mod_le _ _

theorem confined_zeroCode {ts : List Ty} (h : n + ts.length ≤ count) :
    Confined count (zeroCode n ts) := by
  induction ts generalizing n with
  | nil => simp [zeroCode]
  | cons t ts ih =>
    rw [List.length_cons] at h
    have hslot := toNat_slotOf_le n
    have hrest : Confined count (zeroCode (n + 1) ts) := ih (by omega)
    have hlt : (slotOf n).index.toNat < count := by omega
    simp [zeroCode, hrest, hlt]

theorem slotsBelow_namesOf (vs : List (String × Ty)) : SlotsBelow (namesOf vs) vs.length := by
  intro x t s hx
  obtain ⟨n, hn, hvar, -⟩ := variableNames_eq_some (variableNames_of_namesOf hx)
  cases hvar
  exact Nat.lt_of_le_of_lt (toNat_slotOf_le n) hn

theorem Tree.confined_code (a : Tree) : Confined a.vars.length a.code := by
  rw [code, confined_append]
  refine ⟨confined_zeroCode ?_, confined_stmt (slotsBelow_namesOf a.vars) _ _⟩
  simp [types]

end

namespace Region

variable {r s : Region} {q q' : Nat × Instr}

/-- What holds a region together is in no region that comes later. -/
theorem Precedes.not_covers (h : r.Precedes s) (hq : q ∈ r.points) : ¬ s.Covers q.1 := by
  rcases h with hlt | h
  · intro hcovers
    have hlast := (r.covers_points q hq).2
    have hfirst := hcovers.1
    omega
  · exact h.between q hq

/-- What holds a region together is in an earlier region all at once, or not at all. -/
theorem Precedes.covers_iff (h : r.Precedes s) (hq : q ∈ s.points) (hq' : q' ∈ s.points) :
    r.Covers q.1 ↔ r.Covers q'.1 := by
  have hfirst := s.covers_points q hq
  have hsecond := s.covers_points q' hq'
  unfold Covers at *
  rcases h with hlt | h
  · omega
  · have hle := h.first_le
    have hge := h.le_last
    omega

theorem test_mem_points (r : Region) : (r.test, .jumpIfFalse r.exit) ∈ r.points := by simp [points]

theorem jump_mem_points (r : Region) : (r.jump, .jump r.goal) ∈ r.points := by simp [points]

theorem mark_mem_points (r : Region) : (r.mark, .label (labelOf r.label)) ∈ r.points := by
  simp [points]

theorem last_mem_points (r : Region) : (r.last, .label (labelOf (r.label + 1))) ∈ r.points := by
  simp [points]

theorem Precedes.jump_ne (h : r.Precedes s) : r.jump ≠ s.jump := by
  intro heq
  have hnot := h.not_covers r.jump_mem_points
  have hcovers := s.covers_points _ s.jump_mem_points
  rw [heq] at hnot
  exact hnot hcovers

/-- Two regions of a statement are one, or one of them precedes the other. -/
def Related (r s : Region) : Prop := r = s ∨ r.Precedes s ∨ s.Precedes r

instance : Std.Symm Related where
  symm := by
    rintro r s (rfl | h | h)
    · exact .inl rfl
    · exact .inr (.inr h)
    · exact .inr (.inl h)

/-- What holds one region together is in another all at once, or not at all. -/
theorem Related.covers_iff (h : r.Related s) (hq : q ∈ s.points) (hq' : q' ∈ s.points) :
    r.Covers q.1 ↔ r.Covers q'.1 := by
  rcases h with rfl | h | h
  · exact iff_of_true (r.covers_points q hq) (r.covers_points q' hq')
  · exact h.covers_iff hq hq'
  · exact iff_of_false (h.not_covers hq) (h.not_covers hq')

/-- Where the labels of the region are marked. -/
def marked (r : Region) : Nat → Nat
  | 0 => r.mark
  | _ + 1 => r.last

/-- The places from which the region jumps, with those it jumps to. -/
def leads : Region → List (Nat × Nat)
  | r@(choice ..) => [(r.test, r.mark), (r.jump, r.last)]
  | r@(loop ..) => [(r.test, r.last), (r.jump, r.first)]

theorem marked_of_point {t : Nat} {l : Label} (h : (t, .label l) ∈ r.points) :
    ∃ i < 2, l = labelOf (r.label + i) ∧ t = r.marked i := by
  simp only [points, List.mem_cons, Prod.mk.injEq, List.not_mem_nil, or_false, reduceCtorEq,
    and_false, false_or, Instr.label.injEq] at h
  rcases h with ⟨rfl, rfl⟩ | ⟨rfl, rfl⟩
  · exact ⟨0, by omega, rfl, rfl⟩
  · exact ⟨1, by omega, rfl, rfl⟩

theorem lead_of_point {m : Nat} {i : Instr} {l : Label} (h : (m, i) ∈ r.points)
    (hl : i.target? = some l) : ∃ j < 2, l = labelOf (r.label + j) ∧ (m, r.marked j) ∈ r.leads := by
  simp only [points, List.mem_cons, Prod.mk.injEq, List.not_mem_nil, or_false] at h
  rcases h with ⟨rfl, rfl⟩ | ⟨rfl, rfl⟩ | ⟨rfl, rfl⟩ | ⟨rfl, rfl⟩ <;> cases hl <;> cases r
  · exact ⟨0, by omega, rfl, List.mem_cons_self⟩
  · exact ⟨1, by omega, rfl, List.mem_cons_self⟩
  · exact ⟨1, by omega, rfl, List.mem_cons_of_mem _ List.mem_cons_self⟩
  · exact ⟨0, by omega, rfl, List.mem_cons_of_mem _ List.mem_cons_self⟩

theorem points_of_lead {m t : Nat} (h : (m, t) ∈ r.leads) : ∃ i l, (m, i) ∈ r.points ∧
    i.target? = some l ∧ (t, .label l) ∈ r.points := by
  cases r <;> simp only [leads, List.mem_cons, Prod.mk.injEq, List.not_mem_nil, or_false] at h <;>
    rcases h with ⟨rfl, rfl⟩ | ⟨rfl, rfl⟩
  · exact ⟨_, _, test_mem_points _, rfl, mark_mem_points _⟩
  · exact ⟨_, _, jump_mem_points _, rfl, last_mem_points _⟩
  · exact ⟨_, _, test_mem_points _, rfl, last_mem_points _⟩
  · exact ⟨_, _, jump_mem_points _, rfl, mark_mem_points _⟩

/-- Only the jump that ends the body of a loop leads backwards. -/
theorem leads_backward_iff {m t : Nat} :
    ((m, t) ∈ r.leads ∧ t < m) ↔ r.isLoop ∧ m = r.jump ∧ t = r.first := by
  cases r <;> simp [leads, isLoop, test, mark, jump, last, first] <;> omega

end Region

/-- Where the choices and loops of a tree lie in its program. -/
def Tree.regions (a : Tree) : List Region :=
  a.body.regions (namesOf a.vars) 0 (zeroCode 0 a.types).length

/-- One place of the code jumps to another. -/
def Program.JumpsTo (p : Program) (m t : Nat) : Prop :=
  ∃ i l, p.code[m]? = some i ∧ i.target? = some l ∧ p.code[t]? = some (.label l)

namespace Tree

variable {a : Tree} {m t : Nat} {i : Instr} {r s : Region}

/-- The control instructions of a program are those that hold its regions together. -/
theorem getElem?_program_iff (hi : i.isControl) :
    a.program.code[m]? = some i ↔ (m, i) ∈ a.regions.flatMap Region.points := by
  have hcode : a.program.code.toList = zeroCode 0 a.types ++
      (a.body.code (namesOf a.vars) 0 ++ [.halt]) := by simp [program, code]
  have hcontrols : controls 0 a.program.code.toList =
      controls (zeroCode 0 a.types).length (a.body.code (namesOf a.vars) 0) := by
    rw [hcode, controls_append, controls_append, (straight_zeroCode _ _).controls]
    simp [Instr.isControl, Instr.mark?, Instr.target?]
  rw [regions, ← (controls_stmt _ _ _ _).mem_iff, ← hcontrols, mem_controls]
  simp [hi]

theorem related_regions (hr : r ∈ a.regions) (hs : s ∈ a.regions) : r.Related s := by
  have hpairs : a.regions.Pairwise Region.Related :=
    (regions_pairwise _ _ _ _).imp fun h => .inr (.inl h)
  exact hpairs.forall_of_forall (fun _ _ => .inl rfl) hr hs

theorem exists_label (hr : r ∈ a.regions) : ∃ k < a.body.branches, r.label = 2 * k := by
  have hmem : r.label ∈ a.regions.map Region.label := List.mem_map_of_mem hr
  rw [regions, labels_regions, List.mem_range'] at hmem
  obtain ⟨k, hk, hlabel⟩ := hmem
  exact ⟨k, hk, by rw [hlabel, Nat.zero_add]⟩

theorem eq_of_label (hr : r ∈ a.regions) (hs : s ∈ a.regions) (h : r.label = s.label) : r = s := by
  have hnodup : (a.regions.map Region.label).Nodup := by
    rw [regions, labels_regions]
    exact List.nodup_range' 2
  exact List.inj_on_of_nodup_map hnodup hr hs h

/-- A region is told by its labels. -/
theorem eq_of_labelOf (h : a.body.labels < UInt32.size) (hr : r ∈ a.regions) (hs : s ∈ a.regions)
    {i j : Nat} (hi : i < 2) (hj : j < 2) (heq : labelOf (r.label + i) = labelOf (s.label + j)) :
    r = s ∧ i = j := by
  obtain ⟨k, hk, hrk⟩ := exists_label hr
  obtain ⟨k', hk', hsk⟩ := exists_label hs
  rw [Stmt.labels_eq] at h
  have hsum := labelOf_injective (by omega) (by omega) heq
  exact ⟨eq_of_label hr hs (by omega), by omega⟩

/-- A jump of the program is one of a region. -/
theorem jumpsTo_iff (h : a.body.labels < UInt32.size) :
    a.program.JumpsTo m t ↔ ∃ r ∈ a.regions, (m, t) ∈ r.leads := by
  constructor
  · rintro ⟨i, l, hi, hl, ht⟩
    rw [getElem?_program_iff (by simp [Instr.isControl, hl])] at hi
    rw [getElem?_program_iff (by simp [Instr.isControl, Instr.mark?])] at ht
    obtain ⟨r, hr, hri⟩ := List.mem_flatMap.1 hi
    obtain ⟨s, hs, hst⟩ := List.mem_flatMap.1 ht
    obtain ⟨j, hj, hjl, hlead⟩ := Region.lead_of_point hri hl
    obtain ⟨k, hk, hkl, rfl⟩ := Region.marked_of_point hst
    obtain ⟨rfl, rfl⟩ := eq_of_labelOf h hr hs hj hk (hjl.symm.trans hkl)
    exact ⟨r, hr, hlead⟩
  · rintro ⟨r, hr, hmt⟩
    obtain ⟨i, l, hi, hl, ht⟩ := Region.points_of_lead hmt
    refine ⟨i, l, ?_, hl, ?_⟩
    · rw [getElem?_program_iff (by simp [Instr.isControl, hl])]
      exact List.mem_flatMap.2 ⟨r, hr, hi⟩
    · rw [getElem?_program_iff (by simp [Instr.isControl, Instr.mark?])]
      exact List.mem_flatMap.2 ⟨r, hr, ht⟩

/-- The instructions that hold a region together stand at their places in the program. -/
theorem getElem?_of_points (hr : r ∈ a.regions) {q : Nat × Instr} (hq : q ∈ r.points) :
    a.program.code[q.1]? = some q.2 := by
  have hcontrol : q.2.isControl := by
    simp only [Region.points, List.mem_cons, List.not_mem_nil, or_false] at hq
    rcases hq with rfl | rfl | rfl | rfl <;> rfl
  exact (getElem?_program_iff hcontrol).2 (List.mem_flatMap.2 ⟨r, hr, hq⟩)

end Tree

/-- The control flow of a program whose choices and loops take up the given regions of its code. -/
structure ControlFlow (regions : List Region) (p : Program) : Prop where
  marks : ((Program.marks p.code).map (·.id.toNat)).Perm (List.range (2 * regions.length))
  targets : ((jumpsIn p.code.toList).map (·.id.toNat)).Perm (List.range (2 * regions.length))
  slots : ∀ s, .load s ∈ p.code ∨ .store s ∈ p.code → s.index.toNat < p.slots.size
  halt : ∀ m, p.code[m]? = some .halt ↔ m + 1 = p.code.size
  points : ∀ r ∈ regions, ∀ q ∈ r.points, p.code[q.1]? = some q.2
  numbered : regions.map Region.label = List.range' 0 regions.length 2
  nested : regions.Pairwise fun r s =>
    r.last < s.first ∨ (r.first ≤ s.first ∧ s.last ≤ r.last)
  closed : ∀ r ∈ regions, ∀ m t, p.JumpsTo m t → (r.Covers m ↔ r.Covers t)
  backward : ∀ m t, p.JumpsTo m t ∧ t < m ↔
    ∃ r ∈ regions, r.isLoop ∧ m = r.jump ∧ t = r.first
  apart : (regions.map Region.jump).Nodup

namespace Tree

variable {a : Tree}

theorem controlFlow (a : Tree) (h : a.body.labels < UInt32.size) :
    ControlFlow a.regions a.program := by
  have hlength : a.regions.length = a.body.branches := length_regions _ _ _ _
  have hlabels : 2 * a.regions.length = a.body.labels := by rw [hlength, Stmt.labels_eq]
  have hconfined := a.confined_code
  constructor
  case marks =>
    rw [marks_program, hlabels, ← map_id_labelsFrom_of_lt h]
    exact a.marksIn_code.map _
  case targets =>
    have hjumps : jumpsIn a.program.code.toList = jumpsIn a.code := by
      simp [program, Instr.target?]
    rw [hjumps, hlabels, ← map_id_labelsFrom_of_lt h]
    exact a.jumpsIn_code.map _
  case slots =>
    intro s hs
    have hsize : a.program.slots.size = a.vars.length := by simp [program, types]
    have hmem : .load s ∈ a.code ∨ .store s ∈ a.code := by simpa [program] using hs
    rw [hsize]
    rcases hmem with hmem | hmem
    · exact hconfined _ hmem
    · exact hconfined _ hmem
  case halt =>
    intro m
    have hsize : a.program.code.size = a.code.length + 1 := by simp [program]
    have hcode : a.program.code[m]? = (a.code ++ [.halt])[m]? := by simp [program]
    rw [hsize, hcode]
    by_cases hm : m < a.code.length
    · rw [List.getElem?_append_left hm]
      refine iff_of_false (fun hhalt => ?_) (by omega)
      exact hconfined _ (List.mem_of_getElem? hhalt)
    · rw [List.getElem?_append_right (by omega)]
      constructor
      · intro hhalt
        have hlt := (List.getElem?_eq_some_iff.1 hhalt).choose
        rw [List.length_singleton] at hlt
        omega
      · intro hend
        rw [show m - a.code.length = 0 by omega]
        rfl
  case points => exact fun r hr q hq => getElem?_of_points hr hq
  case numbered =>
    rw [hlength]
    exact labels_regions _ _ _ _
  case nested =>
    refine (regions_pairwise _ _ _ _).imp fun hrs => hrs.imp id fun hin => ?_
    exact ⟨hin.first_le, hin.le_last⟩
  case closed =>
    intro r hr m t hmt
    obtain ⟨s, hs, hlead⟩ := (jumpsTo_iff h).1 hmt
    obtain ⟨i, l, hi, -, ht⟩ := Region.points_of_lead hlead
    exact (related_regions hr hs).covers_iff hi ht
  case backward =>
    intro m t
    rw [jumpsTo_iff h]
    constructor
    · rintro ⟨⟨r, hr, hlead⟩, hlt⟩
      exact ⟨r, hr, Region.leads_backward_iff.1 ⟨hlead, hlt⟩⟩
    · rintro ⟨r, hr, hback⟩
      obtain ⟨hlead, hlt⟩ := Region.leads_backward_iff.2 hback
      exact ⟨⟨r, hr, hlead⟩, hlt⟩
  case apart =>
    rw [List.Nodup, List.pairwise_map]
    exact (regions_pairwise _ _ _ _).imp Region.Precedes.jump_ne

end Tree

variable {source : String} {p : Program}

/-- Every program that compiles has the control flow of the choices and loops of its text. -/
theorem compile_control_flow (h : compile source = .ok p) :
    (∃ a, Denotes source a) ∧ ∀ a, Denotes source a →
      a.regions.length = a.body.branches ∧ a.regions.countP Region.isLoop = a.body.loops ∧
        ControlFlow a.regions p := by
  refine ⟨?_, fun a ha => ⟨length_regions _ _ _ _, countP_isLoop_regions _ _ _ _, ?_⟩⟩
  · obtain ⟨a, ha, -⟩ := denotes_of_compile h
    exact ⟨a, ha⟩
  · obtain ⟨-, hl, rfl⟩ := program_of_denotes h ha
    exact a.controlFlow hl

/-- A choice within a loop. -/
theorem compile_control_flow_nested : ∃ p,
    compile "program p; begin while true do if true then begin end else begin end end." = .ok p ∧
    (∃ a, Denotes "program p; begin while true do if true then begin end else begin end end." a) ∧
    ∀ a, Denotes "program p; begin while true do if true then begin end else begin end end." a →
      a.regions.length = a.body.branches ∧ a.regions.countP Region.isLoop = a.body.loops ∧
        ControlFlow a.regions p := by
  have hok : (compile
      "program p; begin while true do if true then begin end else begin end end."
      ).toOption.isSome := by
    decide +kernel
  cases h : compile "program p; begin while true do if true then begin end else begin end end." with
  | error e => simp [h, Except.toOption] at hok
  | ok p => exact ⟨p, rfl, compile_control_flow h⟩

end MiniPascal
