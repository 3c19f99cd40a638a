import MiniPascal.Proofs.Tree.Labels

/-! Where the code of choices and loops lies. Each of them takes up a stretch of the code between
its labels, its test and its jump, and two such stretches lie apart or one within a part of the
other. -/
namespace MiniPascal

/-- Whether the instruction marks a label or jumps to one. -/
def Instr.isControl (i : Instr) : Bool := i.mark?.isSome || i.target?.isSome

/-- The instructions that mark labels or jump to them, with their places in code that begins at a
given one. -/
def controls : Nat → List Instr → List (Nat × Instr)
  | _, [] => []
  | pos, i :: is => if i.isControl then (pos, i) :: controls (pos + 1) is else controls (pos + 1) is

/-- The stretch of a choice from its test on, or of a loop from its first label on: the number of
the first of its two labels, its place, and the lengths of its parts. -/
inductive Region where
  | choice (label test body otherwise : Nat)
  | loop (label first condition body : Nat)
deriving Repr, DecidableEq

namespace Region

/-- Whether the region is that of a loop. -/
def isLoop : Region → Bool
  | choice .. => false
  | loop .. => true

/-- The number of the first of the two labels. -/
def label : Region → Nat
  | choice label .. | loop label .. => label

/-- Where the region begins. -/
def first : Region → Nat
  | choice _ test _ _ => test
  | loop _ first _ _ => first

/-- Where the condition is tested. -/
def test : Region → Nat
  | choice _ test _ _ => test
  | loop _ first condition _ => first + condition + 1

/-- Where the body has been executed. -/
def jump : Region → Nat
  | choice _ test body _ => test + body + 1
  | loop _ first condition body => first + condition + body + 2

/-- Where the first label is marked. -/
def mark : Region → Nat
  | choice _ test body _ => test + body + 2
  | loop _ first _ _ => first

/-- Where the second label is marked and the region ends. -/
def last : Region → Nat
  | choice _ test body otherwise => test + body + otherwise + 3
  | loop _ first condition body => first + condition + body + 3

/-- The label to go to from the test, if the condition is false. -/
def exit : Region → Label
  | choice label .. => labelOf label
  | loop label .. => labelOf (label + 1)

/-- The label to go to behind the body: a choice ends, a loop begins again. -/
def goal : Region → Label
  | choice label .. => labelOf (label + 1)
  | loop label .. => labelOf label

/-- The instructions that hold the region together, with their places. -/
def points (r : Region) : List (Nat × Instr) :=
  [(r.test, .jumpIfFalse r.exit), (r.jump, .jump r.goal), (r.mark, .label (labelOf r.label)),
    (r.last, .label (labelOf (r.label + 1)))]

/-- The place lies in the region. -/
def Covers (r : Region) (m : Nat) : Prop := r.first ≤ m ∧ m ≤ r.last

/-- The second region lies in a part of the first, between instructions that hold it together. -/
structure Encloses (r s : Region) : Prop where
  first_le : r.first ≤ s.first
  le_last : s.last ≤ r.last
  between : ∀ q ∈ r.points, ¬ s.Covers q.1

/-- The second region comes after the first, or lies in it. -/
def Precedes (r s : Region) : Prop := r.last < s.first ∨ r.Encloses s

end Region

namespace Stmt

/-- How many choices and loops a statement has. -/
@[simp] def branches : Stmt → Nat
  | seq a b => a.branches + b.branches
  | ifThen _ a | loop _ a => a.branches + 1
  | ifElse _ a b => a.branches + b.branches + 1
  | skip | assign .. | write _ => 0

/-- How many loops a statement has. -/
@[simp] def loops : Stmt → Nat
  | seq a b | ifElse _ a b => a.loops + b.loops
  | ifThen _ a => a.loops
  | loop _ a => a.loops + 1
  | skip | assign .. | write _ => 0

/-- The regions of the choices and loops of a statement, in the order in which they begin in the
text, for code with labels from `n` on that begins at `pos`. -/
@[simp] def regions (names : Names) : Nat → Nat → Stmt → List Region
  | n, pos, seq a b =>
    a.regions names n pos ++ b.regions names (n + a.labels) (pos + (a.code names n).length)
  | n, pos, ifThen c a =>
    let test := pos + (c.code names).length
    .choice n test (a.code names (n + 2)).length 0 :: a.regions names (n + 2) (test + 1)
  | n, pos, ifElse c a b =>
    let test := pos + (c.code names).length
    let body := (a.code names (n + 2)).length
    .choice n test body (b.code names (n + 2 + a.labels)).length ::
      (a.regions names (n + 2) (test + 1) ++
        b.regions names (n + 2 + a.labels) (test + body + 3))
  | n, pos, loop c a =>
    let condition := (c.code names).length
    .loop n pos condition (a.code names (n + 2)).length ::
      a.regions names (n + 2) (pos + condition + 2)
  | _, _, skip | _, _, assign .. | _, _, write _ => []

end Stmt

section
variable {pos n : Nat} {is js : List Instr} {names : Names} {st : Stmt} {r s : Region}

@[simp] theorem controls_nil : controls pos [] = [] := rfl

@[simp] theorem controls_cons (i : Instr) : controls pos (i :: is) =
    (if i.isControl then [(pos, i)] else []) ++ controls (pos + 1) is := by
  rw [controls]
  split <;> rfl

@[simp] theorem controls_append :
    controls pos (is ++ js) = controls pos is ++ controls (pos + is.length) js := by
  induction is generalizing pos with
  | nil => rfl
  | cons i is ih =>
    have hpos : pos + 1 + is.length = pos + (i :: is).length := by
      rw [List.length_cons]
      omega
    rw [List.cons_append, controls_cons, ih, hpos, controls_cons, List.append_assoc]

theorem Straight.controls (h : Straight is) : MiniPascal.controls pos is = [] := by
  induction is generalizing pos with
  | nil => rfl
  | cons i is ih =>
    obtain ⟨⟨hmark, htarget⟩, hrest⟩ := straight_cons.1 h
    have hi : i.isControl = false := by simp [Instr.isControl, hmark, htarget]
    rw [controls_cons, hi, ih hrest]
    rfl

/-- The control instructions are found in the code at their places. -/
theorem mem_controls {m : Nat} {i : Instr} : (m, i) ∈ controls pos is ↔
    i.isControl ∧ ∃ k, m = pos + k ∧ is[k]? = some i := by
  induction is generalizing pos with
  | nil => simp
  | cons j is ih =>
    rw [controls_cons, List.mem_append, ih]
    constructor
    · rintro (h | ⟨hi, k, rfl, hk⟩)
      · split at h
        · next hj =>
          cases List.mem_singleton.1 h
          exact ⟨hj, 0, rfl, rfl⟩
        · cases h
      · exact ⟨hi, k + 1, by omega, hk⟩
    · rintro ⟨hi, k, rfl, hk⟩
      cases k with
      | zero =>
        cases hk
        exact .inl (by simp [hi])
      | succ k => exact .inr ⟨hi, k, by omega, hk⟩

namespace Region

/-- What holds a region together lies in it. -/
theorem covers_points (r : Region) : ∀ q ∈ r.points, r.Covers q.1 := by
  intro q hq
  simp only [points, List.mem_cons, List.not_mem_nil, or_false] at hq
  rcases hq with rfl | rfl | rfl | rfl <;> cases r <;>
    simp only [Covers, first, test, jump, mark, last] <;> omega

end Region

/-- Two labels are needed for each choice or loop. -/
theorem Stmt.labels_eq (st : Stmt) : st.labels = 2 * st.branches := by
  induction st with
  | skip | assign | write => rfl
  | seq | ifThen | ifElse | loop =>
    simp only [labels, branches]
    omega

theorem Stmt.length_choiceCode (n : Nat) (condition body otherwise : List Instr) :
    (choiceCode n condition body otherwise).length =
      condition.length + body.length + otherwise.length + 4 := by
  simp only [choiceCode, List.length_append, List.length_cons, List.length_nil]
  omega

theorem Stmt.length_loopCode (n : Nat) (condition body : List Instr) :
    (loopCode n condition body).length = condition.length + body.length + 4 := by
  simp only [loopCode, List.length_append, List.length_cons, List.length_nil]
  omega

/-- The regions of a statement lie in its code. -/
theorem regions_within (hr : r ∈ st.regions names n pos) :
    pos ≤ r.first ∧ r.last < pos + (st.code names n).length := by
  induction st generalizing n pos with
  | skip | assign | write => cases hr
  | seq a b iha ihb =>
    rw [Stmt.code, List.length_append]
    rcases List.mem_append.1 hr with hr | hr
    · have ha := iha hr
      omega
    · have hb := ihb hr
      omega
  | ifThen c a ih =>
    rw [Stmt.code, Stmt.length_choiceCode, List.length_nil]
    rcases List.mem_cons.1 hr with rfl | hr
    · simp only [Region.first, Region.last]
      omega
    · have ha := ih hr
      omega
  | ifElse c a b iha ihb =>
    rw [Stmt.code, Stmt.length_choiceCode]
    rcases List.mem_cons.1 hr with rfl | hr
    · simp only [Region.first, Region.last]
      omega
    · rcases List.mem_append.1 hr with hr | hr
      · have ha := iha hr
        omega
      · have hb := ihb hr
        omega
  | loop c a ih =>
    rw [Stmt.code, Stmt.length_loopCode]
    rcases List.mem_cons.1 hr with rfl | hr
    · simp only [Region.first, Region.last]
      omega
    · have ha := ih hr
      omega

/-- A region encloses what lies between its instructions. -/
theorem Region.encloses_of_between {a b : Nat} (ha : a ≤ s.first) (hb : s.last < b)
    (hfirst : r.first ≤ a) (hlast : b ≤ r.last + 1) (h : ∀ q ∈ r.points, q.1 < a ∨ b ≤ q.1) :
    r.Encloses s := by
  refine ⟨by omega, by omega, fun q hq hcovers => ?_⟩
  have hstart := hcovers.1
  have hstop := hcovers.2
  rcases h q hq with hq | hq <;> omega

/-- The code of a choice leaves the places of its own instructions free. -/
theorem Region.choice_encloses {label test body otherwise : Nat}
    (h : (test + 1 ≤ s.first ∧ s.last < test + 1 + body) ∨
      test + body + 3 ≤ s.first ∧ s.last < test + body + 3 + otherwise) :
    (choice label test body otherwise).Encloses s := by
  rcases h with ⟨hs, hl⟩ | ⟨hs, hl⟩
  · refine encloses_of_between hs hl (Nat.le_succ test) ?_ ?_
    · simp only [last]
      omega
    · simp only [points, Region.test, jump, mark, last, List.forall_mem_cons]
      simp
      omega
  · refine encloses_of_between hs hl ?_ ?_ ?_
    · simp only [first]
      omega
    · simp only [last]
      omega
    · simp only [points, Region.test, jump, mark, last, List.forall_mem_cons]
      simp
      omega

theorem Region.loop_encloses {label first condition body : Nat}
    (h : first + condition + 2 ≤ s.first ∧ s.last < first + condition + 2 + body) :
    (loop label first condition body).Encloses s := by
  refine encloses_of_between h.1 h.2 ?_ ?_ ?_
  · simp only [Region.first]
    omega
  · simp only [last]
    omega
  · simp only [points, test, jump, mark, last, List.forall_mem_cons]
    simp
    omega

/-- Of two regions of a statement, the one that begins later in the text comes after the other or
lies in it. -/
theorem regions_pairwise (names : Names) (n pos : Nat) (st : Stmt) :
    (st.regions names n pos).Pairwise Region.Precedes := by
  induction st generalizing n pos with
  | skip | assign | write => exact .nil
  | seq a b iha ihb =>
    refine List.pairwise_append.2 ⟨iha n pos, ihb _ _, fun r hr s hs => .inl ?_⟩
    have ha := regions_within hr
    have hb := regions_within hs
    omega
  | ifThen c a ih =>
    refine .cons (fun s hs => .inr (Region.choice_encloses (.inl ?_))) (ih _ _)
    exact regions_within hs
  | ifElse c a b iha ihb =>
    refine .cons (fun s hs => .inr (Region.choice_encloses ?_)) ?_
    · rcases List.mem_append.1 hs with hs | hs
      · exact .inl (regions_within hs)
      · exact .inr (regions_within hs)
    · refine List.pairwise_append.2 ⟨iha _ _, ihb _ _, fun r hr s hs => .inl ?_⟩
      have ha := regions_within hr
      have hb := regions_within hs
      omega
  | loop c a ih =>
    refine .cons (fun s hs => .inr (Region.loop_encloses ?_)) (ih _ _)
    exact regions_within hs

/-- The regions are numbered two by two. -/
theorem labels_regions (names : Names) (n pos : Nat) (st : Stmt) :
    (st.regions names n pos).map Region.label = List.range' n st.branches 2 := by
  have happend : ∀ n a b, List.range' n a 2 ++ List.range' (n + 2 * a) b 2 =
      List.range' n (a + b) 2 := fun n a b => List.range'_append
  induction st generalizing n pos with
  | skip | assign | write => rfl
  | seq a b iha ihb =>
    rw [Stmt.regions, List.map_append, iha, ihb, Stmt.labels_eq, happend, Stmt.branches]
  | ifThen c a ih =>
    rw [Stmt.regions, List.map_cons, ih, Stmt.branches]
    rfl
  | ifElse c a b iha ihb =>
    rw [Stmt.regions, List.map_cons, List.map_append, iha, ihb, Stmt.labels_eq, happend,
      Stmt.branches]
    rfl
  | loop c a ih =>
    rw [Stmt.regions, List.map_cons, ih, Stmt.branches]
    rfl

theorem length_regions (names : Names) (n pos : Nat) (st : Stmt) :
    (st.regions names n pos).length = st.branches := by
  have h := congrArg List.length (labels_regions names n pos st)
  rwa [List.length_map, List.length_range'] at h

theorem countP_isLoop_regions (names : Names) (n pos : Nat) (st : Stmt) :
    (st.regions names n pos).countP Region.isLoop = st.loops := by
  induction st generalizing n pos with
  | skip | assign | write => rfl
  | seq a b iha ihb => rw [Stmt.regions, List.countP_append, iha, ihb, Stmt.loops]
  | ifThen c a ih =>
    rw [Stmt.regions, List.countP_cons_of_neg (by simp [Region.isLoop]), ih, Stmt.loops]
  | ifElse c a b iha ihb =>
    rw [Stmt.regions, List.countP_cons_of_neg (by simp [Region.isLoop]), List.countP_append, iha,
      ihb, Stmt.loops]
  | loop c a ih =>
    rw [Stmt.regions, List.countP_cons_of_pos rfl, ih, Stmt.loops]

/-- Its own instructions apart, the control instructions of a choice are those of its parts. -/
theorem controls_choiceCode {condition body otherwise : List Instr} (hc : Straight condition) :
    (controls pos (Stmt.choiceCode n condition body otherwise)).Perm
      ((Region.choice n (pos + condition.length) body.length otherwise.length).points ++
        (controls (pos + condition.length + 1) body ++
          controls (pos + condition.length + body.length + 3) otherwise)) := by
  have hmark : pos + condition.length + 1 + body.length + 1 =
      pos + condition.length + body.length + 2 := by omega
  have hlast : pos + condition.length + body.length + 3 + otherwise.length =
      pos + condition.length + body.length + otherwise.length + 3 := by omega
  have hjump : pos + condition.length + 1 + body.length =
      pos + condition.length + body.length + 1 := by omega
  have hcode : controls pos (Stmt.choiceCode n condition body otherwise) =
      (pos + condition.length, .jumpIfFalse (labelOf n)) ::
        (controls (pos + condition.length + 1) body ++
          (pos + condition.length + body.length + 1, .jump (labelOf (n + 1))) ::
          (pos + condition.length + body.length + 2, .label (labelOf n)) ::
          (controls (pos + condition.length + body.length + 3) otherwise ++
            [(pos + condition.length + body.length + otherwise.length + 3,
              .label (labelOf (n + 1)))])) := by
    simp [Stmt.choiceCode, hc.controls, Instr.isControl, Instr.mark?, Instr.target?, hjump, hlast]
  rw [hcode]
  refine .cons _ (List.perm_middle.trans (.cons _ (List.perm_middle.trans (.cons _ ?_))))
  rw [← List.append_assoc]
  exact List.perm_append_comm

theorem controls_loopCode {condition body : List Instr} (hc : Straight condition) :
    (controls pos (Stmt.loopCode n condition body)).Perm
      ((Region.loop n pos condition.length body.length).points ++
        controls (pos + condition.length + 2) body) := by
  have htest : pos + 1 + condition.length = pos + condition.length + 1 := by omega
  have hjump : pos + condition.length + 2 + body.length =
      pos + condition.length + body.length + 2 := by omega
  have hcode : controls pos (Stmt.loopCode n condition body) =
      (pos, .label (labelOf n)) ::
        (pos + condition.length + 1, .jumpIfFalse (labelOf (n + 1))) ::
        (controls (pos + condition.length + 2) body ++
          [(pos + condition.length + body.length + 2, .jump (labelOf n)),
            (pos + condition.length + body.length + 3, .label (labelOf (n + 1)))]) := by
    simp [Stmt.loopCode, hc.controls, Instr.isControl, Instr.mark?, Instr.target?, htest, hjump]
  rw [hcode]
  refine (List.Perm.swap _ _ _).trans (.cons _ ?_)
  exact (List.Perm.cons _ List.perm_append_comm).trans (.swap _ _ _)

/-- The control instructions of a statement are those that hold its regions together. -/
theorem controls_stmt (names : Names) (n pos : Nat) (st : Stmt) :
    (controls pos (st.code names n)).Perm ((st.regions names n pos).flatMap Region.points) := by
  induction st generalizing n pos with
  | skip => exact .nil
  | assign x e => exact .of_eq (straight_assignCode x e).controls
  | write es => exact .of_eq (straight_writeCode es).controls
  | seq a b iha ihb =>
    rw [Stmt.code, Stmt.regions, controls_append, List.flatMap_append]
    exact (iha n pos).append (ihb _ _)
  | ifThen c a ih =>
    rw [Stmt.code, Stmt.regions, List.flatMap_cons]
    refine (controls_choiceCode (straight_expr c)).trans (.append_left _ ?_)
    rw [controls_nil, List.append_nil]
    exact ih _ _
  | ifElse c a b iha ihb =>
    rw [Stmt.code, Stmt.regions, List.flatMap_cons, List.flatMap_append]
    refine (controls_choiceCode (straight_expr c)).trans (.append_left _ ?_)
    exact (iha _ _).append (ihb _ _)
  | loop c a ih =>
    rw [Stmt.code, Stmt.regions, List.flatMap_cons]
    exact (controls_loopCode (straight_expr c)).trans (.append_left _ (ih _ _))

end
end MiniPascal
