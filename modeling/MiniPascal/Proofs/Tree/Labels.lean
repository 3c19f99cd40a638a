import MiniPascal.Proofs.Tree.Translation

/-! The labels in the code of a tree. Each of them is marked once, and no code but that of a choice
or a loop marks any. -/
namespace MiniPascal

/-- The code neither marks labels nor jumps to them. -/
def Straight (is : List Instr) : Prop := ∀ i ∈ is, i.mark? = none ∧ i.target? = none

section
variable {names : Names} {is js : List Instr}

@[simp] theorem straight_nil : Straight [] := by simp [Straight]

@[simp] theorem straight_cons {i : Instr} :
    Straight (i :: is) ↔ (i.mark? = none ∧ i.target? = none) ∧ Straight is := by
  simp [Straight]

@[simp] theorem straight_append : Straight (is ++ js) ↔ Straight is ∧ Straight js :=
  List.forall_mem_append

@[simp] theorem straight_connective (c : Connective) (t : Option Ty) : Straight (c.code t) := by
  unfold Connective.code
  split
  · simp [Instr.mark?, Instr.target?]
  · cases c <;> simp [Connective.operator, Operator.code, Instr.mark?, Instr.target?]

@[simp] theorem straight_expr (e : Expr) : Straight (e.code names) := by
  induction e with
  | name x =>
    cases hx : names x with
    | none => simp [Expr.code, hx]
    | some entry => cases entry <;> simp [Expr.code, hx, Entry.code, Instr.mark?, Instr.target?]
  | constant v => simp [Expr.code, Instr.mark?, Instr.target?]
  | signed minus e ih => cases minus <;> simp [Expr.code, ih, Instr.mark?, Instr.target?]
  | not e ih => simp [Expr.code, ih, Instr.mark?, Instr.target?]
  | binary c l r ihl ihr => simp [Expr.code, ihl, ihr]

@[simp] theorem straight_storeCode (u t : Ty) (s : Slot) : Straight (storeCode u t s) := by
  unfold storeCode
  split <;> simp [Instr.mark?, Instr.target?]

@[simp] theorem straight_printCode (e : Expr) : Straight (e.printCode names) := by
  cases ht : e.type? names <;> simp [Expr.printCode, ht, Instr.mark?, Instr.target?]

@[simp] theorem straight_assignCode (x : String) (e : Expr) : Straight (assignCode names x e) := by
  unfold assignCode
  split <;> simp

@[simp] theorem straight_writeCode (es : List Expr) :
    Straight (es.flatMap (·.printCode names)) := by
  induction es with
  | nil => simp
  | cons e es ih => simp [ih]

@[simp] theorem straight_zeroCode (n : Nat) (ts : List Ty) : Straight (zeroCode n ts) := by
  induction ts generalizing n with
  | nil => exact straight_nil
  | cons t ts ih => simp [zeroCode, ih, Instr.mark?, Instr.target?]

end

/-- The labels marked in a piece of code, in order. -/
def marksIn (is : List Instr) : List Label := is.filterMap Instr.mark?

/-- The labels a piece of code jumps to, in order. -/
def jumpsIn (is : List Instr) : List Label := is.filterMap Instr.target?

section
variable {is js : List Instr}

@[simp] theorem marksIn_nil : marksIn [] = [] := rfl

@[simp] theorem jumpsIn_nil : jumpsIn [] = [] := rfl

@[simp] theorem marksIn_append : marksIn (is ++ js) = marksIn is ++ marksIn js :=
  List.filterMap_append

@[simp] theorem marksIn_cons (i : Instr) : marksIn (i :: is) = i.mark?.toList ++ marksIn is := by
  cases h : i.mark? <;> simp [marksIn, h]

@[simp] theorem jumpsIn_append : jumpsIn (is ++ js) = jumpsIn is ++ jumpsIn js :=
  List.filterMap_append

@[simp] theorem jumpsIn_cons (i : Instr) : jumpsIn (i :: is) = i.target?.toList ++ jumpsIn is := by
  cases h : i.target? <;> simp [jumpsIn, h]

theorem Straight.marksIn (h : Straight is) : marksIn is = [] :=
  List.filterMap_eq_nil_iff.2 fun i hi => (h i hi).1

theorem Straight.jumpsIn (h : Straight is) : jumpsIn is = [] :=
  List.filterMap_eq_nil_iff.2 fun i hi => (h i hi).2

end

/-- The labels from a number on. -/
def labelsFrom (n count : Nat) : List Label := (List.range' n count).map labelOf

theorem labelsFrom_succ (n count : Nat) :
    labelsFrom n (count + 1) = labelOf n :: labelsFrom (n + 1) count := rfl

theorem labelsFrom_add (n a b : Nat) :
    labelsFrom n (a + b) = labelsFrom n a ++ labelsFrom (n + a) b := by
  simp [labelsFrom, ← List.range'_append_1]

section
variable {n : Nat} {condition body otherwise : List Instr}

theorem marksIn_choiceCode (hc : Straight condition) :
    marksIn (Stmt.choiceCode n condition body otherwise) =
      marksIn body ++ labelOf n :: (marksIn otherwise ++ [labelOf (n + 1)]) := by
  simp [Stmt.choiceCode, hc.marksIn, Instr.mark?]

theorem jumpsIn_choiceCode (hc : Straight condition) :
    jumpsIn (Stmt.choiceCode n condition body otherwise) =
      labelOf n :: (jumpsIn body ++ labelOf (n + 1) :: jumpsIn otherwise) := by
  simp [Stmt.choiceCode, hc.jumpsIn, Instr.target?]

theorem marksIn_loopCode (hc : Straight condition) :
    marksIn (Stmt.loopCode n condition body) =
      labelOf n :: (marksIn body ++ [labelOf (n + 1)]) := by
  simp [Stmt.loopCode, hc.marksIn, Instr.mark?]

theorem jumpsIn_loopCode (hc : Straight condition) :
    jumpsIn (Stmt.loopCode n condition body) =
      labelOf (n + 1) :: (jumpsIn body ++ [labelOf n]) := by
  simp [Stmt.loopCode, hc.jumpsIn, Instr.target?]

end

/-- Two labels for the statement itself, and those of its parts. -/
theorem labels_perm {n a b : Nat} {xs ys : List Label} (hx : xs.Perm (labelsFrom (n + 2) a))
    (hy : ys.Perm (labelsFrom (n + 2 + a) b)) :
    (xs ++ labelOf n :: (ys ++ [labelOf (n + 1)])).Perm (labelsFrom n (a + b + 2)) := by
  rw [labelsFrom_succ, labelsFrom_succ, labelsFrom_add]
  refine List.perm_middle.trans (.cons _ ?_)
  rw [← List.append_assoc]
  exact List.perm_append_comm.trans (.cons _ (hx.append hy))

/-- Each label of a statement is marked once. -/
theorem marksIn_stmt (names : Names) (n : Nat) (st : Stmt) :
    (marksIn (st.code names n)).Perm (labelsFrom n st.labels) := by
  induction st generalizing n with
  | skip => exact .nil
  | assign x e => exact .of_eq (straight_assignCode x e).marksIn
  | write es => exact .of_eq (straight_writeCode es).marksIn
  | seq a b iha ihb =>
    rw [Stmt.code, Stmt.labels, marksIn_append, labelsFrom_add]
    exact (iha n).append (ihb _)
  | ifThen c a ih =>
    rw [Stmt.code, marksIn_choiceCode (straight_expr c)]
    exact labels_perm (b := 0) (ih (n + 2)) .nil
  | ifElse c a b iha ihb =>
    rw [Stmt.code, marksIn_choiceCode (straight_expr c)]
    exact labels_perm (iha (n + 2)) (ihb _)
  | loop c a ih =>
    rw [Stmt.code, marksIn_loopCode (straight_expr c)]
    exact .cons _ (List.perm_append_comm.trans (.cons _ (ih (n + 2))))

/-- Each label of a statement is jumped to once. -/
theorem jumpsIn_stmt (names : Names) (n : Nat) (st : Stmt) :
    (jumpsIn (st.code names n)).Perm (labelsFrom n st.labels) := by
  induction st generalizing n with
  | skip => exact .nil
  | assign x e => exact .of_eq (straight_assignCode x e).jumpsIn
  | write es => exact .of_eq (straight_writeCode es).jumpsIn
  | seq a b iha ihb =>
    rw [Stmt.code, Stmt.labels, jumpsIn_append, labelsFrom_add]
    exact (iha n).append (ihb _)
  | ifThen c a ih =>
    rw [Stmt.code, jumpsIn_choiceCode (straight_expr c)]
    exact .cons _ (List.perm_append_comm.trans (.cons _ (ih (n + 2))))
  | ifElse c a b iha ihb =>
    rw [Stmt.code, jumpsIn_choiceCode (straight_expr c), Stmt.labels, labelsFrom_succ,
      labelsFrom_succ, labelsFrom_add]
    exact .cons _ (List.perm_middle.trans (.cons _ ((iha (n + 2)).append (ihb _))))
  | loop c a ih =>
    rw [Stmt.code, jumpsIn_loopCode (straight_expr c)]
    refine List.Perm.trans ?_ (.swap _ _ _)
    exact .cons _ (List.perm_append_comm.trans (.cons _ (ih (n + 2))))

/-- Of the labels numbered from `n` on each is marked once and jumped to once. -/
structure Marked (n : Nat) (is : List Instr) (l : Nat) : Prop where
  marks : (marksIn is).Perm (labelsFrom n l)
  jumps : (jumpsIn is).Perm (labelsFrom n l)

section
variable {is js : List Instr} {n l k : Nat}

theorem Straight.marked (h : Straight is) : Marked n is 0 :=
  ⟨.of_eq h.marksIn, .of_eq h.jumpsIn⟩

theorem Marked.append (h : Marked n is l) (h' : Marked (n + l) js k) :
    Marked n (is ++ js) (l + k) := by
  constructor
  · rw [marksIn_append, labelsFrom_add]
    exact h.marks.append h'.marks
  · rw [jumpsIn_append, labelsFrom_add]
    exact h.jumps.append h'.jumps

theorem marked_stmt (names : Names) (n : Nat) (st : Stmt) :
    Marked n (st.code names n) st.labels := ⟨marksIn_stmt names n st, jumpsIn_stmt names n st⟩

theorem Marked.length_marksIn (h : Marked n is l) : (marksIn is).length = l := by
  rw [h.marks.length_eq, labelsFrom, List.length_map, List.length_range']

/-- The numbers of labels, as far as labels can tell them apart. -/
theorem map_id_labelsFrom (l : Nat) : (labelsFrom 0 l).map (·.id.toNat) =
    (List.range l).map (· % UInt32.size) := by
  rw [labelsFrom, List.map_map, ← List.range_eq_range']
  rfl

theorem map_id_labelsFrom_of_lt (h : l < UInt32.size) :
    (labelsFrom 0 l).map (·.id.toNat) = List.range l := by
  have hid : (List.range l).map (· % UInt32.size) = (List.range l).map id :=
    List.map_congr_left fun k hk => Nat.mod_eq_of_lt (Nat.lt_trans (List.mem_range.1 hk) h)
  rw [map_id_labelsFrom, hid, List.map_id]

/-- As long as labels can be told apart, there are none to complain of. -/
theorem Marked.isPerm_iff (h : Marked 0 is l) : ((marksIn is).map (·.id.toNat)).isPerm
    (List.range (UInt32.ofNat l).toNat) ↔ l < UInt32.size := by
  have hp := h.marks.map fun l : Label => l.id.toNat
  have hn : (UInt32.ofNat l).toNat = l % UInt32.size := rfl
  rw [List.isPerm_iff, hn]
  constructor
  · intro h
    have hlen := (hp.symm.trans h).length_eq
    simp only [map_id_labelsFrom, List.length_map, List.length_range] at hlen
    rw [hlen]
    exact Nat.mod_lt _ (by decide)
  · intro h
    rw [Nat.mod_eq_of_lt h]
    rwa [map_id_labelsFrom_of_lt h] at hp

/-- The code of a buffer can be completed if each of its labels is marked once. -/
theorem CodeBuffer.finish_eq_ok_iff {b : CodeBuffer} {p : Program} (hb : b.code.toList = is) :
    b.finish = .ok p ↔ ((marksIn is).map (·.id.toNat)).isPerm (List.range b.labels.toNat) ∧
      p = ⟨b.slots, (is ++ [Instr.halt]).toArray⟩ := by
  have hcode : b.code.push Instr.halt = (is ++ [Instr.halt]).toArray := by
    apply Array.toList_inj.1
    rw [Array.toList_push, hb]
  have hmarks : Program.marks (is ++ [Instr.halt]).toArray = marksIn is :=
    marksIn_append.trans (List.append_nil _)
  simp only [finish, hcode, hmarks]
  split
  · next hp => simp [hp, eq_comm]
  · next hp => simp [hp]

end

namespace Tree

variable {a : Tree}

theorem marked_code (a : Tree) : Marked 0 a.code a.body.labels := by
  have hbody := (straight_zeroCode 0 a.types).marked (n := 0) |>.append
    (marked_stmt (namesOf a.vars) 0 a.body)
  rwa [Nat.zero_add] at hbody

theorem marksIn_code (a : Tree) : (marksIn a.code).Perm (labelsFrom 0 a.body.labels) :=
  a.marked_code.marks

theorem jumpsIn_code (a : Tree) : (jumpsIn a.code).Perm (labelsFrom 0 a.body.labels) :=
  a.marked_code.jumps

end Tree
end MiniPascal
