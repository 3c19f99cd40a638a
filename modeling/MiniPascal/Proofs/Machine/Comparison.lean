import MiniPascal.Grammar.Expression
import MiniPascal.Proofs.Decimal.Order
import MiniPascal.Proofs.Machine.Steps

/-! The three comparisons that the machine lacks. Each is made as the opposite of one that it has,
which says the same of numbers, strings and truth values, but not beside what is not a number. -/
namespace MiniPascal

namespace Value

/-- Whether the value is a real that is not a number. -/
def isNaN : Value → Bool
  | real x => x.isNaN
  | _ => false

/-- Whether the machine answers true to a comparison of two values. -/
def holds (op : BinaryOp) (l r : Value) : Bool :=
  match binary op l r with
  | .ok (boolean b) => b
  | _ => false

/-- The comparisons that the machine makes of values of a type. -/
def comparisons (t : Ty) : List BinaryOp := if t.isNumeric then [.lt, .gt, .eq] else [.eq]

end Value

namespace Operator

/-- The comparison that an operator is the opposite of, if the machine lacks it. -/
def opposite? : Operator → Option BinaryOp
  | lessOrEqual => some .gt
  | greaterOrEqual => some .lt
  | notEqual => some .eq
  | _ => none

/-- What an operator that the machine lacks means, by what the machine answers to the others. -/
def meaning (op : Operator) (l r : Value) : Bool :=
  match op with
  | lessOrEqual => l.holds .lt r || l.holds .eq r
  | greaterOrEqual => l.holds .gt r || l.holds .eq r
  | _ => !l.holds .eq r

end Operator

/-- Wherever they stand, the instructions put results in the place of the operands, the topmost
first, and do nothing else. -/
def Leaves (is : List Instr) (operands results : List Value) : Prop :=
  ∀ (p : Loaded) (m : Machine) (rest : List Value), p.maxSteps = none → Placed p.code m.pc is →
    m.stack = operands ++ rest →
      m.advance p is.length = .running (m.after is.length (results ++ rest))

/-- What an operator that is made as the opposite of another leaves of its operands. -/
structure Synthesized (op : Operator) (opposite : BinaryOp) (l r : Value) : Prop where
  answered : ∀ prim ∈ Value.comparisons l.ty,
    Value.binary prim l r = .ok (.boolean (l.holds prim r))
  opposed : Leaves op.code [r, l] [.boolean (!l.holds opposite r)]
  numbers : l.isNaN = false → r.isNaN = false → Leaves op.code [r, l] [.boolean (op.meaning l r)]
  unordered : l.isNaN = true ∨ r.isNaN = true →
    (∀ prim ∈ Value.comparisons l.ty, l.holds prim r = false) ∧
      Leaves op.code [r, l] [.boolean true]

/-- The machine answers to comparisons of two values by how they compare: in one way, or in none
beside what is not a number. -/
structure Value.Compares (l r : Value) (o : Option Ordering) : Prop where
  lt : binary .lt l r = .ok (boolean (o == some .lt))
  gt : binary .gt l r = .ok (boolean (o == some .gt))
  eq : binary .eq l r = .ok (boolean (o == some .eq))
  unordered : o = none ↔ l.isNaN = true ∨ r.isNaN = true

section
variable {op : Operator} {prim opposite : BinaryOp} {l r : Value} {b : Bool} {o : Option Ordering}

/-- What instructions leave is decided by the operands. -/
theorem Leaves.unique {is : List Instr} {operands results results' : List Value}
    (h : Leaves is operands results) (h' : Leaves is operands results') : results = results' := by
  have hplaced : Placed is.toArray 0 is := ⟨[], by simp⟩
  have hstack : operands = operands ++ [] := (List.append_nil operands).symm
  have hrun := h ⟨is.toArray, [], none⟩ ⟨0, operands, #[], .empty none, 0⟩ [] rfl hplaced hstack
  have hrun' := h' ⟨is.toArray, [], none⟩ ⟨0, operands, #[], .empty none, 0⟩ [] rfl hplaced hstack
  have hsame := congrArg Machine.stack (Status.running.inj (hrun.symm.trans hrun'))
  simpa using hsame

theorem leaves_opposite (h : Value.binary prim l r = .ok (.boolean b)) :
    Leaves [.binary prim, .not] [r, l] [.boolean !b] := by
  intro p m rest hp hc hs
  have hfirst : m.advance p 1 = .running (m.after 1 (.boolean b :: rest)) := by
    rw [Machine.advance_one hp hc.getElem?]
    simp only [Machine.exec, Machine.binary, Machine.stack_after, hs, List.cons_append,
      List.nil_append, h, Machine.push]
    rfl
  have hsecond : (m.after 1 (.boolean b :: rest)).advance p 1 =
      .running ((m.after 1 (.boolean b :: rest)).after 1 (.boolean (!b) :: rest)) := by
    rw [Machine.advance_one hp hc.tail.getElem?]
    rfl
  exact (Machine.advance_trans hfirst hsecond).trans (congrArg _ Machine.after_after)

namespace Value

theorem holds_of_binary (h : binary prim l r = .ok (boolean b)) : l.holds prim r = b := by
  rw [holds, h]

theorem compares_integers (m n : Int32) :
    (integer m).Compares (integer n) (some (compare m.toInt n.toInt)) := by
  have hlt : decide (m < n) = (some (compare m.toInt n.toInt) == some .lt) := by
    rw [Bool.eq_iff_iff, decide_eq_true_iff, beq_iff_eq, Option.some_inj, Int.compare_eq_lt,
      Int32.lt_iff_toInt_lt]
  have hgt : decide (n < m) = (some (compare m.toInt n.toInt) == some .gt) := by
    rw [Bool.eq_iff_iff, decide_eq_true_iff, beq_iff_eq, Option.some_inj, Int.compare_eq_gt,
      Int32.lt_iff_toInt_lt]
  have heq : decide (m = n) = (some (compare m.toInt n.toInt) == some .eq) := by
    rw [Bool.eq_iff_iff, decide_eq_true_iff, beq_iff_eq, Option.some_inj, Int.compare_eq_eq,
      Int32.toInt_inj]
  constructor
  case lt => exact congrArg (fun b => Except.ok (boolean b)) hlt
  case gt => exact congrArg (fun b => Except.ok (boolean b)) hgt
  case eq => exact congrArg (fun b => Except.ok (boolean b)) heq
  case unordered => simp [isNaN]

/-- Values compare as the reals do that they count as. -/
theorem compares_reals {x y : Float} (h : ∀ op, binary op l r = realBinary op x y)
    (hl : l.isNaN = x.isNaN) (hr : r.isNaN = y.isNaN) : l.Compares r (realOrder x y) := by
  constructor
  case lt => rw [h, realBinary, decide_lt]
  case gt => rw [h, realBinary, decide_gt]
  case eq => rw [h, realBinary, beq_eq]
  case unordered => rw [realOrder_eq_none_iff, hl, hr]

theorem exists_compares (hl : l.ty.isNumeric) (hr : r.ty.isNumeric) : ∃ o, l.Compares r o := by
  cases l with
  | integer m =>
    cases r with
    | integer n => exact ⟨_, compares_integers m n⟩
    | real y => exact ⟨_, compares_reals (fun _ => rfl) (isNaN_ofInt m.toInt).symm rfl⟩
    | string | boolean => cases hr
  | real x =>
    cases r with
    | integer n => exact ⟨_, compares_reals (fun _ => rfl) rfl (isNaN_ofInt n.toInt).symm⟩
    | real y => exact ⟨_, compares_reals (fun _ => rfl) rfl rfl⟩
    | string | boolean => cases hr
  | string | boolean => cases hl

/-- Each comparison that the machine makes asks for one way in which the values compare. -/
theorem Compares.answer (h : l.Compares r o) (hp : prim ∈ comparisons l.ty) :
    ∃ c : Ordering, binary prim l r = .ok (boolean (o == some c)) := by
  have hmem : prim ∈ [BinaryOp.lt, .gt, .eq] := by
    rw [comparisons] at hp
    split at hp
    · exact hp
    · rw [List.mem_singleton] at hp
      simp [hp]
  simp only [List.mem_cons, List.not_mem_nil, or_false] at hmem
  rcases hmem with rfl | rfl | rfl
  · exact ⟨_, h.lt⟩
  · exact ⟨_, h.gt⟩
  · exact ⟨_, h.eq⟩

/-- Among numbers, less, equal and greater exclude each other, and one of them holds. -/
theorem Compares.meaning (h : l.Compares r o) (hs : o ≠ none) (ho : op.opposite? = some prim) :
    op.meaning l r = !l.holds prim r := by
  obtain ⟨c, rfl⟩ := Option.ne_none_iff_exists'.1 hs
  have hlt := holds_of_binary h.lt
  have hgt := holds_of_binary h.gt
  have heq := holds_of_binary h.eq
  cases op <;> cases ho <;> simp only [Operator.meaning, hlt, hgt, heq]
  all_goals cases c <;> rfl

end Value

theorem code_of_opposite (h : op.opposite? = some prim) : op.code = [.binary prim, .not] := by
  cases op <;> cases h <;> rfl

theorem synthesized_of_numeric (ho : op.opposite? = some opposite) (hl : l.ty.isNumeric)
    (hr : r.ty.isNumeric) : Synthesized op opposite l r := by
  obtain ⟨o, h⟩ := Value.exists_compares hl hr
  have hanswered : ∀ prim ∈ Value.comparisons l.ty,
      Value.binary prim l r = .ok (.boolean (l.holds prim r)) := by
    intro prim hprim
    obtain ⟨c, hc⟩ := h.answer hprim
    rw [Value.holds_of_binary hc, hc]
  have hmem : opposite ∈ Value.comparisons l.ty := by
    rw [Value.comparisons, if_pos hl]
    cases op <;> cases ho <;> simp
  have hopposed : Leaves op.code [r, l] [.boolean (!l.holds opposite r)] := by
    rw [code_of_opposite ho]
    exact leaves_opposite (hanswered opposite hmem)
  constructor
  case answered => exact hanswered
  case opposed => exact hopposed
  case numbers =>
    intro hl hr
    have hs : o ≠ none := by
      intro hnone
      have hnan := h.unordered.1 hnone
      simp [hl, hr] at hnan
    rw [h.meaning hs ho]
    exact hopposed
  case unordered =>
    intro hnan
    obtain rfl := h.unordered.2 hnan
    have hnone : ∀ prim ∈ Value.comparisons l.ty, l.holds prim r = false := by
      intro prim hprim
      obtain ⟨c, hc⟩ := h.answer hprim
      exact Value.holds_of_binary hc
    rw [hnone opposite hmem] at hopposed
    exact ⟨hnone, hopposed⟩

/-- Strings and truth values are equal or not. -/
theorem synthesized_of_equality (h : Value.binary .eq l r = .ok (.boolean b))
    (hl : l.ty.isNumeric = false) (hr : r.ty.isNumeric = false) :
    Synthesized .notEqual .eq l r := by
  have hnumber : ∀ v : Value, v.ty.isNumeric = false → v.isNaN = false := fun v hv => by
    cases v <;> first | rfl | cases hv
  have hanswered : ∀ prim ∈ Value.comparisons l.ty,
      Value.binary prim l r = .ok (.boolean (l.holds prim r)) := by
    intro prim hprim
    rw [Value.comparisons, hl, if_neg Bool.false_ne_true, List.mem_singleton] at hprim
    rw [hprim, Value.holds_of_binary h, h]
  have hopposed : Leaves Operator.notEqual.code [r, l] [.boolean (!l.holds .eq r)] := by
    rw [Value.holds_of_binary h]
    exact leaves_opposite h
  constructor
  case answered => exact hanswered
  case opposed => exact hopposed
  case numbers => exact fun _ _ => hopposed
  case unordered =>
    intro hnan
    simp [hnumber l hl, hnumber r hr] at hnan

/-- Of any two values that may be compared, an operator that the machine lacks leaves the opposite
of another comparison. Among numbers, strings and truth values that is what the operator means;
beside what is not a number, the machine denies all comparisons and the operator leaves true. -/
theorem comparison_synthesized (ho : op.opposite? = some opposite)
    (hc : Grammar.comparable op l.ty r.ty) : Synthesized op opposite l r := by
  by_cases hnumeric : l.ty.isNumeric ∧ r.ty.isNumeric
  · exact synthesized_of_numeric ho hnumeric.1 hnumeric.2
  · have hnot : (l.ty.isNumeric && r.ty.isNumeric) = false := by
      rw [Bool.eq_false_iff, ne_eq, Bool.and_eq_true]
      exact hnumeric
    rw [Grammar.comparable, hnot, Bool.false_or] at hc
    simp only [Bool.and_eq_true, Bool.or_eq_true, beq_iff_eq] at hc
    obtain ⟨⟨rfl | rfl, hty⟩, hl⟩ := hc
    · cases ho
    · cases ho
      cases l with
      | string x =>
        cases r with
        | string y => exact synthesized_of_equality rfl rfl rfl
        | integer | real | boolean => cases hty
      | boolean x =>
        cases r with
        | boolean y => exact synthesized_of_equality rfl rfl rfl
        | integer | real | string => cases hty
      | integer | real => rcases hl with hl | hl <;> cases hl

/-- What infinity less itself is, to which a program can come. -/
def notANumber : Value := .real (1e308 * 10 - 1e308 * 10)

/-- Two is at most two and a half, and beside what is not a number the operator leaves true. -/
theorem comparison_synthesized_mixed :
    Operator.lessOrEqual.opposite? = some .gt ∧
    Grammar.comparable .lessOrEqual (Value.integer 2).ty (Value.real 2.5).ty = true ∧
    Leaves Operator.lessOrEqual.code [.real 2.5, .integer 2] [.boolean true] ∧
    Grammar.comparable .lessOrEqual (Value.integer 2).ty notANumber.ty = true ∧
    Leaves Operator.lessOrEqual.code [notANumber, .integer 2] [.boolean true] := by
  have hmixed := @comparison_synthesized .lessOrEqual .gt (.integer 2) (.real 2.5) rfl rfl
  have hnan := @comparison_synthesized .lessOrEqual .gt (.integer 2) notANumber rfl rfl
  have hmeaning : Operator.lessOrEqual.meaning (.integer 2) (.real 2.5) = true := by
    decide +kernel
  have hleaves := hmixed.numbers rfl (by decide +kernel)
  rw [hmeaning] at hleaves
  exact ⟨rfl, rfl, hleaves, rfl, (hnan.unordered (.inr (by decide +kernel))).2⟩

/-- What is not a number is neither less than itself nor equal to itself, but is left to be at most
itself. -/
theorem comparison_not_meant :
    Grammar.comparable .lessOrEqual notANumber.ty notANumber.ty = true ∧
    Operator.lessOrEqual.meaning notANumber notANumber = false ∧
    Leaves Operator.lessOrEqual.code [notANumber, notANumber] [.boolean true] ∧
    ¬ Leaves Operator.lessOrEqual.code [notANumber, notANumber]
      [.boolean (Operator.lessOrEqual.meaning notANumber notANumber)] := by
  have hmeaning : Operator.lessOrEqual.meaning notANumber notANumber = false := by decide +kernel
  have hanswer : Value.binary .gt notANumber notANumber = .ok (.boolean false) := by
    decide +kernel
  have htrue : Leaves Operator.lessOrEqual.code [notANumber, notANumber] [.boolean true] :=
    leaves_opposite hanswer
  refine ⟨rfl, hmeaning, htrue, fun hfalse => ?_⟩
  rw [hmeaning] at hfalse
  cases htrue.unique hfalse

end
end MiniPascal
