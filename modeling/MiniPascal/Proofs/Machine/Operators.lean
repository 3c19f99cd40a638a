import MiniPascal.Machine.Arithmetic
import MiniPascal.Proofs.Semantics.Evaluation
import MiniPascal.Proofs.Tree.Translation

/-! The operations of the machine against the operators of the language, value by value. -/
namespace MiniPascal

/-- The result of the machine for a result of an operator. -/
def Evaluated.operandResult : Evaluated → OperandResult
  | .ok v => .ok v
  | .error .divisionByZero => .error .divisionByZero
  | .error .illTyped => .error .mismatch

/-- A value of the type, unless a division by zero keeps it from being one. -/
def Evaluated.Fits (t : Ty) : Evaluated → Prop
  | .ok v => v.ty = t
  | .error e => e = .divisionByZero

namespace Value

variable {l r : Int32}

theorem wrapped_add : wrapped (l.toInt + r.toInt) = integer (l + r) := by
  simp [wrapped, Int32.ofInt_add]

theorem wrapped_sub : wrapped (l.toInt - r.toInt) = integer (l - r) := by
  simp [wrapped, Int32.ofInt_sub]

theorem wrapped_mul : wrapped (l.toInt * r.toInt) = integer (l * r) := by
  simp [wrapped, Int32.ofInt_mul]

theorem wrapped_neg : wrapped (-l.toInt) = integer (-l) := by
  simp [wrapped, Int32.ofInt_neg]

theorem wrapped_tdiv : wrapped (l.toInt.tdiv r.toInt) = integer (l / r) := by
  have h : Int32.ofInt (l.toInt.tdiv r.toInt) = l / r := by
    apply Int32.toInt_inj.1
    rw [Int32.toInt_ofInt, Int32.toInt_div]
  rw [wrapped, h]

theorem wrapped_tmod : wrapped (l.toInt.tmod r.toInt) = integer (l % r) := by
  have h : Int32.ofInt (l.toInt.tmod r.toInt) = l % r := by
    rw [← Int32.toInt_mod, Int32.ofInt_toInt]
  rw [wrapped, h]

end Value

namespace Connective

/-- The operation of the machine behind an operator. -/
def machineOp : Connective → BinaryOp
  | plus => .add
  | minus => .sub
  | or => .or
  | times => .mul
  | slash | div => .div
  | mod => .mod
  | and => .and
  | equal | notEqual => .eq
  | less | greaterOrEqual => .lt
  | greater | lessOrEqual => .gt

/-- Whether the result of the machine is turned into its opposite. -/
def isOpposite : Connective → Bool
  | notEqual | lessOrEqual | greaterOrEqual => true
  | _ => false

variable {c : Connective} {l r : Value} {t : Ty}

theorem operator_code (c : Connective) :
    c.operator.code = .binary c.machineOp :: if c.isOpposite then [.not] else [] := by
  cases c <;> rfl

theorem onIntegers_fits {l r : Int} (h : c.type? .integer .integer = some t) :
    (c.onIntegers l r).Fits t := by
  cases c <;> cases h <;> simp only [onIntegers]
  case slash | div | mod => split <;> rfl
  all_goals rfl

/-- An integer beside a real has the type of a real. -/
theorem type?_beside_real (c : Connective) :
    c.type? .integer .real = c.type? .real .real ∧
      c.type? .real .integer = c.type? .real .real := by
  cases c <;> exact ⟨rfl, rfl⟩

theorem onReals_fits {l r : Float} (h : c.type? .real .real = some t) :
    (c.onReals l r).Fits t := by
  cases c <;> cases h <;> simp only [onReals]
  case slash => split <;> rfl
  all_goals rfl

theorem onBooleans_fits {l r : Bool} (h : c.type? .boolean .boolean = some t) :
    (c.onBooleans l r).Fits t := by
  cases c <;> cases h <;> rfl

theorem onStrings_fits {l r : String} (h : c.type? .string .string = some t) :
    (c.onStrings l r).Fits t := by
  cases c <;> cases h <;> rfl

/-- On operands of types it takes, an operator gives a value of its type or divides by zero. -/
theorem apply_fits (h : c.Takes l.ty r.ty t) : (c.apply l r).Fits t := by
  replace h := type?_of_takes h
  cases l with
  | integer l => cases r with
    | integer r => exact onIntegers_fits h
    | real r => exact onReals_fits (c.type?_beside_real.1 ▸ h)
    | string | boolean => cases c <;> cases h
  | real l => cases r with
    | integer r => exact onReals_fits (c.type?_beside_real.2 ▸ h)
    | real r => exact onReals_fits h
    | string | boolean => cases c <;> cases h
  | string l => cases r with
    | string r => exact onStrings_fits h
    | integer | real | boolean => cases c <;> cases h
  | boolean l => cases r with
    | boolean r => exact onBooleans_fits h
    | integer | real | string => cases c <;> cases h

/-- The result of the machine, turned into its opposite if need be. -/
def finish (c : Connective) (r : OperandResult) : OperandResult :=
  if c.isOpposite then r.bind Value.not else r

theorem toInt_eq_zero_iff {v : Int32} : v.toInt = 0 ↔ v = 0 := by
  rw [← Int32.toInt_inj]
  rfl

theorem onIntegers_machine {l r : Int32} (h : c.type? .integer .integer = some t) :
    c.finish (Value.integerBinary c.machineOp l r) =
      (c.onIntegers l.toInt r.toInt).operandResult := by
  cases c <;> cases h
  case plus => exact congrArg Except.ok Value.wrapped_add.symm
  case minus => exact congrArg Except.ok Value.wrapped_sub.symm
  case times => exact congrArg Except.ok Value.wrapped_mul.symm
  case slash | div | mod =>
    by_cases hr : r = 0
    · subst hr
      rfl
    · simp [finish, isOpposite, machineOp, Value.integerBinary, onIntegers, toInt_eq_zero_iff, hr,
        Evaluated.operandResult, Value.wrapped_tdiv, Value.wrapped_tmod]
  all_goals
    simp only [finish, isOpposite, machineOp, Value.integerBinary, onIntegers, Value.not,
      Except.bind, Evaluated.operandResult, Int32.lt_iff_toInt_lt, ← Int32.toInt_inj, ← Int.not_lt, ne_eq,
      decide_not, Bool.false_eq_true, if_true, if_false]

theorem onReals_machine {l r : Float} (h : c.type? .real .real = some t) :
    c.finish (Value.realBinary c.machineOp l r) = (c.onReals l r).operandResult := by
  cases c <;> cases h
  case slash =>
    simp only [finish, isOpposite, machineOp, Value.realBinary, onReals, Bool.false_eq_true,
      if_false]
    split <;> rfl
  all_goals rfl

theorem onBooleans_machine {l r : Bool} (h : c.type? .boolean .boolean = some t) :
    c.finish (Value.booleanBinary c.machineOp l r) = (c.onBooleans l r).operandResult := by
  cases c <;> cases h <;> rfl

theorem onStrings_machine {l r : String} (h : c.type? .string .string = some t)
    (hc : c ≠ .plus) :
    c.finish (Value.stringBinary c.machineOp l r) = (c.onStrings l r).operandResult := by
  cases c <;> cases h
  case plus => exact absurd rfl hc
  all_goals rfl

/-- The machine gives what the operator gives. Strings are joined by another instruction. -/
theorem apply_machine (h : c.Takes l.ty r.ty t) (hc : ¬ (c = .plus ∧ l.ty = .string)) :
    c.finish (Value.binary c.machineOp l r) = (c.apply l r).operandResult := by
  replace h := type?_of_takes h
  cases l with
  | integer l => cases r with
    | integer r => exact onIntegers_machine h
    | real r => exact onReals_machine (c.type?_beside_real.1 ▸ h)
    | string | boolean => cases c <;> cases h
  | real l => cases r with
    | integer r => exact onReals_machine (c.type?_beside_real.2 ▸ h)
    | real r => exact onReals_machine h
    | string | boolean => cases c <;> cases h
  | string l => cases r with
    | string r => exact onStrings_machine h fun he => hc ⟨he, rfl⟩
    | integer | real | boolean => cases c <;> cases h
  | boolean l => cases r with
    | boolean r => exact onBooleans_machine h
    | integer | real | string => cases c <;> cases h

end Connective
end MiniPascal
