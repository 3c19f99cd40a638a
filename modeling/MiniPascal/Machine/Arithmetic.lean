import MiniPascal.Program.Basic

/-! What the operations do to values. Integers wrap at 32 bits and divide toward zero; an integer
beside a real counts as a real. -/
namespace MiniPascal

/-- Why an operation has no result. -/
inductive OperandFault where
  | divisionByZero
  | mismatch
deriving Repr, DecidableEq

/-- The result of an operation, or why there is none. -/
abbrev OperandResult := Except OperandFault Value

namespace Value

/-- The number as a real. -/
def asReal? : Value → Option Float
  | integer v => some (Float.ofInt v.toInt)
  | real v => some v
  | string _ | boolean _ => none

/-- The opposite of a number. -/
def neg : Value → OperandResult
  | integer v => .ok (integer (-v))
  | real v => .ok (real (-v))
  | _ => .error .mismatch

/-- The opposite of a truth value. -/
def not : Value → OperandResult
  | boolean v => .ok (boolean (!v))
  | _ => .error .mismatch

/-- An integer as a real. -/
def widen : Value → OperandResult
  | integer v => .ok (real (Float.ofInt v.toInt))
  | _ => .error .mismatch

/-- One string behind another. -/
def concat : Value → Value → OperandResult
  | string l, string r => .ok (string (l ++ r))
  | _, _ => .error .mismatch

/-- An operation on two integers. -/
def integerBinary (op : BinaryOp) (l r : Int32) : OperandResult :=
  match op with
  | .add => .ok (integer (l + r))
  | .sub => .ok (integer (l - r))
  | .mul => .ok (integer (l * r))
  | .div => if r = 0 then .error .divisionByZero else .ok (integer (l / r))
  | .mod => if r = 0 then .error .divisionByZero else .ok (integer (l % r))
  | .eq => .ok (boolean (l = r))
  | .lt => .ok (boolean (l < r))
  | .gt => .ok (boolean (r < l))
  | .and | .or => .error .mismatch

/-- An operation on two reals. -/
def realBinary (op : BinaryOp) (l r : Float) : OperandResult :=
  match op with
  | .add => .ok (real (l + r))
  | .sub => .ok (real (l - r))
  | .mul => .ok (real (l * r))
  | .div => if r == 0 then .error .divisionByZero else .ok (real (l / r))
  | .eq => .ok (boolean (l == r))
  | .lt => .ok (boolean (l < r))
  | .gt => .ok (boolean (r < l))
  | .mod | .and | .or => .error .mismatch

/-- An operation on two truth values. -/
def booleanBinary (op : BinaryOp) (l r : Bool) : OperandResult :=
  match op with
  | .and => .ok (boolean (l && r))
  | .or => .ok (boolean (l || r))
  | .eq => .ok (boolean (l == r))
  | _ => .error .mismatch

/-- An operation on two strings. -/
def stringBinary (op : BinaryOp) (l r : String) : OperandResult :=
  match op with
  | .eq => .ok (boolean (l == r))
  | _ => .error .mismatch

/-- An operation on two values. -/
def binary (op : BinaryOp) : Value → Value → OperandResult
  | integer l, integer r => integerBinary op l r
  | boolean l, boolean r => booleanBinary op l r
  | string l, string r => stringBinary op l r
  | l, r =>
    match l.asReal?, r.asReal? with
    | some l, some r => realBinary op l r
    | _, _ => .error .mismatch

end Value
end MiniPascal
