import MiniPascal.Value

/-! Programs of a stack machine with typed slots and symbolic labels. -/
namespace MiniPascal

/-- A variable of the machine. -/
structure Slot where
  index : UInt32
deriving Repr, DecidableEq, Inhabited

/-- A place in the code to jump to. -/
structure Label where
  id : UInt32
deriving Repr, DecidableEq, Inhabited

/-- The operations on two operands. -/
inductive BinaryOp where
  | add
  | sub
  | mul
  | div
  | mod
  | and
  | or
  | eq
  | lt
  | gt
deriving Repr, DecidableEq, Inhabited

/-- The instructions of the machine. -/
inductive Instr where
  /-- Pushes a constant. -/
  | push (v : Value)
  /-- Pushes the value of a slot. -/
  | load (s : Slot)
  /-- Pops a value into a slot. -/
  | store (s : Slot)
  /-- Negates the number on top. -/
  | neg
  /-- Negates the truth value on top. -/
  | not
  /-- Turns the integer on top into a real. -/
  | widen
  /-- Replaces the two topmost values by the result of an operation on them. -/
  | binary (op : BinaryOp)
  /-- Replaces the two topmost strings by one. -/
  | concat
  /-- Marks the place of a label. -/
  | label (l : Label)
  /-- Goes on at a label. -/
  | jump (l : Label)
  /-- Pops a truth value and goes on at a label if it is false. -/
  | jumpIfFalse (l : Label)
  /-- Pops a value of the type and prints it on a line of its own. -/
  | print (t : Ty)
  /-- Ends the run. -/
  | halt
deriving Repr, DecidableEq, Inhabited

namespace Instr

/-- The label the instruction marks. -/
def mark? : Instr → Option Label
  | label l => some l
  | _ => none

/-- The label the instruction may jump to. -/
def target? : Instr → Option Label
  | jump l | jumpIfFalse l => some l
  | _ => none

end Instr

/-- The type of each slot, and the code. -/
structure Program where
  slots : Array Ty
  code : Array Instr
deriving Repr, DecidableEq, Inhabited

namespace Program

/-- The labels marked in the code, in order. -/
def marks (code : Array Instr) : List Label := code.toList.filterMap (·.mark?)

/-- The marked labels and their indices, in order. -/
def indexedMarks (p : Program) : List (Label × Nat) :=
  p.code.toList.zipIdx.filterMap fun (i, n) => i.mark?.map (·, n)

/-- Where each label leads: to the last of its marks. -/
def targets (p : Program) : List (Label × Nat) := p.indexedMarks.reverse

/-- The index a label leads to. -/
def target? (p : Program) (l : Label) : Option Nat := p.targets.lookup l

end Program
end MiniPascal
