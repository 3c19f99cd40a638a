import MiniPascal.Program.Basic

/-! Programs under construction. Code is only ever appended. -/
namespace MiniPascal

/-- A broken promise between the parts of the compiler. -/
inductive Defect where
  /-- Two types neither of which fits the other were to be joined. -/
  | unjoinable (a b : Ty)
  /-- A label was not marked exactly once. -/
  | unmarkedLabel
  /-- A problem that ends a compilation was to be collected. -/
  | loggedFatal
deriving Repr, DecidableEq, Inhabited

/-- The text of a defect. -/
def Defect.message : Defect → String
  | unjoinable a b => "cannot cast " ++ a.name ++ " to " ++ b.name
  | unmarkedLabel => "every label is marked exactly once"
  | loggedFatal => "fatal errors are never logged"

/-- The operators a program text can apply to two operands. -/
inductive Operator where
  | add
  | sub
  | mul
  | div
  | mod
  | and
  | or
  | equal
  | notEqual
  | less
  | lessOrEqual
  | greater
  | greaterOrEqual
deriving Repr, DecidableEq, Inhabited

namespace Operator

/-- The instructions for an operator. The machine lacks three comparisons, which negate another. -/
def code : Operator → List Instr
  | add => [.binary .add]
  | sub => [.binary .sub]
  | mul => [.binary .mul]
  | div => [.binary .div]
  | mod => [.binary .mod]
  | and => [.binary .and]
  | or => [.binary .or]
  | equal => [.binary .eq]
  | less => [.binary .lt]
  | greater => [.binary .gt]
  | notEqual => [.binary .eq, .not]
  | greaterOrEqual => [.binary .lt, .not]
  | lessOrEqual => [.binary .gt, .not]

end Operator

/-- Slots, code and the number of labels handed out. -/
structure CodeBuffer where
  slots : Array Ty
  code : Array Instr
  labels : UInt32
deriving Repr, DecidableEq, Inhabited

namespace CodeBuffer

/-- Nothing emitted. -/
def empty : CodeBuffer := ⟨#[], #[], 0⟩

/-- Appends an instruction. -/
def emit (b : CodeBuffer) (i : Instr) : CodeBuffer := { b with code := b.code.push i }

/-- Appends several instructions. -/
def emitAll (b : CodeBuffer) (is : List Instr) : CodeBuffer := is.foldl emit b

/-- A new slot, set to the zero of its type. -/
def declareSlot (b : CodeBuffer) (t : Ty) : Slot × CodeBuffer :=
  let s : Slot := ⟨UInt32.ofNat b.slots.size⟩
  (s, { b with slots := b.slots.push t }.emitAll [.push (.zero t), .store s])

/-- A new label, not marked yet. -/
def defineLabel (b : CodeBuffer) : Label × CodeBuffer :=
  (⟨b.labels⟩, { b with labels := b.labels + 1 })

/-- Ends the code. Every label handed out must have been marked exactly once, and no other. -/
def finish (b : CodeBuffer) : Except Defect Program :=
  let code := b.code.push .halt
  if ((Program.marks code).map (·.id.toNat)).isPerm (List.range b.labels.toNat) then
    .ok ⟨b.slots, code⟩
  else .error .unmarkedLabel

@[simp] theorem slots_emitAll (b : CodeBuffer) (is : List Instr) : (b.emitAll is).slots = b.slots := by
  induction is generalizing b with
  | nil => rfl
  | cons i is ih => exact (ih _).trans rfl

@[simp] theorem labels_emitAll (b : CodeBuffer) (is : List Instr) : (b.emitAll is).labels = b.labels := by
  induction is generalizing b with
  | nil => rfl
  | cons i is ih => exact (ih _).trans rfl

@[simp] theorem code_emitAll (b : CodeBuffer) (is : List Instr) :
    (b.emitAll is).code.toList = b.code.toList ++ is := by
  induction is generalizing b with
  | nil => simp [emitAll]
  | cons i is ih => exact (ih _).trans (by simp [emit])

end CodeBuffer
end MiniPascal
