import MiniPascal.Machine.Arithmetic
import MiniPascal.Program.Listing

/-! The stack machine, one instruction at a time. -/
namespace MiniPascal

/-- Why a run ends early. -/
inductive RunError where
  | divisionByZero (index : Nat)
  | stackUnderflow (index : Nat)
  | kindMismatch (index : Nat) (instr : Instr) (found : List Ty)
  | unknownLabel (l : Label)
  | unknownSlot (s : Slot)
  | stepLimit (steps : Nat)
  | output
deriving Repr, DecidableEq

/-- The error in words. -/
def RunError.message : RunError → String
  | divisionByZero index => "division by zero at instruction " ++ toString index
  | stackUnderflow index => "operand stack underflow at instruction " ++ toString index
  | kindMismatch index instr found =>
    "`" ++ instr.text ++ "` at instruction " ++ toString index ++ " cannot operate on " ++
      " and ".intercalate (found.map (·.name))
  | unknownLabel l => "jump to unknown label " ++ l.text
  | unknownSlot s => "slot " ++ s.text ++ " is not declared"
  | stepLimit steps => "step limit of " ++ toString steps ++ " instructions exceeded"
  | output => "failed to write program output"

/-- Where a program writes: the bytes taken so far, and how many more fit, if that is limited. -/
structure Sink where
  bytes : ByteArray
  room : Option Nat

namespace Sink

/-- A sink that has taken nothing. -/
def empty (room : Option Nat) : Sink := ⟨.empty, room⟩

/-- Writes bytes as far as they fit, and tells whether all did. -/
def write (s : Sink) (b : ByteArray) : Sink × Bool :=
  match s.room with
  | none => (⟨s.bytes ++ b, none⟩, true)
  | some n =>
    if b.size ≤ n then (⟨s.bytes ++ b, some (n - b.size)⟩, true)
    else (⟨s.bytes ++ b.extract 0 n, some 0⟩, false)

end Sink

/-- A machine between two instructions. -/
structure Machine where
  /-- The index of the next instruction. -/
  pc : Nat
  /-- The operands, the topmost first. -/
  stack : List Value
  slots : Array Value
  output : Sink
  /-- How many instructions have been started. -/
  steps : Nat

/-- A program with its labels resolved and the number of instructions it may start. -/
structure Loaded where
  code : Array Instr
  targets : List (Label × Nat)
  maxSteps : Option Nat

/-- What bounds a run: how many instructions may start and how many bytes may be written. -/
structure Limits where
  maxSteps : Option Nat
  room : Option Nat
deriving Repr, DecidableEq, Inhabited

/-- No bounds. -/
def Limits.none : Limits := ⟨.none, .none⟩

/-- A run between two instructions: still going, at its end, or broken off. -/
inductive Status where
  | running (m : Machine)
  | finished (m : Machine)
  | failed (e : RunError) (m : Machine)

namespace Machine

/-- The error of an operation on the given operands. -/
def operandError (index : Nat) (i : Instr) (operands : List Value) : OperandFault → RunError
  | .divisionByZero => .divisionByZero index
  | .mismatch => .kindMismatch index i (operands.map (·.ty))

/-- Puts the result of an operation on the stack. -/
def push (m : Machine) (index : Nat) (i : Instr) (operands : List Value) (stack : List Value) :
    OperandResult → Status
  | .ok v => .running { m with stack := v :: stack }
  | .error f => .failed (operandError index i operands f) m

/-- Replaces the topmost operand. -/
def unary (m : Machine) (index : Nat) (i : Instr) (f : Value → OperandResult) : Status :=
  match m.stack with
  | v :: stack => m.push index i [v] stack (f v)
  | [] => .failed (.stackUnderflow index) m

/-- Replaces the two topmost operands. The right one is on top. -/
def binary (m : Machine) (index : Nat) (i : Instr) (f : Value → Value → OperandResult) : Status :=
  match m.stack with
  | r :: l :: stack => m.push index i [l, r] stack (f l r)
  | _ => .failed (.stackUnderflow index) m

/-- Goes on at a label. -/
def jump (m : Machine) (targets : List (Label × Nat)) (l : Label) : Status :=
  match targets.lookup l with
  | some pc => .running { m with pc }
  | none => .failed (.unknownLabel l) m

/-- Executes the instruction at an index; the machine is already past it. -/
def exec (targets : List (Label × Nat)) (index : Nat) (i : Instr) (m : Machine) : Status :=
  match i with
  | .push v => .running { m with stack := v :: m.stack }
  | .load s =>
    match m.slots[s.index.toNat]? with
    | some v => .running { m with stack := v :: m.stack }
    | none => .failed (.unknownSlot s) m
  | .store s =>
    match m.stack with
    | v :: stack =>
      if s.index.toNat < m.slots.size then
        .running { m with stack, slots := m.slots.setIfInBounds s.index.toNat v }
      else .failed (.unknownSlot s) m
    | [] => .failed (.stackUnderflow index) m
  | .neg => m.unary index i Value.neg
  | .not => m.unary index i Value.not
  | .widen => m.unary index i Value.widen
  | .binary op => m.binary index i (Value.binary op)
  | .concat => m.binary index i Value.concat
  | .label _ => .running m
  | .jump l => m.jump targets l
  | .jumpIfFalse l =>
    match m.stack with
    | .boolean true :: stack => .running { m with stack }
    | .boolean false :: stack => jump { m with stack } targets l
    | v :: _ => .failed (.kindMismatch index i [v.ty]) m
    | [] => .failed (.stackUnderflow index) m
  | .print t =>
    match m.stack with
    | v :: stack =>
      if v.ty = t then
        let (output, fits) := m.output.write (v.printed ++ "\n").toUTF8
        let m := { m with stack, output }
        if fits then .running m else .failed .output m
      else .failed (.kindMismatch index i [v.ty]) m
    | [] => .failed (.stackUnderflow index) m
  | .halt => .finished m

/-- Executes the next instruction, if there is one and it may start. -/
def step (p : Loaded) (m : Machine) : Status :=
  match p.code[m.pc]? with
  | none => .finished m
  | some i =>
    if p.maxSteps.any (· ≤ m.steps) then .failed (.stepLimit m.steps) m
    else exec p.targets m.pc i { m with pc := m.pc + 1, steps := m.steps + 1 }

/-- Goes on for at most the given number of instructions. -/
def advance (p : Loaded) : Nat → Machine → Status
  | 0, m => .running m
  | n + 1, m =>
    match m.step p with
    | .running m => advance p n m
    | s => s

end Machine
end MiniPascal
