import MiniPascal.Machine.Basic

/-! Runs of whole programs. -/
namespace MiniPascal

/-- What a run wrote, and the number of instructions it started unless an error broke it off. -/
structure RunResult where
  output : ByteArray
  result : Except RunError Nat
deriving Nonempty

namespace Status

/-- The result of a run that is over, or the machine of one that is still going. -/
def result : Status → Except Machine RunResult
  | running m => .error m
  | finished m => .ok ⟨m.output.bytes, .ok m.steps⟩
  | failed e m => .ok ⟨m.output.bytes, .error e⟩

end Status

namespace Program

/-- The first label that the code jumps to and never marks. -/
def missingLabel? (p : Program) : Option Label :=
  let targets := p.targets
  p.code.toList.findSome? fun i => i.target?.filter fun l => (targets.lookup l).isNone

/-- The machine at the start of the program: no operands, each slot at the zero of its type. -/
def start (p : Program) (room : Option Nat) : Machine where
  pc := 0
  stack := []
  slots := p.slots.map Value.zero
  output := .empty room
  steps := 0

/-- The program with its labels resolved. -/
def loaded (p : Program) (maxSteps : Option Nat) : Loaded := ⟨p.code, p.targets, maxSteps⟩

/-- The run after at most `fuel` instructions. A jump to a label that is nowhere marked keeps it
from beginning. -/
def runFor (p : Program) (limits : Limits) (fuel : Nat) : Status :=
  let m := p.start limits.room
  match p.missingLabel? with
  | some l => .failed (.unknownLabel l) m
  | none => m.advance (p.loaded limits.maxSteps) fuel

end Program
end MiniPascal
