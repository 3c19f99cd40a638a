import MiniPascal.Program.Basic

/-! The listing of a program: a header with the slots, then a line for each instruction. -/
namespace MiniPascal

/-- The name of a slot in a listing. -/
def Slot.text (s : Slot) : String := "$" ++ toString s.index.toNat

/-- The name of a label in a listing. -/
def Label.text (l : Label) : String := "L" ++ toString l.id.toNat

/-- The mnemonic of an operation. -/
def BinaryOp.text : BinaryOp → String
  | add => "add"
  | sub => "sub"
  | mul => "mul"
  | div => "div"
  | mod => "mod"
  | and => "and"
  | or => "or"
  | eq => "eq"
  | lt => "lt"
  | gt => "gt"

namespace Instr

/-- The instruction without its indentation. -/
def text : Instr → String
  | push v => "push " ++ v.literal
  | load s => "load " ++ s.text
  | store s => "store " ++ s.text
  | neg => "neg"
  | not => "not"
  | widen => "widen"
  | binary op => op.text
  | concat => "concat"
  | label l => l.text ++ ":"
  | jump l => "jump " ++ l.text
  | jumpIfFalse l => "jump_if_false " ++ l.text
  | print t => "print " ++ t.name
  | halt => "halt"

/-- The line of an instruction; labels stand at the margin. -/
def line (i : Instr) : String :=
  match i with
  | label _ => i.text
  | _ => "    " ++ i.text

end Instr

namespace Program

/-- The header of a listing. -/
def header (p : Program) : String :=
  let slots := p.slots.toList.zipIdx.map fun (t, n) => (Slot.mk (UInt32.ofNat n)).text ++ ": " ++ t.name
  ".slots " ++ ", ".intercalate slots

/-- The lines of a listing. -/
def listingLines (p : Program) : List String := p.header :: p.code.toList.map (·.line)

/-- The listing as text. -/
def listing (p : Program) : String := String.join (p.listingLines.map (· ++ "\n"))

end Program
end MiniPascal
