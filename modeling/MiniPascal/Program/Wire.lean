import MiniPascal.Json.Read
import MiniPascal.Program.Basic

/-! The JSON form of programs. A choice without data is written as its name, one with data as an
object with its name as the only key. -/
namespace MiniPascal

namespace Json

/-- A choice: its name and its data, if it has any. -/
def choice? : Json → Option (String × Option Json)
  | string name => some (name, none)
  | object [(name, data)] => some (name, some data)
  | _ => none

/-- The name of a choice without data. Null counts as no data. -/
def plainChoice? (j : Json) : Option String :=
  match j.choice? with
  | some (name, none) | some (name, some null) => some name
  | _ => none

/-- A choice with data. -/
def tagged (name : String) (data : Json) : Json := object [(name, data)]

/-- An unsigned number of 32 bits. -/
def word? : Json → Option UInt32
  | int n => if 0 ≤ n ∧ n.toNat < UInt32.size then some (UInt32.ofNat n.toNat) else none
  | _ => none

/-- A signed number of 32 bits. -/
def integer? : Json → Option Int32
  | int n => if -0x80000000 ≤ n ∧ n < 0x80000000 then some (Int32.ofInt n) else none
  | _ => none

/-- A real; integers count as reals. -/
def real? : Json → Option Float
  | int n => some (Float.ofInt n)
  | real x => some x
  | _ => none

end Json

namespace Ty

/-- The name of the type in JSON. -/
def wireName : Ty → String
  | integer => "Integer"
  | real => "Real"
  | string => "String"
  | boolean => "Boolean"

/-- The type of that name. -/
def ofWireName? (name : String) : Option Ty := all.find? (·.wireName == name)

/-- The JSON form of a type. -/
def toJson (t : Ty) : Json := .string t.wireName

/-- The type of a JSON form. -/
def ofJson? (j : Json) : Option Ty := j.plainChoice?.bind ofWireName?

end Ty

namespace BinaryOp

/-- Every operation. -/
def all : List BinaryOp := [add, sub, mul, div, mod, and, or, eq, lt, gt]

/-- The name of the operation in JSON. -/
def wireName : BinaryOp → String
  | add => "Add"
  | sub => "Sub"
  | mul => "Mul"
  | div => "Div"
  | mod => "Mod"
  | and => "And"
  | or => "Or"
  | eq => "Eq"
  | lt => "Lt"
  | gt => "Gt"

/-- The operation of that name. -/
def ofWireName? (name : String) : Option BinaryOp := all.find? (·.wireName == name)

/-- The operation of a JSON form. -/
def ofJson? (j : Json) : Option BinaryOp := j.plainChoice?.bind ofWireName?

end BinaryOp

namespace Value

/-- The JSON form of a value. -/
def toJson : Value → Json
  | integer v => .tagged "Integer" (.int v.toInt)
  | real v => .tagged "Real" (.real v)
  | string v => .tagged "String" (.string v)
  | boolean v => .tagged "Boolean" (.bool v)

/-- The value of a JSON form. -/
def ofJson? (j : Json) : Option Value :=
  match j.choice? with
  | some ("Integer", some data) => data.integer?.map integer
  | some ("Real", some data) => data.real?.map real
  | some ("String", some (.string v)) => some (string v)
  | some ("Boolean", some (.bool v)) => some (boolean v)
  | _ => none

end Value

namespace Instr

/-- The JSON form of an instruction. -/
def toJson : Instr → Json
  | push v => .tagged "Push" v.toJson
  | load s => .tagged "Load" (.int s.index.toNat)
  | store s => .tagged "Store" (.int s.index.toNat)
  | neg => .string "Neg"
  | not => .string "Not"
  | widen => .string "Widen"
  | binary op => .tagged "Binary" (.string op.wireName)
  | concat => .string "Concat"
  | label l => .tagged "Label" (.int l.id.toNat)
  | jump l => .tagged "Jump" (.int l.id.toNat)
  | jumpIfFalse l => .tagged "JumpIfFalse" (.int l.id.toNat)
  | print t => .tagged "Print" t.toJson
  | halt => .string "Halt"

/-- The instruction with data of that name. -/
def ofTagged? (name : String) (data : Json) : Option Instr :=
  match name with
  | "Push" => (Value.ofJson? data).map push
  | "Load" => data.word?.map (load ⟨·⟩)
  | "Store" => data.word?.map (store ⟨·⟩)
  | "Binary" => (BinaryOp.ofJson? data).map binary
  | "Label" => data.word?.map (label ⟨·⟩)
  | "Jump" => data.word?.map (jump ⟨·⟩)
  | "JumpIfFalse" => data.word?.map (jumpIfFalse ⟨·⟩)
  | "Print" => (Ty.ofJson? data).map print
  | _ => none

/-- The instruction without data of that name. -/
def ofName? (name : String) : Option Instr :=
  match name with
  | "Neg" => some neg
  | "Not" => some not
  | "Widen" => some widen
  | "Concat" => some concat
  | "Halt" => some halt
  | _ => none

/-- The instruction of a JSON form. -/
def ofJson? (j : Json) : Option Instr :=
  match j.plainChoice?.bind ofName? with
  | some i => some i
  | none =>
    match j.choice? with
    | some (name, some data) => ofTagged? name data
    | _ => none

end Instr

namespace Program

/-- The JSON form of a program. -/
def toJson (p : Program) : Json :=
  .object [("slots", .array (p.slots.toList.map Ty.toJson)),
    ("code", .array (p.code.toList.map Instr.toJson))]

/-- The program of given JSON forms of its slots and its code. -/
def ofParts? : Json → Json → Option Program
  | .array slots, .array code => do
    let slots ← slots.mapM Ty.ofJson?
    let code ← code.mapM Instr.ofJson?
    return ⟨slots.toArray, code.toArray⟩
  | _, _ => none

/-- The program of a JSON form. Further fields do not matter, and the two parts may also stand in a
list. -/
def ofJson? : Json → Option Program
  | .array [slots, code] => ofParts? slots code
  | j => do ofParts? (← j.field? "slots") (← j.field? "code")

end Program
end MiniPascal
