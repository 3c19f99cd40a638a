import MiniPascal.Command.Options
import MiniPascal.Compile
import MiniPascal.Machine.Run
import MiniPascal.Program.Wire

/-! What the command does: it reads a file, compiles it, writes the program in the form asked for,
and runs it. -/
namespace MiniPascal.Command

/-- What the command leaves behind: its status, what it wrote, and its last complaint. -/
structure Answer where
  status : UInt32
  output : ByteArray
  complaint : Option String

/-- Answers are compared byte by byte. -/
instance : DecidableEq Answer
  | ⟨s, ⟨o⟩, c⟩, ⟨s', ⟨o'⟩, c'⟩ =>
    decidable_of_iff (s = s' ∧ o = o' ∧ c = c') (by
      constructor
      · rintro ⟨rfl, rfl, rfl⟩
        rfl
      · intro h
        cases h
        exact ⟨rfl, rfl, rfl⟩)

/-- The command before the run of a program: at its end, or with the run to come. -/
inductive Phase where
  | ended (a : Answer)
  | run (written : ByteArray) (p : Program)

/-- The answer to a command that fails before it writes anything. -/
def Answer.failure (message : String) : Answer := ⟨1, .empty, some ("error: " ++ message)⟩

/-- Why a file cannot be read as text. -/
inductive FileFault where
  | missing
  | directory
  | malformed
  | other (reason : String)
deriving Repr, DecidableEq

/-- The fault in the words of the system. -/
def FileFault.message : FileFault → String
  | missing => "No such file or directory (os error 2)"
  | directory => "Is a directory (os error 21)"
  | malformed => "stream did not contain valid UTF-8"
  | other reason => reason

/-- The text of a file, given its bytes or why there are none. -/
def sourceOf (file : Except FileFault ByteArray) : Except FileFault String := do
  match String.fromUTF8? (← file) with
  | some source => return source
  | none => .error .malformed

/-- The program in the form asked for. -/
def emitted (e : Emit) (p : Program) : String :=
  match e with
  | .none => ""
  | .listing => p.listing
  | .json => p.toJson.pretty ++ "\n"

/-- The command up to the run of the program. -/
def prepare (o : Options) (file : Except FileFault ByteArray) : Phase :=
  match sourceOf file with
  | .error f => .ended (.failure ("failed to read " ++ o.file ++ ": " ++ f.message))
  | .ok source =>
    match compile source with
    | .error (.failure f) => .ended (.failure f.message)
    | .error (.defect d) => .ended ⟨101, .empty, some d.message⟩
    | .ok p =>
      let written := (emitted o.emit p).toUTF8
      if o.run then .run written p else .ended ⟨0, written, none⟩

/-- The limits of the run. -/
def Options.limits (o : Options) : Limits := ⟨o.maxSteps, none⟩

/-- The answer after the run of the program. -/
def conclude (written : ByteArray) (r : RunResult) : Answer :=
  match r.result with
  | .ok _ => ⟨0, written ++ r.output, none⟩
  | .error e => ⟨1, written ++ r.output, some ("error: program aborted: " ++ e.message)⟩

/-- The next piece of a run that goes on, with what it wrote before handed on. -/
def resume (p : Loaded) (m : Machine) : Status :=
  Machine.advance p 65536 { m with output := .empty m.output.room }

end MiniPascal.Command
