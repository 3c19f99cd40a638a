import MiniPascal.Command.Answer

/-! The command line. -/
namespace MiniPascal.Command

/-- The bytes of a file, or why there are none. -/
def readFile (name : String) : IO (Except FileFault ByteArray) := do
  try return .ok (← IO.FS.readBinFile name)
  catch
    | .noFileOrDirectory .. => return .error .missing
    | .inappropriateType .. => return .error .directory
    | e => return .error (.other (toString e))

/-- Runs a program to its end, however long that takes, and writes its output as it goes. -/
partial def runToEnd (out : IO.FS.Stream) (p : Loaded) (s : Status) : IO RunResult := do
  match s.result with
  | .ok r => return r
  | .error m =>
    out.write m.output.bytes
    out.flush
    runToEnd out p (resume p m)

/-- Tells why arguments are not acted upon. -/
def Usage.explain : Usage → String
  | help => "usage: pasc [--emit none|listing|json] [--no-run] [--max-steps N] [-v] FILE"
  | version => "pasc 0.1.0"
  | missingFile => "error: a file is required"
  | unknownArgument => "error: unexpected argument"
  | invalidValue => "error: invalid or missing value"
  | malformedNumber => "error: invalid number"
  | unwantedValue => "error: an option takes no value"
  | repeatedOption => "error: an option is given twice"

/-- Does what the options ask for, and answers the status. -/
def perform (o : Options) : IO UInt32 := do
  let out ← IO.getStdout
  let answer ← match prepare o (← readFile o.file) with
    | .ended a => pure a
    | .run written p => do
      out.write written
      pure (conclude .empty (← runToEnd out (p.loaded o.maxSteps) (p.runFor o.limits 0)))
  out.write answer.output
  out.flush
  if let some complaint := answer.complaint then IO.eprintln complaint
  return answer.status

end MiniPascal.Command

open MiniPascal.Command in
/-- Compiles a file and runs the program. -/
def main (arguments : List String) : IO UInt32 := do
  match Options.ofArguments arguments with
  | .ok o => perform o
  | .error u =>
    if u = .help ∨ u = .version then
      IO.println u.explain
      return 0
    else
      IO.eprintln u.explain
      return 2
