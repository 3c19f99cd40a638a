/-! The arguments of the command. -/
namespace MiniPascal.Command

/-- What is written once a program has compiled. -/
inductive Emit where
  | none
  | listing
  | json
deriving Repr, DecidableEq, Inhabited

/-- The form of that name. -/
def Emit.ofName? : String → Option Emit
  | "none" => some .none
  | "listing" => some .listing
  | "json" => some .json
  | _ => Option.none

/-- What the command is asked to do. -/
structure Options where
  file : String
  emit : Emit
  run : Bool
  maxSteps : Option Nat
  verbose : Nat
deriving Repr, DecidableEq, Inhabited

/-- Why arguments are not acted upon. -/
inductive Usage where
  | missingFile
  | unknownArgument
  | invalidValue
  | malformedNumber
  | unwantedValue
  | repeatedOption
  | help
  | version
deriving Repr, DecidableEq, Inhabited

/-- An argument whose value is still to be checked; the value of an option may still be to come. -/
inductive Pending where
  | file (name : String)
  | emit (value : Option String)
  | maxSteps (value : Option String)
deriving Repr, DecidableEq

/-- What the arguments read so far ask for. -/
structure Progress where
  file : Option String
  emit : Option Emit
  noRun : Bool
  maxSteps : Option Nat
  verbose : Nat
  pending : Option Pending
deriving Repr, DecidableEq, Inhabited

namespace Progress

/-- No arguments read. -/
def initial : Progress := ⟨none, none, false, none, 0, none⟩

/-- A number of 64 bits in decimal digits, perhaps with a plus sign. -/
def number? (text : String) : Option Nat :=
  let digits := match text.toList with
    | '+' :: cs => cs
    | cs => cs
  let n := digits.foldl (fun n c => 10 * n + (c.toNat - '0'.toNat)) 0
  if !digits.isEmpty && digits.all Char.isDigit && n < UInt64.size then some n else none

/-- Checks the argument that is still to be checked. -/
def settle (p : Progress) : Except Usage Progress :=
  let q := { p with pending := none }
  match p.pending with
  | none => .ok p
  | some (.file name) => if name.isEmpty then .error .invalidValue else .ok { q with file := some name }
  | some (.emit none) | some (.maxSteps none) => .error .invalidValue
  | some (.emit (some value)) =>
    if p.emit.isSome then .error .repeatedOption
    else match Emit.ofName? value with
      | some e => .ok { q with emit := some e }
      | none => .error .invalidValue
  | some (.maxSteps (some value)) =>
    if p.maxSteps.isSome then .error .repeatedOption
    else match number? value with
      | some n => .ok { q with maxSteps := some n }
      | none => .error .malformedNumber

/-- Whether the file has been named. -/
def hasFile (p : Progress) : Bool :=
  p.file.isSome || (match p.pending with
    | some (.file _) => true
    | _ => false)

/-- The name of the file. There is a single file. -/
def readFile (p : Progress) (name : String) : Except Usage Progress :=
  if p.hasFile then .error .unknownArgument
  else p.settle.map fun p => { p with pending := some (.file name) }

/-- One more request for verbosity; beyond 255 they no longer count. -/
def louder (p : Progress) : Progress := { p with verbose := min 255 (p.verbose + 1) }

/-- An option with a value: the value may be attached, else the next argument is the value. -/
def readOption (p : Progress) (pending : Option String → Pending) (value : Option String) :
    Except Usage Progress := do
  let p ← p.settle
  let p := { p with pending := some (pending value) }
  if value.isSome then p.settle else return p

/-- An option without a value. -/
def readFlag (p : Progress) (value : Option String) (act : Progress → Except Usage Progress) :
    Except Usage Progress := do
  if value.isSome then .error .unwantedValue
  else act (← p.settle)

/-- An option in its long form. -/
def readLong (p : Progress) (name : String) (value : Option String) : Except Usage Progress :=
  match name with
  | "emit" => p.readOption .emit value
  | "max-steps" => p.readOption .maxSteps value
  | "no-run" => p.readFlag value fun p =>
    if p.noRun then .error .repeatedOption else .ok { p with noRun := true }
  | "verbose" => p.readFlag value fun p => .ok p.louder
  | "help" => p.readFlag value fun _ => .error .help
  | "version" => p.readFlag value fun _ => .error .version
  | _ => .error .unknownArgument

/-- The letters behind a single dash, each an option. -/
def readShort (p : Progress) : List Char → Except Usage Progress
  | [] => .ok p
  | c :: cs =>
    match c with
    | 'v' => do readShort (← p.settle).louder cs
    | 'h' => do
      let _ ← p.settle
      .error .help
    | 'V' => do
      let _ ← p.settle
      .error .version
    | _ => .error .unknownArgument

/-- An argument that is no option: the value that an option waits for, else the file. -/
def readPlain (p : Progress) (argument : String) : Except Usage Progress :=
  match p.pending with
  | some (.emit none) => .ok { p with pending := some (.emit (some argument)) }
  | some (.maxSteps none) => .ok { p with pending := some (.maxSteps (some argument)) }
  | _ => p.readFile argument

/-- One argument in front of a double dash. -/
def readArgument (p : Progress) (argument : String) : Except Usage Progress :=
  match argument.toList with
  | '-' :: '-' :: cs =>
    let name := cs.takeWhile (· != '=')
    let value := match cs.dropWhile (· != '=') with
      | [] => none
      | _ :: cs => some (String.ofList cs)
    p.readLong (String.ofList name) value
  | '-' :: c :: cs => p.readShort (c :: cs)
  | _ => p.readPlain argument

/-- All arguments. Behind a double dash nothing is an option. -/
def read (p : Progress) : List String → Except Usage Progress
  | [] => p.settle
  | a :: as =>
    if a = "--" then do
      let p ← as.foldlM readFile p
      p.settle
    else do read (← p.readArgument a) as

/-- What the arguments ask for, once all have been read. -/
def options (p : Progress) : Except Usage Options :=
  match p.file with
  | none => .error .missingFile
  | some file => .ok ⟨file, p.emit.getD .none, !p.noRun, p.maxSteps, p.verbose⟩

end Progress

/-- What a list of arguments asks for. -/
def Options.ofArguments (arguments : List String) : Except Usage Options := do
  (← Progress.initial.read arguments).options

end MiniPascal.Command
