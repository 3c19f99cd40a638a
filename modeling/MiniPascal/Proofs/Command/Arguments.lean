import MiniPascal.Command.Options

/-! What accepted arguments say. They are read from left to right with at most one argument waiting
to be checked, yet each of them says one thing on its own or together with the value behind it. -/
namespace MiniPascal.Command

/-- One of the things that arguments say. -/
inductive Item where
  | file (name : String)
  | emit (e : Emit)
  | maxSteps (n : Nat)
  | noRun
  | verbose (count : Nat)
deriving Repr, DecidableEq

namespace Item

def file? : Item → Option String
  | file name => some name
  | _ => none

def emit? : Item → Option Emit
  | emit e => some e
  | _ => none

def maxSteps? : Item → Option Nat
  | maxSteps n => some n
  | _ => none

/-- How much louder the item asks to be. -/
def loudness : Item → Nat
  | verbose count => count
  | _ => 0

/-- How much louder the items ask to be together. -/
def volume : List Item → Nat
  | [] => 0
  | i :: is => i.loudness + volume is

theorem volume_append (is js : List Item) : volume (is ++ js) = volume is + volume js := by
  induction is with
  | nil => exact (Nat.zero_add _).symm
  | cons i is ih => rw [List.cons_append, volume, volume, ih, Nat.add_assoc]

end Item

/-- Whether an argument does not look like an option: a single dash does not. -/
def IsPlain (argument : String) : Prop := ∀ c cs, argument.toList ≠ '-' :: c :: cs

/-- The arguments that say an item. A value is an argument of its own or attached to its option. -/
inductive Item.Spelled : List String → Item → Prop
  | file {name : String} (hp : IsPlain name) (hn : name ≠ "") : Spelled [name] (.file name)
  | emit {value : String} {e : Emit} (hp : IsPlain value) (he : Emit.ofName? value = some e) :
    Spelled ["--emit", value] (.emit e)
  | emitAttached {value : String} {e : Emit} (he : Emit.ofName? value = some e) :
    Spelled ["--emit=" ++ value] (.emit e)
  | maxSteps {value : String} {n : Nat} (hp : IsPlain value)
    (hn : Progress.number? value = some n) : Spelled ["--max-steps", value] (.maxSteps n)
  | maxStepsAttached {value : String} {n : Nat} (hn : Progress.number? value = some n) :
    Spelled ["--max-steps=" ++ value] (.maxSteps n)
  | noRun : Spelled ["--no-run"] .noRun
  | verbose : Spelled ["--verbose"] (.verbose 1)
  | letters (n : Nat) :
    Spelled [String.ofList ('-' :: List.replicate (n + 1) 'v')] (.verbose (n + 1))

namespace Progress

/-- What has been read and checked is what the items say. -/
structure Says (p : Progress) (is : List Item) : Prop where
  file : is.filterMap Item.file? = p.file.toList
  emit : is.filterMap Item.emit? = p.emit.toList
  noRun : is.count .noRun = if p.noRun then 1 else 0
  maxSteps : is.filterMap Item.maxSteps? = p.maxSteps.toList
  verbose : p.verbose = min 255 (Item.volume is)

section
variable {p q : Progress} {a name value : String} {as : List String} {is : List Item}

/-- What checking the argument that waits can come to. -/
inductive Settles (p : Progress) : Progress → Prop
  | idle (h : p.pending = none) : Settles p p
  | file {name : String} (h : p.pending = some (.file name)) (hn : name ≠ "") :
    Settles p { p with pending := none, file := some name }
  | emit {value : String} {e : Emit} (h : p.pending = some (.emit (some value)))
    (hp : p.emit = none) (he : Emit.ofName? value = some e) :
    Settles p { p with pending := none, emit := some e }
  | maxSteps {value : String} {n : Nat} (h : p.pending = some (.maxSteps (some value)))
    (hp : p.maxSteps = none) (hn : number? value = some n) :
    Settles p { p with pending := none, maxSteps := some n }

/-- Nothing waits to be checked any more once it has been. -/
theorem Settles.pending (h : p.Settles q) : q.pending = none := by
  cases h with
  | idle h => exact h
  | file | emit | maxSteps => rfl

/-- The progress with more requests for verbosity. -/
def shout (p : Progress) : Nat → Progress
  | 0 => p
  | n + 1 => p.louder.shout n

/-- What an argument does when nothing waits. -/
inductive Reads (p : Progress) : String → Progress → Prop
  | file {name : String} (hp : IsPlain name) (hfile : p.file = none) :
    Reads p name { p with pending := some (.file name) }
  | emit : Reads p "--emit" { p with pending := some (.emit none) }
  | emitAttached {value : String} {q : Progress}
    (h : { p with pending := some (.emit (some value)) }.settle = .ok q) :
    Reads p ("--emit=" ++ value) q
  | maxSteps : Reads p "--max-steps" { p with pending := some (.maxSteps none) }
  | maxStepsAttached {value : String} {q : Progress}
    (h : { p with pending := some (.maxSteps (some value)) }.settle = .ok q) :
    Reads p ("--max-steps=" ++ value) q
  | noRun (hp : p.noRun = false) : Reads p "--no-run" { p with noRun := true }
  | verbose : Reads p "--verbose" p.louder
  | letters (n : Nat) :
    Reads p (String.ofList ('-' :: List.replicate (n + 1) 'v')) (p.shout (n + 1))

/-- The progress with what an item says. -/
def take (p : Progress) : Item → Progress
  | .file name => { p with pending := none, file := some name }
  | .emit e => { p with pending := none, emit := some e }
  | .maxSteps n => { p with pending := none, maxSteps := some n }
  | .noRun => { p with pending := none, noRun := true }
  | .verbose count => { p with pending := none, verbose := min 255 (p.verbose + count) }

/-- Whether an item may still be said. -/
def Free (p : Progress) : Item → Prop
  | .file _ => p.file = none
  | .emit _ => p.emit = none
  | .maxSteps _ => p.maxSteps = none
  | .noRun => p.noRun = false
  | .verbose _ => True

theorem Says.take {i : Item} (h : p.Says is) (hi : p.Free i) : (p.take i).Says (is ++ [i]) := by
  obtain ⟨hfile, hemit, hrun, hsteps, hverbose⟩ := h
  cases i with
  | file | emit | maxSteps | noRun =>
    constructor <;> simp_all [Progress.take, Free, Item.file?, Item.emit?, Item.maxSteps?,
      Item.volume_append, Item.volume, Item.loudness]
  | verbose count =>
    constructor
    case verbose =>
      have hvolume : Item.volume (is ++ [.verbose count]) = Item.volume is + count :=
        Item.volume_append is _
      simp only [Progress.take, hvolume, hverbose]
      omega
    all_goals simp_all [Progress.take, Item.file?, Item.emit?, Item.maxSteps?]

end

end Progress
end MiniPascal.Command
