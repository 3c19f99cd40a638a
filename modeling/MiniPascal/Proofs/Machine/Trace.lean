import MiniPascal.Proofs.Machine.Steps

/-! What a run does, instruction by instruction: which it starts, and what each of them prints. The
output of a run is what its instructions printed, in order. -/
namespace MiniPascal

/-- An instruction that a run started, and the bytes it printed. -/
structure Event where
  instr : Instr
  bytes : ByteArray

/-- What was printed by instructions one after another. -/
@[simp] def written : List Event → ByteArray
  | [] => .empty
  | e :: es => e.bytes ++ written es

/-- The machine of a run, wherever the run got to. -/
def Status.machine : Status → Machine
  | running m | finished m | failed _ m => m

namespace Machine

/-- The bytes an instruction is about to print: the topmost value on a line of its own, if it is of
the type that is asked for. -/
def bytesPrinted (m : Machine) : Instr → ByteArray
  | .print t =>
    match m.stack with
    | v :: _ => if v.ty = t then (v.printed ++ "\n").toUTF8 else .empty
    | [] => .empty
  | _ => .empty

/-- The instructions started in a number of steps. -/
@[simp] def events (p : Loaded) : Nat → Machine → List Event
  | 0, _ => []
  | n + 1, m =>
    match p.code[m.pc]? with
    | none => []
    | some i => ⟨i, m.bytesPrinted i⟩ ::
      match m.step p with
      | .running m' => events p n m'
      | _ => []

/-- Another place to write to. -/
def withOutput (m : Machine) (o : Sink) : Machine := { m with output := o }

end Machine

/-- The run with another place to write to. -/
def Status.withOutput (o : Sink) : Status → Status
  | running m => .running (m.withOutput o)
  | finished m => .finished (m.withOutput o)
  | failed e m => .failed e (m.withOutput o)

namespace Machine

section
variable {m : Machine} {i : Instr} {ts : List (Label × Nat)} {n : Nat} {o : Sink}

@[simp] theorem stack_withOutput : (m.withOutput o).stack = m.stack := rfl

@[simp] theorem slots_withOutput : (m.withOutput o).slots = m.slots := rfl

@[simp] theorem withOutput_self : m.withOutput m.output = m := rfl

theorem push_withOutput (operands stack : List Value) (r : OperandResult) :
    (m.withOutput o).push n i operands stack r = (m.push n i operands stack r).withOutput o := by
  cases r <;> rfl

theorem unary_withOutput (f : Value → OperandResult) :
    (m.withOutput o).unary n i f = (m.unary n i f).withOutput o := by
  simp only [unary, stack_withOutput]
  split
  · exact push_withOutput _ _ _
  · rfl

theorem binary_withOutput (f : Value → Value → OperandResult) :
    (m.withOutput o).binary n i f = (m.binary n i f).withOutput o := by
  simp only [binary, stack_withOutput]
  split
  · exact push_withOutput _ _ _
  · rfl

theorem jump_withOutput (l : Label) :
    (m.withOutput o).jump ts l = (m.jump ts l).withOutput o := by
  unfold jump
  split <;> rfl

/-- Only an instruction that prints depends on where it prints to. -/
theorem exec_withOutput (hi : ∀ t, i ≠ .print t) :
    exec ts n i (m.withOutput o) = (exec ts n i m).withOutput o := by
  cases i with
  | push | label | halt => rfl
  | load s =>
    simp only [exec, slots_withOutput]
    split <;> rfl
  | store s =>
    rcases hv : m.stack with _ | ⟨v, stack⟩
    · simp [exec, hv, Status.withOutput]
    · by_cases hs : s.index.toNat < m.slots.size
      · simp [exec, hv, hs, Status.withOutput, withOutput]
      · simp [exec, hv, hs, Status.withOutput]
  | neg | not | widen => exact unary_withOutput _
  | binary op => exact binary_withOutput _
  | concat => exact binary_withOutput _
  | jump l => exact jump_withOutput l
  | jumpIfFalse l =>
    simp only [exec, stack_withOutput]
    split
    · rfl
    · next stack _ => exact jump_withOutput (m := { m with stack }) l
    · rfl
    · rfl
  | print t => exact absurd rfl (hi t)

theorem bytesPrinted_of_ne (hi : ∀ t, i ≠ .print t) : m.bytesPrinted i = .empty := by
  cases i with
  | print t => exact absurd rfl (hi t)
  | _ => rfl

theorem bytesPrinted_after : (m.after n m.stack).bytesPrinted i = m.bytesPrinted i := by
  cases i <;> rfl

theorem exec_steps : (exec ts n i m).machine.steps = m.steps := by
  cases i
  all_goals
    simp only [exec, unary, binary, jump, push]
    repeat' split
    all_goals rfl

/-- Without a limit on the output, an instruction adds to it what it prints. -/
theorem exec_output (h : m.output.room = none) :
    (exec ts n i m).machine.output = ⟨m.output.bytes ++ m.bytesPrinted i, none⟩ := by
  have hm : m.output = ⟨m.output.bytes ++ .empty, none⟩ := by
    rw [ByteArray.append_empty, ← h]
  by_cases hi : ∃ t, i = .print t
  · obtain ⟨t, rfl⟩ := hi
    rcases hv : m.stack with _ | ⟨v, stack⟩
    · simpa [exec, bytesPrinted, hv, Status.machine] using hm
    · by_cases ht : v.ty = t
      · simp [exec, bytesPrinted, hv, ht, Status.machine, Sink.write, h]
      · simpa [exec, bytesPrinted, hv, ht, Status.machine] using hm
  · have hne : ∀ t, i ≠ .print t := fun t ht => hi ⟨t, ht⟩
    have hsame : exec ts n i m = (exec ts n i m).withOutput m.output := exec_withOutput hne
    rw [bytesPrinted_of_ne hne, ← hm, hsame]
    cases exec ts n i m <;> rfl

end

section
variable {m m' : Machine} {i : Instr} {p : Loaded} {n k : Nat}

theorem step_of_none (hi : p.code[m.pc]? = none) : m.step p = .finished m := by
  rw [step, hi]

theorem step_of_some (hp : p.maxSteps = none) (hi : p.code[m.pc]? = some i) :
    m.step p = exec p.targets m.pc i (m.after 1 m.stack) := by
  simp [step, hi, hp, after]

theorem events_of_none (hi : p.code[m.pc]? = none) : m.events p n = [] := by
  cases n with
  | zero => rfl
  | succ n => rw [events, hi]

theorem events_of_some (hi : p.code[m.pc]? = some i) : m.events p (n + 1) =
    ⟨i, m.bytesPrinted i⟩ :: match m.step p with
      | .running m' => m'.events p n
      | _ => [] := by
  rw [events, hi]

/-- Without limits, a run has started as many instructions as it counts and has printed what they
printed. -/
theorem advance_trace (hp : p.maxSteps = none) (h : m.output.room = none) :
    (m.advance p n).machine.steps = m.steps + (m.events p n).length ∧
    (m.advance p n).machine.output = ⟨m.output.bytes ++ written (m.events p n), none⟩ := by
  induction n generalizing m with
  | zero =>
    refine ⟨rfl, ?_⟩
    rw [advance, events, written, ByteArray.append_empty, ← h]
    rfl
  | succ n ih =>
    rw [advance_succ]
    cases hi : p.code[m.pc]? with
    | none =>
      rw [step_of_none hi, events_of_none hi, written, ByteArray.append_empty, ← h]
      exact ⟨rfl, rfl⟩
    | some i =>
      have hsteps : (m.step p).machine.steps = m.steps + 1 := by
        rw [step_of_some hp hi, exec_steps]
        rfl
      have houtput : (m.step p).machine.output = ⟨m.output.bytes ++ m.bytesPrinted i, none⟩ := by
        rw [step_of_some hp hi, exec_output (by exact h), bytesPrinted_after]
        rfl
      rw [events_of_some hi, written, ← ByteArray.append_assoc, List.length_cons]
      cases hs : m.step p with
      | running m' =>
        rw [hs] at hsteps houtput
        have hroom : m'.output.room = none := congrArg Sink.room houtput
        have hbytes : m'.output.bytes = _ := congrArg Sink.bytes houtput
        have hcount : m'.steps = m.steps + 1 := hsteps
        obtain ⟨hk, ho⟩ := ih hroom
        rw [hcount] at hk
        rw [hbytes] at ho
        exact ⟨hk.trans (by rw [Nat.add_assoc, Nat.add_comm 1]), ho⟩
      | finished m' | failed e m' =>
        rw [hs] at hsteps houtput
        refine ⟨hsteps, ?_⟩
        rw [houtput, written, ByteArray.append_empty]

theorem length_events_le : (m.events p n).length ≤ n := by
  induction n generalizing m with
  | zero => exact Nat.le_refl _
  | succ n ih =>
    rw [events]
    split
    · exact Nat.zero_le _
    · rw [List.length_cons]
      apply Nat.succ_le_succ
      split
      · exact ih
      · exact Nat.zero_le _

/-- More steps start the same instructions and then more. -/
theorem take_events (h : k ≤ n) : (m.events p n).take k = m.events p k := by
  induction n generalizing m k with
  | zero =>
    obtain rfl := Nat.le_zero.1 h
    rfl
  | succ n ih =>
    cases k with
    | zero => rfl
    | succ k =>
      rw [events, events]
      split
      · rfl
      · rw [List.take_succ_cons]
        split
        · rw [ih (Nat.le_of_succ_le_succ h)]
        · rw [List.take_nil]

end
end Machine
end MiniPascal
