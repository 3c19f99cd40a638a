import MiniPascal.Command.Answer
import MiniPascal.Proofs.Machine.StepLimit

/-! Runs that hand on their output piece by piece. What they hand on is in all the output of the run
in one piece, and they end where that ends. -/
namespace MiniPascal

/-- The run with bytes in front of what it wrote. -/
def Status.behind (front : ByteArray) (s : Status) : Status :=
  s.withOutput ⟨front ++ s.machine.output.bytes, none⟩

namespace Machine

/-- The machine with bytes in front of what it wrote. -/
def behind (front : ByteArray) (m : Machine) : Machine :=
  m.withOutput ⟨front ++ m.output.bytes, none⟩

variable {m : Machine} {i : Instr} {ts : List (Label × Nat)} {n : Nat} {p : Loaded}
  {front : ByteArray}

theorem behind_empty (ho : m.output.room = none) : m.behind .empty = m := by
  rw [behind, ByteArray.empty_append, ← ho]
  rfl

theorem exec_behind (ho : m.output.room = none) :
    exec ts n i (m.behind front) = (exec ts n i m).behind front := by
  by_cases hi : ∃ t, i = .print t
  · obtain ⟨t, rfl⟩ := hi
    rcases hv : m.stack with _ | ⟨v, stack⟩
    · simp [exec, behind, hv, Status.behind, Status.withOutput, Status.machine]
    · by_cases ht : v.ty = t
      · simp [exec, behind, withOutput, hv, ht, ho, Sink.write, Status.behind, Status.withOutput,
          Status.machine, ByteArray.append_assoc]
      · simp [exec, behind, hv, ht, Status.behind, Status.withOutput, Status.machine]
  · have hne : ∀ t, i ≠ .print t := fun t ht => hi ⟨t, ht⟩
    have hbytes : (exec ts n i m).machine.output.bytes = m.output.bytes := by
      rw [exec_output ho, bytesPrinted_of_ne hne, ByteArray.append_empty]
    rw [behind, exec_withOutput hne, Status.behind, hbytes]

theorem step_eq_ite (hi : p.code[m.pc]? = some i) : m.step p =
    if p.maxSteps.any (· ≤ m.steps) then .failed (.stepLimit m.steps) m
    else exec p.targets m.pc i (m.after 1 m.stack) := by
  rw [step, hi]
  rfl

theorem step_behind (ho : m.output.room = none) :
    (m.behind front).step p = (m.step p).behind front := by
  cases hi : p.code[m.pc]? with
  | none =>
    rw [step_of_none hi, step_of_none (m := m.behind front) hi]
    rfl
  | some i =>
    rw [step_eq_ite hi, step_eq_ite (m := m.behind front) hi]
    by_cases hlimit : p.maxSteps.any (· ≤ m.steps) = true
    · rw [if_pos hlimit]
      exact if_pos hlimit
    · rw [if_neg hlimit]
      exact (if_neg hlimit).trans (exec_behind (m := m.after 1 m.stack) ho)

theorem step_room (ho : m.output.room = none) : (m.step p).machine.output.room = none := by
  cases hi : p.code[m.pc]? with
  | none =>
    rw [step_of_none hi]
    exact ho
  | some i =>
    rw [step_eq_ite hi]
    split
    · exact ho
    · exact congrArg Sink.room (exec_output (m := m.after 1 m.stack) ho)

/-- What a machine wrote before does not matter to what it does. -/
theorem advance_behind (ho : m.output.room = none) :
    (m.behind front).advance p n = (m.advance p n).behind front := by
  induction n generalizing m with
  | zero => rfl
  | succ n ih =>
    rw [advance_succ, advance_succ, step_behind ho]
    have hroom := step_room (p := p) ho
    cases hs : m.step p with
    | running m' =>
      rw [hs] at hroom
      exact ih hroom
    | finished m' | failed e m' => rfl

theorem advance_room (ho : m.output.room = none) :
    (m.advance p n).machine.output.room = none := by
  induction n generalizing m with
  | zero => exact ho
  | succ n ih =>
    rw [advance_succ]
    have hroom := step_room (p := p) ho
    cases hs : m.step p with
    | running m' =>
      rw [hs] at hroom
      exact ih hroom
    | finished m' | failed e m' =>
      rw [hs] at hroom
      exact hroom

end Machine

namespace Command

/-- What a run in pieces has handed on so far, and where it got to. -/
inductive HandsOn (p : Loaded) (s : Status) : ByteArray → Status → Prop
  | start : HandsOn p s .empty s
  | piece {bytes : ByteArray} {m : Machine} (h : HandsOn p s bytes (.running m)) :
    HandsOn p s (bytes ++ m.output.bytes) (resume p m)

variable {p : Loaded} {m : Machine} {s : Status} {bytes : ByteArray}

theorem resume_behind (ho : m.output.room = none) : (m.behind bytes).advance p 65536 =
    (resume p m).behind (bytes ++ m.output.bytes) := by
  have hfresh : m.behind bytes =
      Machine.behind (bytes ++ m.output.bytes) { m with output := .empty m.output.room } :=
    congrArg (fun b => m.withOutput ⟨b, none⟩) ByteArray.append_empty.symm
  rw [hfresh, resume]
  exact Machine.advance_behind ho

/-- A run in pieces is a run in one piece. -/
theorem HandsOn.advance (h : HandsOn p (.running m) bytes s) (ho : m.output.room = none) :
    s.machine.output.room = none ∧ ∃ n, m.advance p n = s.behind bytes := by
  induction h with
  | start =>
    exact ⟨ho, 0, congrArg Status.running (Machine.behind_empty ho).symm⟩
  | @piece bytes m' h ih =>
    obtain ⟨hroom, n, hn⟩ := ih
    refine ⟨Machine.advance_room (m := { m' with output := .empty m'.output.room }) hroom,
      n + 65536, ?_⟩
    have hrunning : m.advance p n = .running (m'.behind bytes) := hn
    rw [Machine.advance_add hrunning]
    exact resume_behind hroom

end Command
end MiniPascal
