import MiniPascal.Proofs.Machine.Limits

/-! Runs that may start only so many instructions and write as much as they like. Such a run is the
run without limits if that ends in time, and the front of it otherwise. -/
namespace MiniPascal
namespace Machine

variable {m : Machine} {p : Loaded} {n limit : Nat}

/-- A limit on steps only shows in the step it forbids. -/
theorem step_limited (hp : p.maxSteps = none) (h : (m.step p).machine.steps ≤ limit) :
    m.step { p with maxSteps := some limit } = m.step p := by
  cases hi : p.code[m.pc]? with
  | none => rw [step_of_none hi, step_of_none (p := { p with maxSteps := some limit }) hi]
  | some i =>
    rw [step_of_some hp hi, exec_steps] at h
    have hstarts : ¬ limit ≤ m.steps := Nat.not_le.2 h
    rw [step_of_some hp hi]
    simp [step, hi, hstarts, after]

theorem advance_step : m.advance p 1 = m.step p := by
  rw [advance_succ]
  cases m.step p <;> rfl

/-- A run counts no fewer steps than its first step does. -/
theorem steps_step_le (hp : p.maxSteps = none) (ho : m.output.room = none) :
    (m.step p).machine.steps ≤ (m.advance p (n + 1)).machine.steps := by
  obtain ⟨hone, -⟩ := advance_trace (n := 1) hp ho
  obtain ⟨hall, -⟩ := advance_trace (n := n + 1) hp ho
  have hfront : (m.events p (n + 1)).take 1 = m.events p 1 := take_events (by omega)
  have hlength := congrArg List.length hfront
  rw [List.length_take] at hlength
  rw [← advance_step, hone, hall]
  omega

/-- A run that keeps within a limit on steps does not depend on it. -/
theorem advance_limited (hp : p.maxSteps = none) (ho : m.output.room = none)
    (h : (m.advance p n).machine.steps ≤ limit) :
    m.advance { p with maxSteps := some limit } n = m.advance p n := by
  induction n generalizing m with
  | zero => rfl
  | succ n ih =>
    have hfirst := Nat.le_trans (steps_step_le hp ho) h
    rw [advance_succ, advance_succ, step_limited hp hfirst]
    rw [advance_succ] at h
    cases hs : m.step p with
    | running m' =>
      rw [hs] at h
      have houtput := (advance_trace (n := 1) hp ho).2
      rw [advance_step, hs] at houtput
      exact ih (congrArg Sink.room houtput) h
    | finished m' => rfl
    | failed e m' => rfl

end Machine

namespace Program

/-- What a run comes to if only so many instructions may start: what it comes to without limits if it
ends in time, and otherwise what it has printed by then. -/
inductive Delivers (p : Program) : Option Nat → RunResult → Prop
  | ended {limit : Option Nat} {k : Nat} {r : RunResult} (h : p.EndsAfter k r)
    (hk : ∀ n ∈ limit, k ≤ n) : Delivers p limit r
  | stopped {n : Nat} (h : ∀ k ≤ n, ∀ r, ¬ p.EndsAfter k r) :
    Delivers p (some n) ⟨written (p.started n), .error (.stepLimit n)⟩

variable {p : Program} {r r' : RunResult} {limits : Limits} {limit : Option Nat} {n steps : Nat}

/-- A run has one result. -/
theorem Answers.unique (h : p.Answers limits r) (h' : p.Answers limits r') : r = r' := by
  obtain ⟨n, hn⟩ := h
  obtain ⟨n', hn'⟩ := h'
  have hlast := hn (max n n') (Nat.le_max_left _ _)
  rw [hn' (max n n') (Nat.le_max_right _ _)] at hlast
  exact (Except.ok.inj hlast).symm

theorem runFor_limited (hp : p.missingLabel? = none) (h : (p.started n).length ≤ steps) :
    p.runFor ⟨some steps, none⟩ n = p.runFor .none n := by
  have hlimit : (p.runFor .none n).machine.steps ≤ steps := (runFor_trace hp).1 ▸ h
  rw [runFor_of_marked hp] at hlimit
  rw [runFor_of_marked hp, runFor_of_marked hp]
  exact Machine.advance_limited (m := p.start none) rfl rfl hlimit

/-- A run that does not end in time is broken off in front of the first instruction too many. -/
theorem answers_stopped (hp : p.missingLabel? = none)
    (hlong : ∀ k ≤ steps, ∀ r, ¬ p.EndsAfter k r) :
    p.Answers ⟨some steps, none⟩ ⟨written (p.started steps), .error (.stepLimit steps)⟩ := by
  obtain ⟨hsteps, houtput⟩ := runFor_trace (n := steps) hp
  have hsame := runFor_limited hp (length_started_le (n := steps))
  cases hs : p.runFor .none steps with
  | finished m | failed e m =>
    have hends : p.EndsAfter _ _ := ⟨steps, by rw [hs]; rfl, rfl⟩
    exact absurd hends (hlong _ length_started_le _)
  | running m =>
    rw [hs] at hsteps houtput hsame
    have hrun := hs
    rw [runFor_of_marked hp] at hrun hsame
    have hcount : m.steps = steps := hsteps.trans (Machine.length_events_of_running hrun)
    cases hi : p.code[m.pc]? with
    | none => exact absurd (endsAfter_of_running hp hs hi) (hlong _ (Nat.le_of_eq hcount) _)
    | some i =>
      have hstop : m.step (p.loaded (some steps)) = .failed (.stepLimit steps) m := by
        simp [Machine.step, loaded, hi, hcount]
      refine answers_of_result (n := steps + 1) ?_
      rw [runFor_of_marked hp, Machine.advance_add hsame, Machine.advance_succ, hstop, ← houtput]
      rfl

theorem Delivers.answers (hp : p.missingLabel? = none) (h : p.Delivers limit r) :
    p.Answers ⟨limit, none⟩ r := by
  cases h with
  | stopped hlong => exact answers_stopped hp hlong
  | ended h hk =>
    obtain ⟨fuel, hr, rfl⟩ := h
    cases limit with
    | none => exact answers_of_result hr
    | some n =>
      refine answers_of_result (n := fuel) ?_
      rw [runFor_limited hp (hk n rfl)]
      exact hr

/-- What a run delivers is what the instructions it started printed. -/
theorem Delivers.output (hp : p.missingLabel? = none) (h : p.Delivers limit r) :
    ∃ k, (∀ n ∈ limit, k ≤ n) ∧ r.output = written (p.started k) := by
  cases h with
  | @ended _ k _ h hk => exact ⟨k, hk, (h.trace hp).2.1⟩
  | @stopped n h => exact ⟨n, by simp, rfl⟩

end Program
end MiniPascal
