import MiniPascal.Proofs.Machine.ControlFlow
import MiniPascal.Proofs.Machine.Limits
import MiniPascal.Proofs.Machine.Preservation

/-! Programs that only jump forwards. Every step leads further on in the code, so no instruction is
executed twice and the run comes to its end. A text without loops compiles to such a program. -/
namespace MiniPascal

/-- Every jump leads to a later place, and the code ends with the instruction that halts. -/
structure Program.Forward (p : Program) : Prop where
  jumps : ∀ m t, p.JumpsTo m t → m < t
  ends : p.code.back? = some .halt

namespace Program.Forward

variable {p : Program} {n : Nat}

theorem getElem?_last (hp : p.Forward) (hn : n + 1 = p.code.size) : p.code[n]? = some .halt := by
  have hlast : p.code.size - 1 = n := by omega
  rw [← hlast, ← Array.back?_eq_getElem?]
  exact hp.ends

theorem size_pos (hp : p.Forward) : 0 < p.code.size := by
  rcases Nat.eq_zero_or_pos p.code.size with h | h
  · have hnone := hp.ends
    rw [Array.eq_empty_of_size_eq_zero h] at hnone
    cases hnone
  · exact h

end Program.Forward

namespace Machine

/-- The places of the instructions started in a number of steps. -/
def places (p : Loaded) : Nat → Machine → List Nat
  | 0, _ => []
  | n + 1, m =>
    match p.code[m.pc]? with
    | none => []
    | some _ => m.pc ::
      match m.step p with
      | .running m' => places p n m'
      | _ => []

section
variable {m m' : Machine} {i : Instr} {ts : List (Label × Nat)} {n k : Nat} {l : Label} {p : Loaded}

theorem jump_running (h : m.jump ts l = .running m') :
    ts.lookup l = some m'.pc ∧ m'.steps = m.steps := by
  unfold jump at h
  split at h
  · next pc hpc =>
    cases h
    exact ⟨hpc, rfl⟩
  · cases h

theorem push_running {operands stack : List Value} {r : OperandResult}
    (h : m.push n i operands stack r = .running m') : m'.pc = m.pc := by
  cases r with
  | ok v =>
    cases h
    rfl
  | error f => cases h

/-- An instruction leads to the next one, or to where its label is. -/
theorem exec_running_pc (h : exec ts n i m = .running m') :
    m'.pc = m.pc ∨ ∃ l, i.target? = some l ∧ ts.lookup l = some m'.pc := by
  cases i with
  | jump l => exact .inr ⟨l, rfl, (jump_running h).1⟩
  | jumpIfFalse l =>
    simp only [exec] at h
    split at h
    · cases h
      exact .inl rfl
    · exact .inr ⟨l, rfl, (jump_running h).1⟩
    · cases h
    · cases h
  | neg | not | widen =>
    simp only [exec, unary] at h
    split at h
    · exact .inl (push_running h)
    · cases h
  | binary op | concat =>
    simp only [exec, binary] at h
    split at h
    · exact .inl (push_running h)
    · cases h
  | push | load | store | label | print | halt =>
    simp only [exec] at h
    repeat' split at h
    all_goals
      cases h
      try exact .inl rfl

/-- Only one instruction ends a run in good order. -/
theorem exec_finished (h : exec ts n i m = .finished m') : i = .halt := by
  cases i with
  | halt => rfl
  | _ =>
    simp only [exec, unary, binary, jump, push] at h
    repeat' split at h
    all_goals cases h

theorem exec_ne_stepLimit : exec ts n i m ≠ .failed (.stepLimit k) m' := by
  intro h
  cases i
  all_goals
    simp only [exec, unary, binary, jump, push, operandError] at h
    repeat' split at h
    all_goals cases h

theorem places_of_some (hi : p.code[m.pc]? = some i) : m.places p (n + 1) =
    m.pc :: match m.step p with
      | .running m' => m'.places p n
      | _ => [] := by
  rw [places, hi]

/-- The places are those of the instructions that were started. -/
theorem getElem?_places :
    (m.places p n).map (p.code[·]?) = (m.events p n).map fun e => some e.instr := by
  induction n generalizing m with
  | zero => rfl
  | succ n ih =>
    cases hi : p.code[m.pc]? with
    | none => simp [places, hi]
    | some i =>
      rw [places_of_some hi, events_of_some hi, List.map_cons, List.map_cons, hi]
      cases m.step p with
      | running m₁ => rw [ih]
      | finished m₁ | failed e m₁ => rfl

end

section
variable {p : Program} {m m' : Machine} {limit : Option Nat} {n : Nat}

/-- A step goes on further behind, within the code. -/
theorem step_forward (hp : p.Forward) (h : m.step (p.loaded limit) = .running m') :
    m.pc < m'.pc ∧ m'.pc < p.code.size ∧ m'.steps = m.steps + 1 := by
  unfold step at h
  split at h
  · cases h
  · next i hi =>
    have hi : p.code[m.pc]? = some i := hi
    have hlt : m.pc < p.code.size := (Array.getElem?_eq_some_iff.1 hi).choose
    split at h
    · cases h
    · have hsteps : (exec p.targets m.pc i
          { m with pc := m.pc + 1, steps := m.steps + 1 }).machine.steps = m.steps + 1 := exec_steps
      have hexec : exec p.targets m.pc i { m with pc := m.pc + 1, steps := m.steps + 1 } =
        .running m' := h
      rw [hexec] at hsteps
      rcases exec_running_pc hexec with hpc | ⟨l, hl, hpc⟩
      · -- the instruction is not the last, which halts
        have hnot : ¬ m.pc + 1 = p.code.size := by
          intro hend
          obtain rfl : .halt = i := Option.some.inj ((hp.getElem?_last hend).symm.trans hi)
          cases hexec
        have hnext : m'.pc = m.pc + 1 := hpc
        exact ⟨by omega, by omega, hsteps⟩
      · have hlabel := Program.getElem?_of_lookup_targets hpc
        have hinside : m'.pc < p.code.size := (Array.getElem?_eq_some_iff.1 hlabel).choose
        exact ⟨hp.jumps m.pc m'.pc ⟨i, l, hi, hl, hlabel⟩, hinside, hsteps⟩

/-- A run gets at least one place further with each step. -/
theorem advance_forward (hp : p.Forward) (hm : m.pc < p.code.size)
    (h : m.advance (p.loaded limit) n = .running m') :
    m.pc + n ≤ m'.pc ∧ m'.pc < p.code.size ∧ m'.steps = m.steps + n := by
  induction n generalizing m with
  | zero =>
    cases h
    exact ⟨Nat.le_refl _, hm, rfl⟩
  | succ n ih =>
    rw [advance_succ] at h
    cases hs : m.step (p.loaded limit) with
    | running m₁ =>
      rw [hs] at h
      obtain ⟨hlt, hinside, hsteps⟩ := step_forward hp hs
      obtain ⟨hle, hend, hcount⟩ := ih hinside h
      exact ⟨by omega, hend, by omega⟩
    | finished m₁ => simp [hs] at h
    | failed e m₁ => simp [hs] at h

/-- No place comes twice. -/
theorem places_forward (hp : p.Forward) :
    (m.places (p.loaded limit) n).Pairwise (· < ·) ∧
      ∀ k ∈ m.places (p.loaded limit) n, m.pc ≤ k := by
  induction n generalizing m with
  | zero => exact ⟨.nil, by simp [places]⟩
  | succ n ih =>
    cases hi : (p.loaded limit).code[m.pc]? with
    | none => simp [places, hi]
    | some i =>
      rw [places_of_some hi]
      cases hs : m.step (p.loaded limit) with
      | running m₁ =>
        have hlt := (step_forward hp hs).1
        obtain ⟨hpairs, hle⟩ := ih (m := m₁)
        refine ⟨.cons (fun k hk => Nat.lt_of_lt_of_le hlt (hle k hk)) hpairs, fun k hk => ?_⟩
        rcases List.mem_cons.1 hk with rfl | hk
        · exact Nat.le_refl _
        · exact Nat.le_of_lt (Nat.lt_of_lt_of_le hlt (hle k hk))
      | finished m₁ | failed e m₁ => simp

/-- A run that ends in good order has executed the instruction that halts, at last. -/
theorem getLast?_events (hp : p.Forward) (hm : m.pc < p.code.size)
    (h : m.advance (p.loaded limit) n = .finished m') :
    (m.events (p.loaded limit) n).getLast?.map Event.instr = some .halt := by
  induction n generalizing m with
  | zero => cases h
  | succ n ih =>
    obtain ⟨i, hi⟩ : ∃ i, (p.loaded limit).code[m.pc]? = some i := ⟨_, Array.getElem?_eq_getElem hm⟩
    rw [advance_succ] at h
    rw [events_of_some hi]
    cases hs : m.step (p.loaded limit) with
    | running m₁ =>
      rw [hs] at h
      have hlast := ih (step_forward hp hs).2.1 h
      dsimp only
      cases hes : m₁.events (p.loaded limit) n with
      | nil => simp [hes] at hlast
      | cons e es => rwa [List.getLast?_cons_cons, ← hes]
    | finished m₁ =>
      unfold step at hs
      rw [hi] at hs
      dsimp only at hs
      split at hs
      · cases hs
      · obtain rfl := exec_finished hs
        rfl
    | failed e m₁ => simp [hs] at h

/-- A run that may start as many instructions as there are is not kept from any. -/
theorem advance_ne_stepLimit (hp : p.Forward) (hm : m.pc < p.code.size) (hs : m.steps ≤ m.pc)
    (hl : ∀ steps, limit = some steps → p.code.size ≤ steps) {k : Nat} :
    m.advance (p.loaded limit) n ≠ .failed (.stepLimit k) m' := by
  induction n generalizing m with
  | zero => simp [advance]
  | succ n ih =>
    rw [advance_succ]
    cases hstep : m.step (p.loaded limit) with
    | running m₁ =>
      obtain ⟨hlt, hinside, hsteps⟩ := step_forward hp hstep
      exact ih hinside (by omega)
    | finished m₁ => simp
    | failed e m₁ =>
      rintro ⟨rfl, rfl⟩
      unfold step at hstep
      split at hstep
      · cases hstep
      · split at hstep
        · next hbound =>
          obtain ⟨steps, hsome, hle⟩ := (Option.any_eq_true _ _).1 hbound
          have hsize := hl steps hsome
          have hover : steps ≤ m.steps := of_decide_eq_true hle
          omega
        · exact exec_ne_stepLimit hstep

end
end Machine

/-- Without loops, every jump leads forwards. -/
theorem ControlFlow.forward {regions : List Region} {p : Program} (h : ControlFlow regions p)
    (hl : regions.countP Region.isLoop = 0) (he : p.code.back? = some .halt) : p.Forward := by
  refine ⟨fun m t hmt => ?_, he⟩
  have hback : ¬ t < m := by
    intro hlt
    obtain ⟨r, hr, hloop, -⟩ := (h.backward m t).1 ⟨hmt, hlt⟩
    exact List.countP_eq_zero.1 hl r hr hloop
  have hne : m ≠ t := by
    rintro rfl
    obtain ⟨i, l, hi, htarget, hmark⟩ := hmt
    rw [hi] at hmark
    cases hmark
    cases htarget
  omega

/-- Only the word for it makes a loop. -/
theorem Stmt.loops_of_spells {part : Part} {ts : List TokenKind} {st : Stmt}
    (h : st.Spells part ts) (hw : .symbol .whileWord ∉ ts) : st.loops = 0 := by
  induction h with
  | empty | assign | writeNothing | write => rfl
  | ofCompound _ ih => exact ih hw
  | block _ ih | last _ ih | lastSemicolon _ ih | more _ _ ih | ifThen _ _ ih | ifElse _ _ _ ih =>
    simp_all
  | loop => simp at hw

namespace Tree

variable {a : Tree} {source : String}

theorem loops_of_denotes (h : Denotes source a) (hw : .symbol .whileWord ∉ kindsOf source) :
    a.body.loops = 0 := by
  obtain ⟨rest, hrest⟩ := sentence_prefix (kindsOf source)
  have hs := h.spells
  rw [hrest] at hw
  generalize sentence (kindsOf source) = ts at hs hw
  cases hs with
  | plain x hst | declaring x hv hst =>
    refine Stmt.loops_of_spells hst fun hmem => hw ?_
    simp [hmem]

theorem forward_program (h : a.body.labels < UInt32.size) (hl : a.body.loops = 0) :
    a.program.Forward := by
  refine (a.controlFlow h).forward ?_ (by simp [program])
  rw [regions, countP_isLoop_regions, hl]

end Tree

namespace Program

/-- The places of the instructions that a run without limits starts in its first `n` steps. -/
def visited (p : Program) (n : Nat) : List Nat := (p.start none).places (p.loaded none) n

/-- The run ended with the instruction that halts, or divided by zero. -/
def EndsProperly (p : Program) (k : Nat) (r : RunResult) : Prop :=
  (r.result = .ok k ∧ (p.started k).getLast?.map Event.instr = some .halt) ∨
    ∃ n, r.result = .error (.divisionByZero n)

variable {p : Program} {limits : Limits} {n k : Nat} {r : RunResult}

namespace Forward

/-- A run that may start as many instructions as there are is over when it has started so many. -/
theorem exists_result (hp : p.Forward)
    (hl : ∀ steps, limits.maxSteps = some steps → p.code.size ≤ steps) :
    ∃ r, (p.runFor limits p.code.size).result = .ok r ∧ ∀ k, r.result ≠ .error (.stepLimit k) := by
  cases hm : p.missingLabel? with
  | some l => exact ⟨_, runFor_of_missingLabel? hm, fun k => by simp⟩
  | none =>
    rw [runFor_of_marked hm]
    have hstart : (p.start limits.room).pc < p.code.size := hp.size_pos
    cases hs : (p.start limits.room).advance (p.loaded limits.maxSteps) p.code.size with
    | running m =>
      have hle := Machine.advance_forward hp hstart hs
      omega
    | finished m => exact ⟨_, rfl, fun k => by simp⟩
    | failed e m =>
      refine ⟨_, rfl, fun k hk => ?_⟩
      cases hk
      exact Machine.advance_ne_stepLimit hp hstart (Nat.le_refl 0) hl hs

theorem visited_increasing (hp : p.Forward) : (p.visited n).Pairwise (· < ·) :=
  (Machine.places_forward hp).1

theorem endsAfter (hp : p.Forward) : ∃ k ≤ p.code.size, ∃ r, p.EndsAfter k r := by
  have hnone : ∀ steps, Limits.none.maxSteps = some steps → p.code.size ≤ steps := by
    simp [Limits.none]
  obtain ⟨r, hr, -⟩ := hp.exists_result hnone
  exact ⟨_, length_started_le, r, p.code.size, hr, rfl⟩

end Forward

theorem getElem?_visited : (p.visited n).map (p.code[·]?) =
    (p.started n).map fun e => some e.instr :=
  Machine.getElem?_places (p := p.loaded none)

end Program

/-- The program of a tree without loops ends as it should. -/
theorem Tree.endsProperly {a : Tree} {k : Nat} {r : RunResult} (h : a.WellTyped)
    (hf : a.program.Forward) (hl : a.body.labels < UInt32.size)
    (hv : a.vars.length ≤ UInt32.size) (hr : a.program.EndsAfter k r) :
    a.program.EndsProperly k r := by
  have hcount := (hr.trace a.missingLabel?_program).2.2
  obtain ⟨fuel, hresult, rfl⟩ := hr
  rw [runFor_program] at hresult
  generalize hs : a.startMachine.advance a.loadedProgram fuel = s at hresult
  have hover : ∀ m, s ≠ .running m := by
    rintro m rfl
    cases hresult
  rcases (program_runs h hl hv).of_ended hs hover with
    ⟨q, m, -, rfl, -⟩ | ⟨o, index, m, -, rfl, -⟩
  · have hstart : a.startMachine.pc < a.program.code.size := hf.size_pos
    have hlast := Machine.getLast?_events hf hstart hs
    cases hresult
    refine .inl ⟨by rw [hcount _ rfl], ?_⟩
    rw [Program.started_length]
    exact hlast
  · cases hresult
    exact .inr ⟨index, rfl⟩

section
variable {source : String} {p : Program}

/-- What a text without loops compiles to ends. Its run starts no instruction twice, and so no more
than there are; it ends by halting or in a division by zero, and no limit on the steps that allows
for the whole code keeps it from that. Slots are numbered in 32 bits. -/
theorem compile_terminates (h : compile source = .ok p)
    (hw : .symbol .whileWord ∉ kindsOf source) :
    (∃ k ≤ p.code.size, ∃ r, p.EndsAfter k r ∧
      (p.slots.size ≤ UInt32.size → p.EndsProperly k r)) ∧
    (∀ n, (p.visited n).Pairwise (· < ·) ∧
      (p.visited n).map (p.code[·]?) = (p.started n).map fun e => some e.instr) ∧
    ∀ limits : Limits, (∀ steps, limits.maxSteps = some steps → p.code.size ≤ steps) →
      ∃ r, (p.runFor limits p.code.size).result = .ok r ∧
        ∀ k, r.result ≠ .error (.stepLimit k) := by
  obtain ⟨a, ha, ht, hl, rfl⟩ := denotes_of_compile h
  have hf : a.program.Forward := Tree.forward_program hl (Tree.loops_of_denotes ha hw)
  refine ⟨?_, fun n => ⟨hf.visited_increasing, Program.getElem?_visited⟩, fun limits hsteps =>
    hf.exists_result hsteps⟩
  obtain ⟨k, hk, r, hr⟩ := hf.endsAfter
  refine ⟨k, hk, r, hr, fun hs => ?_⟩
  have hv : a.vars.length ≤ UInt32.size := by simpa [Tree.program, Tree.types] using hs
  exact Tree.endsProperly ht hf hl hv hr

/-- A division by zero in a choice within a choice. -/
theorem compile_terminates_nested : ∃ p,
    compile "program p; begin if true then if 1 div 0 = 1 then writeln(2) end." = .ok p ∧
    .symbol .whileWord ∉ kindsOf
      "program p; begin if true then if 1 div 0 = 1 then writeln(2) end." ∧
    ∃ k ≤ p.code.size, ∃ r, p.EndsAfter k r ∧ p.EndsProperly k r := by
  have hw : .symbol .whileWord ∉ kindsOf
      "program p; begin if true then if 1 div 0 = 1 then writeln(2) end." := by
    decide +kernel
  have hsize : (compile "program p; begin if true then if 1 div 0 = 1 then writeln(2) end."
      ).toOption.map (·.slots.size) = some 0 := by
    decide +kernel
  cases h : compile "program p; begin if true then if 1 div 0 = 1 then writeln(2) end." with
  | error e => simp [h, Except.toOption] at hsize
  | ok p =>
    have hnone : p.slots.size = 0 := by simpa [h, Except.toOption] using hsize
    obtain ⟨⟨k, hk, r, hr, hproper⟩, -⟩ := compile_terminates h hw
    exact ⟨p, rfl, hw, k, hk, r, hr, hproper (by rw [hnone]; exact Nat.zero_le _)⟩

end
end MiniPascal
