import MiniPascal.Machine.Run

/-! Runs of the machine in pieces: where code stands, what a number of steps does, and how runs
join. -/
namespace MiniPascal

/-- The instructions stand in the code from an index on. -/
def Placed (code : Array Instr) (pc : Nat) (is : List Instr) : Prop :=
  ∃ behind, code.toList.drop pc = is ++ behind

section
variable {code : Array Instr} {pc : Nat} {i : Instr} {is js : List Instr}

theorem Placed.left (h : Placed code pc (is ++ js)) : Placed code pc is := by
  obtain ⟨behind, h⟩ := h
  exact ⟨js ++ behind, by rw [h, List.append_assoc]⟩

theorem Placed.right (h : Placed code pc (is ++ js)) : Placed code (pc + is.length) js := by
  obtain ⟨behind, h⟩ := h
  refine ⟨behind, ?_⟩
  rw [← List.drop_drop, h, List.append_assoc, List.drop_left]

theorem Placed.tail (h : Placed code pc (i :: is)) : Placed code (pc + 1) is := by
  have h' : Placed code pc ([i] ++ is) := h
  exact h'.right

theorem Placed.getElem? (h : Placed code pc (i :: is)) : code[pc]? = some i := by
  obtain ⟨behind, h⟩ := h
  have hd : (code.toList.drop pc)[0]? = some i := by
    rw [h]
    rfl
  simpa [List.getElem?_drop] using hd

end

namespace Machine

/-- The machine with `n` instructions done and other operands. -/
def after (m : Machine) (n : Nat) (stack : List Value) : Machine :=
  { m with pc := m.pc + n, stack, steps := m.steps + n }

section
variable {m : Machine} {n k : Nat} {stack stack' : List Value}

@[simp] theorem pc_after : (m.after n stack).pc = m.pc + n := rfl

@[simp] theorem stack_after : (m.after n stack).stack = stack := rfl

@[simp] theorem slots_after : (m.after n stack).slots = m.slots := rfl

@[simp] theorem output_after : (m.after n stack).output = m.output := rfl

@[simp] theorem after_zero : m.after 0 m.stack = m := rfl

theorem after_after : (m.after n stack).after k stack' = m.after (n + k) stack' := by
  simp [after, Nat.add_assoc]

end

section
variable {p : Loaded} {m m₁ m₂ : Machine} {n k : Nat} {i : Instr} {s : Status}

theorem advance_succ : m.advance p (n + 1) = match m.step p with
    | .running m' => m'.advance p n
    | s => s := rfl

/-- A run goes on where it got to. -/
theorem advance_add (h : m.advance p n = .running m₁) : m.advance p (n + k) = m₁.advance p k := by
  induction n generalizing m with
  | zero =>
    cases h
    rw [Nat.zero_add]
  | succ n ih =>
    rw [Nat.succ_add, advance_succ]
    rw [advance_succ] at h
    cases hs : m.step p with
    | running m' =>
      rw [hs] at h
      exact ih h
    | finished m' => simp [hs] at h
    | failed e m' => simp [hs] at h

theorem advance_trans (h : m.advance p n = .running m₁) (hk : m₁.advance p k = .running m₂) :
    m.advance p (n + k) = .running m₂ := (advance_add h).trans hk

/-- A run that is over stays as it is. -/
theorem advance_of_not_running (h : m.advance p n = s) (hs : ∀ m', s ≠ .running m') :
    m.advance p (n + k) = s := by
  induction n generalizing m with
  | zero => exact absurd h.symm (hs m)
  | succ n ih =>
    rw [Nat.succ_add, advance_succ]
    rw [advance_succ] at h
    cases hm : m.step p with
    | running m' =>
      rw [hm] at h
      exact ih h
    | finished m' =>
      rw [hm] at h
      exact h
    | failed e m' =>
      rw [hm] at h
      exact h

/-- A run has one end. -/
theorem advance_unique {s' : Status} (h : m.advance p n = s) (hs : ∀ m', s ≠ .running m')
    (h' : m.advance p k = s') (hs' : ∀ m', s' ≠ .running m') : s = s' := by
  have hn := advance_of_not_running (k := k) h hs
  have hk := advance_of_not_running (k := n) h' hs'
  rw [Nat.add_comm] at hk
  exact hn.symm.trans hk

/-- A run that still goes on after a number of steps goes on before. -/
theorem running_of_le (h : m.advance p n = .running m₁) (hk : k ≤ n) :
    ∃ m₂, m.advance p k = .running m₂ := by
  obtain ⟨d, rfl⟩ := Nat.exists_eq_add_of_le hk
  cases hr : m.advance p k with
  | running m₂ => exact ⟨m₂, rfl⟩
  | finished m₂ =>
    rw [advance_of_not_running hr (by simp)] at h
    cases h
  | failed e m₂ =>
    rw [advance_of_not_running hr (by simp)] at h
    cases h

/-- Without a bound on the steps, the instruction at hand is executed. -/
theorem advance_one (hp : p.maxSteps = none) (hi : p.code[m.pc]? = some i) :
    m.advance p 1 = exec p.targets m.pc i (m.after 1 m.stack) := by
  have hs : m.step p = exec p.targets m.pc i (m.after 1 m.stack) := by
    simp [step, hi, hp, after]
  rw [advance_succ, hs]
  cases exec p.targets m.pc i (m.after 1 m.stack) <;> rfl

/-- The run breaks off in a division by zero, with the given bytes written. -/
def Divides (p : Loaded) (m : Machine) (out : ByteArray) : Prop :=
  ∃ n index m', m.advance p n = .failed (.divisionByZero index) m' ∧ m'.output.bytes = out

theorem Divides.of_advance {out : ByteArray} (h : m.advance p n = .running m₁)
    (hd : m₁.Divides p out) : m.Divides p out := by
  obtain ⟨k, index, m', hk, ho⟩ := hd
  exact ⟨n + k, index, m', (advance_add h).trans hk, ho⟩

end
end Machine
end MiniPascal
