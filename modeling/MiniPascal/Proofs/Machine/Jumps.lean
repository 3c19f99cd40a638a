import MiniPascal.Proofs.Machine.Steps
import MiniPascal.Proofs.Machine.Targets

/-! Jumps to labels that are marked nowhere. They are found before a run begins, so that no jump
fails later. -/
namespace MiniPascal
namespace Machine

variable {m m' : Machine} {i : Instr} {ts : List (Label × Nat)} {n : Nat} {p : Loaded}
  {l l' : Label}

theorem jump_unknownLabel (h : m.jump ts l' = .failed (.unknownLabel l) m') :
    l' = l ∧ ts.lookup l = none := by
  cases hl : ts.lookup l' with
  | some pc => simp [jump, hl] at h
  | none =>
    simp only [jump, hl, Status.failed.injEq, RunError.unknownLabel.injEq] at h
    exact ⟨h.1, h.1 ▸ hl⟩

theorem push_ne_unknownLabel {operands stack : List Value} {r : OperandResult} :
    m.push n i operands stack r ≠ .failed (.unknownLabel l) m' := by
  rcases r with f | v
  · cases f <;> simp [push, operandError]
  · simp [push]

/-- Only an instruction that jumps meets an unknown label. -/
theorem exec_unknownLabel (h : exec ts n i m = .failed (.unknownLabel l) m') :
    i.target? = some l ∧ ts.lookup l = none := by
  cases i with
  | jump l₁ =>
    obtain ⟨rfl, hl⟩ := jump_unknownLabel h
    exact ⟨rfl, hl⟩
  | jumpIfFalse l₁ =>
    simp only [exec] at h
    split at h
    · cases h
    · obtain ⟨rfl, hl⟩ := jump_unknownLabel h
      exact ⟨rfl, hl⟩
    · simp at h
    · simp at h
  | neg | not | widen =>
    simp only [exec, unary] at h
    split at h
    · exact absurd h push_ne_unknownLabel
    · simp at h
  | binary op | concat =>
    simp only [exec, binary] at h
    split at h
    · exact absurd h push_ne_unknownLabel
    · simp at h
  | push | load | store | label | print | halt =>
    simp only [exec] at h
    repeat' split at h
    all_goals simp at h

/-- A run only meets an unknown label that its code jumps to. -/
theorem advance_unknownLabel {m' : Machine} {l : Label}
    (h : m.advance p n = .failed (.unknownLabel l) m') :
    ∃ i ∈ p.code.toList, i.target? = some l ∧ p.targets.lookup l = none := by
  induction n generalizing m with
  | zero => cases h
  | succ n ih =>
    rw [advance_succ] at h
    cases hs : m.step p with
    | running m₁ =>
      rw [hs] at h
      exact ih h
    | finished m₁ => simp [hs] at h
    | failed e m₁ =>
      simp only [hs, Status.failed.injEq] at h
      obtain ⟨rfl, rfl⟩ := h
      rw [step] at hs
      split at hs
      · cases hs
      · next i hi =>
        split at hs
        · simp at hs
        · exact ⟨i, by simpa using Array.mem_of_getElem? hi, exec_unknownLabel hs⟩

end Machine

namespace Program

/-- The code jumps to the label and marks it nowhere. -/
def JumpsUnmarked (p : Program) (l : Label) : Prop :=
  (∃ i ∈ p.code.toList, i.target? = some l) ∧ l ∉ marks p.code

variable {p : Program} {l : Label} {r : RunResult} {limits : Limits} {fuel : Nat}

theorem lookup_targets_eq_none_iff : p.targets.lookup l = none ↔ l ∉ marks p.code := by
  rw [List.lookup_eq_none_iff, ← List.mem_reverse, ← targets_keys, List.mem_map]
  constructor
  · rintro h ⟨q, hq, rfl⟩
    simpa using h q hq
  · intro h q hq
    rw [bne_iff_ne]
    rintro rfl
    exact h ⟨q, hq, rfl⟩

theorem jumpsUnmarked_of_missingLabel? (h : p.missingLabel? = some l) : p.JumpsUnmarked l := by
  obtain ⟨i, hi, hl⟩ := List.exists_of_findSome?_eq_some h
  obtain ⟨ht, hlookup⟩ := Option.filter_eq_some_iff.1 hl
  exact ⟨⟨i, hi, ht⟩, lookup_targets_eq_none_iff.1 (Option.isNone_iff_eq_none.1 hlookup)⟩

theorem missingLabel?_eq_none_iff : p.missingLabel? = none ↔ ∀ l, ¬ p.JumpsUnmarked l := by
  constructor
  · rintro h l ⟨⟨i, hi, ht⟩, hl⟩
    have hmark := List.findSome?_eq_none_iff.1 h i hi
    rw [ht, Option.filter_some, lookup_targets_eq_none_iff.2 hl] at hmark
    cases hmark
  · intro h
    cases hm : p.missingLabel? with
    | none => rfl
    | some l => exact absurd (jumpsUnmarked_of_missingLabel? hm) (h l)

/-- A program that jumps to a label it does not mark is never begun. -/
theorem runFor_of_missingLabel? (h : p.missingLabel? = some l) :
    (p.runFor limits fuel).result = .ok ⟨.empty, .error (.unknownLabel l)⟩ := by
  rw [runFor, h]
  rfl

theorem runFor_of_marked (h : p.missingLabel? = none) : p.runFor limits fuel =
    (p.start limits.room).advance (p.loaded limits.maxSteps) fuel := by
  rw [runFor, h]

theorem runFor_ne_unknownLabel (h : ∀ l, ¬ p.JumpsUnmarked l)
    (hr : (p.runFor limits fuel).result = .ok r) : r.result ≠ .error (.unknownLabel l) := by
  rw [runFor_of_marked (missingLabel?_eq_none_iff.2 h)] at hr
  intro he
  cases hs : (p.start limits.room).advance (p.loaded limits.maxSteps) fuel with
  | running m => simp [hs, Status.result] at hr
  | finished m =>
    simp only [hs, Status.result, Except.ok.injEq] at hr
    subst hr
    cases he
  | failed e m =>
    simp only [hs, Status.result, Except.ok.injEq] at hr
    subst hr
    cases he
    obtain ⟨i, hi, ht, hl⟩ := Machine.advance_unknownLabel hs
    exact h l ⟨⟨i, hi, ht⟩, lookup_targets_eq_none_iff.1 hl⟩

end Program
end MiniPascal
