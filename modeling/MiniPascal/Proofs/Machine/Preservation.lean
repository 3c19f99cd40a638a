import MiniPascal.Proofs.Machine.Program
import MiniPascal.Proofs.Reading.Source

/-! What a text compiles to does what the text says. -/
namespace MiniPascal

namespace Program

variable (p : Program)

/-- Without limits, the run comes to its end and has written the bytes. -/
def Terminates (o : ByteArray) : Prop :=
  ∃ n m, p.runFor Limits.none n = .finished m ∧ m.output.bytes = o

/-- Without limits, the run breaks off in a division by zero and has written the bytes. -/
def DividesByZero (o : ByteArray) : Prop :=
  ∃ n index m, p.runFor Limits.none n = .failed (.divisionByZero index) m ∧ m.output.bytes = o

/-- Without limits, the run never ends. -/
def RunsForever : Prop := ∀ n, ∃ m, p.runFor Limits.none n = .running m

end Program

namespace Tree

variable {a : Tree} {o : ByteArray}

theorem runFor_program (a : Tree) (n : Nat) :
    a.program.runFor Limits.none n = a.startMachine.advance a.loadedProgram n := by
  rw [Program.runFor, missingLabel?_program]
  rfl

/-- A run that is over ended the way the execution does, which takes no more rounds than steps. -/
theorem RunsAs.of_ended {r : Outcome} {s : Status} {n : Nat} (h : a.RunsAs (n + 1) r)
    (hr : a.startMachine.advance a.loadedProgram n = s) (hs : ∀ m, s ≠ .running m) :
    (∃ q m, r = .done q ∧ s = .finished m ∧ m.output.bytes = q.output) ∨
    ∃ o index m, r = .aborted o ∧ s = .failed (.divisionByZero index) m ∧ m.output.bytes = o := by
  cases r with
  | done q =>
    obtain ⟨k, m, hr', ho⟩ := h
    exact .inl ⟨q, m, rfl, Machine.advance_unique hr hs hr' (by simp), ho⟩
  | aborted o =>
    obtain ⟨k, index, m, hr', ho⟩ := h
    exact .inr ⟨o, index, m, rfl, Machine.advance_unique hr hs hr' (by simp), ho⟩
  | illTyped => exact h.elim
  | outOfFuel =>
    obtain ⟨k, m, hk, hr'⟩ := h
    obtain ⟨m', hr''⟩ := Machine.running_of_le hr' (show n ≤ k by omega)
    exact absurd (hr.symm.trans hr'') (hs m')

section
variable (h : ∀ fuel, a.RunsAs fuel (a.run fuel))
include h

theorem terminates_iff : a.program.Terminates o ↔ a.Terminates o := by
  constructor
  · rintro ⟨n, m, hr, rfl⟩
    rw [runFor_program] at hr
    rcases (h (n + 1)).of_ended hr (by simp) with ⟨q, m', hq, hm, ho⟩ | ⟨_, _, _, _, hm, _⟩
    · cases hm
      exact ⟨n + 1, q.memory, hq.trans (by rw [ho])⟩
    · cases hm
  · rintro ⟨fuel, σ, hq⟩
    have hrun := h fuel
    rw [hq] at hrun
    obtain ⟨k, m, hr, ho⟩ := hrun
    exact ⟨k, m, (a.runFor_program k).trans hr, ho⟩

theorem dividesByZero_iff : a.program.DividesByZero o ↔ a.DividesByZero o := by
  constructor
  · rintro ⟨n, index, m, hr, rfl⟩
    rw [runFor_program] at hr
    rcases (h (n + 1)).of_ended hr (by simp) with ⟨_, _, _, hm, _⟩ | ⟨o, _, m', hq, hm, ho⟩
    · cases hm
    · cases hm
      exact ⟨n + 1, hq.trans (by rw [ho])⟩
  · rintro ⟨fuel, hq⟩
    have hrun := h fuel
    rw [hq] at hrun
    obtain ⟨k, index, m, hr, ho⟩ := hrun
    exact ⟨k, index, m, (a.runFor_program k).trans hr, ho⟩

theorem runsForever_iff : a.program.RunsForever ↔ a.RunsForever := by
  constructor
  · intro hforever fuel
    have hrun := h fuel
    cases hq : a.run fuel with
    | done q =>
      rw [hq] at hrun
      obtain ⟨k, m, hr, -⟩ := hrun
      obtain ⟨m', hr'⟩ := hforever k
      rw [runFor_program, hr] at hr'
      cases hr'
    | aborted o =>
      rw [hq] at hrun
      obtain ⟨k, index, m, hr, -⟩ := hrun
      obtain ⟨m', hr'⟩ := hforever k
      rw [runFor_program, hr] at hr'
      cases hr'
    | illTyped =>
      rw [hq] at hrun
      exact hrun.elim
    | outOfFuel => rfl
  · intro hforever n
    have hrun := h n
    rw [hforever n] at hrun
    obtain ⟨k, m, hk, hr⟩ := hrun
    rw [runFor_program]
    exact Machine.running_of_le hr hk

end
end Tree

section
variable {source : String} {p : Program}

/-- A text that compiles denotes a tree, and running its program without limits does what executing
the tree does: it ends having written what the execution prints, divides by zero having written
what the execution has printed by then, or runs for ever. Slots are numbered in 32 bits. -/
theorem compile_preserves (h : compile source = .ok p) (hs : p.slots.size ≤ UInt32.size) :
    (∃ a, Denotes source a) ∧ ∀ a, Denotes source a →
      (∀ o, p.Terminates o ↔ a.Terminates o) ∧
      (∀ o, p.DividesByZero o ↔ a.DividesByZero o) ∧
      (p.RunsForever ↔ a.RunsForever) := by
  constructor
  · obtain ⟨a, ha, -⟩ := denotes_of_compile h
    exact ⟨a, ha⟩
  · intro a ha
    obtain ⟨hty, hl, rfl⟩ := program_of_denotes h ha
    have hv : a.vars.length ≤ UInt32.size := by simpa [Tree.program, Tree.types] using hs
    have hruns : ∀ fuel, a.RunsAs fuel (a.run fuel) := fun fuel => Tree.program_runs hty hl hv
    exact ⟨fun o => Tree.terminates_iff hruns, fun o => Tree.dividesByZero_iff hruns,
      Tree.runsForever_iff hruns⟩

/-- A program that prints a number and then divides by zero: so does its run. -/
theorem compile_preserves_division :
    ∃ p, compile "program p; begin writeln(2, 1 div 0) end." = .ok p ∧ p.slots.size ≤ UInt32.size ∧
      p.DividesByZero "2\n".toUTF8 := by
  let a : Tree := ⟨[], .seq (.write [.constant (.integer 2),
    .binary .div (.constant (.integer 1)) (.constant (.integer 0))]) .skip⟩
  have number : ∀ n, (Expr.constant (.integer n)).Spells .factor [.integer n] := fun n =>
    .constant rfl
  have hs : Tree.Spells _ a :=
    .plain "p" (.block (.last (.write (x := "writeln") (by decide +kernel)
      (.more (.ofSum (.ofTerm (.ofFactor (number 2))))
        (.one (.ofSum (.ofTerm (.multiply rfl (.ofFactor (number 1)) (number 0)))))))))
  have hd : Denotes "program p; begin writeln(2, 1 div 0) end." a :=
    ⟨Eq.mp (congrArg (Tree.Spells · a) (by decide +kernel)) hs, trivial, trivial⟩
  have ht : a.WellTyped := by
    refine ⟨⟨by simp [a], by simp [a]⟩, fun e he => ?_, trivial⟩
    simp only [List.mem_cons, List.not_mem_nil, or_false] at he
    rcases he with rfl | rfl
    · exact ⟨_, .constant _⟩
    · exact ⟨_, .binary (.constant _) (.constant _) (.integers (.inl rfl))⟩
  have hp : compile "program p; begin writeln(2, 1 div 0) end." = .ok a.program :=
    compile_of_denotes (by decide +kernel) hd ht (by decide)
  have hslots : a.program.slots.size ≤ UInt32.size := by decide
  refine ⟨a.program, hp, hslots, ?_⟩
  refine (((compile_preserves hp hslots).2 a hd).2.1 _).2 ⟨0, ?_⟩
  have hout : ByteArray.empty ++ ((Value.integer 2).printed ++ "\n").toUTF8 = "2\n".toUTF8 := by
    decide +kernel
  exact congrArg Outcome.aborted hout

end
end MiniPascal
