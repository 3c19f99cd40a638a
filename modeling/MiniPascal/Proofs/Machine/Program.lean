import MiniPascal.Proofs.Machine.Statement
import MiniPascal.Proofs.Machine.Targets
import MiniPascal.Proofs.Tree.Naming

/-! The program of a tree follows the execution of the tree, from the zeros of its variables to its
end. -/
namespace MiniPascal

section
variable {vs : List (String × Ty)} {x y : String} {t u : Ty} {s s' : Slot} {v : Value}

theorem toNat_slotOf {n : Nat} (h : n < UInt32.size) : (slotOf n).index.toNat = n :=
  UInt32.toNat_ofNat_of_lt' h

/-- Slots can be told apart as long as their numbers fit. -/
theorem consistent_namesOf (hv : vs.length ≤ UInt32.size) :
    Consistent (namesOf vs) (typesOf vs) := by
  constructor
  · intro x y hk
    have hb : builtinNames x = builtinNames y := Scope.find?_congr hk
    rw [namesOf, namesOf, hb, variableNames, variableNames, hk]
  · intro x y t u s s' hx hy hs
    obtain ⟨n, hn, hvar, hfx⟩ := variableNames_eq_some (variableNames_of_namesOf hx)
    obtain ⟨k, hk, hvar', hfy⟩ := variableNames_eq_some (variableNames_of_namesOf hy)
    cases hvar
    cases hvar'
    rw [toNat_slotOf (by omega), toNat_slotOf (by omega)] at hs
    subst hs
    have hkx := List.find?_some hfx
    have hky := List.find?_some hfy
    exact (eq_of_beq hkx).symm.trans (eq_of_beq hky)
  · intro x t s hx
    obtain ⟨n, hn, hvar, hf⟩ := variableNames_eq_some (variableNames_of_namesOf hx)
    cases hvar
    simp [typesOf, hf]

/-- At the start every variable is at the zero of its type. -/
theorem holds_initial (hv : vs.length ≤ UInt32.size) (hd : Declares vs) :
    Holds (namesOf vs) ((vs.map (·.2)).toArray.map Value.zero) (.initial vs) := by
  constructor
  · intro x t s hx
    obtain ⟨n, hn, hvar, hf⟩ := variableNames_eq_some (variableNames_of_namesOf hx)
    cases hvar
    refine ⟨.zero vs[n].2, ?_, by simp [Memory.initial, hf], Value.ty_zero _⟩
    rw [toNat_slotOf (by omega)]
    simp [hn]
  · intro x v hx
    have hb := (namesOf_eq_some_iff (by simp)).1 hx
    refine ⟨?_, hb⟩
    have hf : vs.find? (Scope.key ·.1 == Scope.key x) = none := by
      rw [List.find?_eq_none]
      intro w hw hk
      have hfresh := hd.fresh w hw
      have hcongr : builtinNames w.1 = builtinNames x := Scope.find?_congr (by simpa using hk)
      rw [hcongr, hb] at hfresh
      cases hfresh
    simp [Memory.initial, hf]

end

namespace Machine

/-- Setting slots to the zeros they hold already changes nothing. -/
theorem zeroCode_runs {p : Loaded} {m : Machine} {n : Nat} {ts : List Ty} (hp : p.maxSteps = none)
    (hc : Placed p.code m.pc (zeroCode n ts)) (hs : m.stack = []) (hn : n + ts.length ≤ UInt32.size)
    (hz : ∀ i, ∀ hi : i < ts.length, m.slots[n + i]? = some (.zero ts[i])) :
    ∃ k m', m.advance p k = .running m' ∧ m'.pc = m.pc + (zeroCode n ts).length ∧ m'.stack = [] ∧
      m'.slots = m.slots ∧ m'.output = m.output := by
  induction ts generalizing n m with
  | nil => exact ⟨0, m, rfl, rfl, hs, rfl, rfl⟩
  | cons t ts ih =>
    simp only [List.length_cons] at hn
    have hzero : m.slots[n]? = some (.zero t) := hz 0 (by simp)
    have hlt : n < m.slots.size := (Array.getElem?_eq_some_iff.1 hzero).choose
    have hsame : m.slots.setIfInBounds n (.zero t) = m.slots := by
      refine Array.ext_getElem? fun i => ?_
      by_cases hi : n = i
      · subst hi
        rw [Array.getElem?_setIfInBounds_self_of_lt hlt, hzero]
      · rw [Array.getElem?_setIfInBounds_ne hi]
    have hslot : (slotOf n).index.toNat = n := toNat_slotOf (by omega)
    have hpush : m.advance p 1 = .running (m.after 1 [.zero t]) := by
      rw [advance_one hp hc.getElem?]
      simp [exec, hs, after]
    have hstore := store_step (m := m.after 1 [.zero t]) hp hc.tail.getElem? rfl (by
      rw [hslot]
      exact hlt)
    rw [slots_after, hslot, hsame] at hstore
    obtain ⟨k, m', hr, hpc, hs', hslots, hout⟩ := ih (n := n + 1)
      (m := (m.after 1 [.zero t]).after 1 []) hc.tail.tail rfl (by omega) fun i hi => by
        have hi' := hz (i + 1) (by simpa using hi)
        rw [Nat.add_assoc, Nat.add_comm 1]
        simpa using hi'
    refine ⟨_, m', advance_trans (advance_trans hpush hstore) hr, ?_, hs', hslots, hout⟩
    rw [hpc]
    simp only [pc_after, zeroCode, List.length_cons]
    omega

end Machine

namespace Tree

variable {a : Tree} {fuel : Nat}

/-- The machine at the start of the program of a tree, without limits. -/
def startMachine (a : Tree) : Machine := a.program.start none

/-- The program of a tree without a limit on its steps. -/
def loadedProgram (a : Tree) : Loaded := a.program.loaded none

/-- The run of the program, against how far the execution has got. -/
def RunsAs (a : Tree) (fuel : Nat) : Outcome → Prop
  | .done q => ∃ k m, a.startMachine.advance a.loadedProgram k = .finished m ∧
      m.output.bytes = q.output
  | .aborted o => a.startMachine.Divides a.loadedProgram o
  | .illTyped => False
  | .outOfFuel => ∃ k m, fuel ≤ k ∧ a.startMachine.advance a.loadedProgram k = .running m

theorem resolved_loaded (h : a.body.labels < UInt32.size) : Resolved a.loadedProgram :=
  fun _ _ hl => lookup_targets h hl

theorem placed_code (a : Tree) : Placed a.loadedProgram.code 0 (a.code ++ [Instr.halt]) :=
  ⟨[], by simp [loadedProgram, Program.loaded, program]⟩

/-- The zeros come first. They leave the machine where the execution begins. -/
theorem start_runs (hv : a.vars.length ≤ UInt32.size) (hd : Declares a.vars) :
    ∃ k m, a.startMachine.advance a.loadedProgram k = .running m ∧
      m.pc = (zeroCode 0 a.types).length ∧
      Machine.Matches (namesOf a.vars) m ⟨.initial a.vars, .empty⟩ := by
  have hc : Placed a.loadedProgram.code a.startMachine.pc (zeroCode 0 a.types) :=
    a.placed_code.left.left
  obtain ⟨k, m, hr, hpc, hs, hslots, hout⟩ := Machine.zeroCode_runs rfl hc rfl
    (by simpa [types] using hv) fun i hi => by simp [startMachine, Program.start, program, hi]
  refine ⟨k, m, hr, hpc.trans (Nat.zero_add _), hs, ?_, ?_, ?_⟩
  · rw [hslots]
    exact holds_initial hv hd
  · rw [hout]
    rfl
  · rw [hout]
    rfl

theorem program_runs (h : a.WellTyped) (hl : a.body.labels < UInt32.size)
    (hv : a.vars.length ≤ UInt32.size) : a.RunsAs fuel (a.run fuel) := by
  obtain ⟨k, m, hr, hpc, hm⟩ := start_runs hv h.declares
  have hbody : Placed a.loadedProgram.code m.pc (a.body.code (namesOf a.vars) 0) := by
    have hplaced := a.placed_code.left.right
    rwa [Nat.zero_add, ← hpc] at hplaced
  have hhalt : a.loadedProgram.code[m.pc + (a.body.code (namesOf a.vars) 0).length]? =
      some .halt := by
    have hplaced := a.placed_code.right.getElem?
    rw [code, List.length_append, Nat.zero_add, ← hpc] at hplaced
    exact hplaced
  have hst : Machine.Follows a.loadedProgram (namesOf a.vars) m
      (m.pc + (a.body.code (namesOf a.vars) 0).length) fuel (a.run fuel) :=
    Machine.stmt_follows rfl (resolved_loaded hl) (consistent_namesOf hv) h.body hbody hm
  have hfollows := Machine.Follows.of_advance hr hst
  cases ho : a.run fuel with
  | done q =>
    rw [ho] at hfollows
    obtain ⟨k, m', hr', hpc', hm'⟩ := hfollows
    have hstep : m'.advance a.loadedProgram 1 = .finished (m'.after 1 m'.stack) :=
      Machine.advance_one rfl (hpc' ▸ hhalt)
    exact ⟨k + 1, _, (Machine.advance_add hr').trans hstep, hm'.output⟩
  | aborted o =>
    rw [ho] at hfollows
    exact hfollows
  | illTyped =>
    rw [ho] at hfollows
    exact hfollows
  | outOfFuel =>
    rw [ho] at hfollows
    obtain ⟨k', m', hk, hr'⟩ := hfollows
    exact ⟨k', m', by omega, hr'⟩

end Tree
end MiniPascal
