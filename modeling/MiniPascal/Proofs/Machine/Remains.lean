import MiniPascal.Proofs.Machine.Safety
import MiniPascal.Proofs.Reading.Heading

/-! What was emitted before the reading of a text broke off. Unless that was inside a loop or a
branch of a choice, it can be completed to a program, and the program never confuses types. -/
namespace MiniPascal

/-- The run goes on with the right types, is over, or broke off for an error that types do not rule
out. -/
def Status.Unconfused (p : Program) : Status → Prop
  | running m => m.Typed p
  | finished _ => True
  | failed e _ => e.Possible

section
variable {p : Program} {m : Machine} {r : Status} {n size fuel : Nat} {limit : Option Nat}
  {limits : Limits}

theorem Status.Typed.unconfused (h : r.Typed p) : r.Unconfused p := by
  cases r with
  | running m => exact h
  | finished m => trivial
  | failed e m => exact h.2

namespace Machine

/-- A step keeps the types right as far as they are known, and behind that a run is over. -/
theorem step_unconfused (hp : p.SoundTo size) (h : m.Typed p) :
    (m.step (p.loaded limit)).Unconfused p := by
  unfold step
  split
  · trivial
  · next i hi =>
    have hi : p.code[m.pc]? = some i := hi
    split
    · trivial
    · by_cases hn : m.pc < size
      · refine Status.Typed.unconfused ?_
        exact exec_typed hp hi (Instr.flows_of_flow? (hp.flow_at hn hi)) h.slots h.stack rfl
      · cases hp.halts m.pc i (Nat.not_lt.1 hn) hi
        trivial

/-- A run keeps the types right as far as they are known. -/
theorem advance_unconfused (hp : p.SoundTo size) (h : m.Typed p) :
    (m.advance (p.loaded limit) n).Unconfused p := by
  induction n generalizing m with
  | zero => exact h
  | succ n ih =>
    have hstep : (m.step (p.loaded limit)).Unconfused p := step_unconfused hp h
    rw [advance_succ]
    cases hs : m.step (p.loaded limit) with
    | running m' =>
      rw [hs] at hstep
      exact ih hstep
    | finished m' => trivial
    | failed e m' =>
      rw [hs] at hstep
      exact hstep

end Machine

theorem Program.SoundTo.runFor_unconfused (hp : p.SoundTo size) :
    (p.runFor limits fuel).Unconfused p := by
  rw [runFor, missingLabel?_eq_none hp.jumps]
  exact Machine.advance_unconfused hp (start_typed p limits.room)

end

/-- Slots set to zero, instructions behind them, and the end. -/
def Program.ofBody (ts : List Ty) (is : List Instr) : Program :=
  ⟨ts.toArray, (zeroCode 0 ts ++ is ++ [Instr.halt]).toArray⟩

section
variable {ts us : List Ty} {is : List Instr} {l : Nat} {source : String} {p : Program}
  {s s' : Grammar.State} {e : Grammar.Stop}

/-- Behind slots set to zero, instructions that find what they take make up a sound program. -/
theorem soundTo_ofBody (hm : Marked 0 is l) (hf : flow? ts.toArray is [] = some us)
    (hts : ts.length ≤ UInt32.size) :
    (Program.ofBody ts is).SoundTo (zeroCode 0 ts ++ is).length := by
  have hzero : flow? ts.toArray (zeroCode 0 ts) [] = some [] := by
    refine flow?_zeroCode (by simpa using hts) fun i hi => ?_
    simp [hi]
  refine ⟨?_, fun n i hn hi => ?_, fun i hi k ht => ?_⟩
  · rw [Program.ofBody, List.take_left, flow?_append_of_eq hzero, hf]
    rfl
  · rw [Program.ofBody, List.getElem?_toArray, List.getElem?_append_right hn] at hi
    exact List.mem_singleton.1 (List.mem_of_getElem? hi)
  · have hmarked : Marked 0 (zeroCode 0 ts ++ is) (0 + l) :=
      (straight_zeroCode 0 ts).marked.append (by rwa [Nat.zero_add])
    exact Program.isSome_lookup_of_marked hmarked rfl hi ht

/-- The code can be completed if all of its labels are marked. -/
theorem Grammar.State.Remains.finish_of_marked (h : s.Remains ts is l s') (hm : Marked 0 is l)
    (hl : l < UInt32.size) :
    s'.code.finish = .ok (.ofBody ts is) := by
  rw [CodeBuffer.finish_eq_ok_iff h.code, h.slots, h.labels, marksIn_append,
    (straight_zeroCode 0 ts).marksIn, List.nil_append]
  exact ⟨hm.isPerm_iff.2 hl, rfl⟩

/-- The code cannot be completed if there are labels left to mark. -/
theorem Grammar.State.Remains.finish_ne_ok (h : s.Remains ts is l s') (hm : (marksIn is).length < l)
    (hl : l < UInt32.size) : s'.code.finish ≠ .ok p := by
  intro hp
  obtain ⟨hperm, -⟩ := (CodeBuffer.finish_eq_ok_iff h.code).1 hp
  have hlen := (List.isPerm_iff.1 hperm).length_eq
  rw [h.labels, marksIn_append, (straight_zeroCode 0 ts).marksIn, List.nil_append,
    List.length_map, List.length_range, UInt32.toNat_ofNat_of_lt' hl] at hlen
  omega

/-- Reading the text as a program breaks off in its body, inside a loop or a branch of a choice. -/
def StopsInside (source : String) : Prop :=
  Grammar.BodyBreaksInside (startOf source).kinds.length (startOf source)

/-- When the reading of a text breaks off, its code cannot be completed if that was inside a loop,
anywhere behind `while`, or inside a branch of a choice, anywhere behind `then`, and only then. Code
that can be completed never confuses types: nothing but a division by zero or a limit breaks off a
run. Labels and slots are numbered in 32 bits. -/
theorem remains_sound (h : (Parse.ofSource source).stop = some e)
    (hs : (tokenize source).1.length < UInt32.size) :
    ((∃ d, (Parse.ofSource source).code.finish = .error d) ↔ StopsInside source) ∧
    ∀ p, (Parse.ofSource source).code.finish = .ok p → ∀ limits fuel e m,
      p.runFor limits fuel = .failed e m → e.Possible := by
  rw [ofSource_eq] at h ⊢
  cases hr : readProgram source with
  | ok u s => simp [hr] at h
  | error e' s =>
    dsimp only
    obtain ⟨-, ts, is, l, hremains, hinside, houtside⟩ :=
      Grammar.program_breaks declared_startOf ended_startOf (Nat.le_refl _) hr
    have htokens := (@tokens_startOf_sublist source).length_le
    have hl : l < UInt32.size := by
      have hle := hremains.labels_le
      omega
    have hts : ts.length ≤ UInt32.size := by
      have hle := hremains.slots_le
      omega
    by_cases hi : StopsInside source
    · have hfinish : ∀ p, s.code.finish ≠ .ok p := fun p => hremains.finish_ne_ok (hinside hi) hl
      refine ⟨⟨fun _ => hi, fun _ => ?_⟩, fun p hp => absurd hp (hfinish p)⟩
      cases hf : s.code.finish with
      | ok p => exact absurd hf (hfinish p)
      | error d => exact ⟨d, rfl⟩
    · obtain ⟨hmarked, hflows⟩ := houtside hi
      obtain ⟨us, hus⟩ := hflows hts
      have hfinish := hremains.finish_of_marked hmarked hl
      refine ⟨⟨fun ⟨d, hd⟩ => ?_, fun ho => absurd ho hi⟩, fun p hp limits fuel e m hrun => ?_⟩
      · cases hfinish.symm.trans hd
      · cases hfinish.symm.trans hp
        have hunconfused : (Program.runFor (.ofBody ts is) limits fuel).Unconfused _ :=
          (soundTo_ofBody hmarked hus hts).runFor_unconfused
        rwa [hrun] at hunconfused

/-- A name that is not declared, inside a loop, and a condition that is none, behind a loop. -/
theorem remains_sound_loop :
    StopsInside "program p; begin while true do x := 1 end." ∧
    ∃ source p, source = "program p; var n: integer; begin while n < 3 do n := n + 1; if n end." ∧
      (Parse.ofSource source).stop = some (.rejected ⟨.conditionType .ifWord .integer, ⟨63, 1⟩⟩) ∧
      ¬ StopsInside source ∧ (Parse.ofSource source).code.finish = .ok p ∧
      ∀ limits fuel e m, p.runFor limits fuel = .failed e m → e.Possible := by
  constructor
  · have hstop : (Parse.ofSource "program p; begin while true do x := 1 end.").stop =
        some (.rejected ⟨.undefined "x", ⟨31, 1⟩⟩) := by
      decide +kernel
    have hfinish : (Parse.ofSource "program p; begin while true do x := 1 end.").code.finish =
        .error .unmarkedLabel := by
      decide +kernel
    exact (remains_sound hstop (by decide +kernel)).1.1 ⟨_, hfinish⟩
  · have hstop : (Parse.ofSource
        "program p; var n: integer; begin while n < 3 do n := n + 1; if n end.").stop =
        some (.rejected ⟨.conditionType .ifWord .integer, ⟨63, 1⟩⟩) := by
      decide +kernel
    have hfinish : (Parse.ofSource
        "program p; var n: integer; begin while n < 3 do n := n + 1; if n end.").code.finish =
        .ok (.ofBody [.integer] [.label ⟨0⟩, .load ⟨0⟩, .push (.integer 3), .binary .lt,
          .jumpIfFalse ⟨1⟩, .load ⟨0⟩, .push (.integer 1), .binary .add, .store ⟨0⟩, .jump ⟨0⟩,
          .label ⟨1⟩, .load ⟨0⟩]) := by
      decide +kernel
    obtain ⟨hinside, hruns⟩ := remains_sound hstop (by decide +kernel)
    refine ⟨_, _, rfl, hstop, fun hi => ?_, hfinish, hruns _ hfinish⟩
    obtain ⟨d, hd⟩ := hinside.2 hi
    cases hfinish.symm.trans hd

end
end MiniPascal
