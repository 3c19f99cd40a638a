import MiniPascal.Proofs.Machine.Jumps
import MiniPascal.Proofs.Machine.Trace

/-! Limits only cut a run short. A run under limits does what the run without them does, up to the
instruction that may not start any more or the byte that does not fit any more. -/
namespace MiniPascal

theorem extract_of_size_le {b : ByteArray} {n : Nat} (h : b.size ≤ n) : b.extract 0 n = b := by
  apply ByteArray.ext
  rw [ByteArray.data_extract, Array.extract_eq_self_of_le h]

theorem extract_append_of_le {a b : ByteArray} {n : Nat} (h : n ≤ a.size) :
    (a ++ b).extract 0 n = a.extract 0 n := by
  have hb : n - a.size = 0 := Nat.sub_eq_zero_of_le h
  rw [ByteArray.extract_append, hb, Nat.zero_sub, ByteArray.extract_same, ByteArray.append_empty]

/-- The machine when the output may have `room` bytes in all. -/
def Machine.within (room : Nat) (m : Machine) : Machine :=
  m.withOutput ⟨m.output.bytes, some (room - m.output.bytes.size)⟩

/-- How a run that may write `room` bytes stands beside the run that may write any number. -/
inductive Status.Cut (room : Nat) : Status → Status → Prop
  | running {m : Machine} (h : m.output.bytes.size ≤ room) :
    Cut room (.running m) (.running (m.within room))
  | finished {m : Machine} (h : m.output.bytes.size ≤ room) :
    Cut room (.finished m) (.finished (m.within room))
  | failed {e : RunError} {m : Machine} (h : m.output.bytes.size ≤ room) :
    Cut room (.failed e m) (.failed e (m.within room))
  | overflow {s : Status} {m : Machine} (h : room < s.machine.output.bytes.size)
    (ho : m.output.bytes = s.machine.output.bytes.extract 0 room) :
    Cut room s (.failed .output m)

namespace Status.Cut

variable {room : Nat} {s t : Status} {r : RunResult}

/-- As long as the output fits, the two runs differ in nothing but the room that is left. -/
theorem of_withOutput {o : Sink} (ho : s.machine.output = o) (hroom : o.bytes.size ≤ room) :
    s.Cut room (s.withOutput ⟨o.bytes, some (room - o.bytes.size)⟩) := by
  subst ho
  cases s with
  | running m => exact .running hroom
  | finished m => exact .finished hroom
  | failed e m => exact .failed hroom

/-- A run whose output fits has the result it has without the limit. -/
theorem result_eq (h : s.Cut room t) (hs : s.result = .ok r) (hr : r.output.size ≤ room) :
    t.result = .ok r := by
  cases h with
  | running => cases hs
  | finished | failed => exact hs
  | @overflow _ m hlong =>
    have hsame : s.machine.output.bytes = r.output := by
      cases s <;> cases hs <;> rfl
    rw [hsame] at hlong
    omega

/-- A run whose output does not fit breaks off with the part of it that does. -/
theorem result_of_lt (h : s.Cut room t) (hs : room < s.machine.output.bytes.size) :
    t.result = .ok ⟨s.machine.output.bytes.extract 0 room, .error .output⟩ := by
  cases h with
  | running h | finished h | failed h => exact absurd hs (Nat.not_lt.2 h)
  | overflow _ ho =>
    rw [← ho]
    rfl

end Status.Cut

namespace Machine

variable {m : Machine} {i : Instr} {ts : List (Label × Nat)} {n limit room : Nat} {p : Loaded}

theorem print_cut {v : Value} {stack : List Value} (hv : m.stack = v :: stack)
    (h : m.output.room = none) (hroom : m.output.bytes.size ≤ room) :
    (exec ts n (.print v.ty) m).Cut room (exec ts n (.print v.ty) (m.within room)) := by
  have hlong : exec ts n (.print v.ty) m = .running
      { m with stack, output := ⟨m.output.bytes ++ (v.printed ++ "\n").toUTF8, none⟩ } := by
    simp [exec, hv, Sink.write, h]
  rw [hlong]
  by_cases hfits : (v.printed ++ "\n").toUTF8.size ≤ room - m.output.bytes.size
  · have hcut : exec ts n (.print v.ty) (m.within room) = .running (within room
        { m with stack, output := ⟨m.output.bytes ++ (v.printed ++ "\n").toUTF8, none⟩ }) := by
      simp only [exec, within, withOutput, hv, Sink.write, if_pos hfits, ByteArray.size_append,
        Nat.sub_sub, if_true]
    rw [hcut]
    refine .running ?_
    rw [ByteArray.size_append]
    omega
  · have hcut : exec ts n (.print v.ty) (m.within room) = .failed .output
        { m with stack, output := ⟨m.output.bytes ++
          (v.printed ++ "\n").toUTF8.extract 0 (room - m.output.bytes.size), some 0⟩ } := by
      simp only [exec, within, withOutput, hv, Sink.write, if_neg hfits, if_true]
      rfl
    rw [hcut]
    refine .overflow ?_ ?_
    · change room < (m.output.bytes ++ _).size
      rw [ByteArray.size_append]
      omega
    · change _ = (m.output.bytes ++ _).extract 0 room
      rw [ByteArray.extract_append, Nat.zero_sub, extract_of_size_le hroom]

/-- An instruction does the same where its output fits, and is cut off where it does not. -/
theorem exec_cut (h : m.output.room = none) (hroom : m.output.bytes.size ≤ room) :
    (exec ts n i m).Cut room (exec ts n i (m.within room)) := by
  by_cases hi : ∃ t, i = .print t
  · obtain ⟨t, rfl⟩ := hi
    rcases hv : m.stack with _ | ⟨v, stack⟩
    · have hfails : ∀ o, exec ts n (.print t) (m.withOutput o) =
          .failed (.stackUnderflow n) (m.withOutput o) := by simp [exec, hv]
      exact (hfails m.output).symm ▸ (hfails _).symm ▸ .failed hroom
    · by_cases ht : v.ty = t
      · subst ht
        exact print_cut hv h hroom
      · have hfails : ∀ o, exec ts n (.print t) (m.withOutput o) =
            .failed (.kindMismatch n (.print t) [v.ty]) (m.withOutput o) := by simp [exec, hv, ht]
        exact (hfails m.output).symm ▸ (hfails _).symm ▸ .failed hroom
  · have hne : ∀ t, i ≠ .print t := fun t ht => hi ⟨t, ht⟩
    have ho : (exec ts n i m).machine.output = ⟨m.output.bytes, none⟩ := by
      rw [exec_output h, bytesPrinted_of_ne hne, ByteArray.append_empty]
    rw [within, exec_withOutput hne]
    exact .of_withOutput (o := m.output) (ho.trans (by rw [← h])) hroom

/-- A step that is within the limit on steps is only cut off by the limit on the output. -/
theorem step_cut {s : Status} (hs : m.step p = s) (hp : p.maxSteps = none)
    (h : m.output.room = none) (hroom : m.output.bytes.size ≤ room)
    (hlimit : s.machine.steps ≤ limit) :
    s.Cut room ((m.within room).step { p with maxSteps := some limit }) := by
  subst hs
  cases hi : p.code[m.pc]? with
  | none =>
    have hcut : (m.within room).step { p with maxSteps := some limit } =
        .finished (m.within room) := step_of_none hi
    rw [hcut, step_of_none hi]
    exact .finished hroom
  | some i =>
    rw [step_of_some hp hi, exec_steps] at hlimit
    have hstarts : ¬ limit ≤ m.steps := Nat.not_le.2 hlimit
    have hcut : (m.within room).step { p with maxSteps := some limit } =
        exec p.targets m.pc i ((m.after 1 m.stack).within room) := by
      simp [step, within, withOutput, hi, hstarts, after]
    rw [hcut, step_of_some hp hi]
    exact exec_cut h hroom

/-- A run that is within the limit on steps is only cut off by the limit on the output. -/
theorem advance_cut (hp : p.maxSteps = none) (h : m.output.room = none)
    (hroom : m.output.bytes.size ≤ room) (hlimit : (m.advance p n).machine.steps ≤ limit) :
    (m.advance p n).Cut room ((m.within room).advance { p with maxSteps := some limit } n) := by
  induction n generalizing m with
  | zero => exact .running hroom
  | succ n ih =>
    rw [advance_succ] at hlimit
    rw [advance_succ, advance_succ]
    cases hs : m.step p with
    | running m' =>
      simp only [hs] at hlimit
      have hone : m.advance p 1 = .running m' := by
        rw [advance_succ, hs]
        rfl
      have houtput := (advance_trace (n := 1) hp h).2
      rw [hone] at houtput
      have h' : m'.output.room = none := congrArg Sink.room houtput
      obtain ⟨hsteps, hlater⟩ := advance_trace (n := n) hp h'
      have hstep : m'.steps ≤ limit := by omega
      generalize hcut : (m.within room).step _ = last
      cases hcut ▸ step_cut hs hp h hroom hstep with
      | running hroom' => exact ih h' hroom' hlimit
      | overflow hlong ho =>
        -- what the unlimited run prints from here on is behind the part that is kept
        refine .overflow ?_ ?_
        · rw [hlater, ByteArray.size_append]
          exact Nat.lt_add_right _ hlong
        · rw [hlater]
          exact ho.trans (extract_append_of_le (Nat.le_of_lt hlong)).symm
    | finished m' =>
      simp only [hs] at hlimit
      generalize hcut : (m.within room).step _ = last
      cases hcut ▸ step_cut hs hp h hroom hlimit with
      | finished hroom' => exact .finished hroom'
      | overflow hlong ho => exact .overflow hlong ho
    | failed e m' =>
      simp only [hs] at hlimit
      generalize hcut : (m.within room).step _ = last
      cases hcut ▸ step_cut hs hp h hroom hlimit with
      | failed hroom' => exact .failed hroom'
      | overflow hlong ho => exact .overflow hlong ho

/-- A run that has not ended has started an instruction at each step. -/
theorem length_events_of_running {m' : Machine} (h : m.advance p n = .running m') :
    (m.events p n).length = n := by
  induction n generalizing m with
  | zero => rfl
  | succ n ih =>
    rw [advance_succ] at h
    cases hi : p.code[m.pc]? with
    | none => simp [step_of_none hi] at h
    | some i =>
      rw [events_of_some hi, List.length_cons]
      cases hs : m.step p with
      | running m₁ =>
        rw [hs] at h
        rw [ih h]
      | finished m₁ => simp [hs] at h
      | failed e m₁ => simp [hs] at h

end Machine

namespace Program

/-- The instructions that a run without limits starts in its first `n` steps. -/
def started (p : Program) (n : Nat) : List Event := (p.start none).events (p.loaded none) n

/-- A run without limits ends with that result, after it has started `k` instructions. -/
def EndsAfter (p : Program) (k : Nat) (r : RunResult) : Prop :=
  ∃ fuel, (p.runFor .none fuel).result = .ok r ∧ (p.started fuel).length = k

/-- From some point on, a run under limits is over and has that result. -/
def Answers (p : Program) (limits : Limits) (r : RunResult) : Prop :=
  ∃ fuel, ∀ n, fuel ≤ n → (p.runFor limits n).result = .ok r

section
variable {p : Program} {r : RunResult} {limits : Limits} {n k steps room : Nat}

theorem answers_of_result (h : (p.runFor limits n).result = .ok r) : p.Answers limits r := by
  refine ⟨n, fun k hk => ?_⟩
  obtain ⟨d, rfl⟩ := Nat.exists_eq_add_of_le hk
  have hover : ∀ s, (p.runFor limits n) = s → (∀ m, s ≠ .running m) →
      p.runFor limits (n + d) = s := by
    intro s hs hm
    unfold runFor at hs ⊢
    split at hs
    · exact hs
    · exact Machine.advance_of_not_running hs hm
  rw [hover _ rfl (fun m hm => by simp [hm, Status.result] at h), h]

/-- Without limits, a run has written what its instructions printed, and counts them. -/
theorem runFor_trace (hp : p.missingLabel? = none) :
    (p.runFor .none n).machine.steps = (p.started n).length ∧
    (p.runFor .none n).machine.output.bytes = written (p.started n) := by
  obtain ⟨hsteps, houtput⟩ := Machine.advance_trace (m := p.start none) (p := p.loaded none) (n := n)
    rfl rfl
  rw [runFor_of_marked hp]
  refine ⟨hsteps.trans (Nat.zero_add _), (congrArg Sink.bytes houtput).trans ?_⟩
  exact ByteArray.empty_append

theorem runFor_cut (room : Nat) (hp : p.missingLabel? = none) (h : (p.started n).length ≤ steps) :
    (p.runFor .none n).Cut room (p.runFor ⟨steps, room⟩ n) := by
  have hlimit : (p.runFor .none n).machine.steps ≤ steps := (runFor_trace hp).1 ▸ h
  rw [runFor_of_marked hp] at hlimit
  rw [runFor_of_marked hp, runFor_of_marked hp]
  exact Machine.advance_cut (m := p.start none) rfl rfl (Nat.zero_le _) hlimit

/-- A run starts its instructions in as many steps. -/
theorem started_length : p.started (p.started n).length = p.started n := by
  have htake : (p.started n).take (p.started n).length = p.started (p.started n).length :=
    Machine.take_events Machine.length_events_le
  exact htake.symm.trans List.take_length

/-- A run that ends has written what it printed, and counts the instructions it started. -/
theorem EndsAfter.trace (hp : p.missingLabel? = none) (h : p.EndsAfter k r) :
    (p.started k).length = k ∧ r.output = written (p.started k) ∧
    ∀ n, r.result = .ok n → n = k := by
  obtain ⟨fuel, hr, rfl⟩ := h
  obtain ⟨hsteps, houtput⟩ := runFor_trace (n := fuel) hp
  rw [started_length]
  refine ⟨rfl, ?_⟩
  cases hs : p.runFor .none fuel with
  | running m => simp [hs, Status.result] at hr
  | finished m | failed e m =>
    simp only [hs, Status.machine] at hsteps houtput
    simp only [hs, Status.result, Except.ok.injEq] at hr
    subst hr
    refine ⟨houtput, ?_⟩
    intro n hn
    cases hn
    try exact hsteps

/-- A run that ends in time and fits is not affected by the limits. -/
theorem EndsAfter.answers (hp : p.missingLabel? = none) (h : p.EndsAfter k r) (hk : k ≤ steps)
    (hr : r.output.size ≤ room) : p.Answers ⟨steps, room⟩ r := by
  obtain ⟨fuel, hresult, rfl⟩ := h
  exact answers_of_result ((runFor_cut room hp hk).result_eq hresult hr)

theorem length_started_le : (p.started n).length ≤ n := Machine.length_events_le

/-- A run that prints too much in the instructions it may start is cut off in its output. -/
theorem answers_output (hp : p.missingLabel? = none)
    (h : room < (written (p.started steps)).size) :
    p.Answers ⟨steps, room⟩ ⟨(written (p.started steps)).extract 0 room, .error .output⟩ := by
  have houtput := (runFor_trace (n := steps) hp).2
  have hcut := runFor_cut room hp (length_started_le (n := steps))
  rw [← houtput] at h ⊢
  exact answers_of_result (hcut.result_of_lt h)

/-- A run at the end of its code has ended. -/
theorem endsAfter_of_running {m : Machine} (hp : p.missingLabel? = none)
    (h : p.runFor .none n = .running m) (hi : p.code[m.pc]? = none) :
    p.EndsAfter m.steps ⟨m.output.bytes, .ok m.steps⟩ := by
  have hend : p.runFor .none (n + 1) = .finished m := by
    have hone : m.advance (p.loaded none) 1 = .finished m := by
      rw [Machine.advance_succ, Machine.step_of_none hi]
    rw [runFor_of_marked hp] at h ⊢
    exact (Machine.advance_add h).trans hone
  have hsteps := (runFor_trace (n := n + 1) hp).1
  rw [hend] at hsteps
  refine ⟨n + 1, ?_, hsteps.symm⟩
  rw [hend]
  rfl

/-- A run that goes on too long and prints no more than fits is cut off in its instructions. -/
theorem answers_stepLimit (hp : p.missingLabel? = none)
    (hlong : ∀ k ≤ steps, ∀ r, ¬ p.EndsAfter k r)
    (h : (written (p.started steps)).size ≤ room) :
    p.Answers ⟨steps, room⟩ ⟨written (p.started steps), .error (.stepLimit steps)⟩ := by
  obtain ⟨hsteps, houtput⟩ := runFor_trace (n := steps) hp
  have hcut := runFor_cut room hp (length_started_le (n := steps))
  cases hs : p.runFor .none steps with
  | finished m | failed e m =>
    have hends : p.EndsAfter _ _ := ⟨steps, by rw [hs]; rfl, rfl⟩
    exact absurd hends (hlong _ length_started_le _)
  | running m =>
    rw [hs] at hsteps houtput hcut
    have hcount : m.steps = steps := by
      have hrun := hs
      rw [runFor_of_marked hp] at hrun
      exact hsteps.trans (Machine.length_events_of_running hrun)
    -- the instruction that may not start is there, or the run would end here
    cases hi : p.code[m.pc]? with
    | none => exact absurd (endsAfter_of_running hp hs hi) (hlong _ (Nat.le_of_eq hcount) _)
    | some i =>
      generalize hlast : p.runFor ⟨steps, room⟩ steps = last at hcut
      cases hcut with
      | overflow hover => exact absurd (houtput ▸ hover) (Nat.not_lt.2 h)
      | running hroom =>
        rw [runFor_of_marked hp] at hlast
        have hstop : (m.within room).step (p.loaded (some steps)) =
            .failed (.stepLimit steps) (m.within room) := by
          simp [Machine.step, Machine.within, Machine.withOutput, loaded, hi, hcount]
        refine answers_of_result (n := steps + 1) ?_
        rw [runFor_of_marked hp, Machine.advance_add hlast, Machine.advance_succ, hstop, ← houtput]
        rfl

end

/-- Limits cut a run short and change nothing else. -/
theorem limits_truncate (p : Program) :
    ((∃ l, p.JumpsUnmarked l) → ∃ l, p.JumpsUnmarked l ∧
      ∀ limits, p.Answers limits ⟨.empty, .error (.unknownLabel l)⟩) ∧
    ((∀ l, ¬ p.JumpsUnmarked l) →
      (∀ limits r l, p.Answers limits r → r.result ≠ .error (.unknownLabel l)) ∧
      (∀ k r, p.EndsAfter k r → (p.started k).length = k ∧ r.output = written (p.started k) ∧
        ∀ n, r.result = .ok n → n = k) ∧
      ∀ steps room : Nat,
        (∀ k ≤ steps, ∀ r, p.EndsAfter k r → r.output.size ≤ room →
          p.Answers ⟨steps, room⟩ r) ∧
        (room < (written (p.started steps)).size → p.Answers ⟨steps, room⟩
          ⟨(written (p.started steps)).extract 0 room, .error .output⟩) ∧
        ((∀ k ≤ steps, ∀ r, ¬ p.EndsAfter k r) → (written (p.started steps)).size ≤ room →
          p.Answers ⟨steps, room⟩ ⟨written (p.started steps), .error (.stepLimit steps)⟩)) := by
  refine ⟨?_, fun h => ?_⟩
  · rintro ⟨l, hl⟩
    cases hm : p.missingLabel? with
    | none => exact absurd hl (missingLabel?_eq_none_iff.1 hm l)
    | some l' =>
      refine ⟨l', jumpsUnmarked_of_missingLabel? hm, fun limits => ?_⟩
      exact answers_of_result (n := 0) (runFor_of_missingLabel? hm)
  · have hp := missingLabel?_eq_none_iff.2 h
    refine ⟨?_, fun k r hr => hr.trace hp, fun steps room => ⟨?_, ?_, ?_⟩⟩
    · rintro limits r l ⟨fuel, hr⟩
      exact runFor_ne_unknownLabel h (hr fuel (Nat.le_refl _))
    · exact fun k hk r hr => hr.answers hp hk
    · exact answers_output hp
    · exact answers_stepLimit hp

/-- A loop that prints sevens, cut off in the middle of its second line. -/
theorem limits_truncate_loop :
    Program.Answers ⟨#[], #[.label ⟨0⟩, .push (.integer 7), .print .integer, .jump ⟨0⟩]⟩
      ⟨some 9, some 3⟩ ⟨"7\n7".toUTF8, .error .output⟩ := by
  have hmarked : ∀ l, ¬ JumpsUnmarked
      ⟨#[], #[.label ⟨0⟩, .push (.integer 7), .print .integer, .jump ⟨0⟩]⟩ l := by
    refine missingLabel?_eq_none_iff.1 ?_
    decide
  obtain ⟨-, -, hcut⟩ := (limits_truncate _).2 hmarked
  obtain ⟨-, houtput, -⟩ := hcut 9 3
  have hkept : (written (started ⟨#[], #[.label ⟨0⟩, .push (.integer 7), .print .integer,
      .jump ⟨0⟩]⟩ 9)).extract 0 3 = "7\n7".toUTF8 := by decide +kernel
  rw [← hkept]
  exact houtput (by decide +kernel)

end Program
end MiniPascal
