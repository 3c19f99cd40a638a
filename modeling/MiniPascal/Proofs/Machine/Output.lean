import MiniPascal.Proofs.Machine.Jumps
import MiniPascal.Proofs.Machine.Trace
import MiniPascal.Proofs.Reading.Constants
import MiniPascal.Proofs.Text.Complete
import MiniPascal.Proofs.Text.Numbers

/-! The output of programs that compile. Their strings come from constants of the text, none of
which has a quote or a line break, and no instruction brings one into a string. So every instruction
that prints writes one line. -/
namespace MiniPascal

namespace Value

/-- A string without quotes and line breaks, or a value of another type. -/
def Plain : Value → Prop
  | string s => ∀ c ∈ s.toList, c ≠ Lexeme.quote ∧ c ≠ '\r' ∧ c ≠ '\n'
  | integer _ | real _ | boolean _ => True

variable {v w l r : Value} {t : Ty} {op : BinaryOp}

theorem Writable.plain (h : v.Writable) : v.Plain := by
  cases v with
  | string s =>
    intro c hc
    exact Lexeme.isStringChar_iff.1 (h c hc)
  | integer | real | boolean => trivial

theorem plain_zero (t : Ty) : (zero t).Plain := (writable_zero t).plain

theorem plain_neg (h : v.neg = .ok w) : w.Plain := by
  cases v <;> cases h <;> trivial

theorem plain_not (h : v.not = .ok w) : w.Plain := by
  cases v <;> cases h
  trivial

theorem plain_widen (h : v.widen = .ok w) : w.Plain := by
  cases v <;> cases h
  trivial

theorem plain_concat (hl : l.Plain) (hr : r.Plain) (h : l.concat r = .ok w) : w.Plain := by
  cases l with
  | string l => cases r with
    | string r =>
      cases h
      intro c hc
      rw [String.toList_append] at hc
      exact (List.mem_append.1 hc).elim (hl c) (hr c)
    | integer | real | boolean => cases h
  | integer | real | boolean => cases h

theorem plain_integerBinary {l r : Int32} (h : integerBinary op l r = .ok w) : w.Plain := by
  cases op
  case div | mod =>
    simp only [integerBinary] at h
    split at h <;> cases h
    trivial
  all_goals cases h
  all_goals trivial

theorem plain_realBinary {l r : Float} (h : realBinary op l r = .ok w) : w.Plain := by
  cases op
  case div =>
    simp only [realBinary] at h
    split at h <;> cases h
    trivial
  all_goals cases h
  all_goals trivial

theorem plain_booleanBinary {l r : Bool} (h : booleanBinary op l r = .ok w) : w.Plain := by
  cases op <;> cases h <;> trivial

theorem plain_stringBinary {l r : String} (h : stringBinary op l r = .ok w) : w.Plain := by
  cases op <;> cases h
  trivial

/-- The operations on two values give no strings. -/
theorem plain_binary (h : binary op l r = .ok w) : w.Plain := by
  unfold binary at h
  split at h
  · exact plain_integerBinary h
  · exact plain_booleanBinary h
  · exact plain_stringBinary h
  · split at h
    · exact plain_realBinary h
    · cases h

/-- What is printed of a value is on one line. -/
theorem Plain.onOneLine (h : v.Plain) : Text.OnOneLine v.printed.toList := by
  cases v with
  | integer v => exact Text.onOneLine_int _
  | real v => exact RealNotation.printed.onOneLine_text v
  | string s => exact fun c hc => (h c hc).2
  | boolean b => cases b <;> decide

end Value

/-- No string on the stack or in a slot has a quote or a line break. -/
structure Machine.Plain (m : Machine) : Prop where
  stack : ∀ v ∈ m.stack, v.Plain
  slots : ∀ v ∈ m.slots, v.Plain

namespace Machine

section
variable {m : Machine} {i : Instr} {ts : List (Label × Nat)} {n index : Nat} {p : Loaded}
  {operands stack : List Value} {r : OperandResult}

theorem Plain.push (h : m.Plain) (hs : ∀ v ∈ stack, v.Plain) (hr : ∀ v, r = .ok v → v.Plain) :
    (m.push index i operands stack r).machine.Plain := by
  cases r with
  | ok v => exact ⟨List.forall_mem_cons.2 ⟨hr v rfl, hs⟩, h.slots⟩
  | error f => exact h

theorem Plain.unary {f : Value → OperandResult} (h : m.Plain)
    (hf : ∀ v w, f v = .ok w → w.Plain) : (m.unary index i f).machine.Plain := by
  unfold Machine.unary
  split
  · next v stack hstack =>
    have hall := h.stack
    rw [hstack, List.forall_mem_cons] at hall
    exact h.push hall.2 (hf v)
  · exact h

theorem Plain.binary {f : Value → Value → OperandResult} (h : m.Plain)
    (hf : ∀ l r w, l.Plain → r.Plain → f l r = .ok w → w.Plain) :
    (m.binary index i f).machine.Plain := by
  unfold Machine.binary
  split
  · next r l stack hstack =>
    have hall := h.stack
    rw [hstack, List.forall_mem_cons, List.forall_mem_cons] at hall
    exact h.push hall.2.2 fun w => hf l r w hall.2.1 hall.1
  · exact h

theorem Plain.jump {l : Label} (h : m.Plain) : (m.jump ts l).machine.Plain := by
  unfold Machine.jump
  split
  · exact ⟨h.stack, h.slots⟩
  · exact h

/-- No instruction brings a quote or a line break into a string, but for a constant that has one. -/
theorem Plain.exec (h : m.Plain) (hi : ∀ v, i = .push v → v.Plain) :
    (exec ts index i m).machine.Plain := by
  have htop : ∀ v stack, m.stack = v :: stack → v.Plain ∧ ∀ w ∈ stack, w.Plain := by
    intro v stack hstack
    rw [← List.forall_mem_cons, ← hstack]
    exact h.stack
  cases i with
  | push v => exact ⟨List.forall_mem_cons.2 ⟨hi v rfl, h.stack⟩, h.slots⟩
  | load s =>
    simp only [Machine.exec]
    split
    · next v hv =>
      exact ⟨List.forall_mem_cons.2 ⟨h.slots v (Array.mem_of_getElem? hv), h.stack⟩, h.slots⟩
    · exact h
  | store s =>
    simp only [Machine.exec]
    split
    · next v stack hstack =>
      obtain ⟨hv, hrest⟩ := htop v stack hstack
      split
      · refine ⟨hrest, fun w hw => ?_⟩
        rcases Array.mem_or_eq_of_mem_setIfInBounds hw with hw | rfl
        · exact h.slots w hw
        · exact hv
      · exact h
    · exact h
  | neg => exact h.unary fun _ _ => Value.plain_neg
  | not => exact h.unary fun _ _ => Value.plain_not
  | widen => exact h.unary fun _ _ => Value.plain_widen
  | binary op => exact h.binary fun _ _ _ _ _ => Value.plain_binary
  | concat => exact h.binary fun _ _ _ => Value.plain_concat
  | label l | halt => exact h
  | jump l => exact h.jump
  | jumpIfFalse l =>
    simp only [Machine.exec]
    split
    · next stack hstack => exact ⟨(htop _ stack hstack).2, h.slots⟩
    · next stack hstack => exact Plain.jump ⟨(htop _ stack hstack).2, h.slots⟩
    · exact h
    · exact h
  | print t =>
    simp only [Machine.exec]
    split
    · next v stack hstack =>
      have hrest := (htop v stack hstack).2
      split
      · split
        · exact ⟨hrest, h.slots⟩
        · exact ⟨hrest, h.slots⟩
      · exact h
    · exact h

theorem Plain.step (h : m.Plain) (hp : Pushes Value.Plain p.code.toList) :
    (m.step p).machine.Plain := by
  unfold Machine.step
  split
  · exact h
  · next i hi =>
    split
    · exact h
    · refine Plain.exec ⟨h.stack, h.slots⟩ fun v hv => hp v ?_
      exact Array.mem_toList_iff.2 (Array.mem_of_getElem? (hv ▸ hi))

/-- Wherever a run gets to, its strings are without quotes and line breaks. -/
theorem Plain.advance (h : m.Plain) (hp : Pushes Value.Plain p.code.toList) :
    (m.advance p n).machine.Plain := by
  induction n generalizing m with
  | zero => exact h
  | succ n ih =>
    have hstep := h.step hp
    rw [advance_succ]
    cases hs : m.step p with
    | running m' =>
      rw [hs] at hstep
      exact ih hstep
    | finished m' | failed e m' =>
      rw [hs] at hstep
      exact hstep

end
end Machine

/-- An instruction that a run executed, and the operands it found. -/
structure Execution where
  instr : Instr
  operands : List Value

/-- The instructions executed in a number of steps. One that breaks the run off is not executed. -/
def Machine.executed (p : Loaded) : Nat → Machine → List Execution
  | 0, _ => []
  | n + 1, m =>
    match p.code[m.pc]?, m.step p with
    | some i, .running m' => ⟨i, m.stack⟩ :: executed p n m'
    | some i, .finished _ => [⟨i, m.stack⟩]
    | _, _ => []

/-- The lines that instructions print: each that prints adds the value on top of its operands. -/
inductive Prints : List Execution → List String → Prop
  | nil : Prints [] []
  | print (t : Ty) (v : Value) (operands : List Value) {es : List Execution} {ls : List String}
    (h : Prints es ls) : Prints (⟨.print t, v :: operands⟩ :: es) (v.printed :: ls)
  | other {i : Instr} (operands : List Value) {es : List Execution} {ls : List String}
    (hi : ∀ t, i ≠ .print t) (h : Prints es ls) : Prints (⟨i, operands⟩ :: es) ls

section
variable {es es' : List Execution} {ls ls' : List String}

theorem Prints.append (h : Prints es ls) (h' : Prints es' ls') :
    Prints (es ++ es') (ls ++ ls') := by
  induction h with
  | nil => exact h'
  | print t v operands _ ih => exact .print t v operands ih
  | other operands hi _ ih => exact .other operands hi ih

/-- Lines, a line feed behind each, as they are written. -/
def writtenLines (ls : List String) : ByteArray := (String.join (ls.map (· ++ "\n"))).toUTF8

theorem writtenLines_append : writtenLines (ls ++ ls') = writtenLines ls ++ writtenLines ls' := by
  rw [writtenLines, List.map_append, String.join_append]
  exact String.toByteArray_append

theorem writtenLines_nil : writtenLines [] = .empty := rfl

end

namespace Machine

section
variable {m m' : Machine} {i : Instr} {ts : List (Label × Nat)} {n index : Nat} {p : Loaded}
  {e : RunError}

/-- Without a limit on the output, a value is printed or is not of the type that is asked for. -/
theorem exec_print (h : m.output.room = none) (t : Ty) :
    (∃ v operands, m.stack = v :: operands ∧ exec ts index (.print t) m = .running { m with
      stack := operands, output := ⟨m.output.bytes ++ writtenLines [v.printed], none⟩ }) ∨
    ∃ e, exec ts index (.print t) m = .failed e m := by
  rcases hv : m.stack with _ | ⟨v, operands⟩
  · exact .inr ⟨.stackUnderflow index, by simp [exec, hv]⟩
  · by_cases ht : v.ty = t
    · exact .inl ⟨v, operands, rfl, by simp [exec, hv, ht, Sink.write, h, writtenLines]⟩
    · exact .inr ⟨.kindMismatch index (.print t) [v.ty], by simp [exec, hv, ht]⟩

theorem exec_output_of_ne (h : m.output.room = none) (hi : ∀ t, i ≠ .print t) :
    (exec ts index i m).machine.output = m.output := by
  rw [exec_output h, bytesPrinted_of_ne hi, ByteArray.append_empty, ← h]

/-- An instruction that breaks the run off has printed nothing. -/
theorem output_of_failed (h : m.output.room = none) (hf : exec ts index i m = .failed e m') :
    m'.output = m.output := by
  by_cases hi : ∃ t, i = .print t
  · obtain ⟨t, rfl⟩ := hi
    rcases exec_print h t with ⟨v, operands, -, hrun⟩ | ⟨e', hfail⟩
    · rw [hrun] at hf
      cases hf
    · rw [hfail] at hf
      cases hf
      rfl
  · have houtput := @exec_output_of_ne m i ts index h fun t ht => hi ⟨t, ht⟩
    rwa [hf] at houtput

/-- Any other has printed its line, if it is one that prints. -/
theorem exec_prints (h : m.output.room = none) (hm : m.Plain)
    (hf : ∀ e m', exec ts index i m ≠ .failed e m') :
    ∃ ls, Prints [⟨i, m.stack⟩] ls ∧ (∀ l ∈ ls, Text.OnOneLine l.toList) ∧
      (exec ts index i m).machine.output = ⟨m.output.bytes ++ writtenLines ls, none⟩ := by
  by_cases hi : ∃ t, i = .print t
  · obtain ⟨t, rfl⟩ := hi
    rcases exec_print h t with ⟨v, operands, hv, hrun⟩ | ⟨e, hfail⟩
    · refine ⟨[v.printed], ?_, ?_, by rw [hrun]; rfl⟩
      · rw [hv]
        exact .print t v operands .nil
      · rw [List.forall_mem_singleton]
        exact (hm.stack v (hv ▸ List.mem_cons_self)).onOneLine
    · exact absurd hfail (hf e m)
  · have hne : ∀ t, i ≠ .print t := fun t ht => hi ⟨t, ht⟩
    refine ⟨[], .other _ hne .nil, by simp, ?_⟩
    rw [exec_output_of_ne h hne, writtenLines_nil, ByteArray.append_empty, ← h]

theorem step_of_failed (h : m.output.room = none) (hf : m.step p = .failed e m') :
    m'.output = m.output := by
  unfold step at hf
  split at hf
  · cases hf
  · split at hf
    · cases hf
      rfl
    · exact output_of_failed (m := m.after 1 m.stack) h hf

theorem step_prints (h : m.output.room = none) (hm : m.Plain) (hi : p.code[m.pc]? = some i)
    (hf : ∀ e m', m.step p ≠ .failed e m') :
    ∃ ls, Prints [⟨i, m.stack⟩] ls ∧ (∀ l ∈ ls, Text.OnOneLine l.toList) ∧
      (m.step p).machine.output = ⟨m.output.bytes ++ writtenLines ls, none⟩ := by
  have hstep : m.step p = if p.maxSteps.any (· ≤ m.steps) then .failed (.stepLimit m.steps) m
      else exec p.targets m.pc i { m with pc := m.pc + 1, steps := m.steps + 1 } := by
    rw [step, hi]
  split at hstep
  · exact absurd hstep (hf _ _)
  · rw [hstep] at hf ⊢
    exact exec_prints (m := m.after 1 m.stack) h ⟨hm.stack, hm.slots⟩ hf

/-- What a run without a limit on its output has written is one line for each instruction that it
executed and that prints. -/
theorem advance_prints (h : m.output.room = none) (hm : m.Plain)
    (hp : Pushes Value.Plain p.code.toList) :
    ∃ ls, Prints (m.executed p n) ls ∧ (∀ l ∈ ls, Text.OnOneLine l.toList) ∧
      (m.advance p n).machine.output.bytes = m.output.bytes ++ writtenLines ls := by
  induction n generalizing m with
  | zero => exact ⟨[], .nil, by simp, ByteArray.append_empty.symm⟩
  | succ n ih =>
    cases hi : p.code[m.pc]? with
    | none =>
      have hs : m.step p = .finished m := step_of_none hi
      refine ⟨[], ?_, by simp, ?_⟩
      · simp only [executed, hi]
        exact .nil
      · rw [advance_succ, hs]
        exact ByteArray.append_empty.symm
    | some i =>
      cases hs : m.step p with
      | failed e m' =>
        have hsame := step_of_failed h hs
        refine ⟨[], ?_, by simp, ?_⟩
        · simp only [executed, hi, hs]
          exact .nil
        · simp only [advance_succ, hs, Status.machine, hsame, writtenLines_nil,
            ByteArray.append_empty]
      | finished m' =>
        obtain ⟨ls, hls, hlines, houtput⟩ := step_prints h hm hi (by simp [hs])
        rw [hs] at houtput
        refine ⟨ls, ?_, hlines, ?_⟩
        · simpa only [executed, hi, hs] using hls
        · simpa only [advance_succ, hs] using congrArg Sink.bytes houtput
      | running m' =>
        -- The rest of the run starts from strings that are still plain, and prints its own lines.
        obtain ⟨ls, hls, hlines, houtput⟩ := step_prints h hm hi (by simp [hs])
        have hplain : m'.Plain := by
          have hstep := hm.step hp
          rwa [hs] at hstep
        rw [hs] at houtput
        have hroom : m'.output.room = none := congrArg Sink.room houtput
        have hbytes : m'.output.bytes = _ := congrArg Sink.bytes houtput
        obtain ⟨later, hlater, hlines', houtput'⟩ := ih hroom hplain
        refine ⟨ls ++ later, ?_, ?_, ?_⟩
        · simp only [executed, hi, hs]
          exact hls.append hlater
        · exact List.forall_mem_append.2 ⟨hlines, hlines'⟩
        · simp only [advance_succ, hs, houtput', hbytes, writtenLines_append,
            ByteArray.append_assoc]

end
end Machine

theorem Program.start_plain (p : Program) (room : Option Nat) : (p.start room).Plain := by
  refine ⟨by simp [start], fun v hv => ?_⟩
  obtain ⟨t, -, rfl⟩ := Array.mem_map.1 hv
  exact Value.plain_zero t

/-- The instructions that a run without a limit on its output executes in a number of steps. -/
def Program.executed (p : Program) (maxSteps : Option Nat) (fuel : Nat) : List Execution :=
  (p.start none).executed (p.loaded maxSteps) fuel

section
variable {source : String} {p : Program}

/-- However far a program that compiles has run, none of its strings has a quote or a line break.
Unless its output is limited, it has written complete lines, one for each instruction executed that
prints, with the value that was printed. -/
theorem output_lines (h : compile source = .ok p) :
    (∀ limits fuel, (p.runFor limits fuel).machine.Plain) ∧
    ∀ maxSteps fuel, ∃ text lines,
      (p.runFor ⟨maxSteps, none⟩ fuel).machine.output.bytes = text.toUTF8 ∧
      CompleteLines text lines ∧ Prints (p.executed maxSteps fuel) lines := by
  have hcode : Pushes Value.Plain p.code.toList := fun v hv => (writable_of_compile h v hv).plain
  have hmarked : p.missingLabel? = none := by
    obtain ⟨a, -, -, -, rfl⟩ := denotes_of_compile h
    exact Tree.missingLabel?_program a
  refine ⟨fun limits fuel => ?_, fun maxSteps fuel => ?_⟩
  · rw [Program.runFor_of_marked hmarked]
    exact (p.start_plain limits.room).advance hcode
  · obtain ⟨lines, hprints, hlines, houtput⟩ := Machine.advance_prints (m := p.start none)
      (p := p.loaded maxSteps) (n := fuel) rfl (p.start_plain none) hcode
    refine ⟨_, lines, ?_, ⟨rfl, hlines⟩, hprints⟩
    rw [Program.runFor_of_marked hmarked, houtput]
    exact ByteArray.empty_append

/-- A loop that makes a string longer and longer, after thirty instructions. -/
theorem output_lines_loop :
    ∃ p, compile
        "program p; var s: string; begin while true do begin s := s + 'ab'; writeln(s) end end." =
          .ok p ∧
      (∀ limits fuel, (p.runFor limits fuel).machine.Plain) ∧
      Prints (p.executed none 30) ["ab", "abab"] := by
  have hbytes : (compile
      "program p; var s: string; begin while true do begin s := s + 'ab'; writeln(s) end end."
      ).toOption.map (fun p => (p.runFor ⟨none, none⟩ 30).machine.output.bytes) =
        some (writtenLines ["ab", "abab"]) := by
    decide +kernel
  cases h : compile
      "program p; var s: string; begin while true do begin s := s + 'ab'; writeln(s) end end." with
  | error e => simp [h, Except.toOption] at hbytes
  | ok p =>
    obtain ⟨hplain, hruns⟩ := output_lines h
    obtain ⟨text, lines, houtput, hlines, hprints⟩ := hruns none 30
    have htext : text = String.join (["ab", "abab"].map (· ++ "\n")) := by
      have hwritten : text.toUTF8 = writtenLines ["ab", "abab"] := by
        rw [← houtput]
        simpa [h, Except.toOption] using hbytes
      exact String.toByteArray_inj.1 hwritten
    have hsame : lines = ["ab", "abab"] := hlines.unique ⟨htext, by decide⟩
    exact ⟨p, rfl, hplain, hsame ▸ hprints⟩

end
end MiniPascal
