import MiniPascal.Proofs.Machine.Shape
import MiniPascal.Proofs.Reading.Source

/-! Code that can be read for its types runs without errors of type: a step leads from types as they
were read to types as they were read, or to an error that has nothing to do with types. -/
namespace MiniPascal

/-- A value of the type, unless a division by zero keeps it from being one. -/
def OperandResult.Fits (t : Ty) : OperandResult → Prop
  | .ok v => v.ty = t
  | .error f => f = .divisionByZero

namespace Value

variable {op : BinaryOp} {l r v : Value} {t : Ty}

theorem neg_fits (h : v.ty.isNumeric) : OperandResult.Fits v.ty v.neg := by
  cases v <;> first | rfl | cases h

theorem not_fits (h : v.ty = .boolean) : OperandResult.Fits .boolean v.not := by
  cases v <;> first | rfl | cases h

theorem widen_fits (h : v.ty = .integer) : OperandResult.Fits .real v.widen := by
  cases v <;> first | rfl | cases h

theorem concat_fits (hl : l.ty = .string) (hr : r.ty = .string) :
    OperandResult.Fits .string (l.concat r) := by
  cases l <;> cases hl
  cases r <;> cases hr
  rfl

theorem integerBinary_fits {l r : Int32} (h : op.type? .integer .integer = some t) :
    OperandResult.Fits t (integerBinary op l r) := by
  cases op <;> cases h
  case div | mod =>
    simp only [integerBinary]
    split <;> rfl
  all_goals rfl

theorem realBinary_fits {l r : Float} (h : op.type? .real .real = some t) :
    OperandResult.Fits t (realBinary op l r) := by
  cases op <;> cases h
  case div =>
    simp only [realBinary]
    split <;> rfl
  all_goals rfl

theorem booleanBinary_fits {l r : Bool} (h : op.type? .boolean .boolean = some t) :
    OperandResult.Fits t (booleanBinary op l r) := by
  cases op <;> cases h <;> rfl

theorem stringBinary_fits {l r : String} (h : op.type? .string .string = some t) :
    OperandResult.Fits t (stringBinary op l r) := by
  cases op <;> cases h
  rfl

/-- On operands of types it takes, an operation gives a value of its type or divides by zero. -/
theorem binary_fits (h : op.type? l.ty r.ty = some t) : OperandResult.Fits t (binary op l r) := by
  cases l with
  | integer l => cases r with
    | integer r => exact integerBinary_fits h
    | real r =>
      refine realBinary_fits ?_
      cases op <;> exact h
    | string | boolean => cases op <;> cases h
  | real l => cases r with
    | integer r =>
      refine realBinary_fits ?_
      cases op <;> exact h
    | real r => exact realBinary_fits h
    | string | boolean => cases op <;> cases h
  | string l => cases r with
    | string r => exact stringBinary_fits h
    | integer | real | boolean => cases op <;> cases h
  | boolean l => cases r with
    | boolean r => exact booleanBinary_fits h
    | integer | real | string => cases op <;> cases h

end Value

/-- The errors that types do not rule out. -/
def RunError.Possible : RunError → Prop
  | divisionByZero _ | stepLimit _ | output => True
  | stackUnderflow _ | kindMismatch .. | unknownLabel _ | unknownSlot _ => False

namespace Program

/-- The types on the stack before the instruction of an index, the topmost first. -/
def shape (p : Program) (n : Nat) : List Ty := (flow? p.slots (p.code.toList.take n) []).getD []

/-- A program that can be read for its types and knows where its jumps lead. -/
structure Sound (p : Program) : Prop where
  flows : flow? p.slots p.code.toList [] = some []
  jumps : ∀ i ∈ p.code.toList, ∀ l, i.target? = some l → (p.targets.lookup l).isSome

/-- A program that can be read for its types up to an index, from which on it only halts, and knows
where its jumps lead. -/
structure SoundTo (p : Program) (size : Nat) : Prop where
  flows : (flow? p.slots (p.code.toList.take size) []).isSome
  halts : ∀ n i, size ≤ n → p.code[n]? = some i → i = .halt
  jumps : ∀ i ∈ p.code.toList, ∀ l, i.target? = some l → (p.targets.lookup l).isSome

end Program

/-- The slots and the stack hold values of the types that belong there. -/
structure Machine.Typed (p : Program) (m : Machine) : Prop where
  slots : m.slots.map Value.ty = p.slots
  stack : m.stack.map Value.ty = p.shape m.pc

/-- The run has come to a state of the right types, to an end with an empty stack, or to an error
that types do not rule out. -/
def Status.Typed (p : Program) : Status → Prop
  | running m => m.Typed p
  | finished m => m.Typed p ∧ m.stack = []
  | failed e m => m.slots.map Value.ty = p.slots ∧ e.Possible

namespace Program

variable {p : Program} {i : Instr} {l : Label} {n size : Nat}

theorem Sound.soundTo (hp : p.Sound) : p.SoundTo p.code.size := by
  refine ⟨?_, fun n i hn hi => ?_, hp.jumps⟩
  · rw [List.take_of_length_le (Nat.le_of_eq Array.length_toList), hp.flows]
    rfl
  · rw [Array.getElem?_eq_none hn] at hi
    cases hi

/-- From one index to the next, the types change as the instruction says. -/
theorem SoundTo.flow_at (hp : p.SoundTo size) (hn : n < size) (hi : p.code[n]? = some i) :
    i.flow? p.slots (p.shape n) = some (p.shape (n + 1)) := by
  have hi' : p.code.toList[n]? = some i := by simpa using hi
  have htake : p.code.toList.take (n + 1) = p.code.toList.take n ++ [i] := by
    rw [List.take_add_one, hi']
    rfl
  have hfront : (p.code.toList.take size).take (n + 1) = p.code.toList.take (n + 1) := by
    rw [List.take_take, Nat.min_eq_left hn]
  obtain ⟨vs, hflows⟩ := Option.isSome_iff_exists.1 hp.flows
  rw [← List.take_append_drop (n + 1) (p.code.toList.take size), hfront, flow?_append] at hflows
  obtain ⟨us, hus, -⟩ := Option.bind_eq_some_iff.1 hflows
  have hnext : p.shape (n + 1) = us := by rw [shape, hus]; rfl
  rw [htake, flow?_append] at hus
  obtain ⟨ts, hts, hstep⟩ := Option.bind_eq_some_iff.1 hus
  have hhere : p.shape n = ts := by rw [shape, hts]; rfl
  rw [hnext, hhere]
  simpa [flow?] using hstep

theorem Sound.flow_at (hp : p.Sound) (hi : p.code[n]? = some i) :
    i.flow? p.slots (p.shape n) = some (p.shape (n + 1)) :=
  hp.soundTo.flow_at (Array.getElem?_eq_some_iff.1 hi).choose hi

/-- At a label the stack is empty. -/
theorem SoundTo.shape_label (hp : p.SoundTo size) (hi : p.code[n]? = some (.label l)) :
    p.shape n = [] := by
  have hn : n < size := Nat.lt_of_not_le fun hle => by cases hp.halts n _ hle hi
  have hflow := Instr.flows_of_flow? (hp.flow_at hn hi)
  generalize p.shape n = ts, p.shape (n + 1) = us at hflow
  cases hflow
  rfl

/-- At its end a program has an empty stack. -/
theorem Sound.shape_halt (hp : p.Sound) (hi : p.code[n]? = some .halt) : p.shape n = [] := by
  have hflow := Instr.flows_of_flow? (hp.flow_at hi)
  generalize p.shape n = ts, p.shape (n + 1) = us at hflow
  cases hflow
  rfl

end Program

namespace Machine

section
variable {p : Program} {m : Machine} {i : Instr} {l : Label} {n : Nat} {t u v : Ty}
  {ts us : List Ty} {size : Nat}

/-- A jump leads to a label, where the stack is empty. -/
theorem jump_typed (hp : p.SoundTo size) (hi : p.code[n]? = some i) (ht : i.target? = some l)
    (hm : m.slots.map Value.ty = p.slots) (hs : m.stack = []) :
    (m.jump p.targets l).Typed p := by
  obtain ⟨k, hk⟩ := Option.isSome_iff_exists.1
    (hp.jumps i (by simpa using Array.mem_of_getElem? hi) l ht)
  have hlabel := Program.getElem?_of_lookup_targets hk
  rw [jump, hk]
  refine ⟨hm, ?_⟩
  change m.stack.map Value.ty = p.shape k
  rw [hs, hp.shape_label hlabel]
  rfl

theorem push_typed {operands stack : List Value} {r : OperandResult}
    (hm : m.slots.map Value.ty = p.slots) (hr : r.Fits t)
    (hs : t :: stack.map Value.ty = p.shape m.pc) :
    (m.push n i operands stack r).Typed p := by
  cases r with
  | ok v =>
    cases hr
    exact ⟨hm, hs⟩
  | error f =>
    cases hr
    exact ⟨hm, trivial⟩

theorem unary_typed {f : Value → OperandResult} (hm : m.slots.map Value.ty = p.slots)
    (hs : m.stack.map Value.ty = u :: ts) (hf : ∀ w, w.ty = u → (f w).Fits t)
    (hn : t :: ts = p.shape m.pc) : (m.unary n i f).Typed p := by
  obtain ⟨w, ws, hstack, hw, hws⟩ := List.map_eq_cons_iff.1 hs
  rw [unary, hstack]
  exact push_typed hm (hf w hw) (hws ▸ hn)

theorem binary_typed {f : Value → Value → OperandResult} (hm : m.slots.map Value.ty = p.slots)
    (hs : m.stack.map Value.ty = v :: u :: ts)
    (hf : ∀ l r, l.ty = u → r.ty = v → (f l r).Fits t) (hn : t :: ts = p.shape m.pc) :
    (m.binary n i f).Typed p := by
  obtain ⟨r, rest, hstack, hr, hrest⟩ := List.map_eq_cons_iff.1 hs
  obtain ⟨l, ws, rfl, hl, hws⟩ := List.map_eq_cons_iff.1 hrest
  rw [binary, hstack]
  exact push_typed hm (hf l r hl hr) (hws ▸ hn)

/-- Executing an instruction that is where the machine has just been. -/
theorem exec_typed (hp : p.SoundTo size) (hi : p.code[n]? = some i) (hf : i.Flows p.slots ts us)
    (hm : m.slots.map Value.ty = p.slots) (hs : m.stack.map Value.ty = ts)
    (hn : us = p.shape m.pc) : (exec p.targets n i m).Typed p := by
  cases hf with
  | push v => exact ⟨hm, by simpa [hs] using hn⟩
  | @load s t _ ht =>
    rw [← hm, Array.getElem?_map] at ht
    obtain ⟨v, hv, rfl⟩ := Option.map_eq_some_iff.1 ht
    rw [exec, hv]
    exact ⟨hm, by simpa [hs] using hn⟩
  | @store s t _ ht =>
    obtain ⟨v, vs, hstack, rfl, rfl⟩ := List.map_eq_cons_iff.1 hs
    have hlt : s.index.toNat < m.slots.size := by
      have hlt' := (Array.getElem?_eq_some_iff.1 ht).choose
      rwa [← hm, Array.size_map] at hlt'
    simp only [exec, hstack, if_pos hlt]
    refine ⟨Array.ext_getElem? fun k => ?_, hn⟩
    by_cases hk : s.index.toNat = k
    · subst hk
      rw [ht, Array.getElem?_map, Array.getElem?_setIfInBounds_self_of_lt hlt, Option.map_some]
    · rw [← hm, Array.getElem?_map, Array.getElem?_map, Array.getElem?_setIfInBounds_ne hk]
  | neg _ ht => exact unary_typed hm hs (fun w hw => hw ▸ Value.neg_fits (hw ▸ ht)) hn
  | not => exact unary_typed hm hs (fun w => Value.not_fits) hn
  | widen => exact unary_typed hm hs (fun w => Value.widen_fits) hn
  | binary _ ht => exact binary_typed hm hs (fun l r hl hr => Value.binary_fits (hl ▸ hr ▸ ht)) hn
  | concat => exact binary_typed hm hs (fun l r => Value.concat_fits) hn
  | print t =>
    obtain ⟨v, vs, hstack, hv, rfl⟩ := List.map_eq_cons_iff.1 hs
    simp only [exec, hstack, if_pos hv]
    split
    · exact ⟨hm, hn⟩
    · exact ⟨hm, trivial⟩
  | jumpIfFalse l =>
    obtain ⟨v, vs, hstack, hv, hvs⟩ := List.map_eq_cons_iff.1 hs
    obtain rfl := List.map_eq_nil_iff.1 hvs
    obtain ⟨b, rfl⟩ := Value.exists_of_ty_boolean hv
    simp only [exec, hstack]
    cases b with
    | true => exact ⟨hm, hn⟩
    | false => exact jump_typed hp hi rfl hm rfl
  | label l => exact ⟨hm, hs.trans hn⟩
  | jump l => exact jump_typed hp hi rfl hm (List.map_eq_nil_iff.1 hs)
  | halt => exact ⟨⟨hm, hs.trans hn⟩, List.map_eq_nil_iff.1 hs⟩

variable {limit : Option Nat}

/-- A step keeps the types right. -/
theorem step_typed (hp : p.Sound) (h : m.Typed p) : (m.step (p.loaded limit)).Typed p := by
  unfold step
  split
  · next hi =>
    have hpc : p.code.toList.length ≤ m.pc := Array.getElem?_eq_none_iff.1 hi
    have hshape : p.shape m.pc = [] := by
      rw [Program.shape, List.take_of_length_le hpc, hp.flows]
      rfl
    have hstack := h.stack
    rw [hshape] at hstack
    exact ⟨h, List.map_eq_nil_iff.1 hstack⟩
  · next i hi =>
    split
    · exact ⟨h.slots, trivial⟩
    · exact exec_typed hp.soundTo hi (Instr.flows_of_flow? (hp.flow_at hi)) h.slots h.stack rfl

/-- A run keeps the types right. -/
theorem advance_typed (hp : p.Sound) (h : m.Typed p) :
    (m.advance (p.loaded limit) n).Typed p := by
  induction n generalizing m with
  | zero => exact h
  | succ n ih =>
    have hstep : (m.step (p.loaded limit)).Typed p := step_typed hp h
    rw [advance_succ]
    cases hs : m.step (p.loaded limit) with
    | running m' =>
      rw [hs] at hstep
      exact ih hstep
    | finished m' =>
      rw [hs] at hstep
      exact hstep
    | failed e m' =>
      rw [hs] at hstep
      exact hstep

end
end Machine

theorem Program.start_typed (p : Program) (room : Option Nat) : (p.start room).Typed p := by
  refine ⟨?_, rfl⟩
  rw [start, Array.map_map, show Value.ty ∘ Value.zero = id from funext Value.ty_zero, Array.map_id]

namespace Program.Sound

variable {p : Program} {limits : Limits} {fuel : Nat}

/-- Whatever the limits, and however far a run goes, its types are right. -/
theorem runFor_typed (hp : p.Sound) : (p.runFor limits fuel).Typed p := by
  rw [runFor, missingLabel?_eq_none hp.jumps]
  exact Machine.advance_typed hp (start_typed p limits.room)

end Program.Sound

theorem Tree.sound_program {a : Tree} (h : a.WellTyped) (hv : a.vars.length ≤ UInt32.size) :
    a.program.Sound :=
  ⟨flow?_program h hv, fun _ hi _ ht => isSome_lookup_of_jump hi ht⟩

section
variable {source : String} {p : Program}

/-- Whatever a text compiles to never confuses types: in every run, under any limits, each slot
holds a value of its type and the types on the stack are those of the place in the code. There are
none at labels and at the end, and nothing but a division by zero or a limit breaks a run off.
Slots are numbered in 32 bits. -/
theorem compile_type_sound (h : compile source = .ok p) (hs : p.slots.size ≤ UInt32.size) :
    (∀ n l, p.code[n]? = some (.label l) → p.shape n = []) ∧
    (∀ n, p.code[n]? = some .halt → p.shape n = []) ∧ p.code.back? = some .halt ∧
    ∀ limits fuel, (p.runFor limits fuel).Typed p := by
  obtain ⟨a, -, ht, -, rfl⟩ := denotes_of_compile h
  have hv : a.vars.length ≤ UInt32.size := by simpa [Tree.program, Tree.types] using hs
  have hsound : a.program.Sound := Tree.sound_program ht hv
  refine ⟨fun n l hl => ?_, fun n hn => ?_, ?_, fun limits fuel => hsound.runFor_typed⟩
  · exact hsound.soundTo.shape_label hl
  · exact hsound.shape_halt hn
  · simp [Tree.program]

/-- A loop that counts in reals. -/
theorem compile_type_sound_loop :
    ∃ p, compile "program p; var x: real; begin while x < 2 do x := x + 1 end." = .ok p ∧
      p.slots.size ≤ UInt32.size ∧ p.code.back? = some .halt ∧
      ∀ limits fuel, (p.runFor limits fuel).Typed p := by
  have hsize : (compile "program p; var x: real; begin while x < 2 do x := x + 1 end.").toOption.map
      (·.slots.size) = some 1 := by
    decide +kernel
  cases h : compile "program p; var x: real; begin while x < 2 do x := x + 1 end." with
  | error e => simp [h, Except.toOption] at hsize
  | ok p =>
    have hone : p.slots.size = 1 := by simpa [h, Except.toOption] using hsize
    have hs : p.slots.size ≤ UInt32.size := by
      rw [hone]
      decide
    obtain ⟨-, -, hend, hruns⟩ := compile_type_sound h hs
    exact ⟨p, rfl, hs, hend, hruns⟩

end
end MiniPascal
