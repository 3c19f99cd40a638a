import MiniPascal.Proofs.Machine.Program

/-! The types on the stack. Reading code from the front tells them for every place in it, whatever
the machine does at run time. -/
namespace MiniPascal

/-- The type of what an operation gives for operands of two types. -/
def BinaryOp.type? (op : BinaryOp) (l r : Ty) : Option Ty :=
  match op with
  | add | sub | mul | div => if l.isNumeric && r.isNumeric then some (l.wider r) else none
  | mod => if l == .integer && r == .integer then some .integer else none
  | and | or => if l == .boolean && r == .boolean then some .boolean else none
  | eq => if (l.isNumeric && r.isNumeric) || (l == r && (l == .boolean || l == .string)) then
      some .boolean
    else none
  | lt | gt => if l.isNumeric && r.isNumeric then some .boolean else none

/-- What an instruction makes of the types on the stack, the topmost first. Where runs meet and
where they end the stack has to be empty. -/
def Instr.flow? (slots : Array Ty) : Instr → List Ty → Option (List Ty)
  | push v, ts => some (v.ty :: ts)
  | load s, ts => slots[s.index.toNat]?.map (· :: ts)
  | store s, t :: ts => if slots[s.index.toNat]? = some t then some ts else none
  | neg, t :: ts => if t.isNumeric then some (t :: ts) else none
  | not, .boolean :: ts => some (.boolean :: ts)
  | widen, .integer :: ts => some (.real :: ts)
  | binary op, r :: l :: ts => (op.type? l r).map (· :: ts)
  | concat, .string :: .string :: ts => some (.string :: ts)
  | print t, u :: ts => if u = t then some ts else none
  | jumpIfFalse _, [.boolean] => some []
  | label _, [] | jump _, [] | halt, [] => some []
  | _, _ => none

/-- What an instruction finds on the stack and what it leaves there. -/
inductive Instr.Flows (slots : Array Ty) : Instr → List Ty → List Ty → Prop
  | push (v : Value) (ts : List Ty) : Flows slots (.push v) ts (v.ty :: ts)
  | load {s : Slot} {t : Ty} (ts : List Ty) (hs : slots[s.index.toNat]? = some t) :
    Flows slots (.load s) ts (t :: ts)
  | store {s : Slot} {t : Ty} (ts : List Ty) (hs : slots[s.index.toNat]? = some t) :
    Flows slots (.store s) (t :: ts) ts
  | neg {t : Ty} (ts : List Ty) (ht : t.isNumeric) : Flows slots .neg (t :: ts) (t :: ts)
  | not (ts : List Ty) : Flows slots .not (.boolean :: ts) (.boolean :: ts)
  | widen (ts : List Ty) : Flows slots .widen (.integer :: ts) (.real :: ts)
  | binary {op : BinaryOp} {l r t : Ty} (ts : List Ty) (ht : op.type? l r = some t) :
    Flows slots (.binary op) (r :: l :: ts) (t :: ts)
  | concat (ts : List Ty) : Flows slots .concat (.string :: .string :: ts) (.string :: ts)
  | print (t : Ty) (ts : List Ty) : Flows slots (.print t) (t :: ts) ts
  | jumpIfFalse (l : Label) : Flows slots (.jumpIfFalse l) [.boolean] []
  | label (l : Label) : Flows slots (.label l) [] []
  | jump (l : Label) : Flows slots (.jump l) [] []
  | halt : Flows slots .halt [] []

theorem Instr.flows_of_flow? {slots : Array Ty} {i : Instr} {ts us : List Ty}
    (h : i.flow? slots ts = some us) : i.Flows slots ts us := by
  unfold Instr.flow? at h
  split at h
  case h_2 | h_7 =>
    obtain ⟨t, ht, rfl⟩ := Option.map_eq_some_iff.1 h
    constructor
    exact ht
  case h_3 | h_4 | h_9 =>
    split at h
    · next ht =>
      cases h
      first | exact .store _ ht | exact .neg _ ht | exact ht ▸ .print _ _
    · cases h
  all_goals cases h
  all_goals constructor

theorem Instr.Flows.flow? {slots : Array Ty} {i : Instr} {ts us : List Ty}
    (h : i.Flows slots ts us) : i.flow? slots ts = some us := by
  cases h <;> simp [Instr.flow?, *]

/-- What code makes of the types on the stack, read from the front. -/
def flow? (slots : Array Ty) (is : List Instr) (ts : List Ty) : Option (List Ty) :=
  is.foldlM (fun ts i => i.flow? slots ts) ts

section
variable {slots : Array Ty} {is js : List Instr} {ts us : List Ty} {i : Instr}

@[simp] theorem flow?_nil : flow? slots [] ts = some ts := rfl

theorem flow?_cons (h : i.Flows slots ts us) :
    flow? slots (i :: is) ts = flow? slots is us := by
  simp [flow?, h.flow?]

theorem flow?_append : flow? slots (is ++ js) ts = (flow? slots is ts).bind (flow? slots js) := by
  unfold flow?
  rw [List.foldlM_append]
  rfl

theorem flow?_append_of_eq (h : flow? slots is ts = some us) :
    flow? slots (is ++ js) ts = flow? slots js us := by
  rw [flow?_append, h]
  rfl

end

/-- The variables have slots of their types. -/
def Allotted (names : Names) (slots : Array Ty) : Prop :=
  ∀ x t s, names x = some (.var t s) → slots[s.index.toNat]? = some t

section
variable {names : Names} {slots : Array Ty} {ts : List Ty} {t u : Ty} {e : Expr} {n : Nat}

theorem flow?_connective {c : Connective} {a b : Ty} (h : c.Takes a b t) :
    flow? slots (c.code (some a)) (b :: a :: ts) = some (t :: ts) := by
  replace h := Connective.type?_of_takes h
  cases c <;> cases a <;> cases b <;> cases h <;> rfl

/-- The code of an expression puts a value of its type on the stack. -/
theorem flow?_expr (hs : Allotted names slots) (h : e.HasType names t) :
    flow? slots (e.code names) ts = some (t :: ts) := by
  induction h generalizing ts with
  | @var x t s hx =>
    have hcode : (Expr.name x).code names = [.load s] := by simp [Expr.code, hx, Entry.code]
    rw [hcode, flow?_cons (.load ts (hs x t s hx)), flow?_nil]
  | @named x v hx =>
    have hcode : (Expr.name x).code names = [.push v] := by simp [Expr.code, hx, Entry.code]
    rw [hcode]
    rfl
  | constant v => rfl
  | @signed e t minus _ ht ih =>
    rw [Expr.code, flow?_append_of_eq ih]
    cases minus with
    | false => rfl
    | true =>
      rw [if_pos rfl, flow?_cons (.neg ts ht), flow?_nil]
  | not _ ih =>
    rw [Expr.code, flow?_append_of_eq ih]
    rfl
  | @binary c l r a b t hl _ hc ihl ihr =>
    rw [Expr.code, List.append_assoc, flow?_append_of_eq ihl, flow?_append_of_eq ihr,
      Expr.type?_of_hasType hl]
    exact flow?_connective hc

/-- Storing a value takes it from the stack. -/
theorem flow?_storeCode {s : Slot} (hs : slots[s.index.toNat]? = some t) (hf : u.fits t) :
    flow? slots (storeCode u t s) (u :: ts) = some ts := by
  have hstore : (Instr.store s).Flows slots (t :: ts) ts := .store ts hs
  unfold storeCode
  split
  · next hw =>
    obtain ⟨rfl, rfl⟩ := hw
    exact (flow?_cons (.widen ts)).trans (flow?_cons hstore)
  · next hw =>
    have hu : u = t := by
      simp only [Ty.fits, Bool.or_eq_true, Bool.and_eq_true, beq_iff_eq] at hf
      exact hf.resolve_right hw
    subst hu
    exact flow?_cons hstore

theorem flow?_printCode (hs : Allotted names slots) (h : e.HasType names t) :
    flow? slots (e.printCode names) ts = some ts := by
  rw [Expr.printCode, flow?_append_of_eq (flow?_expr hs h), Expr.type?_of_hasType h]
  exact flow?_cons (.print t ts)

theorem flow?_choiceCode {condition body otherwise : List Instr}
    (hc : flow? slots condition [] = some [.boolean]) (hb : flow? slots body [] = some [])
    (ho : flow? slots otherwise [] = some []) :
    flow? slots (Stmt.choiceCode n condition body otherwise) [] = some [] := by
  rw [Stmt.choiceCode, flow?_append_of_eq hc, flow?_cons (.jumpIfFalse _), flow?_append_of_eq hb,
    flow?_cons (.jump _), flow?_cons (.label _), flow?_append_of_eq ho]
  rfl

theorem flow?_loopCode {condition body : List Instr}
    (hc : flow? slots condition [] = some [.boolean]) (hb : flow? slots body [] = some []) :
    flow? slots (Stmt.loopCode n condition body) [] = some [] := by
  rw [Stmt.loopCode, flow?_cons (.label _), flow?_append_of_eq hc, flow?_cons (.jumpIfFalse _),
    flow?_append_of_eq hb]
  rfl

/-- The code of a statement begins and ends with an empty stack. -/
theorem flow?_stmt {st : Stmt} (hs : Allotted names slots) (h : st.WellTyped names) :
    flow? slots (st.code names n) [] = some [] := by
  induction st generalizing n with
  | skip => rfl
  | seq a b iha ihb =>
    rw [Stmt.code, flow?_append_of_eq (iha h.1)]
    exact ihb h.2
  | assign x e =>
    obtain ⟨t, s, u, hx, he, hf⟩ := h
    rw [Stmt.code, assignCode, hx, Expr.type?_of_hasType he]
    exact (flow?_append_of_eq (flow?_expr hs he)).trans (flow?_storeCode (hs x t s hx) hf)
  | write es =>
    rw [Stmt.code]
    induction es with
    | nil => rfl
    | cons e es ih =>
      obtain ⟨t, ht⟩ := h e List.mem_cons_self
      rw [List.flatMap_cons, flow?_append_of_eq (flow?_printCode hs ht)]
      exact ih fun e' he' => h e' (List.mem_cons_of_mem e he')
  | ifThen c a ih => exact flow?_choiceCode (flow?_expr hs h.1) (ih h.2) rfl
  | ifElse c a b iha ihb => exact flow?_choiceCode (flow?_expr hs h.1) (iha h.2.1) (ihb h.2.2)
  | loop c a ih => exact flow?_loopCode (flow?_expr hs h.1) (ih h.2)

end

/-- Zeros go into slots of their types. -/
theorem flow?_zeroCode {slots : Array Ty} {n : Nat} {ts : List Ty}
    (hn : n + ts.length ≤ UInt32.size)
    (hs : ∀ i, ∀ hi : i < ts.length, slots[n + i]? = some ts[i]) :
    flow? slots (zeroCode n ts) [] = some [] := by
  induction ts generalizing n with
  | nil => rfl
  | cons t ts ih =>
    simp only [List.length_cons] at hn
    have hslot : (slotOf n).index.toNat = n := toNat_slotOf (by omega)
    have hfirst : slots[n]? = some t := hs 0 (by simp)
    have hpush : (Instr.push (.zero t)).Flows slots [] [t] := by
      have hzero : (Instr.push (.zero t)).Flows slots [] [(Value.zero t).ty] := .push _ []
      rwa [Value.ty_zero] at hzero
    have hstore : (Instr.store (slotOf n)).Flows slots [t] [] := .store [] (by rw [hslot, hfirst])
    rw [zeroCode, flow?_cons hpush, flow?_cons hstore]
    refine ih (by omega) fun i hi => ?_
    have hnext := hs (i + 1) (by simpa using hi)
    rw [Nat.add_assoc, Nat.add_comm 1]
    simpa using hnext

theorem allotted_namesOf {vs : List (String × Ty)} (hv : vs.length ≤ UInt32.size) :
    Allotted (namesOf vs) (vs.map (·.2)).toArray := by
  intro x t s hx
  obtain ⟨n, hn, hvar, -⟩ := variableNames_eq_some (variableNames_of_namesOf hx)
  cases hvar
  rw [toNat_slotOf (by omega)]
  simp [hn]

/-- The whole program of a tree can be read so, and ends with an empty stack. -/
theorem Tree.flow?_program {a : Tree} (h : a.WellTyped) (hv : a.vars.length ≤ UInt32.size) :
    flow? a.program.slots a.program.code.toList [] = some [] := by
  have hcode : a.program.code.toList = zeroCode 0 a.types ++
      (a.body.code (namesOf a.vars) 0 ++ [.halt]) := by simp [program, code]
  have hzero : flow? a.program.slots (zeroCode 0 a.types) [] = some [] := by
    refine flow?_zeroCode (by simpa [types] using hv) fun i hi => ?_
    simp [program, hi]
  have hbody : flow? a.program.slots (a.body.code (namesOf a.vars) 0) [] = some [] :=
    flow?_stmt (allotted_namesOf hv) h.body
  rw [hcode, flow?_append_of_eq hzero, flow?_append_of_eq hbody]
  rfl

end MiniPascal
