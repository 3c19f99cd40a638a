import MiniPascal.Proofs.Machine.Operators
import MiniPascal.Proofs.Machine.Steps

/-! The code of an expression puts its value on the stack, or breaks the run off where the
evaluation divides by zero. -/
namespace MiniPascal

/-- The slots hold the values of the variables, each of its type. -/
structure Holds (names : Names) (slots : Array Value) (σ : Memory) : Prop where
  var : ∀ {x t s}, names x = some (.var t s) →
    ∃ v, slots[s.index.toNat]? = some v ∧ σ (Scope.key x) = some v ∧ v.ty = t
  constant : ∀ {x v}, names x = some (.constant v) →
    σ (Scope.key x) = none ∧ builtinNames x = some (.constant v)

namespace Value

variable {v : Value}

theorem exists_of_ty_integer (h : v.ty = .integer) : ∃ n, v = integer n := by
  cases v <;> first | exact ⟨_, rfl⟩ | cases h

theorem exists_of_ty_string (h : v.ty = .string) : ∃ x, v = string x := by
  cases v <;> first | exact ⟨_, rfl⟩ | cases h

theorem exists_of_ty_boolean (h : v.ty = .boolean) : ∃ b, v = boolean b := by
  cases v <;> first | exact ⟨_, rfl⟩ | cases h

end Value

namespace Machine

/-- The machine gets the result in `n` steps and leaves the given operands below it. -/
def Yields (p : Loaded) (m : Machine) (n : Nat) (rest : List Value) (t : Ty) : Evaluated → Prop
  | .ok v => v.ty = t ∧ m.advance p n = .running (m.after n (v :: rest))
  | .error .divisionByZero => m.Divides p m.output.bytes
  | .error .illTyped => False

section
variable {p : Loaded} {m : Machine} {n k : Nat} {rest rest' : List Value} {a t : Ty} {i : Instr}
  {l r v : Value} {q : Evaluated}

theorem Yields.bind {f : Value → Evaluated} (h : Yields p m n rest a q)
    (hf : ∀ v, v.ty = a → q = .ok v → Yields p (m.after n (v :: rest)) k rest' t (f v)) :
    Yields p m (n + k) rest' t (q >>= f) := by
  cases q with
  | error e =>
    cases e with
    | divisionByZero => exact h
    | illTyped => exact h.elim
  | ok v =>
    obtain ⟨hv, hr⟩ := h
    have hfv := hf v hv rfl
    change Yields p m (n + k) rest' t (f v)
    cases hq : f v with
    | ok w =>
      rw [hq] at hfv
      exact ⟨hfv.1, by rw [advance_trans hr hfv.2, after_after]⟩
    | error e =>
      rw [hq] at hfv
      cases e with
      | divisionByZero => exact Divides.of_advance hr hfv
      | illTyped => exact hfv

theorem Yields.of_stack (hs : m.stack = v :: rest) (hv : v.ty = t) :
    Yields p m 0 rest t (.ok v) := by
  refine ⟨hv, ?_⟩
  rw [← hs]
  rfl

variable (hp : p.maxSteps = none) (hi : p.code[m.pc]? = some i)
include hp hi

theorem push_yields
    (hx : exec p.targets m.pc i (m.after 1 m.stack) = .running (m.after 1 (v :: rest)))
    (hv : v.ty = t) : Yields p m 1 rest t (.ok v) := ⟨hv, (advance_one hp hi).trans hx⟩

/-- The result of one instruction that takes operands from the stack. -/
theorem operands_yields {operands : List Value} {f : OperandResult}
    (hx : exec p.targets m.pc i (m.after 1 m.stack) =
      (m.after 1 m.stack).push m.pc i operands rest f)
    (hf : f = q.operandResult) (hfit : q.Fits t) : Yields p m 1 rest t q := by
  have hadv := (advance_one hp hi).trans hx
  cases q with
  | ok v =>
    rw [hf] at hadv
    exact ⟨hfit, hadv⟩
  | error e =>
    cases hfit
    rw [hf] at hadv
    exact ⟨1, _, _, hadv, rfl⟩

theorem unary_yields {f : Value → OperandResult}
    (hx : ∀ m', exec p.targets m.pc i m' = m'.unary m.pc i f) (hs : m.stack = v :: rest)
    (hf : f v = q.operandResult) (hfit : q.Fits t) : Yields p m 1 rest t q := by
  have hexec : exec p.targets m.pc i (m.after 1 m.stack) =
      (m.after 1 m.stack).push m.pc i [v] rest (f v) := by
    rw [hx, unary, stack_after, hs]
  exact operands_yields hp hi hexec hf hfit

theorem binary_yields {f : Value → Value → OperandResult}
    (hx : ∀ m', exec p.targets m.pc i m' = m'.binary m.pc i f) (hs : m.stack = r :: l :: rest)
    (hf : f l r = q.operandResult) (hfit : q.Fits t) : Yields p m 1 rest t q := by
  have hexec : exec p.targets m.pc i (m.after 1 m.stack) =
      (m.after 1 m.stack).push m.pc i [l, r] rest (f l r) := by
    rw [hx, binary, stack_after, hs]
  exact operands_yields hp hi hexec hf hfit

end

section
variable {p : Loaded} {m : Machine} {rest : List Value} {t : Ty} {l r : Value} {c : Connective}

/-- A comparison the machine lacks: it makes another one and turns the result around. -/
theorem opposite_yields (hp : p.maxSteps = none)
    (hc : Placed p.code m.pc [.binary c.machineOp, .not]) (ho : c.isOpposite = true)
    (hs : m.stack = r :: l :: rest)
    (hmach : c.finish (Value.binary c.machineOp l r) = (c.apply l r).operandResult)
    (hfit : (c.apply l r).Fits t) : Yields p m 2 rest t (c.apply l r) := by
  rw [Connective.finish, if_pos ho] at hmach
  cases hb : Value.binary c.machineOp l r with
  | ok v =>
    rw [hb] at hmach
    have hfirst : Yields p m 1 rest v.ty (.ok v) :=
      binary_yields hp hc.getElem? (fun _ => rfl) hs hb rfl
    refine hfirst.bind (f := fun _ => c.apply l r) (k := 1) fun w _ hw => ?_
    cases hw
    exact unary_yields hp hc.tail.getElem? (fun _ => rfl) rfl hmach hfit
  | error e =>
    rw [hb] at hmach
    cases hq : c.apply l r with
    | ok v =>
      rw [hq] at hmach
      cases hmach
    | error e' =>
      rw [hq] at hfit hmach
      cases hfit
      cases hmach
      have hfirst : Yields p m 1 rest t (.error .divisionByZero) :=
        binary_yields hp hc.getElem? (fun _ => rfl) hs hb rfl
      exact hfirst

/-- The code of an operator, with both operands on the stack. -/
theorem connective_yields (hp : p.maxSteps = none)
    (hc : Placed p.code m.pc (c.code (some l.ty))) (hs : m.stack = r :: l :: rest)
    (h : c.Takes l.ty r.ty t) :
    Yields p m (c.code (some l.ty)).length rest t (c.apply l r) := by
  have hfit := Connective.apply_fits h
  by_cases hcat : c = .plus ∧ l.ty = .string
  · obtain ⟨rfl, hl⟩ := hcat
    obtain ⟨x, rfl⟩ := Value.exists_of_ty_string hl
    obtain ⟨y, rfl⟩ : ∃ y, r = .string y := by
      have hty := Connective.type?_of_takes h
      cases r with
      | string y => exact ⟨y, rfl⟩
      | integer | real | boolean => cases hty
    exact binary_yields hp hc.getElem? (fun _ => rfl) hs rfl hfit
  · have hmach := Connective.apply_machine h hcat
    have hcode : c.code (some l.ty) =
        .binary c.machineOp :: if c.isOpposite then [.not] else [] := by
      rw [Connective.code, if_neg (by simpa using hcat), Connective.operator_code]
    rw [hcode] at hc ⊢
    cases ho : c.isOpposite with
    | false =>
      rw [Connective.finish, ho] at hmach
      exact binary_yields hp hc.getElem? (fun _ => rfl) hs hmach hfit
    | true =>
      rw [ho] at hc
      exact opposite_yields hp hc ho hs (Connective.apply_machine h hcat) hfit

end

section
variable {p : Loaded} {names : Names} {σ : Memory} {e : Expr} {t : Ty}

theorem signed_yields (hp : p.maxSteps = none) {m : Machine} {rest : List Value} {v : Value}
    (minus : Bool) (hc : Placed p.code m.pc (if minus then [.neg] else []))
    (hs : m.stack = v :: rest) (ht : v.ty.isNumeric) :
    Yields p m (if minus then [Instr.neg] else []).length rest v.ty (v.signed minus) := by
  cases minus with
  | false =>
    cases v with
    | integer | real => exact Yields.of_stack hs rfl
    | string | boolean => cases ht
  | true =>
    cases v with
    | integer n =>
      exact unary_yields hp hc.getElem? (fun _ => rfl) hs
        (congrArg Except.ok Value.wrapped_neg.symm) rfl
    | real x => exact unary_yields hp hc.getElem? (fun _ => rfl) hs rfl rfl
    | string | boolean => cases ht

/-- The code of an expression with a type gets its value, of that type. -/
theorem expr_yields (hp : p.maxSteps = none) (hty : e.HasType names t) {m : Machine}
    (hc : Placed p.code m.pc (e.code names)) (hm : Holds names m.slots σ) :
    Yields p m (e.code names).length m.stack t (e.eval σ) := by
  induction hty generalizing m with
  | @var x t s hx =>
    obtain ⟨v, hslot, hv, hty⟩ := hm.var hx
    have hcode : (Expr.name x).code names = [.load s] := by simp [Expr.code, hx, Entry.code]
    have heval : (Expr.name x).eval σ = .ok v := by simp [Expr.eval, Memory.read, hv]
    rw [hcode] at hc ⊢
    rw [heval]
    refine push_yields hp hc.getElem? ?_ hty
    simp [exec, hslot, after]
  | @named x v hx =>
    obtain ⟨hnone, hb⟩ := hm.constant hx
    have hcode : (Expr.name x).code names = [.push v] := by simp [Expr.code, hx, Entry.code]
    have heval : (Expr.name x).eval σ = .ok v := by simp [Expr.eval, Memory.read, hnone, hb]
    rw [hcode] at hc ⊢
    rw [heval]
    exact push_yields hp hc.getElem? rfl rfl
  | constant v => exact push_yields hp hc.getElem? rfl rfl
  | @signed e t minus he ht ih =>
    rw [Expr.code] at hc ⊢
    rw [List.length_append]
    refine (ih hc.left hm).bind fun v hv _ => ?_
    subst hv
    exact signed_yields hp minus hc.right rfl ht
  | @not e he ih =>
    rw [Expr.code] at hc ⊢
    rw [List.length_append]
    refine (ih hc.left hm).bind fun v hv _ => ?_
    obtain ⟨b, rfl⟩ := Value.exists_of_ty_boolean hv
    exact unary_yields hp hc.right.getElem? (fun _ => rfl) rfl rfl rfl
  | @binary c l r a b t hl hr hcon ihl ihr =>
    rw [Expr.code, Expr.type?_of_hasType hl] at hc ⊢
    rw [List.length_append, List.length_append, Nat.add_assoc]
    rw [List.append_assoc] at hc
    refine (ihl hc.left hm).bind fun v hv _ => ?_
    have hc₁ : Placed p.code (m.after (l.code names).length (v :: m.stack)).pc (r.code names) :=
      hc.right.left
    refine (ihr hc₁ hm).bind fun w hw _ => ?_
    subst hv hw
    exact connective_yields hp hc.right.right rfl hcon

end
end Machine
end MiniPascal
