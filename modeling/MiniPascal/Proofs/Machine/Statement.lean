import MiniPascal.Proofs.Machine.Expression

/-! The code of a statement follows its execution: it comes to its end, divides by zero, or goes on
for as long as there is fuel, whenever the execution does. -/
namespace MiniPascal

/-- The names of one key are one, variables have slots and types of their own. -/
structure Consistent (names : Names) (types : String → Option Ty) : Prop where
  key : ∀ {x y}, Scope.key x = Scope.key y → names x = names y
  apart : ∀ {x y t u s s'}, names x = some (.var t s) → names y = some (.var u s') →
    s.index.toNat = s'.index.toNat → Scope.key x = Scope.key y
  type : ∀ {x t s}, names x = some (.var t s) → types (Scope.key x) = some t

/-- Every label in the code leads to where it stands. -/
def Resolved (p : Loaded) : Prop :=
  ∀ n l, p.code[n]? = some (.label l) → p.targets.lookup l = some n

/-- A new value in the slot of a variable. -/
theorem Holds.set {names : Names} {types : String → Option Ty} {slots : Array Value} {σ : Memory}
    {x : String} {t : Ty} {s : Slot} {v : Value} (h : Holds names slots σ)
    (hc : Consistent names types) (hx : names x = some (.var t s)) (hv : v.ty = t) :
    Holds names (slots.setIfInBounds s.index.toNat v) (σ.set (Scope.key x) v) := by
  obtain ⟨w, hw, -⟩ := h.var hx
  have hs : s.index.toNat < slots.size := (Array.getElem?_eq_some_iff.1 hw).choose
  constructor
  · intro y u s' hy
    by_cases hk : Scope.key y = Scope.key x
    · have heq := hc.key hk
      rw [hx, hy] at heq
      cases heq
      exact ⟨v, by simp [hs], by simp [Memory.set, hk], hv⟩
    · have hne : s.index.toNat ≠ s'.index.toNat := fun he => hk (hc.apart hx hy he).symm
      obtain ⟨w', hw', hσ, hty⟩ := h.var hy
      refine ⟨w', ?_, by simp [Memory.set, hk, hσ], hty⟩
      rw [Array.getElem?_setIfInBounds_ne hne, hw']
  · intro y w' hy
    have hk : Scope.key y ≠ Scope.key x := by
      intro hk
      have heq := hc.key hk
      rw [hx, hy] at heq
      cases heq
    simpa [Memory.set, hk] using h.constant hy

namespace Machine

/-- The machine, between two statements, is where the execution is. -/
structure Matches (names : Names) (m : Machine) (q : Progress) : Prop where
  stack : m.stack = []
  holds : Holds names m.slots q.memory
  output : m.output.bytes = q.output
  room : m.output.room = none

/-- The machine at another instruction. -/
def goto (m : Machine) (n : Nat) : Machine := { m with pc := n }

/-- The run goes the way of the execution. If that has run out of fuel, the run still goes on after
as many steps. -/
def Follows (p : Loaded) (names : Names) (m : Machine) (stop fuel : Nat) : Outcome → Prop
  | .done q => ∃ k m', m.advance p k = .running m' ∧ m'.pc = stop ∧ Matches names m' q
  | .aborted o => m.Divides p o
  | .illTyped => False
  | .outOfFuel => ∃ k m', fuel ≤ k ∧ m.advance p k = .running m'

section
variable {p : Loaded} {names : Names} {m m₁ : Machine} {q : Progress}
  {stop stop' fuel fuel' k : Nat}
  {o : Outcome} {l : Label} {rest : List Value}

theorem Follows.mono (h : Follows p names m stop fuel o) (hf : fuel' ≤ fuel) :
    Follows p names m stop fuel' o := by
  cases o with
  | done | aborted | illTyped => exact h
  | outOfFuel =>
    obtain ⟨k, m', hk, hr⟩ := h
    exact ⟨k, m', by omega, hr⟩

theorem Follows.of_advance (hr : m.advance p k = .running m₁)
    (h : Follows p names m₁ stop fuel o) : Follows p names m stop (fuel + k) o := by
  cases o with
  | done q =>
    obtain ⟨k', m', hr', hpc, hm⟩ := h
    exact ⟨k + k', m', advance_trans hr hr', hpc, hm⟩
  | aborted out => exact Divides.of_advance hr h
  | illTyped => exact h
  | outOfFuel =>
    obtain ⟨k', m', hk, hr'⟩ := h
    exact ⟨k + k', m', by omega, advance_trans hr hr'⟩

theorem Follows.andThen {f : Progress → Outcome} (h : Follows p names m stop fuel o)
    (hf : ∀ m' q, m'.pc = stop → Matches names m' q → Follows p names m' stop' fuel (f q)) :
    Follows p names m stop' fuel (o.andThen f) := by
  cases o with
  | done q =>
    obtain ⟨k, m', hr, hpc, hm⟩ := h
    exact (Follows.of_advance hr (hf m' q hpc hm)).mono (by omega)
  | aborted | illTyped | outOfFuel => exact h

/-- Where the execution comes to its end the run may go on to another place. -/
theorem Follows.trans (h : Follows p names m stop fuel o)
    (hr : ∀ m' q, m'.pc = stop → Matches names m' q →
      ∃ k m'', m'.advance p k = .running m'' ∧ m''.pc = stop' ∧ Matches names m'' q) :
    Follows p names m stop' fuel o := by
  cases o with
  | done q =>
    obtain ⟨k, m', hk, hpc, hm⟩ := h
    obtain ⟨k', m'', hk', hpc', hm'⟩ := hr m' q hpc hm
    exact ⟨k + k', m'', advance_trans hk hk', hpc', hm'⟩
  | aborted | illTyped | outOfFuel => exact h

theorem Follows.use {n : Nat} {t : Ty} {r : Evaluated} {f : Value → Outcome}
    (h : Yields p m n m.stack t r) (hm : Matches names m q)
    (hf : ∀ v, v.ty = t → r = .ok v → Follows p names (m.after n [v]) stop fuel (f v)) :
    Follows p names m stop fuel (q.use r f) := by
  rw [hm.stack] at h
  cases r with
  | ok v => exact (Follows.of_advance h.2 (hf v h.1 rfl)).mono (by omega)
  | error e =>
    cases e with
    | divisionByZero =>
      rw [Progress.use, ← hm.output]
      exact h
    | illTyped => exact h.elim

theorem label_step (hp : p.maxSteps = none) (hi : p.code[m.pc]? = some (.label l)) :
    m.advance p 1 = .running (m.after 1 m.stack) := advance_one hp hi

theorem jump_step (hp : p.maxSteps = none) (hi : p.code[m.pc]? = some (.jump l))
    (hl : p.targets.lookup l = some k) :
    m.advance p 1 = .running ((m.after 1 m.stack).goto k) := by
  rw [advance_one hp hi]
  simp [exec, jump, hl, goto]

theorem jumpIfFalse_step (hp : p.maxSteps = none) (hi : p.code[m.pc]? = some (.jumpIfFalse l))
    (hl : p.targets.lookup l = some k) {b : Bool} (hs : m.stack = .boolean b :: rest) :
    m.advance p 1 = .running (if b then m.after 1 rest else (m.after 1 rest).goto k) := by
  rw [advance_one hp hi]
  cases b <;> simp [exec, hs, jump, hl, after, goto]

theorem Matches.after (h : Matches names m q) (n : Nat) : Matches names (m.after n []) q :=
  ⟨rfl, h.holds, h.output, h.room⟩

theorem Matches.goto (h : Matches names m q) (n : Nat) : Matches names (m.goto n) q :=
  ⟨h.stack, h.holds, h.output, h.room⟩

end

section
variable {p : Loaded} {names : Names} {types : String → Option Ty} {m : Machine} {q : Progress}
  {stop fuel : Nat} {e c : Expr} {rest : List Value} {v : Value} {t u : Ty} {s : Slot}

/-- Widening is what a conversion does where the types differ. -/
theorem converted_ty (h : v.ty.fits t) : (v.converted t).ty = t := by
  cases v <;> cases t <;> first | rfl | cases h

theorem converted_of_not_widened (h : ¬ (v.ty = .integer ∧ t = .real)) : v.converted t = v := by
  cases v <;> cases t <;> first | rfl | exact absurd ⟨rfl, rfl⟩ h

theorem store_step (hp : p.maxSteps = none) (hi : p.code[m.pc]? = some (.store s))
    (hs : m.stack = v :: rest) (hslot : s.index.toNat < m.slots.size) :
    m.advance p 1 = .running
      { m.after 1 rest with slots := m.slots.setIfInBounds s.index.toNat v } := by
  rw [advance_one hp hi]
  simp [exec, hs, hslot, after]

/-- The value on the stack goes into the slot, as the type of the variable has it. -/
theorem storeCode_runs (hp : p.maxSteps = none) (hc : Placed p.code m.pc (storeCode v.ty t s))
    (hs : m.stack = v :: rest) (hslot : s.index.toNat < m.slots.size) :
    ∃ k, m.advance p k = .running
      { m.after (storeCode v.ty t s).length rest with
        slots := m.slots.setIfInBounds s.index.toNat (v.converted t), steps := m.steps + k } := by
  by_cases hw : v.ty = .integer ∧ t = .real
  · obtain ⟨hv, rfl⟩ := hw
    obtain ⟨n, rfl⟩ := Value.exists_of_ty_integer hv
    have hwiden : Yields p m 1 rest .real (.ok (.real (Float.ofInt n.toInt))) :=
      unary_yields hp hc.getElem? (fun _ => rfl) hs rfl rfl
    exact ⟨2, advance_trans hwiden.2 (store_step hp hc.tail.getElem? rfl hslot)⟩
  · rw [storeCode, if_neg hw] at hc ⊢
    rw [converted_of_not_widened hw]
    exact ⟨1, store_step hp hc.getElem? hs hslot⟩

theorem assign_follows {x : String} (hp : p.maxSteps = none) (hn : Consistent names types)
    (hty : (Stmt.assign x e).WellTyped names) (hc : Placed p.code m.pc (assignCode names x e))
    (hm : Matches names m q) :
    Follows p names m (m.pc + (assignCode names x e).length) fuel
      ((Stmt.assign x e).exec types fuel q) := by
  obtain ⟨t, s, u, hx, he, hfits⟩ := hty
  have hcode : assignCode names x e = e.code names ++ storeCode u t s := by
    simp [assignCode, hx, Expr.type?_of_hasType he]
  rw [hcode] at hc ⊢
  rw [Stmt.exec]
  refine Follows.use (expr_yields hp he hc.left hm.holds) hm fun v hv _ => ?_
  subst hv
  obtain ⟨w, hw, -⟩ := hm.holds.var hx
  have hslot : s.index.toNat < m.slots.size := (Array.getElem?_eq_some_iff.1 hw).choose
  obtain ⟨k, hk⟩ := storeCode_runs hp (m := m.after (e.code names).length [v]) hc.right rfl hslot
  rw [hn.type hx]
  refine ⟨k, _, hk, ?_, rfl, ?_, hm.output, hm.room⟩
  · simp [after, Nat.add_assoc]
  · exact hm.holds.set hn hx (converted_ty hfits)

/-- The machine after it has printed a value. -/
def printing (m : Machine) (v : Value) : Machine :=
  { m.after 1 [] with output := ⟨m.output.bytes ++ (v.printed ++ "\n").toUTF8, none⟩ }

theorem print_step (hp : p.maxSteps = none) (hi : p.code[m.pc]? = some (.print v.ty))
    (hs : m.stack = [v]) (hroom : m.output.room = none) :
    m.advance p 1 = .running (m.printing v) := by
  rw [advance_one hp hi]
  simp [exec, hs, after, printing, Sink.write, hroom]

theorem matches_printing (hm : Matches names m q) {n : Nat} :
    Matches names ((m.after n [v]).printing v) (q.print v) :=
  ⟨rfl, hm.holds, congrArg (· ++ (v.printed ++ "\n").toUTF8) hm.output, rfl⟩

theorem write_follows {es : List Expr} (hp : p.maxSteps = none)
    (hty : ∀ e ∈ es, ∃ t, e.HasType names t)
    (hc : Placed p.code m.pc (es.flatMap (·.printCode names))) (hm : Matches names m q) :
    Follows p names m (m.pc + (es.flatMap (·.printCode names)).length) fuel (printAll es q) := by
  induction es generalizing m q with
  | nil => exact ⟨0, m, rfl, rfl, hm⟩
  | cons e es ih =>
    obtain ⟨t, he⟩ := hty e (by simp)
    have hcode : (e :: es).flatMap (·.printCode names) =
        e.code names ++ .print t :: es.flatMap (·.printCode names) := by
      simp [Expr.printCode, Expr.type?_of_hasType he]
    rw [hcode] at hc ⊢
    rw [printAll]
    refine Follows.use (expr_yields hp he hc.left hm.holds) hm fun v hv _ => ?_
    subst hv
    have hprint : (m.after (e.code names).length [v]).advance p 1 =
        .running ((m.after (e.code names).length [v]).printing v) :=
      print_step hp hc.right.getElem? rfl hm.room
    have hrest := @ih _ _ (fun e he => hty e (by simp [he])) hc.right.tail
      (matches_printing hm (v := v) (n := (e.code names).length))
    have hstop : m.pc + (e.code names ++ .print v.ty :: es.flatMap (·.printCode names)).length =
        m.pc + (e.code names).length + 1 + (es.flatMap (·.printCode names)).length := by
      simp only [List.length_append, List.length_cons]
      omega
    rw [hstop]
    exact (Follows.of_advance hprint hrest).mono (Nat.le_succ fuel)

/-- A condition goes on behind its jump if it holds, and where the jump leads if not. -/
theorem test_follows {l : Label} {k : Nat} {f : Bool → Outcome} (hp : p.maxSteps = none)
    (hty : c.HasType names .boolean) (hc : Placed p.code m.pc (c.code names ++ [.jumpIfFalse l]))
    (hl : p.targets.lookup l = some k) (hm : Matches names m q)
    (htrue : ∀ m', m'.pc = m.pc + (c.code names).length + 1 → Matches names m' q →
      Follows p names m' stop fuel (f true))
    (hfalse : ∀ m', m'.pc = k → Matches names m' q → Follows p names m' stop fuel (f false)) :
    Follows p names m stop fuel (q.use (c.truth q.memory) f) := by
  have hy := expr_yields hp hty hc.left hm.holds
  rw [hm.stack] at hy
  rw [Expr.truth]
  cases he : c.eval q.memory with
  | error e =>
    rw [he] at hy
    cases e with
    | divisionByZero =>
      have hd : Follows p names m stop fuel (.aborted m.output.bytes) := hy
      rwa [hm.output] at hd
    | illTyped => exact hy.elim
  | ok v =>
    rw [he] at hy
    obtain ⟨hv, hr⟩ := hy
    obtain ⟨b, rfl⟩ := Value.exists_of_ty_boolean hv
    have hjump := jumpIfFalse_step (m := m.after (c.code names).length [.boolean b]) hp
      hc.right.getElem? hl rfl
    have hrun := advance_trans hr hjump
    have hnext : Follows p names
        (if b then (m.after (c.code names).length [.boolean b]).after 1 []
          else ((m.after (c.code names).length [.boolean b]).after 1 []).goto k)
        stop fuel (f b) := by
      cases b with
      | true => exact htrue _ rfl ((hm.after _).after 1)
      | false => exact hfalse _ rfl (((hm.after _).after 1).goto k)
    exact (Follows.of_advance hrun hnext).mono (Nat.le_add_right _ _)

end

section
variable {p : Loaded} {names : Names} {types : String → Option Ty} {m : Machine} {q : Progress}
  {n fuel count : Nat} {c : Expr} {body otherwise : List Instr} {o o' : Outcome} {l : Label}

/-- Over a mark the run goes on. -/
theorem pass_label (hp : p.maxSteps = none) (hi : p.code[m.pc]? = some (.label l))
    (hm : Matches names m q) :
    ∃ m', m.advance p 1 = .running m' ∧ m'.pc = m.pc + 1 ∧ Matches names m' q := by
  refine ⟨_, label_step hp hi, rfl, ?_⟩
  rw [hm.stack]
  exact hm.after 1

theorem pass_jump {k : Nat} (hp : p.maxSteps = none) (hi : p.code[m.pc]? = some (.jump l))
    (hl : p.targets.lookup l = some k) (hm : Matches names m q) :
    ∃ m', m.advance p 1 = .running m' ∧ m'.pc = k ∧ Matches names m' q := by
  refine ⟨_, jump_step hp hi hl, rfl, ?_⟩
  rw [hm.stack]
  exact (hm.after 1).goto k

theorem choice_follows (hp : p.maxSteps = none) (hres : Resolved p)
    (hty : c.HasType names .boolean)
    (hc : Placed p.code m.pc (Stmt.choiceCode n (c.code names) body otherwise))
    (hm : Matches names m q)
    (hbody : ∀ m', Placed p.code m'.pc body → Matches names m' q →
      Follows p names m' (m'.pc + body.length) fuel o)
    (hother : ∀ m', Placed p.code m'.pc otherwise → Matches names m' q →
      Follows p names m' (m'.pc + otherwise.length) fuel o') :
    Follows p names m (m.pc + (Stmt.choiceCode n (c.code names) body otherwise).length) fuel
      (q.use (c.truth q.memory) fun b => if b then o else o') := by
  have hcond : Placed p.code m.pc (c.code names ++ [.jumpIfFalse (labelOf n)]) := by
    rw [Stmt.choiceCode, ← List.singleton_append, ← List.append_assoc] at hc
    exact hc.left
  have hb := hc.right.tail
  have hjump := hb.right
  have ho := hjump.tail.tail
  have hend := ho.right
  have hother_target := hres _ _ hjump.tail.getElem?
  have hend_target := hres _ _ hend.getElem?
  have hstop : m.pc + (Stmt.choiceCode n (c.code names) body otherwise).length =
      m.pc + (c.code names).length + 1 + body.length + 1 + 1 + otherwise.length + 1 := by
    simp only [Stmt.choiceCode, List.length_append, List.length_cons, List.length_nil]
    omega
  rw [hstop]
  refine test_follows hp hty hcond hother_target hm (fun m₁ hpc hm₁ => ?_) fun m₁ hpc hm₁ => ?_
  · refine (hbody m₁ (hpc ▸ hb.left) hm₁).trans fun m₂ q₂ hpc₂ hm₂ => ?_
    rw [hpc] at hpc₂
    obtain ⟨m₃, hr₃, hpc₃, hm₃⟩ := pass_jump hp (hpc₂ ▸ hjump.getElem?) hend_target hm₂
    obtain ⟨m₄, hr₄, hpc₄, hm₄⟩ := pass_label hp (hpc₃ ▸ hend.getElem?) hm₃
    exact ⟨_, m₄, advance_trans hr₃ hr₄, hpc₄.trans (congrArg (· + 1) hpc₃), hm₄⟩
  · obtain ⟨m₂, hr₂, hpc₂, hm₂⟩ := pass_label hp (hpc ▸ hjump.tail.getElem?) hm₁
    rw [hpc] at hpc₂
    have hrest := (hother m₂ (hpc₂ ▸ ho.left) hm₂).trans fun m₃ q₃ hpc₃ hm₃ => by
      rw [hpc₂] at hpc₃
      obtain ⟨m₄, hr₄, hpc₄, hm₄⟩ := pass_label hp (hpc₃ ▸ hend.getElem?) hm₃
      exact ⟨_, m₄, hr₄, hpc₄.trans (congrArg (· + 1) hpc₃), hm₄⟩
    exact (Follows.of_advance hr₂ hrest).mono (Nat.le_succ fuel)

/-- Each round of a loop takes a step at least, so the run outlasts the fuel. -/
theorem loop_follows {start : Nat} {f : Progress → Outcome} (hp : p.maxSteps = none)
    (hres : Resolved p) (hty : c.HasType names .boolean)
    (hc : Placed p.code start (Stmt.loopCode n (c.code names) body))
    (hbody : ∀ m' q', Placed p.code m'.pc body → Matches names m' q' →
      Follows p names m' (m'.pc + body.length) fuel (f q'))
    (hcount : count ≤ fuel) (hpc : m.pc = start) (hm : Matches names m q) :
    Follows p names m (start + (Stmt.loopCode n (c.code names) body).length) count
      (repeatWhile c f count q) := by
  have hcond : Placed p.code (start + 1) (c.code names ++ [.jumpIfFalse (labelOf (n + 1))]) := by
    have htail := hc.tail
    rw [← List.singleton_append, ← List.append_assoc] at htail
    exact htail.left
  have hb := hc.tail.right.tail
  have hjump := hb.right
  have hstart_target := hres _ _ hc.getElem?
  have hend_target := hres _ _ hjump.tail.getElem?
  have hstop : start + (Stmt.loopCode n (c.code names) body).length =
      start + 1 + (c.code names).length + 1 + body.length + 1 + 1 := by
    simp only [Stmt.loopCode, List.length_append, List.length_cons, List.length_nil]
    omega
  rw [hstop]
  induction count generalizing m q with
  | zero => exact ⟨0, m, Nat.le_refl 0, rfl⟩
  | succ count ih =>
    obtain ⟨m₁, hr₁, hpc₁, hm₁⟩ := pass_label hp (hpc ▸ hc.getElem?) hm
    rw [hpc] at hpc₁
    refine Follows.of_advance hr₁ ?_
    refine test_follows hp hty (hpc₁ ▸ hcond) hend_target hm₁ (fun m₂ hpc₂ hm₂ => ?_)
      fun m₂ hpc₂ hm₂ => ?_
    · rw [hpc₁] at hpc₂
      have hround := (hbody m₂ q (hpc₂ ▸ hb.left) hm₂).trans fun m₃ q₃ hpc₃ hm₃ => by
        rw [hpc₂] at hpc₃
        obtain ⟨m₄, hr₄, hpc₄, hm₄⟩ := pass_jump hp (hpc₃ ▸ hjump.getElem?) hstart_target hm₃
        exact ⟨_, m₄, hr₄, hpc₄, hm₄⟩
      exact (hround.mono (by omega)).andThen fun m₃ q₃ hpc₃ hm₃ => ih (by omega) hpc₃ hm₃
    · obtain ⟨m₃, hr₃, hpc₃, hm₃⟩ := pass_label hp (hpc₂ ▸ hjump.tail.getElem?) hm₂
      exact ⟨_, m₃, hr₃, hpc₃.trans (congrArg (· + 1) hpc₂), hm₃⟩

/-- The code of a statement in order follows its execution. -/
theorem stmt_follows (hp : p.maxSteps = none) (hres : Resolved p) (hn : Consistent names types)
    {st : Stmt} (hty : st.WellTyped names) (hc : Placed p.code m.pc (st.code names n))
    (hm : Matches names m q) :
    Follows p names m (m.pc + (st.code names n).length) fuel (st.exec types fuel q) := by
  induction st generalizing m q n with
  | skip => exact ⟨0, m, rfl, rfl, hm⟩
  | assign x e => exact assign_follows hp hn hty hc hm
  | write es => exact write_follows hp hty hc hm
  | seq a b iha ihb =>
    rw [Stmt.code] at hc ⊢
    rw [Stmt.exec, List.length_append, ← Nat.add_assoc]
    refine (iha hty.1 hc.left hm).andThen fun m₁ q₁ hpc hm₁ => ?_
    rw [← hpc]
    exact ihb hty.2 (hpc ▸ hc.right) hm₁
  | ifThen c a ih =>
    exact choice_follows hp hres hty.1 hc hm (fun m' hb hm' => ih hty.2 hb hm')
      fun m' _ hm' => ⟨0, m', rfl, rfl, hm'⟩
  | ifElse c a b iha ihb =>
    exact choice_follows hp hres hty.1 hc hm (fun m' hb hm' => iha hty.2.1 hb hm')
      fun m' hb hm' => ihb hty.2.2 hb hm'
  | loop c a ih =>
    exact loop_follows hp hres hty.1 hc (fun m' q' hb hm' => ih hty.2 hb hm') (Nat.le_refl _) rfl hm

end
end Machine
end MiniPascal
