import MiniPascal.Proofs.Reading.Production
import MiniPascal.Proofs.Tree.Translation

/-! The productions of expressions against the trees they read. What is read is spelled by the
tokens that were passed, has the type that was answered, and its code is what was emitted. -/
namespace MiniPascal.Grammar

section
variable {k : TokenKind} {c : Connective} {op : Operator} {a b t : Ty} {s : State} {start : Nat}

theorem multiplicative?_symbol (hc : c.rank = .multiplying) :
    multiplicative? (.symbol c.symbol) = some (c.operator, c.dividesIntegers) := by
  cases c <;> first | rfl | cases hc

theorem multiplicative?_eq_some {w : Operator × Bool} (h : multiplicative? k = some w) :
    ∃ c : Connective, c.rank = .multiplying ∧ k = .symbol c.symbol ∧
      w = (c.operator, c.dividesIntegers) := by
  unfold multiplicative? at h
  split at h
  · exact ⟨.times, rfl, rfl, (Option.some.inj h).symm⟩
  · exact ⟨.slash, rfl, rfl, (Option.some.inj h).symm⟩
  · exact ⟨.div, rfl, rfl, (Option.some.inj h).symm⟩
  · exact ⟨.mod, rfl, rfl, (Option.some.inj h).symm⟩
  · exact ⟨.and, rfl, rfl, (Option.some.inj h).symm⟩
  · cases h

theorem additive?_symbol (hc : c.rank = .adding) :
    additive? (.symbol c.symbol) = some c.operator := by
  cases c <;> first | rfl | cases hc

theorem additive?_eq_some (h : additive? k = some op) :
    ∃ c : Connective, c.rank = .adding ∧ k = .symbol c.symbol ∧ op = c.operator := by
  unfold additive? at h
  split at h
  · exact ⟨.plus, rfl, rfl, (Option.some.inj h).symm⟩
  · exact ⟨.minus, rfl, rfl, (Option.some.inj h).symm⟩
  · exact ⟨.or, rfl, rfl, (Option.some.inj h).symm⟩
  · cases h

theorem comparison?_symbol (hc : c.rank = .comparing) :
    comparison? (.symbol c.symbol) = some c.operator := by
  cases c <;> first | rfl | cases hc

theorem comparison?_eq_some (h : comparison? k = some op) :
    ∃ c : Connective, c.rank = .comparing ∧ k = .symbol c.symbol ∧ op = c.operator := by
  unfold comparison? at h
  split at h
  · exact ⟨.equal, rfl, rfl, (Option.some.inj h).symm⟩
  · exact ⟨.notEqual, rfl, rfl, (Option.some.inj h).symm⟩
  · exact ⟨.less, rfl, rfl, (Option.some.inj h).symm⟩
  · exact ⟨.lessOrEqual, rfl, rfl, (Option.some.inj h).symm⟩
  · exact ⟨.greater, rfl, rfl, (Option.some.inj h).symm⟩
  · exact ⟨.greaterOrEqual, rfl, rfl, (Option.some.inj h).symm⟩
  · cases h

theorem sign?_signSymbol (minus : Bool) : sign? (.symbol (signSymbol minus)) = some minus := by
  cases minus <;> rfl

theorem sign?_eq_some {minus : Bool} (h : sign? k = some minus) :
    k = .symbol (signSymbol minus) := by
  unfold sign? at h
  split at h <;> cases h <;> rfl

/-- An operator between factors emits its code if its operands fit, and is rejected if not. -/
theorem multiply_apply (hc : c.rank = .multiplying) :
    multiply start (c.operator, c.dividesIntegers) a b s =
      match c.type? a b with
      | some t => .ok t (s.after 0 (c.code (some a)) 0)
      | none =>
        .error (.rejected ⟨.operandTypes c.operator a b, ⟨start, s.lastStop - start⟩⟩) s := by
  cases c <;> simp only [Connective.rank, reduceCtorEq] at hc <;> cases a <;> cases b <;>
    simp [multiply, bind_apply, map_apply, Connective.operator, Connective.dividesIntegers,
      Ty.isNumeric, join, Ty.join?, Ty.fits, Connective.type?, Ty.wider, Connective.code]

/-- An operator between terms emits its code if its operands fit, and is rejected if not. -/
theorem add_apply (hc : c.rank = .adding) :
    add start c.operator a b s =
      match c.type? a b with
      | some t => .ok t (s.after 0 (c.code (some a)) 0)
      | none =>
        .error (.rejected ⟨.operandTypes c.operator a b, ⟨start, s.lastStop - start⟩⟩) s := by
  cases c <;> simp only [Connective.rank, reduceCtorEq] at hc <;> cases a <;> cases b <;>
    simp [add, bind_apply, Connective.operator, Ty.isNumeric, join, Ty.join?, Ty.fits,
      Connective.type?, Ty.wider, Connective.code]

theorem comparable_eq (hc : c.rank = .comparing) :
    comparable c.operator a b = (c.type? a b == some .boolean) := by
  cases c <;> simp only [Connective.rank, reduceCtorEq] at hc <;> cases a <;> cases b <;> rfl

theorem code_comparing (hc : c.rank = .comparing) (t : Option Ty) :
    c.code t = c.operator.code := by
  cases c <;> first | rfl | simp [Connective.rank] at hc

theorem type?_comparing (hc : c.rank = .comparing) (ht : c.type? a b = some t) : t = .boolean := by
  cases c <;> simp only [Connective.rank, reduceCtorEq] at hc <;> cases a <;> cases b <;>
    simp_all [Connective.type?, Ty.isNumeric]

end

/-! What is read is an expression. -/

/-- Between two states an expression of the level was read, whose type is `t`. -/
structure Reads (level : Level) (ts : List TokenKind) (e : Expr) (s : State) (t : Ty)
    (s' : State) : Prop where
  spells : e.Spells level ts
  kinds : s.kinds = ts ++ s'.kinds
  type : e.type? s.names = some t
  state : s' = s.after ts.length (e.code s.names) 0

/-- Whatever the production passes is an expression of the level. -/
def ReadsOnly (level : Level) (p : Production Ty) : Prop :=
  ∀ s t s', s.Ended → p s = .ok t s' → ∃ ts e, Reads level ts e s t s'

section
variable {level : Level} {ts : List TokenKind} {e : Expr} {s s₁ s₂ s' : State} {t u : Ty}

theorem Reads.raise {level' : Level} (h : Reads level ts e s t s')
    (hs : e.Spells level ts → e.Spells level' ts) : Reads level' ts e s t s' :=
  { h with spells := hs h.spells }

theorem Reads.ended (h : Reads level ts e s t s') (hs : s.Ended) : s'.Ended :=
  hs.of_append h.kinds

theorem Reads.names (h : Reads level ts e s t s') : s'.names = s.names := by
  rw [h.state, State.names_after]

/-- Two operands and the operator between them make an expression. -/
theorem Reads.binary {c : Connective} {left right : Level} {us : List TokenKind} {l r : Expr}
    {a b : Ty} (hs : s.Ended) (hl : Reads left ts l s a s₁)
    (hk : s₁.current.kind = .symbol c.symbol) (hr : Reads right us r s₁.advance b s₂)
    (hc : c.type? a b = some t)
    (hsp : (Expr.binary c l r).Spells level (ts ++ .symbol c.symbol :: us)) :
    Reads level (ts ++ .symbol c.symbol :: us) (.binary c l r) s t
      (s₂.after 0 (c.code (some a)) 0) := by
  have hn : s₁.advance.names = s.names := by
    rw [← hl.names, State.names, State.scopes_advance, State.names]
  have ht : r.type? s.names = some b := hn ▸ hr.type
  constructor
  · exact hsp
  · rw [hl.kinds, (hl.ended hs).kinds_eq (by simp [hk]), hk, hr.kinds]
    simp [State.kinds, State.after]
  · simp [Expr.type?, hl.type, ht, hc]
  · have hlen : ts.length + 1 + us.length = (ts ++ .symbol c.symbol :: us).length := by
      simp only [List.length_append, List.length_cons]
      omega
    rw [hr.state, hn, ← State.after_one, hl.state, ← hlen]
    simp [State.after_after, Expr.code, hl.type]

/-- What every step of a chain keeps, the chain keeps. -/
theorem chain_keeps {ω : Type} {operator? : TokenKind → Option ω} {operand : Production Ty}
    {combine : ω → Ty → Ty → Production Ty} {P : Ty → State → Prop}
    (hstep : ∀ a s op b s₁ t s₂, P a s → operator? s.current.kind = some op →
      operand s.advance = .ok b s₁ → combine op a b s₁ = .ok t s₂ → P t s₂)
    {bound : Nat} (hp : P t s) (h : chain operator? operand combine bound t s = .ok u s') :
    P u s' := by
  induction bound generalizing t s with
  | zero =>
    cases h
    exact hp
  | succ bound ih =>
    simp only [chain, bind_apply, kind_apply] at h
    cases ho : operator? s.current.kind with
    | none =>
      rw [ho] at h
      cases h
      exact hp
    | some op =>
      rw [ho] at h
      simp only [bind_apply, advance_apply] at h
      cases hb : operand s.advance with
      | error e s₁ => simp [hb] at h
      | ok b s₁ =>
        simp only [hb] at h
        cases hc : combine op t b s₁ with
        | error e s₂ => simp [hc] at h
        | ok v s₂ =>
          simp only [hc] at h
          exact ih (hstep t s op b s₁ v s₂ hp ho hb hc) h

end

section
variable {bound : Nat} {p : Production Ty}

theorem term_apply (s : State) :
    term bound p s =
      (p >>= chain multiplicative? p (multiply s.current.span.offset) bound) s := by
  simp [term, bind_apply]

/-- One more factor behind a term and an operator makes a term. -/
theorem factor_joins {s s₁ s₂ s₃ : State} {a b t : Ty} {op : Operator × Bool} {start : Nat}
    (hp : ReadsOnly .factor p) (hs : s.Ended) (hl : ∃ us l, Reads .term us l s a s₁)
    (ho : multiplicative? s₁.current.kind = some op) (hb : p s₁.advance = .ok b s₂)
    (hc : multiply start op a b s₂ = .ok t s₃) : ∃ us r, Reads .term us r s t s₃ := by
  obtain ⟨us, l, hl⟩ := hl
  obtain ⟨c, hrank, hk, rfl⟩ := multiplicative?_eq_some ho
  have hs₁ : s₁.advance.Ended := (hl.ended hs).advance (by simp [hk])
  obtain ⟨vs, r, hr⟩ := hp _ _ _ hs₁ hb
  rw [multiply_apply hrank] at hc
  cases hu : c.type? a b with
  | none => simp [hu] at hc
  | some v =>
    simp only [hu, EStateM.Result.ok.injEq] at hc
    obtain ⟨rfl, rfl⟩ := hc
    exact ⟨_, _, hl.binary hs hk hr hu (.multiply hrank hl.spells hr.spells)⟩

/-- Factors with multiplying operators between them are a term. -/
theorem term_readsOnly (hp : ReadsOnly .factor p) : ReadsOnly .term (term bound p) := by
  intro s t s' hs h
  rw [term_apply, bind_eq_ok] at h
  obtain ⟨a, s₁, ha, h⟩ := h
  obtain ⟨ts, e, hr⟩ := hp s a s₁ hs ha
  exact chain_keeps (P := fun u s₂ => ∃ us r, Reads .term us r s u s₂)
    (fun _ _ _ _ _ _ _ => factor_joins hp hs) ⟨ts, e, hr.raise .ofFactor⟩ h

theorem sum_of_unsigned {s : State} (h : sign? s.current.kind = none) :
    sum bound p s =
      (term bound p >>= chain additive? (term bound p) (add s.current.span.offset) bound) s := by
  simp [sum, bind_apply, h]

theorem sum_of_signed {s : State} {minus : Bool} (h : sign? s.current.kind = some minus) :
    sum bound p s = match term bound p s.advance with
      | .ok t s' =>
        if t.isNumeric then
          chain additive? (term bound p) (add s.current.span.offset) bound t
            (s'.after 0 (if minus then [.neg] else []) 0)
        else .error (.rejected ⟨.signType t, ⟨s.current.span.offset,
          s'.lastStop - s.current.span.offset⟩⟩) s'
      | .error e s' => .error e s' := by
  simp only [sum, bind_apply, here_apply, kind_apply, h, Option.isSome_some, if_true,
    advance_apply]
  cases term bound p s.advance with
  | error e s' => rfl
  | ok t s' =>
    cases ht : t.isNumeric
    · simp [bind_apply, ht]
    · cases minus <;> simp [bind_apply, ht, State.after_zero]

/-- A number with a sign before it is a sum. -/
theorem signed_reads {s s₁ : State} {minus : Bool} {ts : List TokenKind} {e : Expr} {a : Ty}
    (hs : s.Ended) (hsign : sign? s.current.kind = some minus)
    (hr : Reads .term ts e s.advance a s₁) (ha : a.isNumeric) :
    Reads .sum (.symbol (signSymbol minus) :: ts) (.signed minus e) s a
      (s₁.after 0 (if minus then [.neg] else []) 0) := by
  have hk := sign?_eq_some hsign
  have hn : s.advance.names = s.names := by simp [State.names]
  constructor
  · exact .signed minus hr.spells
  · rw [hs.kinds_eq (by simp [hk]), hk, hr.kinds]
    rfl
  · simp [Expr.type?, ← hn, hr.type, ha]
  · rw [hr.state, hn, ← State.after_one]
    simp [State.after_after, Expr.code, Nat.add_comm]

/-- One more term behind a sum and an operator makes a sum. -/
theorem term_joins {s s₁ s₂ s₃ : State} {a b t : Ty} {op : Operator} {start : Nat}
    (hp : ReadsOnly .term p) (hs : s.Ended) (hl : ∃ us l, Reads .sum us l s a s₁)
    (ho : additive? s₁.current.kind = some op) (hb : p s₁.advance = .ok b s₂)
    (hc : add start op a b s₂ = .ok t s₃) : ∃ us r, Reads .sum us r s t s₃ := by
  obtain ⟨us, l, hl⟩ := hl
  obtain ⟨c, hrank, hk, rfl⟩ := additive?_eq_some ho
  have hs₁ : s₁.advance.Ended := (hl.ended hs).advance (by simp [hk])
  obtain ⟨vs, r, hr⟩ := hp _ _ _ hs₁ hb
  rw [add_apply hrank] at hc
  cases hu : c.type? a b with
  | none => simp [hu] at hc
  | some v =>
    simp only [hu, EStateM.Result.ok.injEq] at hc
    obtain ⟨rfl, rfl⟩ := hc
    exact ⟨_, _, hl.binary hs hk hr hu (.add hrank hl.spells hr.spells)⟩

/-- Terms with adding operators between them, and perhaps a sign before them, are a sum. -/
theorem sum_readsOnly (hp : ReadsOnly .factor p) : ReadsOnly .sum (sum bound p) := by
  intro s t s' hs h
  have hterm : ReadsOnly .term (term bound p) := term_readsOnly hp
  -- The first term, with its sign, is a sum; from there on the chain goes on.
  obtain ⟨a, s₁, hr, hchain⟩ : ∃ a s₁, (∃ ts e, Reads .sum ts e s a s₁) ∧
      chain additive? (term bound p) (add s.current.span.offset) bound a s₁ = .ok t s' := by
    cases hsign : sign? s.current.kind with
    | none =>
      rw [sum_of_unsigned hsign, bind_eq_ok] at h
      obtain ⟨a, s₁, ha, h⟩ := h
      obtain ⟨ts, e, hr⟩ := hterm s a s₁ hs ha
      exact ⟨a, s₁, ⟨ts, e, hr.raise .ofTerm⟩, h⟩
    | some minus =>
      have hk := sign?_eq_some hsign
      rw [sum_of_signed hsign] at h
      cases ha : term bound p s.advance with
      | error e s₁ => simp [ha] at h
      | ok a s₁ =>
        simp only [ha] at h
        split at h
        · next hnum =>
          obtain ⟨ts, e, hr⟩ := hterm _ a s₁ (hs.advance (by simp [hk])) ha
          exact ⟨a, _, ⟨_, _, signed_reads hs hsign hr hnum⟩, h⟩
        · cases h
  exact chain_keeps (P := fun u s₂ => ∃ us r, Reads .sum us r s u s₂)
    (fun _ _ _ _ _ _ _ => term_joins hterm hs) hr hchain

theorem comparison_apply (s : State) :
    comparison bound p s = match sum bound p s with
      | .error e s' => .error e s'
      | .ok a s' =>
        if s'.current.isSymbol .inWord then
          .error (.rejected ⟨.unsupported .setMembership, s'.current.span⟩) s'
        else match comparison? s'.current.kind with
          | none => .ok a s'
          | some op => match sum bound p s'.advance with
            | .error e s'' => .error e s''
            | .ok b s'' =>
              if comparable op a b then .ok .boolean (s''.after 0 op.code 0)
              else .error (.rejected ⟨.comparedTypes op a b, ⟨s.current.span.offset,
                s''.lastStop - s.current.span.offset⟩⟩) s'' := by
  simp only [comparison, bind_apply, here_apply]
  cases sum bound p s with
  | error e s' => rfl
  | ok a s' =>
    simp only [at?_apply]
    split
    · simp [bind_apply]
    · simp only [bind_apply, kind_apply]
      cases comparison? s'.current.kind with
      | none => rfl
      | some op =>
        simp only [bind_apply, advance_apply]
        cases sum bound p s'.advance with
        | error e s'' => rfl
        | ok b s'' =>
          dsimp only
          split <;> simp [bind_apply]

/-- A sum, or two with a comparing operator between them, is a comparison. -/
theorem comparison_readsOnly (hp : ReadsOnly .factor p) :
    ReadsOnly .comparison (comparison bound p) := by
  intro s t s' hs h
  have hsum : ReadsOnly .sum (sum bound p) := sum_readsOnly hp
  rw [comparison_apply] at h
  cases ha : sum bound p s with
  | error e s₁ => simp [ha] at h
  | ok a s₁ =>
    obtain ⟨ts, l, hl⟩ := hsum s a s₁ hs ha
    simp only [ha] at h
    split at h
    · cases h
    · split at h
      · cases h
        exact ⟨ts, l, hl.raise .ofSum⟩
      · next op ho =>
        obtain ⟨c, hrank, hk, rfl⟩ := comparison?_eq_some ho
        have hs₁ : s₁.advance.Ended := (hl.ended hs).advance (by simp [hk])
        cases hb : sum bound p s₁.advance with
        | error e s₂ => simp [hb] at h
        | ok b s₂ =>
          obtain ⟨us, r, hr⟩ := hsum _ b s₂ hs₁ hb
          simp only [hb] at h
          split at h
          · next hcomp =>
            rw [comparable_eq hrank, beq_iff_eq] at hcomp
            cases h
            rw [← code_comparing hrank (some a)]
            exact ⟨_, _, hl.binary hs hk hr hcomp (.compare hrank hl.spells hr.spells)⟩
          · cases h

end

section
variable {bound depth : Nat} {s s' : State} {k : TokenKind} {x : String} {v : Value} {t : Ty}

theorem constant_apply : constant v s = .ok v.ty (s.after 1 [.push v] 0) := by
  simp [constant, bind_apply, map_apply, State.advance_after]

/-- A name is a factor if it stands for a value. -/
theorem factor_name (hk : s.current.kind = .identifier x) :
    factor bound (depth + 1) s = match s.names x with
      | none => .error (.rejected ⟨.undefined x, s.current.span⟩) s
      | some e => match e.valueType? with
        | some t => .ok t (s.after 1 e.code 0)
        | none => .error (.rejected ⟨.notAValue e x, s.current.span⟩) s := by
  rw [factor, primary, here_bind, kind_bind hk]
  dsimp only
  cases hx : s.names x with
  | none => rw [bind_apply, lookup_of_none _ hx]
  | some e =>
    rw [bind_of_ok (lookup_of_some _ hx)]
    cases e <;>
      simp [bind_apply, map_apply, Entry.valueType?, Entry.code, State.advance_after,
        constant_apply]

theorem factor_constant (hk : s.current.kind.value? = some v) :
    factor bound (depth + 1) s = .ok v.ty (s.after 1 [.push v] 0) := by
  cases h : s.current.kind <;> simp [h, TokenKind.value?] at hk <;> subst hk <;>
    rw [factor, primary, here_bind, kind_bind h] <;> exact constant_apply

theorem factor_not (hk : s.current.kind = .symbol .notWord) :
    factor bound (depth + 1) s = match factor bound depth s.advance with
      | .error e s' => .error e s'
      | .ok t s' =>
        if t == .boolean then .ok .boolean (s'.after 0 [.not] 0)
        else .error (.rejected ⟨.negatedType t, ⟨s.current.span.offset,
          s'.lastStop - s.current.span.offset⟩⟩) s' := by
  rw [factor, primary, here_bind, kind_bind hk]
  dsimp only
  rw [advance_bind, bind_apply]
  cases factor bound depth s.advance with
  | error e s' => rfl
  | ok t s' =>
    dsimp only
    split <;> simp [bind_apply]

theorem factor_brackets (hk : s.current.kind = .symbol .leftParen) :
    factor bound (depth + 1) s =
      match comparison bound (factor bound depth) s.advance with
      | .error e s' => .error e s'
      | .ok t s' => match accept .rightParen s' with
        | .error e s'' => .error e s''
        | .ok () s'' => .ok t s'' := by
  rw [factor, primary, here_bind, kind_bind hk]
  dsimp only
  rw [advance_bind, bind_apply]
  cases comparison bound (factor bound depth) s.advance with
  | error e s' => rfl
  | ok t s' => cases h : accept .rightParen s' <;> simp [bind_apply, h]

theorem factor_refuses (hv : s.current.kind.value? = none)
    (hx : ∀ x, s.current.kind ≠ .identifier x) (hn : s.current.kind ≠ .symbol .notWord)
    (hb : s.current.kind ≠ .symbol .leftParen) :
    Refuses s.current.span s (factor bound depth s) := by
  cases depth with
  | zero => simp [factor]
  | succ depth =>
    cases hk : s.current.kind with
    | symbol y =>
      rw [factor, primary, here_bind, kind_bind hk]
      cases y <;> simp_all
    | identifier x => exact absurd hk (hx x)
    | integer | real | string => simp [hk, TokenKind.value?] at hv
    | endOfText | malformed | unknown =>
      rw [factor, primary, here_bind, kind_bind hk]
      exact refuses_error _ _

theorem name_reads (hs : s.Ended) (hk : s.current.kind = .identifier x)
    (h : factor bound (depth + 1) s = .ok t s') : ∃ ts e, Reads .factor ts e s t s' := by
  rw [factor_name hk] at h
  split at h
  · cases h
  · next e he =>
    split at h
    · next u hu =>
      cases h
      refine ⟨[.identifier x], .name x, .name x, ?_, ?_, ?_⟩
      · rw [hs.kinds_eq (by simp [hk]), hk]
        rfl
      · simp [Expr.type?, he, hu]
      · simp [Expr.code, he]
    · cases h

theorem not_reads (hf : ReadsOnly .factor (factor bound depth)) (hs : s.Ended)
    (hk : s.current.kind = .symbol .notWord) (h : factor bound (depth + 1) s = .ok t s') :
    ∃ ts e, Reads .factor ts e s t s' := by
  have hn : s.advance.names = s.names := by simp [State.names]
  rw [factor_not hk] at h
  cases ha : factor bound depth s.advance with
  | error e s₁ => simp [ha] at h
  | ok a s₁ =>
    simp only [ha] at h
    split at h
    · next hbool =>
      cases h
      obtain ⟨ts, e, hr⟩ := hf _ _ _ (hs.advance (by simp [hk])) ha
      refine ⟨.symbol .notWord :: ts, .not e, .not hr.spells, ?_, ?_, ?_⟩
      · rw [hs.kinds_eq (by simp [hk]), hk, hr.kinds]
        rfl
      · have ht : e.type? s.names = some .boolean := by
          rw [← hn, hr.type, eq_of_beq hbool]
        simp [Expr.type?, ht]
      · rw [hr.state, hn, ← State.after_one]
        simp [State.after_after, Expr.code, Nat.add_comm]
    · cases h

theorem brackets_reads (hf : ReadsOnly .factor (factor bound depth)) (hs : s.Ended)
    (hk : s.current.kind = .symbol .leftParen) (h : factor bound (depth + 1) s = .ok t s') :
    ∃ ts e, Reads .factor ts e s t s' := by
  have hn : s.advance.names = s.names := by simp [State.names]
  rw [factor_brackets hk] at h
  cases ha : comparison bound (factor bound depth) s.advance with
  | error e s₁ => simp [ha] at h
  | ok a s₁ =>
    simp only [ha] at h
    have hend := hs.advance (by simp [hk])
    obtain ⟨ts, e, hr⟩ := comparison_readsOnly hf _ _ _ hend ha
    cases hacc : accept .rightParen s₁ with
    | error e s₂ => simp [hacc] at h
    | ok u s₂ =>
      simp only [hacc] at h
      cases h
      obtain ⟨hk₂, rfl⟩ := accept_eq_ok (hr.ended hend) hacc
      refine ⟨_, e, .brackets hr.spells, ?_, hn ▸ hr.type, ?_⟩
      · rw [hs.kinds_eq (by simp [hk]), hk, hr.kinds, hk₂]
        simp
      · rw [hr.state, hn, ← State.after_one]
        simp [State.after_after, Nat.add_comm]

/-- A name, a constant, a negated factor and a comparison in brackets are factors. -/
theorem factor_readsOnly : ReadsOnly .factor (factor bound depth) := by
  induction depth with
  | zero =>
    intro s t s' _ h
    simp [factor] at h
  | succ depth ih =>
    intro s t s' hs h
    cases hv : s.current.kind.value? with
    | some v =>
      rw [factor_constant hv] at h
      cases h
      have hk : s.current.kind ≠ .endOfText := by
        intro hk
        simp [hk, TokenKind.value?] at hv
      exact ⟨_, _, .constant hv, hs.kinds_eq hk, rfl, rfl⟩
    | none =>
      by_cases hx : ∃ x, s.current.kind = .identifier x
      · obtain ⟨x, hk⟩ := hx
        exact name_reads hs hk h
      by_cases hn : s.current.kind = .symbol .notWord
      · exact not_reads ih hs hn h
      by_cases hb : s.current.kind = .symbol .leftParen
      · exact brackets_reads ih hs hb h
      · have hf : Fails (factor bound (depth + 1) s) :=
          (factor_refuses hv (fun x hk => hx ⟨x, hk⟩) hn hb).fails
        exact absurd h (hf.ne_ok t)

theorem expression_readsOnly : ReadsOnly .comparison (expression bound) :=
  comparison_readsOnly factor_readsOnly

end
end MiniPascal.Grammar
