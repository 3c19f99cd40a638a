import MiniPascal.Proofs.Reading.Expression

/-! The productions of expressions over tokens that spell one. They answer its type and emit its
code if it has a type, and fail if it has none. -/
namespace MiniPascal.Grammar

/-- The result is that of reading an expression spelled by `n` tokens. -/
def Decides (e : Expr) (n : Nat) (s : State) (r : EStateM.Result Stop State Ty) : Prop :=
  match e.type? s.names with
  | some t => r = .ok t (s.after n (e.code s.names) 0)
  | none => Fails r

/-- The result is that of a chain which has read an expression spelled by `n` tokens so far, and
has not used up its bound. -/
def Continues {ω : Type} (operator? : TokenKind → Option ω) (operand : Production Ty)
    (combine : ω → Ty → Ty → Production Ty) (bound : Nat) (e : Expr) (n : Nat) (s : State)
    (r : EStateM.Result Stop State Ty) : Prop :=
  match e.type? s.names with
  | some t => ∃ b, bound < b + n ∧
    r = chain operator? operand combine b t (s.after n (e.code s.names) 0)
  | none => Fails r

section
variable {ω : Type} {operator? : TokenKind → Option ω} {operand : Production Ty}
  {combine : ω → Ty → Ty → Production Ty} {bound n : Nat} {s : State} {t : Ty} {e : Expr}
  {r : EStateM.Result Stop State Ty}

theorem chain_stop (h : operator? s.current.kind = none) :
    chain operator? operand combine bound t s = .ok t s := by
  cases bound with
  | zero => rfl
  | succ bound => simp [chain, bind_apply, h]

theorem chain_step {w : ω} (h : operator? s.current.kind = some w) :
    chain operator? operand combine (bound + 1) t s =
      match operand s.advance with
      | .error e s' => .error e s'
      | .ok u s' => match combine w t u s' with
        | .error e s'' => .error e s''
        | .ok v s'' => chain operator? operand combine bound v s'' := by
  simp only [chain, bind_apply, kind_apply, h, advance_apply]
  cases operand s.advance with
  | error e s' => rfl
  | ok u s' => cases hc : combine w t u s' <;> simp [hc]

/-- A chain begins with its first operand. -/
theorem Decides.continues {p : Production Ty} (h : Decides e n s (p s)) (hn : 0 < n) :
    Continues operator? operand combine bound e n s
      ((p >>= chain operator? operand combine bound) s) := by
  unfold Decides at h
  unfold Continues
  split at h
  · rw [bind_of_ok h]
    exact ⟨bound, by omega, rfl⟩
  · exact h.bind _

/-- A chain ends where no operator follows. -/
theorem Continues.decides {ts : List TokenKind} {k : TokenKind} {ks : List TokenKind}
    (h : Continues operator? operand combine bound e ts.length s r)
    (hk : s.kinds = ts ++ k :: ks) (ho : operator? k = none) : Decides e ts.length s r := by
  unfold Continues at h
  unfold Decides
  split at h
  · obtain ⟨b, -, rfl⟩ := h
    apply chain_stop
    rw [State.kind_of_kinds (State.kinds_after hk (by simp))]
    exact ho
  · exact h

/-- One more operator and operand. -/
theorem Continues.binary {c : Connective} {w : ω} {ts us ks : List TokenKind} {x : Expr}
    (hl : Continues operator? operand combine bound e ts.length s r)
    (hk : s.kinds = ts ++ .symbol c.symbol :: (us ++ ks)) (hks : ks ≠ [])
    (ho : operator? (.symbol c.symbol) = some w)
    (hr : ∀ s' : State, s'.kinds = us ++ ks → Decides x us.length s' (operand s'))
    (hc : ∀ a b s', match c.type? a b with
      | some t => combine w a b s' = .ok t (s'.after 0 (c.code (some a)) 0)
      | none => Fails (combine w a b s'))
    (hb : (ts ++ .symbol c.symbol :: us).length ≤ bound) :
    Continues operator? operand combine bound (.binary c e x)
      (ts ++ .symbol c.symbol :: us).length s r := by
  simp only [List.length_append, List.length_cons] at hb ⊢
  unfold Continues at hl
  cases ha : e.type? s.names with
  | none => simpa [Continues, Expr.type?, ha] using hl
  | some a =>
    rw [ha] at hl
    obtain ⟨b, hlt, rfl⟩ := hl
    obtain ⟨b, rfl⟩ := Nat.exists_eq_succ_of_ne_zero (show b ≠ 0 by omega)
    have hk₁ : (s.after ts.length (e.code s.names) 0).kinds = .symbol c.symbol :: (us ++ ks) :=
      State.kinds_after hk (by simp)
    have hk₂ := State.kinds_advance hk₁ (by simp [hks])
    have hx := hr _ hk₂
    rw [chain_step (by rw [State.kind_of_kinds hk₁]; exact ho)]
    rw [State.advance_after] at hx ⊢
    rw [Decides, State.names_after] at hx
    cases hu : x.type? s.names with
    | none =>
      rw [hu] at hx
      obtain ⟨y, s', hx⟩ := hx
      simp [Continues, Expr.type?, ha, hu, hx]
    | some u =>
      simp only [hu, State.after_after, Nat.add_zero] at hx
      rw [hx]
      have hcu := hc a u (s.after (ts.length + 1 + us.length)
        (e.code s.names ++ x.code s.names) 0)
      cases ht : c.type? a u with
      | none =>
        rw [ht] at hcu
        obtain ⟨y, s', hy⟩ := hcu
        simp [Continues, Expr.type?, ha, hu, ht, hy]
      | some v =>
        simp only [ht, State.after_after, Nat.add_zero] at hcu
        simp only [Continues, Expr.type?, ha, hu, ht, Option.bind_eq_bind, Option.bind_some]
        refine ⟨b, by omega, ?_⟩
        rw [hcu]
        simp only [Expr.code, ha, Nat.add_assoc, Nat.add_comm 1]

end
/-- The token ends an expression before it. -/
structure Stops (k : TokenKind) : Prop where
  multiplicative : multiplicative? k = none
  additive : additive? k = none
  comparison : comparison? k = none
  membership : k ≠ .symbol .inWord

section
variable {level : Level} {ts : List TokenKind} {e : Expr}

/-- No expression begins with a closing bracket. -/
theorem head_of_spells (h : e.Spells level ts) :
    ∃ k ks, ts = k :: ks ∧ k ≠ .symbol .rightParen := by
  induction h with
  | name | not | brackets => exact ⟨_, _, rfl, by simp⟩
  | constant hv =>
    refine ⟨_, _, rfl, ?_⟩
    rintro rfl
    simp [TokenKind.value?] at hv
  | signed minus => exact ⟨_, _, rfl, by cases minus <;> simp [signSymbol]⟩
  | ofFactor _ ih | ofTerm _ ih | ofSum _ ih => exact ih
  | multiply _ _ _ ih | add _ _ _ ih | compare _ _ _ ih =>
    obtain ⟨k, ks, rfl, hk⟩ := ih
    exact ⟨k, _, rfl, hk⟩

theorem length_pos_of_spells (h : e.Spells level ts) : 0 < ts.length := by
  obtain ⟨k, ks, rfl, -⟩ := head_of_spells h
  simp

/-- A term does not begin with a sign. -/
theorem sign?_of_spells (h : e.Spells level ts) (hl : level = .factor ∨ level = .term) :
    ∃ k ks, ts = k :: ks ∧ sign? k = none := by
  induction h with
  | name | not | brackets => exact ⟨_, _, rfl, rfl⟩
  | constant hv =>
    refine ⟨_, _, rfl, ?_⟩
    unfold sign?
    split <;> first | rfl | simp [TokenKind.value?] at hv
  | ofFactor _ ih => exact ih (.inl rfl)
  | multiply _ _ _ ih =>
    obtain ⟨k, ks, rfl, hk⟩ := ih (.inr rfl)
    exact ⟨k, _, rfl, hk⟩
  | ofTerm | signed | add | ofSum | compare => simp at hl

end

section
variable {bound depth n : Nat} {s : State} {e : Expr} {k : TokenKind} {ts ks : List TokenKind}

/-- What the production of a level does with `n` tokens that spell an expression of the level, if
`k` stands behind them. -/
def ReadAt (bound depth : Nat) (k : TokenKind) (e : Expr) (n : Nat) (s : State) : Level → Prop
  | .factor => Decides e n s (factor bound depth s)
  | .term => Continues multiplicative? (factor bound depth) (multiply s.current.span.offset)
      bound e n s (term bound (factor bound depth) s)
  | .sum => multiplicative? k = none →
      Continues additive? (term bound (factor bound depth)) (add s.current.span.offset) bound e n s
        (sum bound (factor bound depth) s)
  | .comparison => Stops k → Decides e n s (comparison bound (factor bound depth) s)

theorem decides_name {x : String} (hk : s.kinds = .identifier x :: ks) :
    Decides (.name x) 1 s (factor bound (depth + 1) s) := by
  rw [factor_name (State.kind_of_kinds hk)]
  unfold Decides
  cases hx : s.names x with
  | none => simp [Expr.type?, hx]
  | some y => cases hy : y.valueType? <;> simp [Expr.type?, Expr.code, hx, hy]

theorem Decides.not (hk : s.kinds = .symbol .notWord :: ks)
    (h : Decides e n s.advance (factor bound depth s.advance)) :
    Decides (.not e) (n + 1) s (factor bound (depth + 1) s) := by
  rw [factor_not (State.kind_of_kinds hk)]
  have hn : s.advance.names = s.names := by simp [State.names]
  rw [Decides, hn] at h
  cases ht : e.type? s.names with
  | none =>
    rw [ht] at h
    obtain ⟨x, s', h⟩ := h
    simp [Decides, Expr.type?, ht, h]
  | some t =>
    simp only [ht, ← State.after_one, State.after_after, Nat.add_zero, List.nil_append] at h
    rw [State.after_one] at h
    rw [h]
    cases t <;>
      simp [Decides, Expr.type?, ht, Option.filter, Expr.code, State.after_after, Nat.add_comm]

theorem Decides.brackets (hk : s.kinds = .symbol .leftParen :: (ts ++ .symbol .rightParen :: ks))
    (h : Decides e ts.length s.advance (comparison bound (factor bound depth) s.advance)) :
    Decides e (ts.length + 2) s (factor bound (depth + 1) s) := by
  rw [factor_brackets (State.kind_of_kinds hk)]
  have hn : s.advance.names = s.names := by simp [State.names]
  have hk₁ := State.kinds_advance hk (by simp)
  rw [Decides, hn] at h
  cases ht : e.type? s.names with
  | none =>
    rw [ht] at h
    obtain ⟨x, s', h⟩ := h
    simp [Decides, ht, h]
  | some t =>
    simp only [ht] at h
    have hk₂ : (s.advance.after ts.length (e.code s.names) 0).kinds = .symbol .rightParen :: ks :=
      State.kinds_after hk₁ (by simp)
    rw [h]
    simp only [accept_of_kinds hk₂, Decides, ht]
    rw [← State.after_one, State.after_after, State.after_after, Nat.add_comm 1]
    simp

/-- A signed term is the first of a sum. -/
theorem Decides.signed {minus : Bool} (hk : s.kinds = .symbol (signSymbol minus) :: ks)
    (h : Decides e n s.advance (term bound (factor bound depth) s.advance)) :
    Continues additive? (term bound (factor bound depth)) (add s.current.span.offset) bound
      (.signed minus e) (n + 1) s (sum bound (factor bound depth) s) := by
  have hsign : sign? s.current.kind = some minus := by
    rw [State.kind_of_kinds hk]
    exact sign?_signSymbol minus
  rw [sum_of_signed hsign]
  have hn : s.advance.names = s.names := by simp [State.names]
  rw [Decides, hn] at h
  cases ht : e.type? s.names with
  | none =>
    rw [ht] at h
    obtain ⟨x, s', h⟩ := h
    simp [Continues, Expr.type?, ht, h]
  | some t =>
    simp only [ht, ← State.after_one, State.after_after, Nat.add_zero, List.nil_append] at h
    rw [State.after_one] at h
    rw [h]
    by_cases hnum : t.isNumeric
    · simp only [Continues, Expr.type?, ht, Option.filter, hnum, if_true]
      refine ⟨bound, by omega, ?_⟩
      simp [State.after_after, Expr.code, Nat.add_comm]
    · simp [Continues, Expr.type?, ht, Option.filter, hnum]

/-- Two sums with a comparing operator between them. -/
theorem Decides.compare {c : Connective} {us : List TokenKind} {l r : Expr}
    (hc : c.rank = .comparing) (hk : s.kinds = ts ++ .symbol c.symbol :: (us ++ ks)) (hks : ks ≠ [])
    (hl : Decides l ts.length s (sum bound (factor bound depth) s))
    (hr : ∀ s' : State, s'.kinds = us ++ ks →
      Decides r us.length s' (sum bound (factor bound depth) s')) :
    Decides (.binary c l r) (ts ++ .symbol c.symbol :: us).length s
      (comparison bound (factor bound depth) s) := by
  have hin : c.symbol ≠ .inWord := by cases c <;> simp [Connective.symbol]
  rw [comparison_apply]
  unfold Decides at hl
  cases ha : l.type? s.names with
  | none =>
    rw [ha] at hl
    obtain ⟨x, s', hl⟩ := hl
    simp [Decides, Expr.type?, ha, hl]
  | some a =>
    simp only [ha] at hl
    have hk₁ : (s.after ts.length (l.code s.names) 0).kinds = .symbol c.symbol :: (us ++ ks) :=
      State.kinds_after hk (by simp)
    have hx := hr _ (State.kinds_advance hk₁ (by simp [hks]))
    rw [State.advance_after, Decides, State.names_after] at hx
    rw [hl]
    simp only [State.isSymbol_of_kinds hk₁, State.kind_of_kinds hk₁, comparison?_symbol hc,
      State.advance_after, beq_iff_eq, TokenKind.symbol.injEq, hin, if_false]
    cases hb : r.type? s.names with
    | none =>
      rw [hb] at hx
      obtain ⟨x, s', hx⟩ := hx
      simp [Decides, Expr.type?, ha, hb, hx]
    | some b =>
      simp only [hb, State.after_after, Nat.add_zero] at hx
      rw [hx]
      simp only [comparable_eq hc]
      cases ht : c.type? a b with
      | none => simp [Decides, Expr.type?, ha, hb, ht]
      | some t =>
        cases type?_comparing hc ht
        simp [Decides, Expr.type?, ha, hb, ht, Expr.code, code_comparing hc, State.after_after,
          Nat.add_assoc, Nat.add_comm 1]

/-- Tokens that spell an expression are read as that expression. -/
theorem readAt_of_spells {level : Level} (h : e.Spells level ts) :
    ∀ depth (s : State), s.kinds = ts ++ k :: ks → ts.length ≤ bound → ts.length ≤ depth →
      ReadAt bound depth k e ts.length s level := by
  induction h generalizing k ks with
  | name x =>
    intro depth s hk _ hd
    obtain ⟨depth, rfl⟩ := Nat.exists_eq_succ_of_ne_zero (Nat.ne_of_gt hd)
    exact decides_name hk
  | constant hv =>
    intro depth s hk _ hd
    obtain ⟨depth, rfl⟩ := Nat.exists_eq_succ_of_ne_zero (Nat.ne_of_gt hd)
    rw [← State.kind_of_kinds hk] at hv
    exact factor_constant hv
  | @not ts e he ih =>
    intro depth s hk hb hd
    simp only [List.length_cons] at hb hd
    obtain ⟨depth, rfl⟩ := Nat.exists_eq_succ_of_ne_zero (show depth ≠ 0 by omega)
    exact Decides.not hk (ih depth _ (State.kinds_advance hk (by simp)) (by omega) (by omega))
  | @brackets ts e he ih =>
    intro depth s hk hb hd
    simp only [List.length_cons, List.length_append, List.length_nil] at hb hd
    obtain ⟨depth, rfl⟩ := Nat.exists_eq_succ_of_ne_zero (show depth ≠ 0 by omega)
    have hk' : s.kinds = .symbol .leftParen :: (ts ++ .symbol .rightParen :: k :: ks) := by
      rw [hk]
      simp
    have hr := ih depth _ (State.kinds_advance hk' (by simp)) (by omega) (by omega)
      ⟨rfl, rfl, rfl, by simp⟩
    simpa [ReadAt] using Decides.brackets hk' hr
  | @ofFactor ts e he ih =>
    intro depth s hk hb hd
    rw [ReadAt, term_apply]
    exact Decides.continues (ih depth s hk hb hd) (length_pos_of_spells he)
  | @multiply c ts us l r hc hl hr ihl ihr =>
    intro depth s hk hb hd
    simp only [List.length_append, List.length_cons] at hb hd
    have hk' : s.kinds = ts ++ .symbol c.symbol :: (us ++ k :: ks) := by
      rw [hk]
      simp
    refine Continues.binary (ihl depth s hk' (by omega) (by omega)) hk' (by simp)
      (multiplicative?_symbol hc) (fun s' hs' => ihr depth s' hs' (by omega) (by omega)) ?_
      (by simpa using hb)
    intro a b s'
    rw [multiply_apply hc]
    cases c.type? a b <;> simp
  | @ofTerm ts e he ih =>
    intro depth s hk hb hd hm
    have hr := Continues.decides (ih depth s hk hb hd) hk hm
    obtain ⟨x, xs, rfl, hx⟩ := sign?_of_spells he (.inr rfl)
    rw [sum_of_unsigned (by rw [State.kind_of_kinds hk]; exact hx)]
    exact hr.continues (by simp)
  | @signed ts e minus he ih =>
    intro depth s hk hb hd hm
    simp only [List.length_cons] at hb hd
    have hk₁ := State.kinds_advance hk (by simp)
    exact Decides.signed hk (Continues.decides (ih depth _ hk₁ (by omega) (by omega)) hk₁ hm)
  | @add c ts us l r hc hl hr ihl ihr =>
    intro depth s hk hb hd hm
    simp only [List.length_append, List.length_cons] at hb hd
    have hk' : s.kinds = ts ++ .symbol c.symbol :: (us ++ k :: ks) := by
      rw [hk]
      simp
    have hcm : multiplicative? (.symbol c.symbol) = none := by
      cases c <;> first | rfl | simp [Connective.rank] at hc
    refine Continues.binary (ihl depth s hk' (by omega) (by omega) hcm) hk' (by simp)
      (additive?_symbol hc) ?_ ?_ (by simpa using hb)
    · intro s' hs'
      exact Continues.decides (ihr depth s' hs' (by omega) (by omega)) hs' hm
    · intro a b s'
      rw [add_apply hc]
      cases c.type? a b <;> simp
  | @ofSum ts e he ih =>
    intro depth s hk hb hd hstop
    have hr := Continues.decides (ih depth s hk hb hd hstop.multiplicative) hk hstop.additive
    rw [comparison_apply]
    unfold Decides at hr ⊢
    cases ht : e.type? s.names with
    | none =>
      rw [ht] at hr
      obtain ⟨x, s', hr⟩ := hr
      simp [hr]
    | some t =>
      simp only [ht] at hr
      have hk₁ : (s.after ts.length (e.code s.names) 0).kinds = k :: ks :=
        State.kinds_after hk (by simp)
      simp [hr, State.isSymbol_of_kinds hk₁, State.kind_of_kinds hk₁, hstop.comparison,
        hstop.membership]
  | @compare c ts us l r hc hl hr ihl ihr =>
    intro depth s hk hb hd hstop
    simp only [List.length_append, List.length_cons] at hb hd
    have hk' : s.kinds = ts ++ .symbol c.symbol :: (us ++ k :: ks) := by
      rw [hk]
      simp
    have hcm : multiplicative? (.symbol c.symbol) = none ∧ additive? (.symbol c.symbol) = none := by
      cases c <;> first | exact ⟨rfl, rfl⟩ | simp [Connective.rank] at hc
    refine Decides.compare hc hk' (by simp) ?_ ?_
    · exact Continues.decides (ihl depth s hk' (by omega) (by omega) hcm.1) hk' hcm.2
    · intro s' hs'
      exact Continues.decides (ihr depth s' hs' (by omega) (by omega) hstop.multiplicative) hs'
        hstop.additive

/-- Tokens that spell an expression, with one behind them that cannot go on it, are read as that
expression. -/
theorem expression_decides (h : e.Spells .comparison ts) (hk : s.kinds = ts ++ k :: ks)
    (hb : ts.length ≤ bound) (hstop : Stops k) : Decides e ts.length s (expression bound s) :=
  readAt_of_spells h bound s hk hb hb hstop

end
end MiniPascal.Grammar
