import MiniPascal.Proofs.Reading.Rejections

/-! Operators that do not take their operands. Where an expression is rejected for one, the operator
stands between its operands, and the place of the rejection is that of all three. -/
namespace MiniPascal

namespace Rank

/-- How tightly the operators of a rank bind. -/
def tightness : Rank → Nat
  | comparing => 0
  | adding => 1
  | multiplying => 2

/-- The level of what stands in front of an operator. -/
def front : Rank → Level
  | comparing | adding => .sum
  | multiplying => .term

/-- The level of what stands behind an operator. -/
def back : Rank → Level
  | comparing => .sum
  | adding => .term
  | multiplying => .factor

end Rank

/-- The operator that does not take its operands, if there is one. -/
def Cause.operator? : Cause → Option Operator
  | comparedTypes op _ _ | operandTypes op _ _ => some op
  | _ => none

/-- A token that is an operator, with its operands around it; the operand on the right ends where no
operator goes on with it. -/
structure Applied (c : Connective) (left : List Token) (o : Token) (right behind : List Token) :
    Prop where
  operator : o.kind = .symbol c.symbol
  left : ∃ e : Expr, e.Spells c.rank.front (left.map (·.kind))
  right : ∃ e : Expr, e.Spells c.rank.back (right.map (·.kind))
  ends : ∀ t ∈ behind.head?, ∀ d : Connective, c.rank.tightness < d.rank.tightness →
    t.kind ≠ .symbol d.symbol

/-- The rejection is of an operator among the tokens, at the place of all of it. -/
def Accuses (ts : List Token) (r : Rejection) : Prop :=
  ∃ before left o right behind c, ts = before ++ (left ++ o :: right) ++ behind ∧
    Applied c left o right behind ∧ r.span.Spans (left ++ o :: right) ∧
    r.cause.operator? = some c.operator

theorem Accuses.mono {ts us : List Token} {r : Rejection} (h : Accuses us r) (hs : us <:+ ts) :
    Accuses ts r := by
  obtain ⟨front, rfl⟩ := hs
  obtain ⟨before, left, o, right, behind, c, rfl, happlied, hspans, hop⟩ := h
  refine ⟨front ++ before, left, o, right, behind, c, ?_, happlied, hspans, hop⟩
  simp only [List.append_assoc]

namespace Grammar

section
variable {ω : Type} {operator? : TokenKind → Option ω} {operand : Production Ty}
  {combine : ω → Ty → Ty → Production Ty} {bound : Nat} {p : Production Ty} {s s' s₁ s₂ : State}
  {t a b : Ty} {c : Connective} {k : TokenKind} {ks ls : List TokenKind} {x y : Expr} {level : Level}

/-! Where a chain ends there is no operator that it could go on with. -/

/-- A chain that has as many steps as there are tokens ends in front of another token. -/
theorem chain_stops {P : Ty → State → Prop}
    (hstep : ∀ a s op b s₁ t s₂, P a s → operator? s.current.kind = some op →
      operand s.advance = .ok b s₁ → combine op a b s₁ = .ok t s₂ →
      P t s₂ ∧ s₂.tokens.length < s.tokens.length)
    (hp : P a s) (hb : s.tokens.length ≤ bound)
    (h : chain operator? operand combine bound a s = .ok t s') :
    operator? s'.current.kind = none := by
  induction bound generalizing a s with
  | zero => simp [State.tokens] at hb
  | succ bound ih =>
    simp only [chain, bind_apply, kind_apply] at h
    cases ho : operator? s.current.kind with
    | none =>
      rw [ho] at h
      cases h
      exact ho
    | some op =>
      rw [ho] at h
      simp only [bind_apply, advance_apply] at h
      cases hr : operand s.advance with
      | error e s₁ => simp [hr] at h
      | ok b s₁ =>
        simp only [hr] at h
        cases hc : combine op a b s₁ with
        | error e s₂ => simp [hc] at h
        | ok u s₂ =>
          simp only [hc] at h
          obtain ⟨hp', hlt⟩ := hstep a s op b s₁ u s₂ hp ho hr hc
          exact ih hp' (by omega) h

theorem Reads.length_le (h : Reads level ks x s t s') : s'.tokens.length ≤ s.tokens.length := by
  have hlen := congrArg List.length h.kinds
  rw [List.length_append, length_kinds, length_kinds] at hlen
  omega

theorem Reads.length_advance_le (h : Reads level ks x s t s') :
    s'.advance.tokens.length ≤ s.tokens.length :=
  Nat.le_trans (State.tokens_advance s').length_le h.length_le

/-- Behind an operator and an operand there are fewer tokens left. -/
theorem Reads.length_lt (hs : s.Ended) (hk : s.current.kind = .symbol c.symbol)
    (h : Reads level ks x s.advance t s') : s'.tokens.length < s.tokens.length := by
  have hlen := congrArg List.length (hs.kinds_eq (by simp [hk]))
  rw [List.length_cons, length_kinds, length_kinds] at hlen
  have hle := h.length_le
  omega

/-- An operator that takes its operands passes no tokens. -/
theorem tokens_multiply {start : Nat} {op : Operator × Bool}
    (ho : multiplicative? s₁.current.kind = some op)
    (h : multiply start op a b s = .ok t s') : s'.tokens = s.tokens := by
  obtain ⟨c, hrank, -, rfl⟩ := multiplicative?_eq_some ho
  rw [multiply_apply hrank] at h
  split at h <;> cases h
  rfl

theorem tokens_add {start : Nat} {op : Operator} (ho : additive? s₁.current.kind = some op)
    (h : add start op a b s = .ok t s') : s'.tokens = s.tokens := by
  obtain ⟨c, hrank, -, rfl⟩ := additive?_eq_some ho
  rw [add_apply hrank] at h
  split at h <;> cases h
  rfl

theorem term_stops (hp : ReadsOnly .factor p) (hs : s.Ended) (hb : s.tokens.length ≤ bound)
    (h : term bound p s = .ok t s') : multiplicative? s'.current.kind = none := by
  rw [term_apply, bind_eq_ok] at h
  obtain ⟨a, s₁, ha, h⟩ := h
  obtain ⟨ks, x, hr⟩ := hp s a s₁ hs ha
  apply chain_stops (P := fun u s₂ => ∃ us r, Reads .term us r s u s₂) _ _ _ h
  · intro a s₁ op b s₂ t s₃ hl ho hok hc
    refine ⟨factor_joins hp hs hl ho hok hc, ?_⟩
    obtain ⟨us, l, hl⟩ := hl
    obtain ⟨c, -, hk, -⟩ := multiplicative?_eq_some ho
    obtain ⟨ls, y, hr⟩ := hp _ _ _ ((hl.ended hs).advance (by simp [hk])) hok
    rw [tokens_multiply ho hc]
    exact hr.length_lt (hl.ended hs) hk
  · exact ⟨ks, x, hr.raise .ofFactor⟩
  · exact Nat.le_trans hr.length_le hb

/-- One more term behind a sum leaves fewer tokens, and no operator that the term goes on with. -/
theorem term_joins_stops {start : Nat} {op : Operator} (hp : ReadsOnly .factor p) (hs : s.Ended)
    (hb : s.tokens.length ≤ bound)
    (hl : (∃ ks x, Reads .sum ks x s a s₁) ∧ multiplicative? s₁.current.kind = none)
    (ho : additive? s₁.current.kind = some op) (hr : term bound p s₁.advance = .ok b s₂)
    (hc : add start op a b s₂ = .ok t s') :
    ((∃ ks x, Reads .sum ks x s t s') ∧ multiplicative? s'.current.kind = none) ∧
      s'.tokens.length < s₁.tokens.length := by
  have hterm : ReadsOnly .term (term bound p) := term_readsOnly hp
  have hjoins := term_joins hterm hs hl.1 ho hr hc
  obtain ⟨us, l, hl⟩ := hl.1
  obtain ⟨c, -, hk, -⟩ := additive?_eq_some ho
  have hs₁ : s₁.advance.Ended := (hl.ended hs).advance (by simp [hk])
  have htokens : s'.tokens = s₂.tokens := tokens_add ho hc
  have hcurrent : s'.current = s₂.current := (List.cons.inj htokens).1
  have hle : s₁.advance.tokens.length ≤ bound := Nat.le_trans hl.length_advance_le hb
  obtain ⟨ls, y, hy⟩ := hterm _ _ _ hs₁ hr
  refine ⟨⟨hjoins, ?_⟩, ?_⟩
  · rw [hcurrent]
    exact term_stops hp hs₁ hle hr
  · rw [htokens]
    exact hy.length_lt (hl.ended hs) hk

theorem terms_stop (hp : ReadsOnly .factor p) (hs : s.Ended) (hb : s.tokens.length ≤ bound)
    (hr : ∃ ks x, Reads .sum ks x s a s₁) (hend : multiplicative? s₁.current.kind = none)
    (h : chain additive? (term bound p) (add s.current.span.offset) bound a s₁ = .ok t s') :
    additive? s'.current.kind = none ∧ multiplicative? s'.current.kind = none := by
  have hfirst : s₁.tokens.length ≤ bound := by
    obtain ⟨ks, x, hr⟩ := hr
    exact Nat.le_trans hr.length_le hb
  constructor
  · exact chain_stops (fun _ _ _ _ _ _ _ => term_joins_stops hp hs hb) ⟨hr, hend⟩ hfirst h
  · have hkept := chain_keeps
      (P := fun u s₂ => (∃ ks x, Reads .sum ks x s u s₂) ∧ multiplicative? s₂.current.kind = none)
      (fun _ _ _ _ _ _ _ hl ho hok hc => (term_joins_stops hp hs hb hl ho hok hc).1) ⟨hr, hend⟩ h
    exact hkept.2

theorem sum_stops (hp : ReadsOnly .factor p) (hs : s.Ended) (hb : s.tokens.length ≤ bound)
    (h : sum bound p s = .ok t s') :
    additive? s'.current.kind = none ∧ multiplicative? s'.current.kind = none := by
  have hterm : ReadsOnly .term (term bound p) := term_readsOnly hp
  cases hsign : sign? s.current.kind with
  | none =>
    rw [sum_of_unsigned hsign, bind_eq_ok] at h
    obtain ⟨a, s₁, ha, h⟩ := h
    obtain ⟨ks, x, hr⟩ := hterm s a s₁ hs ha
    exact terms_stop hp hs hb ⟨ks, x, hr.raise .ofTerm⟩ (term_stops hp hs hb ha) h
  | some minus =>
    have hk := sign?_eq_some hsign
    have hs₁ : s.advance.Ended := hs.advance (by simp [hk])
    have hb₁ : s.advance.tokens.length ≤ bound :=
      Nat.le_trans (State.tokens_advance s).length_le hb
    rw [sum_of_signed hsign] at h
    cases ha : term bound p s.advance with
    | error e s₁ => simp [ha] at h
    | ok a s₁ =>
      simp only [ha] at h
      obtain ⟨ks, x, hr⟩ := hterm _ a s₁ hs₁ ha
      have hend : multiplicative? s₁.current.kind = none := term_stops hp hs₁ hb₁ ha
      split at h
      · next hnum => exact terms_stop hp hs hb ⟨_, _, signed_reads hs hsign hr hnum⟩ hend h
      · cases h

/-- Whenever the production rejects an operator, the operator and its operands are among the tokens
it was given. -/
def Blames (bound : Nat) {α : Type} (p : Production α) : Prop :=
  ∀ s r s', s.Ended → s.tokens.length ≤ bound → p s = .error (.rejected r) s' →
    r.cause.operator? ≠ none → Accuses s.tokens r

/-- A token that no operand goes on with is no operator that binds more tightly. -/
theorem not_tighter (h : multiplicative? k = none)
    (h' : c.rank = .comparing → additive? k = none) (d : Connective)
    (hd : c.rank.tightness < d.rank.tightness) : k ≠ .symbol d.symbol := by
  rintro rfl
  cases hrank : d.rank with
  | comparing => simp [hrank, Rank.tightness] at hd
  | adding =>
    have hc : c.rank = .comparing := by
      cases hc : c.rank <;> simp_all [Rank.tightness]
    rw [additive?_symbol hrank] at h'
    cases h' hc
  | multiplying =>
    rw [multiplicative?_symbol hrank] at h
    cases h

/-- Behind an operand and an operator, the next operand accuses what it does on its own. -/
theorem Reads.operand_accuses {r : Rejection} (hs : s.Ended) (hb : s.tokens.length ≤ bound)
    (hl : Reads level ks x s a s₁) (hk : s₁.current.kind = .symbol c.symbol) (hp : Blames bound p)
    (h : p s₁.advance = .error (.rejected r) s') (hop : r.cause.operator? ≠ none) :
    Accuses s.tokens r := by
  obtain ⟨ts, -, hpart⟩ := hl.partway
  have hs₁ : s₁.advance.Ended := (hl.ended hs).advance (by simp [hk])
  have hsuffix : s₁.advance.tokens <:+ s.tokens := by
    rw [hpart.passes.tokens]
    exact (State.tokens_advance s₁).trans (List.suffix_append ts _)
  exact (hp _ r s' hs₁ (Nat.le_trans hsuffix.length_le hb) h hop).mono hsuffix

/-- An operator between operands that it does not take is rejected at the place of all three. -/
theorem Reads.operands_accuse {cause : Cause} (hs : s.Ended)
    (hl : Reads c.rank.front ks x s a s₁) (hk : s₁.current.kind = .symbol c.symbol)
    (hr : Reads c.rank.back ls y s₁.advance b s₂) (hop : cause.operator? = some c.operator)
    (hends : ∀ d : Connective, c.rank.tightness < d.rank.tightness →
      s₂.current.kind ≠ .symbol d.symbol) :
    Accuses s.tokens
      ⟨cause, ⟨s.current.span.offset, s₂.lastStop - s.current.span.offset⟩⟩ := by
  obtain ⟨ts, hts, hleft⟩ := leads_after hl.kinds hl.state
  obtain ⟨us, hus, hright⟩ := leads_after hr.kinds hr.state
  have ho := partway_advance (hl.ended hs) (by simp [hk])
  have hall := (hleft.passes.trans ho.passes).trans hright.passes
  have hkinds : ts.map (·.kind) = ks := by
    have hpassed := hleft.passes.kinds
    rw [hl.kinds] at hpassed
    exact ((List.append_inj hpassed (by simp [hts])).1).symm
  have hkinds' : us.map (·.kind) = ls := by
    have hpassed := hright.passes.kinds
    rw [hr.kinds] at hpassed
    exact ((List.append_inj hpassed (by simp [hus])).1).symm
  refine ⟨[], ts, s₁.current, us, s₂.tokens, c, ?_, ⟨hk, ?_, ?_, ?_⟩, ?_, hop⟩
  · simpa using hall.tokens
  · exact ⟨x, hkinds ▸ hl.spells⟩
  · exact ⟨y, hkinds' ▸ hr.spells⟩
  · intro t ht
    cases ht
    exact hends
  · simpa using hall.spans (by simp)

theorem term_blames (hp : ReadsOnly .factor p) (hb : Blames bound p) :
    Blames bound (term bound p) := by
  intro s r s' hs hlen h hop
  rw [term_apply, bind_apply] at h
  cases ha : p s with
  | error e s₁ =>
    rw [ha] at h
    cases h
    exact hb _ _ _ hs hlen ha hop
  | ok a s₁ =>
    rw [ha] at h
    obtain ⟨ks, x, hr⟩ := hp s a s₁ hs ha
    refine chain_breaks (P := fun u s₂ => ∃ us r, Reads .term us r s u s₂)
      (Q := fun e _ => e = .rejected r → Accuses s.tokens r)
      (fun _ _ _ _ _ _ _ => factor_joins hp hs) ?_ ?_ ⟨ks, x, hr.raise .ofFactor⟩ h rfl
    · rintro a s₁ op _ s' ⟨ks, x, hl⟩ ho hfail rfl
      obtain ⟨c, -, hk, -⟩ := multiplicative?_eq_some ho
      exact hl.operand_accuses hs hlen hk hb hfail hop
    · rintro a s₁ op b s₂ _ s' ⟨ks, x, hl⟩ ho hok hfail rfl
      obtain ⟨c, hrank, hk, rfl⟩ := multiplicative?_eq_some ho
      obtain ⟨ls, y, hr⟩ := hp _ _ _ ((hl.ended hs).advance (by simp [hk])) hok
      rw [multiply_apply hrank] at hfail
      split at hfail <;> cases hfail
      apply Reads.operands_accuse hs (by rw [hrank]; exact hl) hk (by rw [hrank]; exact hr) rfl
      intro d hd
      rw [hrank] at hd
      cases hd' : d.rank <;> simp [hd', Rank.tightness] at hd

theorem sum_blames (hp : ReadsOnly .factor p) (hb : Blames bound p) :
    Blames bound (sum bound p) := by
  intro s r s' hs hlen h hop
  have hterm : ReadsOnly .term (term bound p) := term_readsOnly hp
  have hblames : Blames bound (term bound p) := term_blames hp hb
  -- What the chain does behind the first term, with or without a sign.
  have hchain : ∀ a s₁, (∃ ks x, Reads .sum ks x s a s₁) →
      chain additive? (term bound p) (add s.current.span.offset) bound a s₁ =
        .error (.rejected r) s' → Accuses s.tokens r := by
    intro a s₁ hr h
    refine chain_breaks (P := fun u s₂ => ∃ us r, Reads .sum us r s u s₂)
      (Q := fun e _ => e = .rejected r → Accuses s.tokens r)
      (fun _ _ _ _ _ _ _ => term_joins hterm hs) ?_ ?_ hr h rfl
    · rintro a s₁ op _ s' ⟨ks, x, hl⟩ ho hfail rfl
      obtain ⟨c, -, hk, -⟩ := additive?_eq_some ho
      exact hl.operand_accuses hs hlen hk hblames hfail hop
    · rintro a s₁ op b s₂ _ s' ⟨ks, x, hl⟩ ho hok hfail rfl
      obtain ⟨c, hrank, hk, rfl⟩ := additive?_eq_some ho
      have hs₁ : s₁.advance.Ended := (hl.ended hs).advance (by simp [hk])
      have hle : s₁.advance.tokens.length ≤ bound := Nat.le_trans hl.length_advance_le hlen
      obtain ⟨ls, y, hr⟩ := hterm _ _ _ hs₁ hok
      rw [add_apply hrank] at hfail
      split at hfail <;> cases hfail
      apply Reads.operands_accuse hs (by rw [hrank]; exact hl) hk (by rw [hrank]; exact hr) rfl
      exact not_tighter (term_stops hp hs₁ hle hok) (by simp [hrank])
  cases hsign : sign? s.current.kind with
  | none =>
    rw [sum_of_unsigned hsign, bind_apply] at h
    cases ha : term bound p s with
    | error e s₁ =>
      rw [ha] at h
      cases h
      exact hblames _ _ _ hs hlen ha hop
    | ok a s₁ =>
      rw [ha] at h
      obtain ⟨ks, x, hr⟩ := hterm s a s₁ hs ha
      exact hchain a s₁ ⟨ks, x, hr.raise .ofTerm⟩ h
  | some minus =>
    have hk := sign?_eq_some hsign
    have hs₁ : s.advance.Ended := hs.advance (by simp [hk])
    have hsuffix := State.tokens_advance s
    rw [sum_of_signed hsign] at h
    cases ha : term bound p s.advance with
    | error e s₁ =>
      rw [ha] at h
      cases h
      exact (hblames _ _ _ hs₁ (Nat.le_trans hsuffix.length_le hlen) ha hop).mono hsuffix
    | ok a s₁ =>
      simp only [ha] at h
      obtain ⟨ks, x, hr⟩ := hterm _ a s₁ hs₁ ha
      split at h
      · next hnum => exact hchain a _ ⟨_, _, signed_reads hs hsign hr hnum⟩ h
      · cases h
        exact absurd rfl hop

theorem comparison_blames (hp : ReadsOnly .factor p) (hb : Blames bound p) :
    Blames bound (comparison bound p) := by
  intro s r s' hs hlen h hop
  have hsum : ReadsOnly .sum (sum bound p) := sum_readsOnly hp
  have hblames : Blames bound (sum bound p) := sum_blames hp hb
  rw [comparison_apply] at h
  cases ha : sum bound p s with
  | error e s₁ =>
    rw [ha] at h
    cases h
    exact hblames _ _ _ hs hlen ha hop
  | ok a s₁ =>
    obtain ⟨ks, x, hl⟩ := hsum s a s₁ hs ha
    simp only [ha] at h
    split at h
    · cases h
      exact absurd rfl hop
    · split at h
      · cases h
      · next op ho =>
        obtain ⟨c, hrank, hk, rfl⟩ := comparison?_eq_some ho
        have hs₁ : s₁.advance.Ended := (hl.ended hs).advance (by simp [hk])
        cases hb₁ : sum bound p s₁.advance with
        | error e s₂ =>
          rw [hb₁] at h
          cases h
          exact hl.operand_accuses hs hlen hk hblames hb₁ hop
        | ok b s₂ =>
          simp only [hb₁] at h
          obtain ⟨ls, y, hr⟩ := hsum _ b s₂ hs₁ hb₁
          have hle : s₁.advance.tokens.length ≤ bound := Nat.le_trans hl.length_advance_le hlen
          obtain ⟨hadd, hmul⟩ := sum_stops hp hs₁ hle hb₁
          split at h <;> cases h
          apply Reads.operands_accuse hs (by rw [hrank]; exact hl) hk (by rw [hrank]; exact hr) rfl
          exact not_tighter hmul fun _ => hadd

end

section
variable {bound depth : Nat} {s s' : State} {x : String} {r : Rejection}

theorem accept_innocent {y : Symbol} (h : accept y s = .error (.rejected r) s') :
    r.cause.operator? = none := by
  simp only [accept, bind_apply, at?_apply] at h
  split at h
  · cases h
  · cases h
    rfl

theorem not_blames (hb : Blames bound (factor bound depth)) (hs : s.Ended)
    (hlen : s.tokens.length ≤ bound) (hk : s.current.kind = .symbol .notWord)
    (h : factor bound (depth + 1) s = .error (.rejected r) s') (hop : r.cause.operator? ≠ none) :
    Accuses s.tokens r := by
  have hsuffix := State.tokens_advance s
  rw [factor_not hk] at h
  cases ha : factor bound depth s.advance with
  | error e s₁ =>
    rw [ha] at h
    cases h
    have hle : s.advance.tokens.length ≤ bound := Nat.le_trans hsuffix.length_le hlen
    exact (hb _ _ _ (hs.advance (by simp [hk])) hle ha hop).mono hsuffix
  | ok a s₁ =>
    simp only [ha] at h
    split at h
    · cases h
    · cases h
      exact absurd rfl hop

theorem brackets_blames (hb : Blames bound (factor bound depth)) (hs : s.Ended)
    (hlen : s.tokens.length ≤ bound) (hk : s.current.kind = .symbol .leftParen)
    (h : factor bound (depth + 1) s = .error (.rejected r) s') (hop : r.cause.operator? ≠ none) :
    Accuses s.tokens r := by
  have hsuffix := State.tokens_advance s
  rw [factor_brackets hk] at h
  cases ha : comparison bound (factor bound depth) s.advance with
  | error e s₁ =>
    rw [ha] at h
    cases h
    have hle : s.advance.tokens.length ≤ bound := Nat.le_trans hsuffix.length_le hlen
    have hblames : Blames bound (comparison bound (factor bound depth)) :=
      comparison_blames factor_readsOnly hb
    exact (hblames _ _ _ (hs.advance (by simp [hk])) hle ha hop).mono hsuffix
  | ok a s₁ =>
    simp only [ha] at h
    cases hacc : accept .rightParen s₁ with
    | ok u s₂ => simp [hacc] at h
    | error e s₂ =>
      rw [hacc] at h
      cases h
      exact absurd (accept_innocent hacc) hop

theorem factor_blames : Blames bound (factor bound depth) := by
  induction depth with
  | zero =>
    intro s r s' _ _ h hop
    cases h
    exact absurd rfl hop
  | succ depth ih =>
    intro s r s' hs hlen h hop
    cases hk : s.current.kind with
    | identifier x =>
      rw [factor_name hk] at h
      split at h
      · cases h
        exact absurd rfl hop
      · split at h
        · cases h
        · cases h
          exact absurd rfl hop
    | integer v | real v | string v =>
      rw [factor_constant (by rw [hk]; rfl)] at h
      cases h
    | symbol y =>
      by_cases hnot : y = .notWord
      · subst hnot
        exact not_blames ih hs hlen hk h hop
      by_cases hparen : y = .leftParen
      · subst hparen
        exact brackets_blames ih hs hlen hk h hop
      · rw [factor, primary, here_bind, kind_bind hk] at h
        cases y <;> first | contradiction | (cases h; exact absurd rfl hop)
    | endOfText | malformed | unknown =>
      rw [factor, primary, here_bind, kind_bind hk] at h
      cases h
      exact absurd rfl hop

/-- Whatever operator an expression is rejected for, it is in it with its operands. -/
theorem expression_blames : Blames bound (expression bound) :=
  comparison_blames factor_readsOnly factor_blames

end

end Grammar
end MiniPascal
