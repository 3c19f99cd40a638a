import MiniPascal.Proofs.Machine.Shape
import MiniPascal.Proofs.Reading.Progress
import MiniPascal.Proofs.Reading.Statement

/-! How the reading of an expression, or of a statement that contains no other, breaks off. The
place of the rejection begins with a token that was read and ends with one, and the code emitted by
then finds on the stack whatever it takes. -/
namespace MiniPascal

/-- The stretch from the first of some tokens to the last. -/
def Span.Spans (a : Span) (ts : List Token) : Prop :=
  ∃ t u, ts.head? = some t ∧ ts.getLast? = some u ∧ a = ⟨t.span.offset, u.stop - t.span.offset⟩

theorem Span.spans_singleton (t : Token) : t.span.Spans [t] := by
  refine ⟨t, t, rfl, rfl, ?_⟩
  simp [Token.stop, Span.stop]

/-- The buffer with instructions emitted and `l` labels allotted. -/
def CodeBuffer.grown (b : CodeBuffer) (is : List Instr) (l : Nat) : CodeBuffer :=
  { b.emitAll is with labels := b.labels + UInt32.ofNat l }

namespace CodeBuffer

variable {b : CodeBuffer} {is js : List Instr} {k l : Nat}

theorem grown_nil (b : CodeBuffer) : b.grown [] 0 = b := by
  simp [grown, emitAll]

theorem grown_grown : (b.grown is l).grown js k = b.grown (is ++ js) (l + k) := by
  simp only [grown, Grammar.State.emitAll_withLabels, Grammar.State.emitAll_append,
    UInt32.add_assoc, UInt32.ofNat_add]

@[simp] theorem slots_grown : (b.grown is l).slots = b.slots := slots_emitAll b is

@[simp] theorem code_grown : (b.grown is l).code.toList = b.code.toList ++ is := code_emitAll b is

@[simp] theorem labels_grown : (b.grown is l).labels = b.labels + UInt32.ofNat l := rfl

end CodeBuffer

/-- Wherever variables have slots of their types, code makes the second types of the first. -/
def Flows (names : Names) (is : List Instr) (ts us : List Ty) : Prop :=
  ∀ slots, Allotted names slots → flow? slots is ts = some us

/-- Code without labels that finds on any stack what it takes from it. -/
def Begun (names : Names) (is : List Instr) : Prop := Straight is ∧ ∀ ts, ∃ us, Flows names is ts us

section
variable {names : Names} {is js : List Instr} {ts us vs : List Ty} {e : Expr} {t : Ty}

theorem flows_nil : Flows names [] ts ts := fun _ _ => rfl

theorem Flows.append (h : Flows names is ts us) (h' : Flows names js us vs) :
    Flows names (is ++ js) ts vs :=
  fun slots hs => (flow?_append_of_eq (h slots hs)).trans (h' slots hs)

theorem flows_expr (h : e.HasType names t) : Flows names (e.code names) ts (t :: ts) :=
  fun _ hs => flow?_expr hs h

theorem begun_nil : Begun names [] := ⟨straight_nil, fun ts => ⟨ts, flows_nil⟩⟩

theorem Begun.append (h : Begun names is) (h' : Begun names js) : Begun names (is ++ js) := by
  refine ⟨straight_append.2 ⟨h.1, h'.1⟩, fun ts => ?_⟩
  obtain ⟨us, hus⟩ := h.2 ts
  obtain ⟨vs, hvs⟩ := h'.2 us
  exact ⟨vs, hus.append hvs⟩

theorem begun_expr (h : e.HasType names t) : Begun names (e.code names) :=
  ⟨straight_expr e, fun ts => ⟨t :: ts, flows_expr h⟩⟩

theorem begun_print (h : e.HasType names t) : Begun names (e.code names ++ [.print t]) := by
  refine ⟨?_, fun ts => ⟨ts, (flows_expr h).append fun _ _ => flow?_cons (.print t ts)⟩⟩
  simp [Instr.mark?, Instr.target?]

/-- An expression is spelled by at least one token. -/
theorem Expr.ne_nil_of_spells {level : Level} {ks : List TokenKind} (h : e.Spells level ks) :
    ks ≠ [] := by
  induction h with
  | ofFactor _ ih | ofTerm _ ih | ofSum _ ih => exact ih
  | name | constant | not | brackets | signed | multiply | add | compare => simp

end

namespace Grammar

/-- From one state to the other the tokens have been passed. -/
structure State.Passes (s : State) (ts : List Token) (s' : State) : Prop where
  tokens : s.tokens = ts ++ s'.tokens
  lastStop : s'.lastStop = ts.foldl (fun _ t => t.stop) s.lastStop

/-- The reading that began in one state broke off in the other, for a rejection whose place begins
with one of the tokens up to the current one and ends with one. -/
def State.Rejects (s : State) (e : Stop) (s' : State) : Prop :=
  ∃ ts us r, s.tokens = ts ++ s'.tokens ∧ us <:+: ts ++ [s'.current] ∧ e = .rejected r ∧
    r.span.Spans us

section
variable {s s₁ s' : State} {ts us : List Token} {ks : List TokenKind} {is : List Instr}
  {l n : Nat} {e : Stop} {t : Token}

theorem passes_nil : s.Passes [] s := ⟨rfl, rfl⟩

theorem State.Passes.trans (h : s.Passes ts s₁) (h' : s₁.Passes us s') :
    s.Passes (ts ++ us) s' := by
  constructor
  · rw [h.tokens, h'.tokens, List.append_assoc]
  · rw [h'.lastStop, h.lastStop, List.foldl_append]

theorem length_kinds (s : State) : s.kinds.length = s.tokens.length := by
  simp [State.kinds, State.tokens]

theorem State.Passes.kinds (h : s.Passes ts s') : s.kinds = ts.map (·.kind) ++ s'.kinds := by
  have hk := congrArg (List.map (·.kind)) h.tokens
  rwa [List.map_append] at hk

theorem State.Passes.ended (h : s.Passes ts s') (hs : s.Ended) : s'.Ended :=
  hs.of_append h.kinds

theorem passes_advance (h : s.ahead ≠ []) : s.Passes [s.current] s.advance := by
  cases ha : s.ahead with
  | nil => exact absurd ha h
  | cons t ts => constructor <;> simp [State.tokens, State.advance, ha]

theorem State.Ended.ahead_ne_nil (h : s.Ended) (hk : s.current.kind ≠ .endOfText) :
    s.ahead ≠ [] := by
  intro ha
  simp_all [State.Ended, State.kinds]

/-- Tokens that are not the last can be passed. -/
theorem passes_pass (h : n < s.tokens.length) : s.Passes (s.tokens.take n) (s.pass n) := by
  induction n generalizing s with
  | zero => exact passes_nil
  | succ n ih =>
    cases ha : s.ahead with
    | nil => simp [State.tokens, ha] at h
    | cons t ts =>
      have hadv : s.advance.tokens = s.ahead := by simp [State.tokens, State.advance, ha]
      have hlt : n < s.advance.tokens.length := by
        rw [hadv]
        simpa [State.tokens] using h
      have hfirst : s.Passes [s.current] s.advance := passes_advance (by simp [ha])
      have hall := hfirst.trans (ih hlt)
      rw [hadv] at hall
      exact hall

/-- What was read has been passed. -/
theorem passes_of_after (hk : s.kinds = ks ++ s'.kinds) (hs : s' = s.after ks.length is l) :
    ∃ ts, ts.length = ks.length ∧ s.Passes ts s' := by
  have hlen : s.tokens.length = ks.length + s'.tokens.length := by
    have hlen := congrArg List.length hk
    rwa [List.length_append, length_kinds, length_kinds] at hlen
  have hlt : ks.length < s.tokens.length := by
    have hpos : 0 < s'.tokens.length := by simp [State.tokens]
    omega
  refine ⟨s.tokens.take ks.length, List.length_take_of_le (Nat.le_of_lt hlt), ?_⟩
  have hp := passes_pass hlt
  subst hs
  exact ⟨hp.tokens, hp.lastStop⟩

theorem rejects_here (c : Cause) : s.Rejects (.rejected ⟨c, s.current.span⟩) s :=
  ⟨[], [s.current], _, rfl, List.infix_refl _, rfl, Span.spans_singleton _⟩

/-- A token that has been passed is rejected. -/
theorem rejects_passed (c : Cause) (h : s.tokens = ts ++ s'.tokens) (ht : t ∈ ts) :
    s.Rejects (.rejected ⟨c, t.span⟩) s' := by
  refine ⟨ts, [t], _, h, ?_, rfl, Span.spans_singleton t⟩
  obtain ⟨us, vs, rfl⟩ := List.mem_iff_append.1 ht
  exact ⟨us, vs ++ [s'.current], by simp⟩

/-- All that has been passed, as a place. -/
theorem State.Passes.spans (h : s.Passes ts s') (hne : ts ≠ []) :
    Span.Spans ⟨s.current.span.offset, s'.lastStop - s.current.span.offset⟩ ts := by
  obtain ⟨init, u, rfl⟩ := List.eq_nil_or_concat ts |>.resolve_left hne
  refine ⟨s.current, u, ?_, by simp, ?_⟩
  · have hhead := congrArg List.head? h.tokens
    rw [List.head?_append_of_ne_nil _ hne] at hhead
    exact hhead.symm
  · rw [h.lastStop, List.concat_eq_append, List.foldl_append]
    rfl

/-- All that has been passed is rejected. -/
theorem State.Passes.rejects (h : s.Passes ts s') (hne : ts ≠ []) (c : Cause) :
    s.Rejects (.rejected ⟨c, ⟨s.current.span.offset, s'.lastStop - s.current.span.offset⟩⟩) s' :=
  ⟨ts, ts, _, h.tokens, List.infix_append' [] ts _, rfl, h.spans hne⟩

/-- A reading that goes on from a later state breaks off where the later one does. -/
theorem State.Rejects.behind (h : s₁.Rejects e s') (hs : s₁.tokens <:+ s.tokens) :
    s.Rejects e s' := by
  obtain ⟨before, hbefore⟩ := hs
  obtain ⟨ts, us, r, ht, hu, rfl, hr⟩ := h
  refine ⟨before ++ ts, us, r, ?_, ?_, rfl, hr⟩
  · rw [← hbefore, ht, List.append_assoc]
  · rw [List.append_assoc]
    exact hu.trans (List.suffix_append _ _).isInfix

end

/-- Between the states tokens have been passed, instructions emitted and `l` labels allotted. -/
structure State.Leads (s : State) (ts : List Token) (is : List Instr) (l : Nat) (s' : State) :
    Prop where
  passes : s.Passes ts s'
  scopes : s'.scopes = s.scopes
  code : s'.code = s.code.grown is l

/-- Some tokens of an expression have been passed and some of its code emitted. -/
def State.Partway (s : State) (ts : List Token) (s' : State) : Prop :=
  ∃ is, s.Leads ts is 0 s' ∧ Begun s.names is

/-- The reading of an expression broke off. -/
structure State.Breaks (s : State) (e : Stop) (s' : State) : Prop where
  partway : ∃ ts, s.Partway ts s'
  rejects : s.Rejects e s'

/-- Wherever the production fails, it breaks off an expression. -/
def BreaksOff (p : Production Ty) : Prop :=
  ∀ s e s', s.Ended → p s = .error e s' → s.Breaks e s'

section
variable {s s₁ s' : State} {ts us : List Token} {is js : List Instr} {k l : Nat} {e : Stop}
  {level : Level} {ks : List TokenKind} {x : Expr} {t : Ty}

theorem leads_nil : s.Leads [] [] 0 s := ⟨passes_nil, rfl, (CodeBuffer.grown_nil _).symm⟩

theorem State.Leads.names (h : s.Leads ts is l s') : s'.names = s.names := by
  rw [State.names, h.scopes, State.names]

theorem State.Leads.trans (h : s.Leads ts is l s₁) (h' : s₁.Leads us js k s') :
    s.Leads (ts ++ us) (is ++ js) (l + k) s' :=
  ⟨h.passes.trans h'.passes, h'.scopes.trans h.scopes, by
    rw [h'.code, h.code, CodeBuffer.grown_grown]⟩

/-- What was read and emitted has been passed and emitted. -/
theorem leads_after (hk : s.kinds = ks ++ s'.kinds) (hs : s' = s.after ks.length is l) :
    ∃ ts, ts.length = ks.length ∧ s.Leads ts is l s' := by
  obtain ⟨ts, hlen, hp⟩ := passes_of_after hk hs
  subst hs
  exact ⟨ts, hlen, hp, by simp, rfl⟩

theorem leads_emit (is : List Instr) (l : Nat) : s.Leads [] is l (s.after 0 is l) :=
  ⟨⟨rfl, rfl⟩, rfl, rfl⟩

theorem leads_advance (hs : s.Ended) (hk : s.current.kind ≠ .endOfText) :
    s.Leads [s.current] [] 0 s.advance := by
  refine ⟨passes_advance (hs.ahead_ne_nil hk), State.scopes_advance, ?_⟩
  rw [State.code_advance, CodeBuffer.grown_nil]

theorem partway_nil : s.Partway [] s := ⟨[], leads_nil, begun_nil⟩

theorem State.Partway.trans (h : s.Partway ts s₁) (h' : s₁.Partway us s') :
    s.Partway (ts ++ us) s' := by
  obtain ⟨is, hl, hb⟩ := h
  obtain ⟨js, hl', hb'⟩ := h'
  rw [hl.names] at hb'
  exact ⟨is ++ js, hl.trans hl', hb.append hb'⟩

theorem partway_advance (hs : s.Ended) (hk : s.current.kind ≠ .endOfText) :
    s.Partway [s.current] s.advance := ⟨[], leads_advance hs hk, begun_nil⟩

theorem accept_leads {y : Symbol} (hs : s.Ended) (h : accept y s = .ok () s') :
    s.Leads [s.current] [] 0 s' := by
  obtain ⟨hk, rfl⟩ := accept_eq_ok hs h
  rw [State.after_one]
  exact leads_advance hs (by simp [State.kind_of_kinds hk])

theorem State.Partway.passes (h : s.Partway ts s') : s.Passes ts s' := by
  obtain ⟨is, hl, -⟩ := h
  exact hl.passes

theorem Reads.partway (h : Reads level ks x s t s') : ∃ ts, ts ≠ [] ∧ s.Partway ts s' := by
  obtain ⟨ts, hlen, hl⟩ := leads_after h.kinds h.state
  refine ⟨ts, ?_, _, hl, begun_expr (Expr.hasType_of_type? h.type)⟩
  rintro rfl
  exact Expr.ne_nil_of_spells h.spells (List.eq_nil_of_length_eq_zero hlen.symm)

theorem breaks_here (c : Cause) : s.Breaks (.rejected ⟨c, s.current.span⟩) s :=
  ⟨⟨[], partway_nil⟩, rejects_here c⟩

theorem State.Partway.breaks (h : s.Partway ts s₁) (h' : s₁.Breaks e s') : s.Breaks e s' := by
  obtain ⟨us, hu⟩ := h'.partway
  exact ⟨⟨_, h.trans hu⟩, h'.rejects.behind ⟨ts, h.passes.tokens.symm⟩⟩

/-- What has been read of an expression is rejected. -/
theorem State.Partway.rejected (h : s.Partway ts s') (hne : ts ≠ []) (c : Cause) :
    s.Breaks (.rejected ⟨c, ⟨s.current.span.offset, s'.lastStop - s.current.span.offset⟩⟩) s' :=
  ⟨⟨ts, h⟩, h.passes.rejects hne c⟩

theorem Refuses.breaks {α : Type} {r : EStateM.Result Stop State α}
    (h : Refuses s.current.span s r) (he : r = .error e s') : s.Breaks e s' := by
  obtain ⟨c, rfl⟩ := h
  cases he
  exact breaks_here c

theorem accept_refuses {y : Symbol} (h : accept y s = .error e s') :
    Refuses s.current.span s (accept y s) := by
  simp only [accept, bind_apply, at?_apply] at h ⊢
  split at h
  · cases h
  · next hy => simp [hy]

theorem accept_breaks {y : Symbol} (h : accept y s = .error e s') : s.Breaks e s' :=
  (accept_refuses h).breaks h

end

section
variable {bound depth : Nat} {p : Production Ty} {s : State}

/-- A chain breaks off in one of its operands or where one is combined with those before. -/
theorem chain_breaks {ω : Type} {operator? : TokenKind → Option ω} {operand : Production Ty}
    {combine : ω → Ty → Ty → Production Ty} {P : Ty → State → Prop} {Q : Stop → State → Prop}
    (hstep : ∀ a s op b s₁ t s₂, P a s → operator? s.current.kind = some op →
      operand s.advance = .ok b s₁ → combine op a b s₁ = .ok t s₂ → P t s₂)
    (hoperand : ∀ a s op e s', P a s → operator? s.current.kind = some op →
      operand s.advance = .error e s' → Q e s')
    (hcombine : ∀ a s op b s₁ e s', P a s → operator? s.current.kind = some op →
      operand s.advance = .ok b s₁ → combine op a b s₁ = .error e s' → Q e s')
    {t : Ty} {e : Stop} {s' : State} (hp : P t s)
    (h : chain operator? operand combine bound t s = .error e s') : Q e s' := by
  induction bound generalizing t s with
  | zero => cases h
  | succ bound ih =>
    simp only [chain, bind_apply, kind_apply] at h
    cases ho : operator? s.current.kind with
    | none => simp [ho] at h
    | some op =>
      rw [ho] at h
      simp only [bind_apply, advance_apply] at h
      cases hb : operand s.advance with
      | error e s₁ =>
        rw [hb] at h
        cases h
        exact hoperand t s op _ _ hp ho hb
      | ok b s₁ =>
        simp only [hb] at h
        cases hc : combine op t b s₁ with
        | error e s₂ =>
          rw [hc] at h
          cases h
          exact hcombine t s op b s₁ _ _ hp ho hb hc
        | ok v s₂ =>
          simp only [hc] at h
          exact ih (hstep t s op b s₁ v s₂ hp ho hb hc) h

/-- Behind an operand and an operator an expression breaks off where the next operand does. -/
theorem Reads.operand_breaks {level : Level} {ks : List TokenKind} {x : Expr} {a : Ty}
    {s₁ s' : State} {c : Connective} {e : Stop} (hs : s.Ended) (hl : Reads level ks x s a s₁)
    (hk : s₁.current.kind = .symbol c.symbol) (hb : BreaksOff p) (h : p s₁.advance = .error e s') :
    s.Breaks e s' := by
  obtain ⟨ts, -, hpart⟩ := hl.partway
  have hs₁ : s₁.Ended := hl.ended hs
  have hnot : s₁.current.kind ≠ .endOfText := by simp [hk]
  exact (hpart.trans (partway_advance hs₁ hnot)).breaks (hb _ _ _ (hs₁.advance hnot) h)

/-- Two operands and the operator between them. -/
theorem Reads.operands_partway {left right : Level} {ks ls : List TokenKind} {x y : Expr}
    {a b : Ty} {s₁ s₂ : State} {c : Connective} (hs : s.Ended) (hl : Reads left ks x s a s₁)
    (hk : s₁.current.kind = .symbol c.symbol) (hr : Reads right ls y s₁.advance b s₂) :
    ∃ ts, ts ≠ [] ∧ s.Partway ts s₂ := by
  obtain ⟨ts, hne, hl'⟩ := hl.partway
  obtain ⟨us, -, hr'⟩ := hr.partway
  have hop := partway_advance (hl.ended hs) (by simp [hk])
  exact ⟨_, by simp [hne], (hl'.trans hop).trans hr'⟩

theorem term_breaksOff (hp : ReadsOnly .factor p) (hb : BreaksOff p) :
    BreaksOff (term bound p) := by
  intro s e s' hs h
  rw [term_apply, bind_apply] at h
  cases ha : p s with
  | error e' s₁ =>
    rw [ha] at h
    cases h
    exact hb _ _ _ hs ha
  | ok a s₁ =>
    rw [ha] at h
    obtain ⟨ks, x, hr⟩ := hp s a s₁ hs ha
    refine chain_breaks (P := fun u s₂ => ∃ us r, Reads .term us r s u s₂)
      (fun _ _ _ _ _ _ _ => factor_joins hp hs) ?_ ?_ ⟨ks, x, hr.raise .ofFactor⟩ h
    · rintro a s₁ op e s' ⟨ks, x, hl⟩ ho hfail
      obtain ⟨c, -, hk, -⟩ := multiplicative?_eq_some ho
      exact hl.operand_breaks hs hk hb hfail
    · rintro a s₁ op b s₂ e s' ⟨ks, x, hl⟩ ho hok hfail
      obtain ⟨c, hrank, hk, rfl⟩ := multiplicative?_eq_some ho
      obtain ⟨ls, y, hr⟩ := hp _ _ _ ((hl.ended hs).advance (by simp [hk])) hok
      obtain ⟨ts, hne, hpart⟩ := hl.operands_partway hs hk hr
      rw [multiply_apply hrank] at hfail
      split at hfail <;> cases hfail
      exact hpart.rejected hne _

theorem sum_breaksOff (hp : ReadsOnly .factor p) (hb : BreaksOff p) : BreaksOff (sum bound p) := by
  intro s e s' hs h
  have hterm : ReadsOnly .term (term bound p) := term_readsOnly hp
  have hbreaks : BreaksOff (term bound p) := term_breaksOff hp hb
  -- What the chain does behind the first term, with or without a sign.
  have hchain : ∀ a s₁, (∃ ks x, Reads .sum ks x s a s₁) →
      chain additive? (term bound p) (add s.current.span.offset) bound a s₁ = .error e s' →
      s.Breaks e s' := by
    intro a s₁ hr h
    refine chain_breaks (P := fun u s₂ => ∃ us r, Reads .sum us r s u s₂)
      (fun _ _ _ _ _ _ _ => term_joins hterm hs) ?_ ?_ hr h
    · rintro a s₁ op e s' ⟨ks, x, hl⟩ ho hfail
      obtain ⟨c, -, hk, -⟩ := additive?_eq_some ho
      exact hl.operand_breaks hs hk hbreaks hfail
    · rintro a s₁ op b s₂ e s' ⟨ks, x, hl⟩ ho hok hfail
      obtain ⟨c, hrank, hk, rfl⟩ := additive?_eq_some ho
      obtain ⟨ls, y, hr⟩ := hterm _ _ _ ((hl.ended hs).advance (by simp [hk])) hok
      obtain ⟨ts, hne, hpart⟩ := hl.operands_partway hs hk hr
      rw [add_apply hrank] at hfail
      split at hfail <;> cases hfail
      exact hpart.rejected hne _
  cases hsign : sign? s.current.kind with
  | none =>
    rw [sum_of_unsigned hsign, bind_apply] at h
    cases ha : term bound p s with
    | error e' s₁ =>
      rw [ha] at h
      cases h
      exact hbreaks _ _ _ hs ha
    | ok a s₁ =>
      rw [ha] at h
      obtain ⟨ks, x, hr⟩ := hterm s a s₁ hs ha
      exact hchain a s₁ ⟨ks, x, hr.raise .ofTerm⟩ h
  | some minus =>
    have hk := sign?_eq_some hsign
    have hnot : s.current.kind ≠ .endOfText := by simp [hk]
    have hadv : s.Partway [s.current] s.advance := partway_advance hs hnot
    rw [sum_of_signed hsign] at h
    cases ha : term bound p s.advance with
    | error e' s₁ =>
      rw [ha] at h
      cases h
      exact hadv.breaks (hbreaks _ _ _ (hs.advance hnot) ha)
    | ok a s₁ =>
      simp only [ha] at h
      obtain ⟨ks, x, hr⟩ := hterm _ a s₁ (hs.advance hnot) ha
      split at h
      · next hnum => exact hchain a _ ⟨_, _, signed_reads hs hsign hr hnum⟩ h
      · cases h
        obtain ⟨ts, -, hpart⟩ := hr.partway
        exact (hadv.trans hpart).rejected (by simp) _

theorem comparison_breaksOff (hp : ReadsOnly .factor p) (hb : BreaksOff p) :
    BreaksOff (comparison bound p) := by
  intro s e s' hs h
  have hsum : ReadsOnly .sum (sum bound p) := sum_readsOnly hp
  have hbreaks : BreaksOff (sum bound p) := sum_breaksOff hp hb
  rw [comparison_apply] at h
  cases ha : sum bound p s with
  | error e' s₁ =>
    rw [ha] at h
    cases h
    exact hbreaks _ _ _ hs ha
  | ok a s₁ =>
    obtain ⟨ks, x, hl⟩ := hsum s a s₁ hs ha
    obtain ⟨ts, hne, hpart⟩ := hl.partway
    simp only [ha] at h
    split at h
    · cases h
      exact hpart.breaks (breaks_here _)
    · split at h
      · cases h
      · next op ho =>
        obtain ⟨c, hrank, hk, rfl⟩ := comparison?_eq_some ho
        cases hb₁ : sum bound p s₁.advance with
        | error e' s₂ =>
          rw [hb₁] at h
          cases h
          exact hl.operand_breaks hs hk hbreaks hb₁
        | ok b s₂ =>
          simp only [hb₁] at h
          obtain ⟨ls, y, hr⟩ := hsum _ b s₂ ((hl.ended hs).advance (by simp [hk])) hb₁
          obtain ⟨us, hne, hpart⟩ := hl.operands_partway hs hk hr
          split at h <;> cases h
          exact hpart.rejected hne _

end

section
variable {bound depth : Nat} {s s' : State} {e : Stop}

theorem not_breaks (hf : ReadsOnly .factor (factor bound depth))
    (hb : BreaksOff (factor bound depth)) (hs : s.Ended)
    (hk : s.current.kind = .symbol .notWord) (h : factor bound (depth + 1) s = .error e s') :
    s.Breaks e s' := by
  have hnot : s.current.kind ≠ .endOfText := by simp [hk]
  have hadv : s.Partway [s.current] s.advance := partway_advance hs hnot
  rw [factor_not hk] at h
  cases ha : factor bound depth s.advance with
  | error e' s₁ =>
    rw [ha] at h
    cases h
    exact hadv.breaks (hb _ _ _ (hs.advance hnot) ha)
  | ok a s₁ =>
    simp only [ha] at h
    obtain ⟨ks, x, hr⟩ := hf _ _ _ (hs.advance hnot) ha
    obtain ⟨ts, -, hpart⟩ := hr.partway
    split at h <;> cases h
    exact (hadv.trans hpart).rejected (by simp) _

theorem brackets_breaks (hf : ReadsOnly .factor (factor bound depth))
    (hb : BreaksOff (factor bound depth)) (hs : s.Ended)
    (hk : s.current.kind = .symbol .leftParen) (h : factor bound (depth + 1) s = .error e s') :
    s.Breaks e s' := by
  have hnot : s.current.kind ≠ .endOfText := by simp [hk]
  have hadv : s.Partway [s.current] s.advance := partway_advance hs hnot
  rw [factor_brackets hk] at h
  cases ha : comparison bound (factor bound depth) s.advance with
  | error e' s₁ =>
    rw [ha] at h
    cases h
    exact hadv.breaks (comparison_breaksOff hf hb _ _ _ (hs.advance hnot) ha)
  | ok a s₁ =>
    simp only [ha] at h
    obtain ⟨ks, x, hr⟩ := comparison_readsOnly hf _ _ _ (hs.advance hnot) ha
    obtain ⟨ts, -, hpart⟩ := hr.partway
    cases hacc : accept .rightParen s₁ with
    | ok u s₂ => simp [hacc] at h
    | error e' s₂ =>
      rw [hacc] at h
      cases h
      exact (hadv.trans hpart).breaks (accept_breaks hacc)

theorem name_breaks {x : String} (hk : s.current.kind = .identifier x)
    (h : factor bound (depth + 1) s = .error e s') : s.Breaks e s' := by
  rw [factor_name hk] at h
  split at h
  · cases h
    exact breaks_here _
  · split at h
    · cases h
    · cases h
      exact breaks_here _

theorem factor_breaksOff : BreaksOff (factor bound depth) := by
  induction depth with
  | zero =>
    intro s e s' _ h
    have hr : Refuses s.current.span s (factor bound 0 s) := by simp [factor]
    exact hr.breaks h
  | succ depth ih =>
    intro s e s' hs h
    cases hv : s.current.kind.value? with
    | some v =>
      rw [factor_constant hv] at h
      cases h
    | none =>
      by_cases hx : ∃ x, s.current.kind = .identifier x
      · obtain ⟨x, hk⟩ := hx
        exact name_breaks hk h
      by_cases hn : s.current.kind = .symbol .notWord
      · exact not_breaks factor_readsOnly ih hs hn h
      by_cases hb : s.current.kind = .symbol .leftParen
      · exact brackets_breaks factor_readsOnly ih hs hb h
      · exact (factor_refuses hv (fun x hk => hx ⟨x, hk⟩) hn hb).breaks h

/-- Wherever the reading of an expression fails, it breaks off. -/
theorem expression_breaksOff : BreaksOff (expression bound) :=
  comparison_breaksOff factor_readsOnly factor_breaksOff

end

section
variable {s s₁ s' : State} {bound n : Nat} {e : Stop} {x : String} {y : Symbol} {ts : List Token}

theorem accept_partway (hs : s.Ended) (h : accept y s = .ok () s') :
    s.Partway [s.current] s' := ⟨[], accept_leads hs h, begun_nil⟩

theorem expression_partway {t : Ty} (hs : s.Ended) (h : expression bound s = .ok t s') :
    ∃ ts, ts ≠ [] ∧ s.Partway ts s' := by
  obtain ⟨ks, x, hr⟩ := expression_readsOnly s t s' hs h
  exact hr.partway

theorem condition_breaks (hs : s.Ended) (h : condition bound y s = .error e s') :
    s.Breaks e s' := by
  rw [condition_apply] at h
  cases hx : expression bound s with
  | error e' s₁ =>
    rw [hx] at h
    cases h
    exact expression_breaksOff _ _ _ hs hx
  | ok t s₁ =>
    obtain ⟨ts, hne, hpart⟩ := expression_partway hs hx
    simp only [hx] at h
    split at h <;> cases h
    exact hpart.rejected hne _

theorem condition_partway (hs : s.Ended) (h : condition bound y s = .ok () s') :
    ∃ ts, s.Partway ts s' := by
  rw [condition_apply] at h
  cases hx : expression bound s with
  | error e' s₁ => simp [hx] at h
  | ok t s₁ =>
    obtain ⟨ts, -, hpart⟩ := expression_partway hs hx
    simp only [hx] at h
    split at h <;> cases h
    exact ⟨ts, hpart⟩

theorem assignment_breaks {t : Ty} {slot : Slot} {span : Span} (hs : s.Ended)
    (hx : s.names x = some (.var t slot)) (h : assignment bound x span s = .error e s') :
    s.Breaks e s' := by
  rw [assignment_var hx] at h
  cases ha : accept .assignment s with
  | error e' s₁ =>
    rw [ha] at h
    cases h
    exact accept_breaks ha
  | ok _ s₁ =>
    have hacc : s.Partway [s.current] s₁ := accept_partway hs ha
    have hs₁ : s₁.Ended := hacc.passes.ended hs
    simp only [ha] at h
    cases hu : expression bound s₁ with
    | error e' s₂ =>
      rw [hu] at h
      cases h
      exact hacc.breaks (expression_breaksOff _ _ _ hs₁ hu)
    | ok u s₂ =>
      obtain ⟨ts, hne, hpart⟩ := expression_partway hs₁ hu
      simp only [hu] at h
      split at h <;> cases h
      exact hacc.breaks (hpart.rejected hne _)

/-- An argument and its printing. -/
theorem printed_partway {t : Ty} (hs : s.Ended) (h : expression bound s = .ok t s') :
    ∃ ts, s.Partway ts (s'.after 0 [.print t] 0) := by
  obtain ⟨ks, x, hr⟩ := expression_readsOnly s t s' hs h
  obtain ⟨ts, -, hl⟩ := leads_after hr.kinds hr.state
  exact ⟨_, _, hl.trans (leads_emit [.print t] 0), begun_print (Expr.hasType_of_type? hr.type)⟩

/-- Arguments are read to their end, or break off. -/
theorem arguments_proceed {count : Nat} (hs : s.Ended) :
    match arguments bound count s with
      | .ok () s' => ∃ ts, s.Partway ts s'
      | .error e s' => s.Breaks e s' := by
  induction count generalizing s with
  | zero => exact ⟨[], partway_nil⟩
  | succ count ih =>
    rw [arguments_succ]
    cases hx : expression bound s with
    | error e' s₁ => exact expression_breaksOff _ _ _ hs hx
    | ok t s₁ =>
      obtain ⟨ts, hprinted⟩ := printed_partway hs hx
      dsimp only
      by_cases hcomma : s₁.current.isSymbol .comma
      · have hk : s₁.current.kind = .symbol .comma := by simpa [Token.isSymbol] using hcomma
        have hnot : (s₁.after 0 [.print t] 0).current.kind ≠ .endOfText := by
          change s₁.current.kind ≠ _
          simp [hk]
        have hadv := hprinted.trans (partway_advance (hprinted.passes.ended hs) hnot)
        rw [State.advance_after, Nat.zero_add] at hadv
        have hrest := ih (hadv.passes.ended hs)
        rw [if_pos hcomma]
        cases ha : arguments bound count (s₁.after 1 [.print t] 0) with
        | ok _ s₂ =>
          rw [ha] at hrest
          obtain ⟨us, hus⟩ := hrest
          exact ⟨_, hadv.trans hus⟩
        | error e' s₂ =>
          rw [ha] at hrest
          exact hadv.breaks hrest
      · rw [if_neg hcomma]
        exact ⟨ts, hprinted⟩

theorem call_breaks {span : Span} (hs : s.Ended) (hx : Scope.key x = printName)
    (h : call bound x span s = .error e s') : s.Breaks e s' := by
  rw [call_print hx] at h
  cases ha : accept .leftParen s with
  | error e' s₁ =>
    rw [ha] at h
    cases h
    exact accept_breaks ha
  | ok _ s₁ =>
    have hacc : s.Partway [s.current] s₁ := accept_partway hs ha
    have hargs := @arguments_proceed s₁ bound bound (hacc.passes.ended hs)
    simp only [ha] at h
    split at h
    · exact hacc.breaks (accept_breaks h)
    · cases hp : arguments bound bound s₁ with
      | error e' s₂ =>
        rw [hp] at h hargs
        cases h
        exact hacc.breaks hargs
      | ok _ s₂ =>
        rw [hp] at h hargs
        obtain ⟨ts, hts⟩ := hargs
        exact (hacc.trans hts).breaks (accept_breaks h)

/-- A statement that begins with a name breaks off behind it, or at the name itself. -/
theorem simple_breaks (hs : s.Ended) (hk : s.current.kind = .identifier x)
    (h : simple bound x s = .error e s') : s.Breaks e s' := by
  have hadv : s.Partway [s.current] s.advance := partway_advance hs (by simp [hk])
  have hs₁ : s.advance.Ended := hadv.passes.ended hs
  have hname : ∀ r : EStateM.Result Stop State Unit, Refuses s.current.span s.advance r →
      r = .error e s' → s.Breaks e s' := by
    rintro _ ⟨c, rfl⟩ he
    cases he
    exact ⟨⟨_, hadv⟩, rejects_passed c hadv.passes.tokens (by simp)⟩
  rw [simple_apply] at h
  split at h
  · by_cases hx : ∃ t slot, s.advance.names x = some (.var t slot)
    · obtain ⟨t, slot, hx⟩ := hx
      exact hadv.breaks (assignment_breaks hs₁ hx h)
    · exact hname _ (assignment_refuses fun t slot hv => hx ⟨t, slot, hv⟩) h
  · split at h
    · by_cases hx : Scope.key x = printName
      · exact hadv.breaks (call_breaks hs₁ hx h)
      · exact hname _ (call_refuses hx) h
    · cases h
      exact hadv.breaks (breaks_here _)

end

end Grammar
end MiniPascal
