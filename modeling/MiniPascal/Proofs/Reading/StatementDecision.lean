import MiniPascal.Proofs.Reading.ExpressionDecision
import MiniPascal.Proofs.Reading.Statement

/-! The productions of statements over tokens that spell one. They pass them and emit its code if
its names and types are in order, and fail if not. -/
namespace MiniPascal.Grammar

/-- The result is the given state if the condition holds, and a failure if not. -/
def Settles (c : Prop) (r : EStateM.Result Stop State Unit) (s : State) : Prop :=
  (c → r = .ok () s) ∧ (¬ c → Fails r)

section
variable {c d : Prop} {s s₁ s₂ : State} {α : Type}

theorem Settles.bind {p : Production Unit} {f : Unit → Production Unit} (hp : Settles c (p s) s₁)
    (hf : c → Settles d (f () s₁) s₂) : Settles (c ∧ d) ((p >>= f) s) s₂ := by
  by_cases hc : c
  · rw [bind_of_ok (hp.1 hc)]
    exact ⟨fun h => (hf hc).1 h.2, fun h => (hf hc).2 fun hd => h ⟨hc, hd⟩⟩
  · exact ⟨fun h => absurd h.1 hc, fun _ => (hp.2 hc).bind f⟩

theorem Settles.of_ok {r : EStateM.Result Stop State Unit} (hc : c) (h : r = .ok () s) :
    Settles c r s := ⟨fun _ => h, fun hn => absurd hc hn⟩

theorem Settles.congr {r : EStateM.Result Stop State Unit} (h : Settles c r s₁) (hc : c ↔ d)
    (hs : s₁ = s₂) : Settles d r s₂ := by
  subst hs
  exact ⟨fun hd => h.1 (hc.2 hd), fun hd => h.2 fun hn => hd (hc.1 hn)⟩

end

/-- The result is that of reading a statement spelled by `n` tokens, with labels from `l` on. -/
def DecidesStmt (st : Stmt) (n l : Nat) (s : State) (r : EStateM.Result Stop State Unit) : Prop :=
  Settles (st.WellTyped s.names) r (s.after n (st.code s.names l) st.labels)

section
variable {bound l : Nat} {s : State} {e : Expr} {k : TokenKind} {ts ks : List TokenKind}
  {x : String} {span : Span} {sym : Symbol}

theorem Decides.cases {n : Nat} {r : EStateM.Result Stop State Ty} (h : Decides e n s r) :
    (∃ t, e.HasType s.names t ∧ r = .ok t (s.after n (e.code s.names) 0)) ∨
      (∀ t, ¬ e.HasType s.names t) ∧ Fails r := by
  unfold Decides at h
  cases ht : e.type? s.names with
  | none =>
    rw [ht] at h
    refine .inr ⟨fun t hty => ?_, h⟩
    simp [Expr.type?_of_hasType hty] at ht
  | some t =>
    rw [ht] at h
    exact .inl ⟨t, Expr.hasType_of_type? ht, h⟩

theorem condition_settles (he : e.Spells .comparison ts) (hk : s.kinds = ts ++ k :: ks)
    (hb : ts.length ≤ bound) (hstop : Stops k) :
    Settles (e.HasType s.names .boolean) (condition bound sym s)
      (s.after ts.length (e.code s.names) 0) := by
  rw [condition_apply]
  rcases (expression_decides he hk hb hstop).cases with ⟨t, ht, hr⟩ | ⟨hno, y, s', hf⟩
  · rw [hr]
    by_cases hbool : t = .boolean
    · subst hbool
      exact .of_ok ht rfl
    · refine ⟨fun hty => absurd (ht.unique hty) hbool, fun _ => ?_⟩
      simp [hbool]
  · rw [hf]
    exact ⟨fun hty => absurd hty (hno _), fun _ => fails_error y⟩

theorem assignment_settles (he : e.Spells .comparison ts)
    (hk : s.kinds = .symbol .assignment :: (ts ++ k :: ks)) (hb : ts.length ≤ bound)
    (hstop : Stops k) :
    Settles ((Stmt.assign x e).WellTyped s.names) (assignment bound x span s)
      (s.after (ts.length + 1) (assignCode s.names x e) 0) := by
  by_cases hx : ∃ t slot, s.names x = some (.var t slot)
  · obtain ⟨t, slot, hx⟩ := hx
    have hk₁ : (s.after 1 [] 0).kinds = ts ++ k :: ks := by
      rw [State.after_one]
      exact State.kinds_advance hk (by simp)
    have h := (expression_decides he hk₁ hb hstop).cases
    rw [State.after_after, State.names_after] at h
    rw [assignment_var hx, accept_of_kinds hk]
    dsimp only
    rcases h with ⟨u, hu, hr⟩ | ⟨hno, y, s', hf⟩
    · rw [hr]
      by_cases hfits : u.fits t
      · refine .of_ok ⟨t, slot, u, hx, hu, hfits⟩ ?_
        simp [hfits, State.after_after, assignCode, hx, Expr.type?_of_hasType hu, Nat.add_comm 1]
      · refine ⟨?_, fun _ => by simp [hfits]⟩
        rintro ⟨t', slot', u', hx', hty, hfits'⟩
        cases hx.symm.trans hx'
        exact absurd (hu.unique hty ▸ hfits') hfits
    · rw [hf]
      refine ⟨?_, fun _ => fails_error y⟩
      rintro ⟨_, _, u, -, hty, -⟩
      exact absurd hty (hno u)
  · refine ⟨?_, fun _ => (assignment_refuses fun t slot hv => hx ⟨t, slot, hv⟩).fails⟩
    rintro ⟨t, slot, _, hv, -⟩
    exact absurd ⟨t, slot, hv⟩ hx

theorem head_of_spellsAll {es : List Expr} (h : Expr.SpellsAll ts es) :
    ∃ k ks, ts = k :: ks ∧ k ≠ .symbol .rightParen := by
  cases h with
  | one he => exact head_of_spells he
  | more he =>
    obtain ⟨k, ks, rfl, hk⟩ := head_of_spells he
    exact ⟨k, _, rfl, hk⟩

theorem arguments_settles {es : List Expr} {count : Nat} (hes : Expr.SpellsAll ts es)
    (hk : s.kinds = ts ++ .symbol .rightParen :: ks) (hb : ts.length ≤ bound)
    (hc : ts.length ≤ count) :
    Settles (∀ e ∈ es, ∃ t, e.HasType s.names t) (arguments bound count s)
      (s.after ts.length (es.flatMap (·.printCode s.names)) 0) := by
  induction hes generalizing s count with
  | @one ts e he =>
    obtain ⟨count, rfl⟩ := Nat.exists_eq_succ_of_ne_zero
      (Nat.ne_of_gt (Nat.lt_of_lt_of_le (length_pos_of_spells he) hc))
    rw [arguments_succ]
    rcases (expression_decides he hk hb ⟨rfl, rfl, rfl, by simp⟩).cases with
      ⟨t, ht, hr⟩ | ⟨hno, y, s', hf⟩
    · have hk₁ : (s.after ts.length (e.code s.names) 0).kinds = .symbol .rightParen :: ks :=
        State.kinds_after hk (by simp)
      refine .of_ok (by simpa using ⟨t, ht⟩) ?_
      rw [hr]
      simp [State.isSymbol_of_kinds hk₁, State.after_after, Expr.printCode,
        Expr.type?_of_hasType ht]
    · rw [hf]
      refine ⟨fun hty => ?_, fun _ => fails_error y⟩
      obtain ⟨t, hty⟩ := hty e (by simp)
      exact absurd hty (hno t)
  | @more ts us e es he hes ih =>
    simp only [List.length_append, List.length_cons] at hb hc
    obtain ⟨count, rfl⟩ := Nat.exists_eq_succ_of_ne_zero (show count ≠ 0 by omega)
    have hk' : s.kinds = ts ++ .symbol .comma :: (us ++ .symbol .rightParen :: ks) := by
      rw [hk]
      simp
    have h : Decides e ts.length s (expression bound s) :=
      expression_decides he hk' (by omega) ⟨rfl, rfl, rfl, by simp⟩
    rw [arguments_succ]
    rcases h.cases with ⟨t, ht, hr⟩ | ⟨hno, y, s', hf⟩
    · have hk₁ : (s.after ts.length (e.code s.names) 0).kinds =
          .symbol .comma :: (us ++ .symbol .rightParen :: ks) := State.kinds_after hk' (by simp)
      have hk₂ : ((s.after ts.length (e.code s.names) 0).after 1 [.print t] 0).kinds =
          us ++ .symbol .rightParen :: ks := State.kinds_advance hk₁ (by simp)
      have hrest := @ih _ count hk₂ (by omega) (by omega)
      rw [hr]
      simp only [State.isSymbol_of_kinds hk₁, beq_self_eq_true, if_true]
      rw [State.after_after, State.names_after] at hrest
      rw [State.after_after]
      refine hrest.congr ?_ ?_
      · have hty : ∃ t, e.HasType s.names t := ⟨t, ht⟩
        simp [hty]
      · simp [State.after_after, Expr.printCode, Expr.type?_of_hasType ht, Nat.add_assoc,
          Nat.add_comm 1]
    · rw [hf]
      refine ⟨fun hty => ?_, fun _ => fails_error y⟩
      obtain ⟨t, hty⟩ := hty e (by simp)
      exact absurd hty (hno t)

theorem call_settles {es : List Expr} (hx : Scope.key x = printName)
    (hes : (Stmt.write es).Spells .statement (.identifier x :: ts))
    (hk : s.kinds = ts ++ k :: ks) (hb : ts.length ≤ bound) :
    Settles ((Stmt.write es).WellTyped s.names) (call bound x span s)
      (s.after ts.length ((Stmt.write es).code s.names l) 0) := by
  rw [call_print hx]
  cases hes with
  | writeNothing =>
    have hk₁ : (s.after 1 [] 0).kinds = .symbol .rightParen :: k :: ks := by
      rw [State.after_one]
      exact State.kinds_advance hk (by simp)
    refine Settles.of_ok (by simp [Stmt.WellTyped]) ?_
    simp [accept_of_kinds hk, accept_of_kinds hk₁, State.isSymbol_of_kinds hk₁, State.after_after,
      Stmt.code]
  | @write ts _ _ _ hes =>
    have hk' : s.kinds = .symbol .leftParen :: (ts ++ .symbol .rightParen :: k :: ks) := by
      rw [hk]
      simp
    have hk₁ : (s.after 1 [] 0).kinds = ts ++ .symbol .rightParen :: k :: ks := by
      rw [State.after_one]
      exact State.kinds_advance hk' (by simp)
    simp only [List.length_cons, List.length_append, List.length_nil] at hb
    have hne : (s.after 1 [] 0).current.isSymbol .rightParen = false := by
      obtain ⟨y, ys, rfl, hy⟩ := head_of_spellsAll hes
      simp [State.isSymbol_of_kinds hk₁, hy]
    have hargs := @arguments_settles bound _ _ _ _ bound hes hk₁ (by omega) (by omega)
    rw [State.names_after, State.after_after] at hargs
    rw [accept_of_kinds hk']
    simp only [hne, Bool.false_eq_true, if_false]
    refine ⟨fun hty => ?_, fun hty => ?_⟩
    · have hk₂ : (s.after (1 + ts.length) ([] ++ es.flatMap (·.printCode s.names)) (0 + 0)).kinds =
          .symbol .rightParen :: k :: ks := by
        rw [← State.after_after]
        exact State.kinds_after hk₁ (by simp)
      rw [hargs.1 hty]
      simp only [accept_of_kinds hk₂, State.after_after, Stmt.code]
      congr 1
      · congr 1
        · simp only [List.length_cons, List.length_append, List.length_nil]
          omega
        · simp
    · obtain ⟨y, s', hf⟩ := hargs.2 hty
      simp [hf]
  | ofCompound h => cases h

theorem assign_decides (he : e.Spells .comparison ts)
    (hk : s.kinds = .identifier x :: .symbol .assignment :: (ts ++ k :: ks))
    (hb : ts.length ≤ bound) (hstop : Stops k) :
    DecidesStmt (.assign x e) (ts.length + 2) l s (simple bound x s) := by
  have hk₁ := State.kinds_advance hk (by simp)
  have h : Settles ((Stmt.assign x e).WellTyped s.advance.names)
      (assignment bound x s.current.span s.advance) _ := assignment_settles he hk₁ hb hstop
  rw [← State.after_one, State.names_after, State.after_after] at h
  rw [simple_apply, State.isSymbol_of_kinds hk₁, State.after_one.symm]
  exact h.congr Iff.rfl (by simp [Stmt.code, Stmt.labels, Nat.add_comm 1])

theorem write_decides {es : List Expr}
    (hes : (Stmt.write es).Spells .statement (.identifier x :: ts))
    (hx : Scope.key x = printName) (hk : s.kinds = .identifier x :: (ts ++ k :: ks))
    (hb : ts.length ≤ bound) :
    DecidesStmt (.write es) (ts.length + 1) l s (simple bound x s) := by
  have hk₁ := State.kinds_advance hk (by simp)
  have hhead : ∃ us, ts = .symbol .leftParen :: us := by
    cases hes with
    | writeNothing | write => exact ⟨_, rfl⟩
    | ofCompound h => cases h
  have h : Settles ((Stmt.write es).WellTyped s.advance.names)
      (call bound x s.current.span s.advance)
      (s.advance.after ts.length ((Stmt.write es).code s.advance.names l) 0) :=
    call_settles hx hes hk₁ hb
  rw [← State.after_one, State.names_after, State.after_after] at h
  obtain ⟨us, rfl⟩ := hhead
  rw [simple_apply, State.isSymbol_of_kinds hk₁, State.isSymbol_of_kinds hk₁,
    State.after_one.symm]
  exact h.congr Iff.rfl (by simp [Stmt.labels, Nat.add_comm 1])

end

section
variable {bound l : Nat} {s : State} {c : Expr} {a b : Stmt} {k : TokenKind}
  {ts us vs ks : List TokenKind} {p : Production Unit}

theorem stops_thenWord : Stops (.symbol .thenWord) := ⟨rfl, rfl, rfl, by simp⟩

theorem stops_doWord : Stops (.symbol .doWord) := ⟨rfl, rfl, rfl, by simp⟩

/-- A condition between two words: what is emitted at the first of them comes before its code. -/
theorem condition_between (bound : Nat) (sym : Symbol) {first last : Symbol}
    (hc : c.Spells .comparison ts)
    (hk : s.kinds = .symbol first :: (ts ++ .symbol last :: ks)) (hks : ks ≠ [])
    (hb : s.kinds.length ≤ bound) (hstop : Stops (.symbol last)) (is : List Instr) (n : Nat) :
    (c.HasType s.names .boolean →
      ∃ s₁, condition bound sym (s.after 1 is n) = .ok () s₁ ∧
        accept last s₁ = .ok () (s.after (ts.length + 2) (is ++ c.code s.names) n) ∧
        (s.after (ts.length + 2) (is ++ c.code s.names) n).kinds = ks) ∧
    (¬ c.HasType s.names .boolean → Fails (condition bound sym (s.after 1 is n))) := by
  simp only [hk, List.length_cons, List.length_append] at hb
  have hk₁ : (s.after 1 is n).kinds = ts ++ .symbol last :: ks :=
    State.kinds_advance hk (by simp)
  have h : Settles _ (condition bound sym (s.after 1 is n)) _ :=
    condition_settles hc hk₁ (by omega) hstop
  rw [State.names_after] at h
  refine ⟨fun hty => ⟨_, h.1 hty, ?_, ?_⟩, h.2⟩
  · have hk₂ : ((s.after 1 is n).after ts.length (c.code s.names) 0).kinds =
        .symbol last :: ks := State.kinds_after hk₁ (by simp)
    rw [accept_of_kinds hk₂, State.after_after, State.after_after]
    simp [Nat.add_comm 1, Nat.add_assoc]
  · have hk₂ : s.kinds = (.symbol first :: (ts ++ [.symbol last])) ++ ks := by
      rw [hk]
      simp
    have h₂ : (s.after (.symbol first :: (ts ++ [.symbol last]) : List TokenKind).length
        (is ++ c.code s.names) n).kinds = ks := State.kinds_after hk₂ hks
    simpa using h₂

/-- A choice is decided by its condition and by what is behind it. -/
theorem choice_settles (h : s.Ready bound l) (hc : c.Spells .comparison ts)
    (hk : s.kinds = .symbol .ifWord :: (ts ++ .symbol .thenWord :: ks)) (hks : ks ≠ []) {q : Prop}
    {s' : State} (hrest : (s.after (ts.length + 2) (c.code s.names) 0).kinds = ks →
      Settles q (choiceRest p l (s.after (ts.length + 2) (c.code s.names) 0)) s') :
    Settles (c.HasType s.names .boolean ∧ q) (choice bound p s) s' := by
  have hcond := condition_between bound .ifWord hc hk hks h.length stops_thenWord [] 0
  rw [choice_apply h, accept_of_kinds hk]
  by_cases hty : c.HasType s.names .boolean
  · obtain ⟨s₁, h₁, h₂, hk₂⟩ := hcond.1 hty
    simp only [h₁, h₂]
    exact (hrest hk₂).congr (by simp [hty]) rfl
  · obtain ⟨e, s₁, he⟩ := hcond.2 hty
    simp only [he]
    exact ⟨fun hq => absurd hq.1 hty, fun _ => fails_error e⟩

/-- A loop is decided by its condition and by what is behind it. -/
theorem loop_settles (h : s.Ready bound l) (hc : c.Spells .comparison ts)
    (hk : s.kinds = .symbol .whileWord :: (ts ++ .symbol .doWord :: ks)) (hks : ks ≠ []) {q : Prop}
    {s' : State}
    (hrest : (s.after (ts.length + 2) (.label (labelOf l) :: c.code s.names) 2).kinds = ks →
      Settles q
        (loopRest p l (s.after (ts.length + 2) (.label (labelOf l) :: c.code s.names) 2)) s') :
    Settles (c.HasType s.names .boolean ∧ q) (loop bound p s) s' := by
  have hcond := condition_between bound .whileWord hc hk hks h.length stops_doWord
    [Instr.label (labelOf l)] 2
  rw [loop_apply h, accept_of_kinds hk]
  simp only [State.after_after]
  by_cases hty : c.HasType s.names .boolean
  · obtain ⟨s₁, h₁, h₂, hk₂⟩ := hcond.1 hty
    simp only [List.nil_append, Nat.add_zero, Nat.zero_add, h₁, h₂]
    exact (hrest hk₂).congr (by simp [hty]) rfl
  · obtain ⟨e, s₁, he⟩ := hcond.2 hty
    simp only [List.nil_append, Nat.add_zero, Nat.zero_add, he]
    exact ⟨fun hq => absurd hq.1 hty, fun _ => fails_error e⟩

/-- The production decides a statement spelled by `us`, with `ks` behind it, wherever it stands. -/
def DecidesBody (p : Production Unit) (bound : Nat) (us ks : List TokenKind) (a : Stmt) (l : Nat) :
    Prop :=
  ∀ s : State, s.Ready bound l → s.kinds = us ++ ks → DecidesStmt a us.length l s (p s)

theorem State.Ready.after_spelled {is : List Instr} {m : Nat} (h : s.Ready bound l)
    (hk : s.kinds = ts ++ ks) (hks : ks ≠ []) :
    (s.after ts.length is m).Ready bound (l + m) ∧ (s.after ts.length is m).kinds = ks := by
  have hk' : (s.after ts.length is m).kinds = ks := State.kinds_after hk hks
  exact ⟨h.after (by rw [hk, hk']) rfl, hk'⟩

theorem choiceRest_ifThen (h : s.Ready bound l) (hk : s.kinds = us ++ k :: ks)
    (hne : k ≠ .symbol .elseWord) (ha : DecidesBody p bound us (k :: ks) a (l + 2)) :
    Settles (a.WellTyped s.names) (choiceRest p l s)
      (s.after us.length (.jumpIfFalse (labelOf l) :: (a.code s.names (l + 2) ++
        [.jump (labelOf (l + 1)), .label (labelOf l), .label (labelOf (l + 1))]))
        (a.labels + 2)) := by
  have hbody := ha (s.after 0 [.jumpIfFalse (labelOf l)] 2) h.emit hk
  rw [DecidesStmt, State.names_after, State.after_after] at hbody
  refine ⟨fun hty => ?_, fun hty => ?_⟩
  · have hk₁ : (s.after (0 + us.length) ([.jumpIfFalse (labelOf l)] ++ a.code s.names (l + 2))
        (2 + a.labels)).kinds = k :: ks := by
      rw [Nat.zero_add]
      exact State.kinds_after hk (by simp)
    rw [choiceRest, hbody.1 hty]
    simp only [State.isSymbol_of_kinds hk₁, beq_iff_eq, hne, if_false, State.after_after]
    simp [Nat.add_comm 2]
  · obtain ⟨e, s', he⟩ := hbody.2 hty
    rw [choiceRest, he]
    exact fails_error e

theorem choiceRest_ifElse (h : s.Ready bound l)
    (hk : s.kinds = us ++ .symbol .elseWord :: (vs ++ k :: ks))
    (ha : DecidesBody p bound us (.symbol .elseWord :: (vs ++ k :: ks)) a (l + 2))
    (hb : DecidesBody p bound vs (k :: ks) b (l + 2 + a.labels)) :
    Settles (a.WellTyped s.names ∧ b.WellTyped s.names) (choiceRest p l s)
      (s.after (us.length + vs.length + 1)
        (.jumpIfFalse (labelOf l) :: (a.code s.names (l + 2) ++ .jump (labelOf (l + 1)) ::
          .label (labelOf l) :: (b.code s.names (l + 2 + a.labels) ++ [.label (labelOf (l + 1))])))
        (a.labels + b.labels + 2)) := by
  have hbody := ha (s.after 0 [.jumpIfFalse (labelOf l)] 2) h.emit hk
  rw [DecidesStmt, State.names_after, State.after_after, Nat.zero_add] at hbody
  by_cases hty : a.WellTyped s.names
  · obtain ⟨h₁, hk₁⟩ : (s.after us.length ([.jumpIfFalse (labelOf l)] ++ a.code s.names (l + 2))
        (2 + a.labels)).Ready bound (l + (2 + a.labels)) ∧ _ :=
      h.after_spelled hk (by simp)
    obtain ⟨h₂, hk₂⟩ : ((s.after us.length ([.jumpIfFalse (labelOf l)] ++ a.code s.names (l + 2))
        (2 + a.labels)).after 1 [.jump (labelOf (l + 1)), .label (labelOf l)] 0).Ready bound
        (l + (2 + a.labels) + 0) ∧ _ :=
      h₁.after_spelled (show _ = [_] ++ (vs ++ k :: ks) from hk₁) (by simp)
    rw [Nat.add_zero, ← Nat.add_assoc] at h₂
    have hother := hb _ h₂ hk₂
    rw [DecidesStmt, State.after_after, State.names_after, State.after_after] at hother
    rw [choiceRest, hbody.1 hty]
    simp only [State.isSymbol_of_kinds hk₁, beq_self_eq_true, if_true]
    rw [State.after_after]
    refine ⟨fun hq => ?_, fun hq => ?_⟩
    · rw [hother.1 hq.2]
      simp only [State.after_after]
      congr 1
      congr 1
      · omega
      · simp
      · omega
    · obtain ⟨e, s', he⟩ := hother.2 fun hb => hq ⟨hty, hb⟩
      rw [he]
      exact fails_error e
  · obtain ⟨e, s', he⟩ := hbody.2 hty
    rw [choiceRest, he]
    exact ⟨fun hq => absurd hq.1 hty, fun _ => fails_error e⟩

theorem loopRest_settles (h : s.Ready bound l) (hk : s.kinds = us ++ k :: ks)
    (ha : DecidesBody p bound us (k :: ks) a l) {m : Nat} :
    Settles (a.WellTyped s.names) (loopRest p m s)
      (s.after us.length (.jumpIfFalse (labelOf (m + 1)) :: (a.code s.names l ++
        [.jump (labelOf m), .label (labelOf (m + 1))])) a.labels) := by
  have hbody := ha (s.after 0 [.jumpIfFalse (labelOf (m + 1))] 0) h.emit hk
  rw [DecidesStmt, State.names_after, State.after_after] at hbody
  refine ⟨fun hty => ?_, fun hty => ?_⟩
  · rw [loopRest, hbody.1 hty]
    simp [State.after_after]
  · obtain ⟨e, s', he⟩ := hbody.2 hty
    rw [loopRest, he]
    exact fails_error e

end

section
variable {bound l count : Nat} {s : State} {st : Stmt} {k : TokenKind} {ts ks : List TokenKind}
  {p : Production Unit} {part : Part}

theorem head_of_stmtSpells (h : st.Spells part ts) :
    ∃ k ks, ts = k :: ks ∧ k ≠ .symbol .endWord := by
  induction h with
  | empty | block | assign | writeNothing | write | ifThen | ifElse | loop =>
    exact ⟨_, _, rfl, by simp⟩
  | last _ ih | ofCompound _ ih => exact ih
  | lastSemicolon _ ih | more _ _ ih =>
    obtain ⟨k, ks, rfl, hk⟩ := ih
    exact ⟨k, _, rfl, hk⟩

theorem sequence_stop (hk : s.kinds = k :: ks) (hne : k ≠ .symbol .semicolon) :
    sequence p count s = .ok () s := by
  cases count with
  | zero => rfl
  | succ count => simp [sequence, bind_apply, State.isSymbol_of_kinds hk, hne]

theorem sequence_end (hk : s.kinds = .symbol .semicolon :: .symbol .endWord :: ks) :
    sequence p (count + 1) s = .ok () (s.after 1 [] 0) := by
  have hk₁ : s.advance.kinds = .symbol .endWord :: ks := State.kinds_advance hk (by simp)
  simp [sequence, bind_apply, State.isSymbol_of_kinds hk, State.isSymbol_of_kinds hk₁,
    State.after_one]

theorem sequence_more (hk : s.kinds = .symbol .semicolon :: k :: ks)
    (hne : k ≠ .symbol .endWord) :
    sequence p (count + 1) s = (p >>= fun _ => sequence p count) (s.after 1 [] 0) := by
  have hk₁ : s.advance.kinds = k :: ks := State.kinds_advance hk (by simp)
  rw [State.after_one]
  simp [sequence, bind_apply, State.isSymbol_of_kinds hk, State.isSymbol_of_kinds hk₁, hne]

/-- The token stands behind statements. -/
def EndsStatement (k : TokenKind) : Prop :=
  k = .symbol .semicolon ∨ k = .symbol .endWord ∨ k = .symbol .elseWord

theorem EndsStatement.stops (h : EndsStatement k) : Stops k := by
  rcases h with rfl | rfl | rfl <;> exact ⟨rfl, rfl, rfl, by simp⟩

/-- What the production of a part does with tokens that spell one, if `k` stands behind them. -/
def StmtReadAt (bound depth l : Nat) (k : TokenKind) (st : Stmt) (n : Nat) (s : State) :
    Part → Prop
  | .compound =>
    ∀ d, depth = d + 1 → DecidesStmt st n l s (compound bound (statement bound d) s)
  | .statement => EndsStatement k → (st.isOpen → k ≠ .symbol .elseWord) →
      DecidesStmt st n l s (statement bound depth s)
  | .sequence => k = .symbol .endWord → ∀ count, n ≤ count →
      DecidesStmt st n l s
        ((statement bound depth >>= fun _ => sequence (statement bound depth) count) s)

theorem statement_of_name {depth : Nat} {x : String} (hk : s.kinds = .identifier x :: ks) :
    statement bound (depth + 1) s = simple bound x s := by
  simp [statement, bind_apply, State.kind_of_kinds hk]

theorem statement_of_begin {depth : Nat} (hk : s.kinds = .symbol .beginWord :: ks) :
    statement bound (depth + 1) s = compound bound (statement bound depth) s := by
  simp [statement, bind_apply, State.kind_of_kinds hk]

theorem statement_of_if {depth : Nat} (hk : s.kinds = .symbol .ifWord :: ks) :
    statement bound (depth + 1) s = choice bound (statement bound depth) s := by
  simp [statement, bind_apply, State.kind_of_kinds hk]

theorem statement_of_while {depth : Nat} (hk : s.kinds = .symbol .whileWord :: ks) :
    statement bound (depth + 1) s = loop bound (statement bound depth) s := by
  simp [statement, bind_apply, State.kind_of_kinds hk]

theorem compound_empty (hk : s.kinds = .symbol .beginWord :: .symbol .endWord :: ks) :
    compound bound p s = .ok () (s.after 2 [] 0) := by
  have hk₁ : (s.after 1 [] 0).kinds = .symbol .endWord :: ks := State.kinds_advance hk (by simp)
  rw [compound_apply, accept_of_kinds hk]
  simp [State.isSymbol_of_kinds hk₁, State.advance_after]

theorem compound_block (hk : s.kinds = .symbol .beginWord :: k :: ks)
    (hne : k ≠ .symbol .endWord) :
    compound bound p s =
      match (p >>= fun _ => sequence p bound) (s.after 1 [] 0) with
      | .error e s' => .error e s'
      | .ok () s' => accept .endWord s' := by
  have hk₁ : (s.after 1 [] 0).kinds = k :: ks := State.kinds_advance hk (by simp)
  rw [compound_apply, accept_of_kinds hk]
  simp only [State.isSymbol_of_kinds hk₁, beq_iff_eq, hne, if_false, bind_apply]
  cases p (s.after 1 [] 0) <;> rfl

end

section
variable {bound l depth : Nat} {s : State} {st a b : Stmt} {c : Expr} {k : TokenKind}
  {ts us vs ks : List TokenKind} {part : Part}

/-- What stands between two words is passed along with them. -/
theorem State.Ready.between {first last : Symbol} (h : s.Ready bound l)
    (hk : s.kinds = .symbol first :: (ts ++ .symbol last :: ks)) (hks : ks ≠ []) {is : List Instr}
    {m : Nat} : (s.after (ts.length + 2) is m).Ready bound (l + m) := by
  have hk₁ : s.kinds = (.symbol first :: (ts ++ [.symbol last])) ++ ks := by
    rw [hk]
    simp
  have h₁ : (s.after (.symbol first :: (ts ++ [.symbol last]) : List TokenKind).length is m).Ready
      bound (l + m) := (h.after_spelled hk₁ hks).1
  simpa using h₁

theorem ifThen_decides (h : s.Ready bound l) (hc : c.Spells .comparison ts)
    (hk : s.kinds = .symbol .ifWord :: (ts ++ .symbol .thenWord :: (us ++ k :: ks)))
    (hne : k ≠ .symbol .elseWord)
    (ha : DecidesBody (statement bound depth) bound us (k :: ks) a (l + 2)) :
    DecidesStmt (.ifThen c a) (ts.length + us.length + 2) l s
      (statement bound (depth + 1) s) := by
  have h₁ : (s.after (ts.length + 2) (c.code s.names) 0).Ready bound l := h.between hk (by simp)
  rw [statement_of_if hk]
  have hset := choice_settles h hc hk (by simp) fun hk₂ => choiceRest_ifThen h₁ hk₂ hne ha
  rw [State.names_after, State.after_after] at hset
  refine hset.congr Iff.rfl ?_
  congr 1
  · omega
  · simp [Stmt.labels]

theorem ifElse_decides (h : s.Ready bound l) (hc : c.Spells .comparison ts)
    (hk : s.kinds = .symbol .ifWord ::
      (ts ++ .symbol .thenWord :: (us ++ .symbol .elseWord :: (vs ++ k :: ks))))
    (ha : DecidesBody (statement bound depth) bound us (.symbol .elseWord :: (vs ++ k :: ks)) a
      (l + 2))
    (hb : DecidesBody (statement bound depth) bound vs (k :: ks) b (l + 2 + a.labels)) :
    DecidesStmt (.ifElse c a b) (ts.length + us.length + vs.length + 3) l s
      (statement bound (depth + 1) s) := by
  have h₁ : (s.after (ts.length + 2) (c.code s.names) 0).Ready bound l := h.between hk (by simp)
  rw [statement_of_if hk]
  have hset := choice_settles h hc hk (by simp) fun hk₂ => choiceRest_ifElse h₁ hk₂ ha hb
  rw [State.names_after, State.after_after] at hset
  refine hset.congr Iff.rfl ?_
  congr 1
  · omega
  · simp [Stmt.labels]

theorem loop_decides (h : s.Ready bound l) (hc : c.Spells .comparison ts)
    (hk : s.kinds = .symbol .whileWord :: (ts ++ .symbol .doWord :: (us ++ k :: ks)))
    (ha : DecidesBody (statement bound depth) bound us (k :: ks) a (l + 2)) :
    DecidesStmt (.loop c a) (ts.length + us.length + 2) l s
      (statement bound (depth + 1) s) := by
  have h₁ : (s.after (ts.length + 2) (.label (labelOf l) :: c.code s.names) 2).Ready bound
      (l + 2) := h.between hk (by simp)
  rw [statement_of_while hk]
  have hset := loop_settles h hc hk (by simp) fun hk₂ => loopRest_settles h₁ hk₂ ha (m := l)
  rw [State.names_after, State.after_after] at hset
  refine hset.congr Iff.rfl ?_
  congr 1
  · omega
  · simp [Stmt.labels, Nat.add_comm]

/-- The first statement of a sequence and what the loop behind it does. -/
theorem sequence_settles {count m n : Nat} {q : Prop} {s' : State}
    (ha : DecidesStmt a n l s (statement bound depth s))
    (hrest : Settles q (sequence (statement bound depth) count
      (s.after n (a.code s.names l) a.labels)) s')
    (hs : s' = s.after m ((Stmt.seq a b).code s.names l) (Stmt.seq a b).labels)
    (hq : q ↔ b.WellTyped s.names) :
    DecidesStmt (.seq a b) m l s
      ((statement bound depth >>= fun _ => sequence (statement bound depth) count) s) :=
  (ha.bind fun _ => hrest).congr (by simp [Stmt.WellTyped, hq]) hs

theorem last_decides {count : Nat} (hk : s.kinds = ts ++ .symbol .endWord :: ks)
    (ha : DecidesStmt a ts.length l s (statement bound depth s)) :
    DecidesStmt (.seq a .skip) ts.length l s
      ((statement bound depth >>= fun _ => sequence (statement bound depth) count) s) := by
  have hk₁ : (s.after ts.length (a.code s.names l) a.labels).kinds = .symbol .endWord :: ks :=
    State.kinds_after hk (by simp)
  refine sequence_settles ha (.of_ok trivial (sequence_stop hk₁ (by simp))) ?_ (by
    simp [Stmt.WellTyped])
  simp [Stmt.code, Stmt.labels]

theorem lastSemicolon_decides {count : Nat}
    (hk : s.kinds = ts ++ .symbol .semicolon :: .symbol .endWord :: ks)
    (ha : DecidesStmt a ts.length l s (statement bound depth s)) :
    DecidesStmt (.seq a .skip) (ts.length + 1) l s
      ((statement bound depth >>= fun _ => sequence (statement bound depth) (count + 1)) s) := by
  have hk₁ : (s.after ts.length (a.code s.names l) a.labels).kinds =
      .symbol .semicolon :: .symbol .endWord :: ks := State.kinds_after hk (by simp)
  refine sequence_settles ha (.of_ok trivial (sequence_end hk₁)) ?_ (by simp [Stmt.WellTyped])
  simp [State.after_after, Stmt.code, Stmt.labels]

theorem more_decides {count : Nat} (hk : s.kinds = ts ++ .symbol .semicolon :: (us ++ ks))
    (hus : b.Spells .sequence us)
    (ha : DecidesStmt a ts.length l s (statement bound depth s))
    (hb : (s.after (ts.length + 1) (a.code s.names l) a.labels).kinds = us ++ ks →
      DecidesStmt b us.length (l + a.labels) (s.after (ts.length + 1) (a.code s.names l) a.labels)
        ((statement bound depth >>= fun _ => sequence (statement bound depth) count)
          (s.after (ts.length + 1) (a.code s.names l) a.labels))) :
    DecidesStmt (.seq a b) (ts.length + us.length + 1) l s
      ((statement bound depth >>= fun _ => sequence (statement bound depth) (count + 1)) s) := by
  obtain ⟨y, ys, rfl, hy⟩ := head_of_stmtSpells hus
  have hk₁ : (s.after ts.length (a.code s.names l) a.labels).kinds =
      .symbol .semicolon :: y :: (ys ++ ks) := State.kinds_after hk (by simp)
  have hk₂ : ((s.after ts.length (a.code s.names l) a.labels).after 1 [] 0).kinds =
      y :: ys ++ ks := State.kinds_advance hk₁ (by simp)
  rw [State.after_after, List.append_nil, Nat.add_zero] at hk₂
  have hrest := hb hk₂
  rw [DecidesStmt, State.names_after, State.after_after] at hrest
  refine sequence_settles (q := b.WellTyped s.names) ha ?_ rfl Iff.rfl
  rw [sequence_more hk₁ hy, State.after_after, List.append_nil, Nat.add_zero]
  refine hrest.congr Iff.rfl ?_
  congr 1
  simp only [List.length_cons]
  omega

theorem block_decides (h : st.Spells .sequence ts)
    (hk : s.kinds = .symbol .beginWord :: (ts ++ .symbol .endWord :: ks))
    (hs : (s.after 1 [] 0).kinds = ts ++ .symbol .endWord :: ks →
      DecidesStmt st ts.length l (s.after 1 [] 0)
        ((statement bound depth >>= fun _ => sequence (statement bound depth) bound)
          (s.after 1 [] 0))) :
    DecidesStmt st (ts.length + 2) l s (compound bound (statement bound depth) s) := by
  have hk₁ : (s.after 1 [] 0).kinds = ts ++ .symbol .endWord :: ks :=
    State.kinds_advance hk (by simp)
  have hseq := hs hk₁
  rw [DecidesStmt, State.names_after, State.after_after, List.nil_append, Nat.zero_add] at hseq
  obtain ⟨y, ys, rfl, hy⟩ := head_of_stmtSpells h
  rw [compound_block hk hy]
  refine ⟨fun hty => ?_, fun hty => ?_⟩
  · have hk₂ : ((s.after 1 [] 0).after (y :: ys).length (st.code s.names l) st.labels).kinds =
        .symbol .endWord :: ks := State.kinds_after hk₁ (by simp)
    rw [State.after_after, List.nil_append, Nat.zero_add] at hk₂
    rw [hseq.1 hty]
    dsimp only
    rw [accept_of_kinds hk₂, State.after_after, List.append_nil, Nat.add_zero]
    congr 2
    omega
  · obtain ⟨e, s', he⟩ := hseq.2 hty
    rw [he]
    exact fails_error e

/-- The statement production is deep enough for any statement as long as the depth. -/
theorem exists_depth {n : Nat} (h : n + 1 ≤ depth) : ∃ d, depth = d + 1 ∧ n ≤ d :=
  ⟨depth - 1, by omega, by omega⟩

theorem begin_of_compound (h : st.Spells .compound ts) :
    ∃ us, ts = .symbol .beginWord :: us := by
  cases h <;> exact ⟨_, rfl⟩

theorem stmtReadAt_of_spells (h : st.Spells part ts) :
    ∀ depth l s k ks, s.Ready bound l → s.kinds = ts ++ k :: ks → ts.length ≤ depth →
      st.NearestElse → StmtReadAt bound depth l k st ts.length s part := by
  induction h with
  | empty =>
    intro depth l s k ks hr hk hd hn d hdepth
    refine Settles.of_ok trivial ?_
    rw [compound_empty hk]
    simp [Stmt.code, Stmt.labels]
  | @block ts st hs ih =>
    rintro depth l s k ks hr hk hd hn d rfl
    have hk' : s.kinds = .symbol .beginWord :: (ts ++ .symbol .endWord :: k :: ks) := by
      rw [hk]
      simp
    have hlen := hr.length
    simp only [hk', List.length_cons, List.length_append, List.length_nil] at hd hlen
    have hdec : DecidesStmt st (ts.length + 2) l s (compound bound (statement bound d) s) := by
      refine block_decides hs hk' fun hk₁ => ?_
      have hr₁ : (s.after 1 [] 0).Ready bound l :=
        (hr.after_spelled (show s.kinds = [_] ++ _ from hk') (by simp)).1
      exact ih d l _ _ _ hr₁ hk₁ (by omega) hn rfl bound (by omega)
    simpa using hdec
  | last hs ih =>
    rintro depth l s k ks hr hk hd hn rfl count hcount
    refine last_decides hk (ih depth l s _ _ hr hk hd hn.1 (.inr (.inl rfl)) (by simp))
  | @lastSemicolon ts st hs ih =>
    rintro depth l s k ks hr hk hd hn rfl count hcount
    simp only [List.length_append, List.length_cons, List.length_nil] at hd hcount ⊢
    obtain ⟨count, rfl, -⟩ := exists_depth hcount
    have hk' : s.kinds = ts ++ .symbol .semicolon :: .symbol .endWord :: ks := by
      rw [hk]
      simp
    exact lastSemicolon_decides hk'
      (ih depth l s _ _ hr hk' (by omega) hn.1 (.inl rfl) (by simp))
  | @more ts us a b ha hb iha ihb =>
    rintro depth l s k ks hr hk hd hn rfl count hcount
    simp only [List.length_append, List.length_cons] at hd hcount
    obtain ⟨count, rfl, hcount⟩ := exists_depth (show ts.length + us.length + 1 ≤ count by omega)
    have hk' : s.kinds = ts ++ .symbol .semicolon :: (us ++ .symbol .endWord :: ks) := by
      rw [hk]
      simp
    have hdec : DecidesStmt (.seq a b) (ts.length + us.length + 1) l s
        ((statement bound depth >>= fun _ => sequence (statement bound depth) (count + 1)) s) := by
      refine more_decides hk' hb (iha depth l s _ _ hr hk' (by omega) hn.1 (.inl rfl) (by simp)) ?_
      intro hk₁
      have hk₂ : s.kinds = (ts ++ [.symbol .semicolon]) ++ (us ++ .symbol .endWord :: ks) := by
        rw [hk']
        simp
      have hr₁ : (s.after (ts ++ [.symbol .semicolon] : List TokenKind).length
          (a.code s.names l) a.labels).Ready bound (l + a.labels) :=
        (hr.after_spelled hk₂ (by simp)).1
      rw [List.length_append] at hr₁
      exact ihb depth _ _ _ _ hr₁ hk₁ (by omega) hn.2 rfl count (by omega)
    simpa [Nat.add_assoc] using hdec
  | ofCompound hs ih =>
    intro depth l s k ks hr hk hd hn hend hopen
    obtain ⟨us, rfl⟩ := begin_of_compound hs
    obtain ⟨d, rfl, -⟩ := exists_depth hd
    rw [statement_of_begin hk]
    exact ih (d + 1) l s k ks hr hk hd hn d rfl
  | assign x he =>
    intro depth l s k ks hr hk hd hn hend hopen
    simp only [List.length_cons] at hd
    obtain ⟨d, rfl, hd⟩ := exists_depth hd
    have hlen := hr.length
    simp only [hk, List.length_cons, List.length_append] at hlen
    rw [statement_of_name hk]
    exact assign_decides he hk (by omega) hend.stops
  | @writeNothing x hx =>
    intro depth l s k ks hr hk hd hn hend hopen
    obtain ⟨d, rfl, hd⟩ := exists_depth hd
    have hlen := hr.length
    simp only [hk, List.length_cons, List.length_append] at hlen
    rw [statement_of_name hk]
    exact write_decides (.writeNothing hx) hx hk (by simp; omega)
  | @write ts es x hx hes =>
    intro depth l s k ks hr hk hd hn hend hopen
    obtain ⟨d, rfl, hd⟩ := exists_depth hd
    have hlen := hr.length
    simp only [hk, List.length_cons, List.length_append] at hlen
    rw [statement_of_name hk]
    exact write_decides (.write hx hes) hx hk (by simp; omega)
  | @ifThen ts us c a hc ha ih =>
    intro depth l s k ks hr hk hd hn hend hopen
    obtain ⟨d, rfl, hd⟩ := exists_depth hd
    simp only [List.length_append, List.length_cons] at hd
    have hk' : s.kinds = .symbol .ifWord :: (ts ++ .symbol .thenWord :: (us ++ k :: ks)) := by
      rw [hk]
      simp
    have hne := hopen rfl
    have hdec := ifThen_decides hr hc hk' hne fun s₁ hr₁ hk₁ =>
      ih d (l + 2) s₁ k ks hr₁ hk₁ (by omega) hn hend fun _ => hne
    simpa [Nat.add_assoc] using hdec
  | @ifElse ts us vs c a b hc ha hb iha ihb =>
    intro depth l s k ks hr hk hd hn hend hopen
    obtain ⟨d, rfl, hd⟩ := exists_depth hd
    simp only [List.length_append, List.length_cons] at hd
    obtain ⟨hclosed, hna, hnb⟩ := hn
    have hk' : s.kinds = .symbol .ifWord ::
        (ts ++ .symbol .thenWord :: (us ++ .symbol .elseWord :: (vs ++ k :: ks))) := by
      rw [hk]
      simp
    have hdec := ifElse_decides (b := b) hr hc hk'
      (fun s₁ hr₁ hk₁ => iha d (l + 2) s₁ _ _ hr₁ hk₁ (by omega) hna (.inr (.inr rfl)) (by
        simp [hclosed]))
      fun s₁ hr₁ hk₁ => ihb d _ s₁ k ks hr₁ hk₁ (by omega) hnb hend hopen
    simpa [Nat.add_assoc, Nat.add_comm 1] using hdec
  | @loop ts us c a hc ha ih =>
    intro depth l s k ks hr hk hd hn hend hopen
    obtain ⟨d, rfl, hd⟩ := exists_depth hd
    simp only [List.length_append, List.length_cons] at hd
    have hk' : s.kinds = .symbol .whileWord :: (ts ++ .symbol .doWord :: (us ++ k :: ks)) := by
      rw [hk]
      simp
    have hdec := loop_decides hr hc hk' fun s₁ hr₁ hk₁ =>
      ih d (l + 2) s₁ k ks hr₁ hk₁ (by omega) hn hend hopen
    simpa [Nat.add_assoc] using hdec

/-- A compound statement with another token behind it. -/
theorem compound_decides (h : st.Spells .compound ts) (hn : st.NearestElse) (hr : s.Ready bound l)
    (hk : s.kinds = ts ++ k :: ks) :
    DecidesStmt st ts.length l s (compound bound (statement bound bound) s) := by
  have hlen := hr.length
  simp only [hk, List.length_append, List.length_cons] at hlen
  exact stmtReadAt_of_spells h (bound + 1) l s k ks hr hk (by omega) hn bound rfl

end
end MiniPascal.Grammar
