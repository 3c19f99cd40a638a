import MiniPascal.Proofs.Reading.Expression

/-! The productions of statements against the trees they read. -/
namespace MiniPascal.Grammar

/-- The end is ahead, no more tokens are left than the bound allows, and the next label is the
`n`th. -/
structure State.Ready (s : State) (bound n : Nat) : Prop where
  ended : s.Ended
  length : s.kinds.length ≤ bound
  labels : s.code.labels = UInt32.ofNat n

section
variable {s s' : State} {bound m n l : Nat} {ts : List TokenKind} {is : List Instr}

theorem State.Ready.after (h : s.Ready bound n) (hk : s.kinds = ts ++ s'.kinds)
    (hs : s' = s.after m is l) : s'.Ready bound (n + l) := by
  constructor
  · exact h.ended.of_append hk
  · have hlen := h.length
    rw [hk, List.length_append] at hlen
    omega
  · rw [hs, State.labels_after, h.labels, UInt32.ofNat_add]

theorem State.Ready.emit (h : s.Ready bound n) : (s.after 0 is l).Ready bound (n + l) :=
  h.after (List.nil_append _).symm rfl

/-- Passing an accepted symbol. -/
theorem State.Ready.accept {sym : Symbol} (h : s.Ready bound n) (ha : accept sym s = .ok () s') :
    s'.Ready bound n ∧ s.kinds = .symbol sym :: s'.kinds ∧ s' = s.after 1 [] 0 := by
  obtain ⟨hk, hs⟩ := accept_eq_ok h.ended ha
  exact ⟨h.after (List.singleton_append ▸ hk) hs, hk, hs⟩

end

/-- Between two states a statement was read, whose labels are numbered from `n` on. -/
structure ReadsStmt (part : Part) (ts : List TokenKind) (st : Stmt) (n : Nat) (s s' : State) :
    Prop where
  spells : st.Spells part ts
  nearest : st.NearestElse
  kinds : s.kinds = ts ++ s'.kinds
  typed : st.WellTyped s.names
  state : s' = s.after ts.length (st.code s.names n) st.labels
  closed : st.isOpen → s'.current.kind ≠ .symbol .elseWord

/-- Whatever the production passes is a statement. -/
def ReadsStatements (part : Part) (bound : Nat) (p : Production Unit) : Prop :=
  ∀ s s' n, s.Ready bound n → p s = .ok () s' → ∃ ts st, ReadsStmt part ts st n s s'

section
variable {bound n : Nat} {s s' : State} {x : String} {span : Span} {t u : Ty} {slot : Slot}
  {sym : Symbol}

theorem expression_reads (h : s.Ready bound n) (hp : expression bound s = .ok t s') :
    s'.Ready bound n ∧ ∃ ts e, Reads .comparison ts e s t s' := by
  obtain ⟨ts, e, hr⟩ := expression_readsOnly s t s' h.ended hp
  exact ⟨h.after hr.kinds hr.state, ts, e, hr⟩

theorem condition_apply :
    condition bound sym s = match expression bound s with
      | .error e s' => .error e s'
      | .ok t s' =>
        if t == .boolean then .ok () s'
        else .error (.rejected ⟨.conditionType sym t, ⟨s.current.span.offset,
          s'.lastStop - s.current.span.offset⟩⟩) s' := by
  simp only [condition, bind_apply, here_apply]
  cases expression bound s with
  | error e s' => rfl
  | ok t s' => cases ht : t == .boolean <;> simp [ht, bind_apply]

theorem condition_reads (h : s.Ready bound n) (hp : condition bound sym s = .ok () s') :
    s'.Ready bound n ∧ ∃ ts e, Reads .comparison ts e s .boolean s' := by
  rw [condition_apply] at hp
  split at hp
  · cases hp
  · next t s₁ he =>
    split at hp
    · next ht =>
      cases hp
      cases eq_of_beq ht
      exact expression_reads h he
    · cases hp

/-- An assignment to a variable, from its symbol on. -/
theorem assignment_var (hx : s.names x = some (.var t slot)) :
    assignment bound x span s = match accept .assignment s with
      | .error e s' => .error e s'
      | .ok () s' => match expression bound s' with
        | .error e s'' => .error e s''
        | .ok u s'' =>
          if u.fits t then .ok () (s''.after 0 (storeCode u t slot) 0)
          else .error (.rejected ⟨.assignedType u x t, ⟨s'.current.span.offset,
            s''.lastStop - s'.current.span.offset⟩⟩) s'' := by
  simp only [assignment, bind_apply, lookup_of_some _ hx]
  cases accept .assignment s with
  | error e s' => rfl
  | ok a s' =>
    simp only [here_apply]
    cases expression bound s' with
    | error e s'' => rfl
    | ok u s'' =>
      cases u <;> cases t <;> simp [bind_apply, Ty.fits, storeCode, State.after_after]

theorem assignment_refuses (hx : ∀ t slot, s.names x ≠ some (.var t slot)) :
    Refuses span s (assignment bound x span s) := by
  simp only [assignment, bind_apply]
  cases he : s.names x with
  | none => simp [lookup_of_none _ he]
  | some e =>
    simp only [lookup_of_some _ he]
    cases e with
    | var t slot => exact absurd he (hx t slot)
    | _ => simp

theorem assignment_reads (h : s.Ready bound n) (hp : assignment bound x span s = .ok () s') :
    ∃ ts e, e.Spells .comparison ts ∧ s.kinds = .symbol .assignment :: (ts ++ s'.kinds) ∧
      (Stmt.assign x e).WellTyped s.names ∧
      s' = s.after (ts.length + 1) (assignCode s.names x e) 0 := by
  by_cases hx : ∃ t slot, s.names x = some (.var t slot)
  · obtain ⟨t, slot, hx⟩ := hx
    rw [assignment_var hx] at hp
    split at hp
    · cases hp
    · next s₁ ha =>
      obtain ⟨h₁, hk₁, hs₁⟩ := h.accept ha
      have hn : s₁.names = s.names := by rw [hs₁, State.names_after]
      split at hp
      · cases hp
      · next u s₂ he =>
        obtain ⟨h₂, ts, e, hr⟩ := expression_reads h₁ he
        split at hp
        · next hfits =>
          cases hp
          refine ⟨ts, e, hr.spells, ?_, ⟨t, slot, u, hx, ?_, hfits⟩, ?_⟩
          · rw [hk₁, hr.kinds]
            rfl
          · exact Expr.hasType_of_type? (hn ▸ hr.type)
          · rw [hr.state, hn, hs₁]
            have ht : e.type? s.names = some u := hn ▸ hr.type
            simp [State.after_after, assignCode, hx, ht, Nat.add_comm]
        · cases hp
  · have hf : Fails (assignment bound x span s) :=
      (assignment_refuses fun t slot hv => hx ⟨t, slot, hv⟩).fails
    exact absurd hp (hf.ne_ok ())

theorem arguments_succ {count : Nat} :
    arguments bound (count + 1) s = match expression bound s with
      | .error e s' => .error e s'
      | .ok t s' =>
        if s'.current.isSymbol .comma then arguments bound count (s'.after 1 [.print t] 0)
        else .ok () (s'.after 0 [.print t] 0) := by
  simp only [arguments, bind_apply]
  cases expression bound s with
  | error e s' => rfl
  | ok t s' =>
    have hc : (s'.after 0 [.print t] 0).current = s'.current := rfl
    simp only [emit_apply, at?_apply, hc]
    split <;> simp [bind_apply, State.advance_after]

/-- No more arguments are read than there are tokens, so the count is never used up. -/
theorem arguments_reads {count : Nat} (h : s.Ready bound n) (hc : s.kinds.length ≤ count)
    (hp : arguments bound count s = .ok () s') :
    ∃ ts es, Expr.SpellsAll ts es ∧ s.kinds = ts ++ s'.kinds ∧
      (∀ e ∈ es, ∃ t, e.HasType s.names t) ∧
      s' = s.after ts.length (es.flatMap (·.printCode s.names)) 0 := by
  induction count generalizing s with
  | zero => simp [State.kinds] at hc
  | succ count ih =>
    rw [arguments_succ] at hp
    split at hp
    · cases hp
    · next t s₁ he =>
      obtain ⟨h₁, ts, e, hr⟩ := expression_reads h he
      have hty := Expr.hasType_of_type? hr.type
      split at hp
      · next hcomma =>
        have hk₁ : s₁.current.kind = .symbol .comma := by simpa [Token.isSymbol] using hcomma
        have hks₁ := h₁.ended.kinds_eq (by simp [hk₁])
        have hadv : s₁.advance.kinds = (s₁.after 1 [.print t] 0).kinds := rfl
        have h₂ : (s₁.after 1 [.print t] 0).Ready bound n :=
          h₁.after (List.singleton_append ▸ hadv ▸ hks₁) rfl
        have hlen : s.kinds.length = ts.length + (s₁.after 1 [.print t] 0).kinds.length + 1 := by
          rw [hr.kinds, hks₁, hadv]
          simp only [List.length_append, List.length_cons]
          omega
        obtain ⟨us, es, hes, hkes, htes, hs'⟩ := ih h₂ (by omega) hp
        have hn : (s₁.after 1 [.print t] 0).names = s.names := by rw [State.names_after, hr.names]
        rw [hn] at htes hs'
        refine ⟨_, e :: es, .more hr.spells hes, ?_, ?_, ?_⟩
        · rw [hr.kinds, hks₁, hk₁, hadv, hkes]
          simp
        · rintro x (_ | ⟨_, hx⟩)
          · exact ⟨t, hty⟩
          · exact htes x hx
        · rw [hs', hr.state]
          simp [State.after_after, Expr.printCode, hr.type, Nat.add_assoc, Nat.add_comm 1]
      · cases hp
        refine ⟨ts, [e], .one hr.spells, hr.kinds, ?_, ?_⟩
        · rintro x (_ | ⟨_, ⟨⟩⟩)
          exact ⟨t, hty⟩
        · rw [hr.state]
          simp [State.after_after, Expr.printCode, hr.type]

theorem call_print (hx : Scope.key x = printName) :
    call bound x span s = match accept .leftParen s with
      | .error e s' => .error e s'
      | .ok () s' =>
        if s'.current.isSymbol .rightParen then accept .rightParen s'
        else match arguments bound bound s' with
          | .error e s'' => .error e s''
          | .ok () s'' => accept .rightParen s'' := by
  have hb : (x.toLower == printName) = true := beq_iff_eq.2 hx
  simp only [call, hb, if_true, bind_apply]
  cases accept .leftParen s with
  | error e s' => rfl
  | ok a s' =>
    simp only [at?_apply]
    cases hr : s'.current.isSymbol .rightParen
    · simp only [Bool.false_eq_true, if_false, bind_apply]
      cases arguments bound bound s' <;> rfl
    · rfl

theorem call_refuses (hx : Scope.key x ≠ printName) :
    Refuses span s (call bound x span s) := by
  have hb : (x.toLower == printName) = false := beq_eq_false_iff_ne.2 hx
  simp only [call, hb]
  cases he : s.names x with
  | none => simp [bind_apply, lookup_of_none _ he]
  | some e => simp [bind_apply, lookup_of_some _ he]

theorem call_reads (h : s.Ready bound n) (hx : Scope.key x = printName)
    (hp : call bound x span s = .ok () s') :
    ∃ ts es, (Stmt.write es).Spells .statement (.identifier x :: ts) ∧ s.kinds = ts ++ s'.kinds ∧
      (Stmt.write es).WellTyped s.names ∧
      s' = s.after ts.length ((Stmt.write es).code s.names n) 0 := by
  rw [call_print hx] at hp
  split at hp
  · cases hp
  · next s₁ ha =>
    obtain ⟨h₁, hk₁, hs₁⟩ := h.accept ha
    have hn : s₁.names = s.names := by rw [hs₁, State.names_after]
    split at hp
    · obtain ⟨h₂, hk₂, hs₂⟩ := h₁.accept hp
      refine ⟨_, [], .writeNothing hx, ?_, by simp [Stmt.WellTyped], ?_⟩
      · rw [hk₁, hk₂]
        rfl
      · rw [hs₂, hs₁, State.after_after]
        rfl
    · split at hp
      · cases hp
      · next s₂ he =>
        obtain ⟨ts, es, hes, hk, hty, hs₂⟩ := arguments_reads h₁ h₁.length he
        rw [hn] at hty hs₂
        obtain ⟨h₃, hk₃, hs₃⟩ := (h₁.after hk hs₂).accept hp
        refine ⟨_, es, .write hx hes, ?_, hty, ?_⟩
        · rw [hk₁, hk, hk₃]
          simp
        · rw [hs₃, hs₂, hs₁]
          simp [State.after_after, Stmt.code, Nat.add_comm 1]

theorem simple_apply :
    simple bound x s =
      if s.advance.current.isSymbol .assignment then
        assignment bound x s.current.span s.advance
      else if s.advance.current.isSymbol .leftParen then call bound x s.current.span s.advance
      else .error (.rejected ⟨.unexpected (.assignmentOrCall x) s.advance.current.kind,
        s.advance.current.span⟩) s.advance := by
  simp only [simple, bind_apply, here_apply, advance_apply, at?_apply]
  split
  · rfl
  · simp only [bind_apply, at?_apply]
    split <;> simp

/-- A name is followed by what is assigned to it, or by what it is to print. -/
theorem simple_reads (h : s.Ready bound n) (hk : s.current.kind = .identifier x)
    (hp : simple bound x s = .ok () s') :
    ∃ ts st, ReadsStmt .statement ts st n s s' := by
  have hks := h.ended.kinds_eq (by simp [hk])
  have h₁ : s.advance.Ready bound n :=
    h.after (List.singleton_append ▸ hks) State.after_one.symm
  have hn : s.advance.names = s.names := by rw [← State.after_one, State.names_after]
  rw [simple_apply] at hp
  split at hp
  · obtain ⟨ts, e, he, hke, hty, hs'⟩ := assignment_reads h₁ hp
    rw [hn] at hty hs'
    refine ⟨_, .assign x e, .assign x he, trivial, ?_, hty, ?_, by simp [Stmt.isOpen]⟩
    · rw [hks, hk, hke]
      rfl
    · rw [hs', ← State.after_one, State.after_after]
      simp [Stmt.code, Stmt.labels, Nat.add_comm 1]
  · split at hp
    · by_cases hx : Scope.key x = printName
      · obtain ⟨ts, es, hes, hke, hty, hs'⟩ := call_reads h₁ hx hp
        rw [hn] at hty hs'
        refine ⟨_, .write es, hes, trivial, ?_, hty, ?_, by simp [Stmt.isOpen]⟩
        · rw [hks, hk, hke]
          rfl
        · rw [hs', ← State.after_one, State.after_after]
          simp [Stmt.labels, Nat.add_comm 1]
      · have hf : Fails (call bound x s.current.span s.advance) := (call_refuses hx).fails
        exact absurd hp (hf.ne_ok ())
    · cases hp

end

section
variable {bound n : Nat} {p : Production Unit} {s s' : State}

/-- The labels a statement takes are the next two. -/
theorem defineLabels_apply (h : s.Ready bound n) {f : Label → Label → Production Unit} :
    (do
      let a ← defineLabel
      let b ← defineLabel
      f a b) s = f (labelOf n) (labelOf (n + 1)) (s.after 0 [] 2) := by
  simp only [bind_apply, defineLabel_apply, State.labels_after, State.after_after, h.labels,
    ← UInt32.ofNat_add]
  rfl

/-- What a choice does behind its condition. -/
def choiceRest (p : Production Unit) (n : Nat) (s : State) : EStateM.Result Stop State Unit :=
  match p (s.after 0 [.jumpIfFalse (labelOf n)] 2) with
  | .error e s' => .error e s'
  | .ok () s₁ =>
    if s₁.current.isSymbol .elseWord then
      match p (s₁.after 1 [.jump (labelOf (n + 1)), .label (labelOf n)] 0) with
      | .error e s' => .error e s'
      | .ok () s₂ => .ok () (s₂.after 0 [.label (labelOf (n + 1))] 0)
    else .ok () (s₁.after 0 [.jump (labelOf (n + 1)), .label (labelOf n),
      .label (labelOf (n + 1))] 0)

/-- What a loop does behind its condition. -/
def loopRest (p : Production Unit) (n : Nat) (s : State) : EStateM.Result Stop State Unit :=
  match p (s.after 0 [.jumpIfFalse (labelOf (n + 1))] 0) with
  | .error e s' => .error e s'
  | .ok () s₁ => .ok () (s₁.after 0 [.jump (labelOf n), .label (labelOf (n + 1))] 0)

theorem choice_apply (h : s.Ready bound n) :
    choice bound p s = match accept .ifWord s with
      | .error e s' => .error e s'
      | .ok () s₁ => match condition bound .ifWord s₁ with
        | .error e s' => .error e s'
        | .ok () s₂ => match accept .thenWord s₂ with
          | .error e s' => .error e s'
          | .ok () s₃ => choiceRest p n s₃ := by
  rw [choice, bind_apply]
  cases ha : accept .ifWord s with
  | error e s' => rfl
  | ok a s₁ =>
    obtain ⟨h₁, -, -⟩ := h.accept ha
    simp only [bind_apply (condition bound .ifWord)]
    cases hc : condition bound .ifWord s₁ with
    | error e s' => rfl
    | ok a s₂ =>
      obtain ⟨h₂, -⟩ := condition_reads h₁ hc
      simp only [bind_apply (accept .thenWord)]
      cases ht : accept .thenWord s₂ with
      | error e s' => rfl
      | ok a s₃ =>
        obtain ⟨h₃, -, -⟩ := h₂.accept ht
        simp only [defineLabels_apply h₃, choiceRest]
        simp only [bind_apply, emit_apply, State.after_after]
        cases hp : p (s₃.after (0 + 0) ([] ++ [.jumpIfFalse (labelOf n)]) (2 + 0)) with
        | error e s' =>
          simp only [List.nil_append, Nat.add_zero] at hp
          simp only [hp]
        | ok a s₄ =>
          simp only [List.nil_append, Nat.add_zero] at hp
          simp only [hp, at?_apply]
          have hcur : (s₄.after 0 [.jump (labelOf (n + 1)), .label (labelOf n)] 0).current =
            s₄.current := rfl
          rw [hcur]
          split
          · simp only [bind_apply, advance_apply, State.advance_after]
            cases p (s₄.after (0 + 1) [.jump (labelOf (n + 1)), .label (labelOf n)] 0) <;> simp
          · simp [State.after_after]

theorem ReadsStmt.ready {part : Part} {ts : List TokenKind} {st : Stmt}
    (h : ReadsStmt part ts st n s s') (hs : s.Ready bound n) : s'.Ready bound (n + st.labels) :=
  hs.after h.kinds h.state

/-- A condition between two words, with what is emitted at the first of them. -/
theorem condition_accepted {first last sym : Symbol} {is : List Instr} {m : Nat}
    {s₁ s₂ : State} (h : s.Ready bound n) (hf : accept first s = .ok () s₁)
    (hc : condition bound sym (s₁.after 0 is m) = .ok () s₂) (hl : accept last s₂ = .ok () s') :
    s'.Ready bound (n + m) ∧ ∃ ts, ∃ c : Expr, c.Spells .comparison ts ∧
      c.HasType s.names .boolean ∧
      s.kinds = .symbol first :: (ts ++ .symbol last :: s'.kinds) ∧
      s' = s.after (ts.length + 2) (is ++ c.code s.names) m := by
  obtain ⟨h₁, hk₁, hs₁⟩ := h.accept hf
  obtain ⟨h₂, ts, c, hr⟩ := condition_reads h₁.emit hc
  obtain ⟨h₃, hk₂, hs₂⟩ := h₂.accept hl
  have hn : (s₁.after 0 is m).names = s.names := by
    rw [State.names_after, hs₁, State.names_after]
  have hkc : s₁.kinds = ts ++ s₂.kinds := hr.kinds
  refine ⟨h₃, ts, c, hr.spells, Expr.hasType_of_type? (hn ▸ hr.type), ?_, ?_⟩
  · rw [hk₁, hkc, hk₂]
  · rw [hs₂, hr.state, hn, hs₁]
    simp only [State.after_after, List.nil_append, List.append_nil, Nat.zero_add, Nat.add_zero]
    rw [show 1 + ts.length + 1 = ts.length + 2 by omega]

/-- What a choice does behind its condition reads a statement, and another one if `else` stands
behind it. -/
theorem choiceRest_reads (hp : ReadsStatements .statement bound p) (h : s.Ready bound n)
    (hc : choiceRest p n s = .ok () s') :
    ∃ us, ∃ a : Stmt, a.Spells .statement us ∧ a.NearestElse ∧ a.WellTyped s.names ∧
      ((s'.current.kind ≠ .symbol .elseWord ∧ s.kinds = us ++ s'.kinds ∧
          s' = s.after us.length (.jumpIfFalse (labelOf n) :: (a.code s.names (n + 2) ++
            [.jump (labelOf (n + 1)), .label (labelOf n), .label (labelOf (n + 1))]))
            (a.labels + 2)) ∨
        ∃ vs, ∃ b : Stmt, a.isOpen = false ∧ b.Spells .statement vs ∧ b.NearestElse ∧
          b.WellTyped s.names ∧ (b.isOpen → s'.current.kind ≠ .symbol .elseWord) ∧
          s.kinds = us ++ .symbol .elseWord :: (vs ++ s'.kinds) ∧
          s' = s.after (us.length + vs.length + 1)
            (.jumpIfFalse (labelOf n) :: (a.code s.names (n + 2) ++ .jump (labelOf (n + 1)) ::
              .label (labelOf n) :: (b.code s.names (n + 2 + a.labels) ++
                [.label (labelOf (n + 1))])))
            (a.labels + b.labels + 2)) := by
  unfold choiceRest at hc
  split at hc
  · cases hc
  next s₁ hbody =>
  obtain ⟨us, a, ha⟩ := hp _ _ _ h.emit hbody
  have h₁ := ha.ready h.emit
  have hk₁ : s.kinds = us ++ s₁.kinds := ha.kinds
  have hs₁ := ha.state
  rw [State.names_after, State.after_after] at hs₁
  refine ⟨us, a, ha.spells, ha.nearest, ha.typed, ?_⟩
  split at hc
  · next helse =>
    right
    have hk : s₁.current.kind = .symbol .elseWord := by simpa [Token.isSymbol] using helse
    have hk₂ : s₁.kinds = .symbol .elseWord ::
        (s₁.after 1 [.jump (labelOf (n + 1)), .label (labelOf n)] 0).kinds := by
      rw [← hk]
      exact h₁.ended.kinds_eq (by simp [hk])
    have h₂ := h₁.after (List.singleton_append ▸ hk₂) rfl
    split at hc
    · cases hc
    next s₂ hother =>
    obtain ⟨vs, b, hb⟩ := hp _ _ _ h₂ hother
    have hn : (s₁.after 1 [.jump (labelOf (n + 1)), .label (labelOf n)] 0).names = s.names := by
      rw [State.names_after, hs₁, State.names_after]
    have hopen : a.isOpen = false := Bool.eq_false_iff.2 fun ho => ha.closed ho hk
    cases hc
    refine ⟨vs, b, hopen, hb.spells, hb.nearest, hn ▸ hb.typed, hb.closed, ?_, ?_⟩
    · rw [hk₁, hk₂, hb.kinds]
      rfl
    · rw [hb.state, hn, hs₁]
      simp only [State.after_after]
      congr 1
      · omega
      · simp
      · omega
  · next helse =>
    left
    cases hc
    refine ⟨?_, hk₁, ?_⟩
    · intro hk
      change s₁.current.kind = _ at hk
      exact helse (by simp [Token.isSymbol, hk])
    · rw [hs₁]
      simp [State.after_after, Nat.add_comm 2]

/-- A condition and a statement, and perhaps another behind `else`. -/
theorem choice_reads (hp : ReadsStatements .statement bound p) :
    ReadsStatements .statement bound (choice bound p) := by
  intro s s' n h hc
  rw [choice_apply h] at hc
  split at hc
  · cases hc
  next s₁ hif =>
  split at hc
  · cases hc
  next s₂ hcond =>
  split at hc
  · cases hc
  next s₃ hthen =>
  have hcond₀ : condition bound .ifWord (s₁.after 0 [] 0) = .ok () s₂ := by
    rwa [State.after_zero]
  obtain ⟨h₃, ts, c, hcs, hty, hk, hs₃⟩ := condition_accepted h hif hcond₀ hthen
  have hn₃ : s₃.names = s.names := by rw [hs₃, State.names_after]
  obtain ⟨us, a, has, hna, htya, ⟨hne, hk₃, hs'⟩ |
    ⟨vs, b, hopen, hbs, hnb, htyb, hclosed, hk₃, hs'⟩⟩ := choiceRest_reads hp h₃ hc
  · refine ⟨_, .ifThen c a, .ifThen hcs has, hna, ?_, ⟨hty, hn₃ ▸ htya⟩, ?_, fun _ => hne⟩
    · rw [hk, hk₃]
      simp
    · rw [hs', hn₃, hs₃, State.after_after]
      congr 1
      · simp only [List.length_cons, List.length_append]
        omega
      · simp [Stmt.labels]
  · refine ⟨_, .ifElse c a b, .ifElse hcs has hbs, ⟨hopen, hna, hnb⟩, ?_,
      ⟨hty, hn₃ ▸ htya, hn₃ ▸ htyb⟩, ?_, hclosed⟩
    · rw [hk, hk₃]
      simp
    · rw [hs', hn₃, hs₃, State.after_after]
      congr 1
      · simp only [List.length_cons, List.length_append]
        omega
      · simp [Stmt.labels]

theorem loop_apply (h : s.Ready bound n) :
    loop bound p s = match accept .whileWord s with
      | .error e s' => .error e s'
      | .ok () s₁ => match condition bound .whileWord (s₁.after 0 [.label (labelOf n)] 2) with
        | .error e s' => .error e s'
        | .ok () s₂ => match accept .doWord s₂ with
          | .error e s' => .error e s'
          | .ok () s₃ => loopRest p n s₃ := by
  rw [loop, bind_apply]
  cases ha : accept .whileWord s with
  | error e s' => rfl
  | ok a s₁ =>
    obtain ⟨h₁, -, -⟩ := h.accept ha
    simp only [defineLabels_apply h₁]
    simp only [bind_apply, emit_apply, State.after_after, List.nil_append, Nat.add_zero]
    cases condition bound .whileWord (s₁.after 0 [.label (labelOf n)] 2) with
    | error e s' => rfl
    | ok a s₂ =>
      dsimp only
      cases accept .doWord s₂ with
      | error e s' => rfl
      | ok a s₃ =>
        dsimp only [loopRest]
        cases p (s₃.after 0 [.jumpIfFalse (labelOf (n + 1))] 0) <;> rfl

/-- A condition and the statement that is repeated while it holds. -/
theorem loop_reads (hp : ReadsStatements .statement bound p) :
    ReadsStatements .statement bound (loop bound p) := by
  intro s s' n h hc
  rw [loop_apply h] at hc
  split at hc
  · cases hc
  next s₁ hwhile =>
  split at hc
  · cases hc
  next s₂ hcond =>
  split at hc
  · cases hc
  next s₃ hdo =>
  obtain ⟨h₃, ts, c, hcs, hty, hk, hs₃⟩ := condition_accepted h hwhile hcond hdo
  have hn₃ : s₃.names = s.names := by rw [hs₃, State.names_after]
  unfold loopRest at hc
  split at hc
  · cases hc
  next s₄ hbody =>
  cases hc
  obtain ⟨us, a, ha⟩ := hp _ _ _ h₃.emit hbody
  have hn₄ : (s₃.after 0 [.jumpIfFalse (labelOf (n + 1))] 0).names = s.names := by
    rw [State.names_after, hn₃]
  have hka : s₃.kinds = us ++ s₄.kinds := ha.kinds
  refine ⟨_, .loop c a, .loop hcs ha.spells, ha.nearest, ?_, ⟨hty, hn₄ ▸ ha.typed⟩, ?_,
    ha.closed⟩
  · rw [hk, hka]
    simp [State.kinds, State.after]
  · rw [ha.state, hn₄, hs₃]
    simp only [State.after_after]
    congr 1
    · simp only [List.length_cons, List.length_append]
      omega
    · simp [Stmt.code, Stmt.loopCode]
    · simp [Stmt.labels, Nat.add_comm]

/-- A statement is a sequence of its own. -/
theorem ReadsStmt.last {ts : List TokenKind} {a : Stmt}
    (h : ReadsStmt .statement ts a n s s') : ReadsStmt .sequence ts (.seq a .skip) n s s' := by
  refine ⟨.last h.spells, ⟨h.nearest, trivial⟩, h.kinds, ⟨h.typed, trivial⟩, ?_, by
    simp [Stmt.isOpen]⟩
  rw [h.state]
  simp [Stmt.code, Stmt.labels]

/-- The statements behind the first of a sequence, read up to where no semicolon stands: the
tokens passed, behind those of a first statement, spell the sequence. -/
theorem sequence_reads {ts : List TokenKind} {a : Stmt} {count : Nat} {s₀ : State}
    (hp : ReadsStatements .statement bound p) (h : s₀.Ready bound n)
    (ha : ReadsStmt .statement ts a n s₀ s) (hc : sequence p count s = .ok () s') :
    ∃ us st, ReadsStmt .sequence us st n s₀ s' := by
  induction count generalizing ts a n s₀ s with
  | zero =>
    cases hc
    exact ⟨_, _, ha.last⟩
  | succ count ih =>
    simp only [sequence, bind_apply, at?_apply] at hc
    split at hc
    · next hsemi =>
      have hk : s.current.kind = .symbol .semicolon := by simpa [Token.isSymbol] using hsemi
      have hks := (ha.ready h).ended.kinds_eq (by simp [hk])
      have h₁ : s.advance.Ready bound (n + a.labels) :=
        (ha.ready h).after (List.singleton_append ▸ hks) State.after_one.symm
      have hn : s.advance.names = s₀.names := by
        rw [← State.after_one, State.names_after, ha.state, State.names_after]
      simp only [advance_apply, bind_apply, at?_apply] at hc
      split at hc
      · cases hc
        refine ⟨_, .seq a .skip, .lastSemicolon ha.spells, ⟨ha.nearest, trivial⟩, ?_,
          ⟨ha.typed, trivial⟩, ?_, by simp [Stmt.isOpen]⟩
        · rw [ha.kinds, hks, hk]
          simp
        · rw [← State.after_one, ha.state]
          simp [State.after_after, Stmt.code, Stmt.labels]
      · simp only [bind_apply] at hc
        split at hc
        · next u s₁ hb =>
          obtain ⟨us, b, hb⟩ := hp _ _ _ h₁ hb
          obtain ⟨vs, st, hst⟩ := ih h₁ hb hc
          refine ⟨_, .seq a st, .more ha.spells hst.spells, ⟨ha.nearest, hst.nearest⟩, ?_,
            ⟨ha.typed, hn ▸ hst.typed⟩, ?_, by simp [Stmt.isOpen]⟩
          · rw [ha.kinds, hks, hk, hst.kinds]
            simp
          · rw [hst.state, hn, ← State.after_one, ha.state]
            simp [State.after_after, Stmt.code, Stmt.labels, Nat.add_assoc, Nat.add_comm 1]
        · cases hc
    · cases hc
      exact ⟨_, _, ha.last⟩

theorem compound_apply :
    compound bound p s = match accept .beginWord s with
      | .error e s' => .error e s'
      | .ok () s₁ =>
        if s₁.current.isSymbol .endWord then .ok () s₁.advance
        else match p s₁ with
          | .error e s' => .error e s'
          | .ok () s₂ => match sequence p bound s₂ with
            | .error e s' => .error e s'
            | .ok () s₃ => accept .endWord s₃ := by
  simp only [compound, bind_apply]
  cases accept .beginWord s with
  | error e s' => rfl
  | ok a s₁ =>
    simp only [at?_apply]
    split
    · rfl
    · simp only [bind_apply]
      cases p s₁ with
      | error e s' => rfl
      | ok a s₂ =>
        dsimp only
        cases sequence p bound s₂ <;> rfl

/-- Statements between `begin` and `end`, or none. -/
theorem compound_reads (hp : ReadsStatements .statement bound p) :
    ReadsStatements .compound bound (compound bound p) := by
  intro s s' n h hc
  rw [compound_apply] at hc
  split at hc
  · cases hc
  next s₁ hbegin =>
  obtain ⟨h₁, hk₁, hs₁⟩ := h.accept hbegin
  have hn₁ : s₁.names = s.names := by rw [hs₁, State.names_after]
  split at hc
  · next hend =>
    cases hc
    have hk : s₁.current.kind = .symbol .endWord := by simpa [Token.isSymbol] using hend
    refine ⟨_, .skip, .empty, trivial, ?_, trivial, ?_, by simp [Stmt.isOpen]⟩
    · rw [hk₁, h₁.ended.kinds_eq (by simp [hk]), hk]
      rfl
    · rw [hs₁, State.advance_after]
      rfl
  · split at hc
    · cases hc
    next s₂ hfirst =>
    split at hc
    · cases hc
    next s₃ hrest =>
    obtain ⟨ts, a, ha⟩ := hp _ _ _ h₁ hfirst
    obtain ⟨us, st, hst⟩ := sequence_reads hp h₁ ha hrest
    obtain ⟨-, hk₄, hs₄⟩ := (hst.ready h₁).accept hc
    have hopen := Stmt.isOpen_of_spells hst.spells (by simp)
    refine ⟨_, st, .block hst.spells, hst.nearest, ?_, hn₁ ▸ hst.typed, ?_, by simp [hopen]⟩
    · rw [hk₁, hst.kinds, hk₄]
      simp
    · rw [hs₄, hst.state, hn₁, hs₁]
      simp [State.after_after, Nat.add_comm 1]

/-- The statements that begin with a name or with one of three words are all there are. -/
theorem statement_succ {depth : Nat} :
    (∃ x, s.current.kind = .identifier x ∧ statement bound (depth + 1) s = simple bound x s) ∨
    (s.current.kind = .symbol .beginWord ∧
      statement bound (depth + 1) s = compound bound (statement bound depth) s) ∨
    (s.current.kind = .symbol .ifWord ∧
      statement bound (depth + 1) s = choice bound (statement bound depth) s) ∨
    (s.current.kind = .symbol .whileWord ∧
      statement bound (depth + 1) s = loop bound (statement bound depth) s) ∨
    ((∀ y ∈ [Symbol.beginWord, .ifWord, .whileWord], s.current.kind ≠ .symbol y) ∧
      Refuses s.current.span s (statement bound (depth + 1) s)) := by
  rw [statement]
  simp only [bind_apply, kind_apply]
  cases hk : s.current.kind with
  | identifier x => exact .inl ⟨x, rfl, rfl⟩
  | symbol y => cases y <;> simp
  | _ => simp

theorem statement_reads {depth : Nat} :
    ReadsStatements .statement bound (statement bound depth) := by
  induction depth with
  | zero =>
    intro s s' n _ h
    simp [statement] at h
  | succ depth ih =>
    intro s s' n h hp
    rcases @statement_succ bound s depth with
      ⟨x, hk, hs⟩ | ⟨-, hs⟩ | ⟨-, hs⟩ | ⟨-, hs⟩ | ⟨-, hf⟩
    · exact simple_reads h hk (hs ▸ hp)
    · obtain ⟨ts, st, hst⟩ := compound_reads ih _ _ _ h (hs ▸ hp)
      exact ⟨ts, st, { hst with spells := .ofCompound hst.spells }⟩
    · exact choice_reads ih _ _ _ h (hs ▸ hp)
    · exact loop_reads ih _ _ _ h (hs ▸ hp)
    · exact absurd hp (hf.fails.ne_ok ())

end
end MiniPascal.Grammar
