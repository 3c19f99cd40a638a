import MiniPascal.Proofs.Reading.Moving

/-! Every production keeps moving, whatever tokens it finds. -/
namespace MiniPascal.Grammar

section
variable {α β : Type} {p : Production α} {f : α → Production β}

theorem still_bind (hp : Still p) (hf : ∀ a, Still (f a)) : Still (p >>= f) := by
  intro s
  have ht := hp s
  rw [bind_apply]
  cases hr : p s with
  | ok a s' =>
    rw [hr] at ht
    exact (hf a s').trans ht
  | error e s' =>
    rw [hr] at ht
    exact ht

theorem still_ite {c : Prop} [Decidable c] {q : Production α} (hp : Still p) (hq : Still q) :
    Still (if c then p else q) := by
  split
  · exact hp
  · exact hq

theorem still_pure (a : α) : Still (pure a : Production α) := fun _ => rfl

theorem still_emit (is : List Instr) : Still (emit is) := fun _ => rfl

theorem still_defineLabel : Still defineLabel := fun _ => rfl

theorem still_declareSlot (t : Ty) : Still (declareSlot t) := fun _ => rfl

theorem still_here : Still here := fun _ => rfl

theorem still_kind : Still kind := fun _ => rfl

theorem still_get : Still (get : Production State) := fun _ => rfl

theorem still_spanFrom (start : Nat) : Still (spanFrom start) := fun _ => rfl

theorem still_reject (c : Cause) (span : Span) : Still (reject c span : Production α) :=
  fun _ => rfl

theorem still_unexpected (e : Expectation) : Still (unexpected e : Production α) := fun _ => rfl

theorem still_unsupported (f : Feature) : Still (unsupported f : Production α) := fun _ => rfl

theorem still_lookup (name : String) (span : Span) : Still (lookup name span) := by
  intro s
  rw [lookup, get_bind]
  cases s.scopes.find? name <;> exact rfl

theorem still_declare (name : String) (e : Entry) (span : Span) : Still (declare name e span) := by
  intro s
  rw [declare, get_bind]
  cases s.scopes.declare? name e <;> exact rfl

theorem still_join (t u : Ty) : Still (join t u) := by
  intro s
  unfold join
  cases t.join? u <;> exact rfl

theorem still_add (start : Nat) (op : Operator) (left right : Ty) :
    Still (add start op left right) := by
  unfold add
  refine still_ite (still_bind (still_emit _) fun _ => still_join _ _) ?_
  refine still_ite (still_bind (still_emit _) fun _ => still_pure _) ?_
  refine still_ite (still_bind (still_emit _) fun _ => still_pure _) ?_
  exact still_bind (still_spanFrom _) fun _ => still_reject _ _

theorem still_multiply (start : Nat) (op : Operator × Bool) (left right : Ty) :
    Still (multiply start op left right) := by
  have hemit : ∀ t, Still (emit op.1.code >>= fun _ => (pure t : Production Ty)) :=
    fun t => still_bind (still_emit _) fun _ => still_pure t
  unfold multiply
  refine still_ite (still_bind (still_join _ _) hemit) ?_
  refine still_ite (still_bind (still_pure _) hemit) ?_
  refine still_ite (still_bind (still_pure _) hemit) ?_
  exact still_bind (still_spanFrom _) fun _ => still_bind (still_reject _ _) hemit

theorem still_declareVariable (t : Ty) (name : String × Span) : Still (declareVariable t name) :=
  still_bind (still_declareSlot t) fun _ => still_declare _ _ _

theorem still_declareAll (t : Ty) (names : List (String × Span)) :
    Still (names.forM (declareVariable t)) := by
  induction names with
  | nil => exact still_pure ()
  | cons name names ih => exact still_bind (still_declareVariable t name) fun _ => ih

theorem still_noDeclarations : Still noDeclarations := by
  refine still_bind still_kind fun k => ?_
  split
  · exact still_unsupported _
  · exact still_unsupported _
  · exact still_unsupported _
  · exact still_unsupported _
  · exact still_unsupported _
  · exact still_pure ()

end

/-- The production keeps moving wherever at most `n` tokens are left and rules of the level may be
entered. Behind it, loops of another level may begin a round. -/
def Moves {α : Type} (n level loop : Nat) (x : Journaled α) (p : Production α) : Prop :=
  ∀ k ≤ n, ∀ a ≤ level, ∀ q b, Keeps ⟨k, a, q, b⟩ ⟨k, a, loop, false⟩ x p

section
variable {α β ω : Type} {n k a q bound depth : Nat} {b : Bool} {m m' : Mark}

theorem keeps_reject (c : Cause) (span : Span) :
    Keeps m m' (liftM (reject c span : Production α)) (reject c span) :=
  .fails (still_reject c span) fun _ => fails_error _

theorem keeps_unexpected (e : Expectation) :
    Keeps m m' (liftM (unexpected e : Production α)) (unexpected e) :=
  .fails (still_unexpected e) fun _ => fails_error _

theorem keeps_unsupported (f : Feature) :
    Keeps m m' (liftM (unsupported f : Production α)) (unsupported f) :=
  .fails (still_unsupported f) fun _ => fails_error _

/-- A rejection of what has been read from an offset on. -/
theorem keeps_rejectFrom (c : Cause) (start : Nat) :
    Keeps m m' (liftM (spanFrom start) >>= fun span => liftM (reject c span : Production α))
      (spanFrom start >>= fun span => reject c span) :=
  .bind (.still (still_spanFrom start)) fun _ => keeps_reject c _

theorem keeps_accept (y : Symbol) :
    Keeps ⟨k, a, q, b⟩ ⟨k - 1, 0, 0, false⟩ (Journaled.accept y) (accept y) := by
  unfold Journaled.accept accept
  refine .at?_bind fun c => .ite (fun hc => ?_) fun _ => keeps_unexpected _
  subst hc
  exact Keeps.advance.weaken ⟨Nat.le_refl _, Nat.le_refl _, Nat.le_refl _, by simp⟩ (.refl _)

theorem keeps_identifier :
    Keeps ⟨k, a, q, b⟩ ⟨k - 1, 0, 0, false⟩ Journaled.identifier identifier := by
  refine .kind_bind fun t => ?_
  cases t with
  | identifier name =>
    exact .bind (.still still_here) fun _ => .bind .advance fun _ => .pure (.refl _)
  | _ => exact keeps_unexpected _

/-- The end of the text stands for nothing. -/
theorem more_of_isSome {f : TokenKind → Option ω} {t : TokenKind} (hf : f .endOfText = none)
    (h : (f t).isSome = true) : (t != .endOfText) = true := by
  rw [bne_iff_ne]
  rintro rfl
  rw [hf] at h
  cases h

/-- A chain of operands: each round passes an operator and an operand. -/
theorem moves_chain {l : Loop} {operator? : TokenKind → Option ω} {operand : Journaled Ty}
    {p : Production Ty} {combine : ω → Ty → Ty → Production Ty}
    (ho : operator? .endOfText = none) (hp : Moves n 0 l.level operand p)
    (hc : ∀ op t u, Still (combine op t u)) {left : Ty} (hk : k ≤ n) (hbound : k ≤ bound) :
    Keeps ⟨k, a, l.level, b⟩ ⟨k, a, l.level + 1, false⟩
      (Journaled.chain l operator? operand combine bound left)
      (chain operator? p combine bound left) := by
  induction bound generalizing k a b left with
  | zero => exact .of_zero (Nat.le_zero.1 hbound)
  | succ bound ih =>
    refine .round_bind (Nat.le_refl _) (.kind_bind fun t => ?_)
    cases hop : operator? t with
    | none => exact .pure .forget
    | some op =>
      dsimp only
      rw [more_of_isSome ho (Option.isSome_of_eq_some hop)]
      refine .bind .advance fun _ => .bind (hp _ (by omega) _ (Nat.le_refl _) _ _) fun right => ?_
      refine .bind (.still (hc op left right)) fun u => ?_
      have hrest := @ih (k - 1) 0 false u (by omega) (by omega)
      exact hrest.ends (Nat.sub_le k 1) (Nat.le_refl _)

end

section
variable {n k a q bound depth : Nat} {b : Bool} {x : Journaled Ty} {p : Production Ty}

theorem Moves.deeper {α : Type} {x : Journaled α} {p : Production α} {level level' loop : Nat}
    (h : Moves n level loop x p) (hl : level' ≤ level) : Moves n level' loop x p := by
  intro k hk a ha
  exact h k hk a (Nat.le_trans ha hl)

theorem Moves.fewer {α : Type} {x : Journaled α} {p : Production α} {n' level loop : Nat}
    (h : Moves n level loop x p) (hn : n' ≤ n) : Moves n' level loop x p := by
  intro k hk
  exact h k (Nat.le_trans hk hn)

theorem moves_term (hp : Moves n Rule.factor.level Loop.factors.level x p) (hn : n ≤ bound) :
    Moves n Rule.term.level Loop.terms.level (Journaled.term bound x) (term bound p) := by
  intro k hk a ha q b
  refine .within ha (.bind (.still still_here) fun start => ?_)
  refine .bind (hp k hk _ (Nat.le_refl _) _ _) fun first => ?_
  exact moves_chain (l := .factors) rfl (hp.deeper (Nat.zero_le _)) (still_multiply _) hk (by omega)

theorem moves_sum (hp : Moves n Rule.factor.level Loop.factors.level x p) (hn : n ≤ bound) :
    Moves n Rule.sum.level Loop.sequence.level (Journaled.sum bound x) (sum bound p) := by
  intro k hk a ha q b
  have hterm := moves_term hp hn
  refine .within ha (.bind (.still still_here) fun start => .kind_bind fun t => ?_)
  -- the sign may be the first token that is passed
  have hsign : (sign? t).isSome = true → Keeps ⟨k, Rule.term.level, q, t != .endOfText⟩
      ⟨k, Rule.term.level, q, false⟩ Journaled.advance advance := by
    intro hsome
    rw [more_of_isSome rfl hsome]
    exact Keeps.advance.ends (Nat.sub_le k 1) (Nat.zero_le _)
  refine .when hsign .forget ?_
  refine .bind (hterm k hk _ (Nat.le_refl _) _ _) fun first => ?_
  have hchain : Keeps ⟨k, Rule.term.level, Loop.terms.level, false⟩
      ⟨k, Rule.term.level, Loop.sequence.level, false⟩
      (Journaled.chain .terms additive? (Journaled.term bound x) (add start.offset) bound first)
      (chain additive? (term bound p) (add start.offset) bound first) :=
    moves_chain (l := .terms) rfl (hterm.deeper (Nat.zero_le _)) (still_add _) hk (by omega)
  have hemit : Keeps ⟨k, Rule.term.level, Loop.terms.level, false⟩
      ⟨k, Rule.term.level, Loop.terms.level, false⟩ (liftM (emit [.neg])) (emit [.neg]) :=
    .still (still_emit _)
  refine .ite (fun _ => ?_) fun _ => .when (fun _ => hemit) (.refl _) hchain
  exact .bind (.still (still_spanFrom _)) fun _ => .bind (keeps_reject _ _) fun _ =>
    .when (fun _ => hemit) (.refl _) hchain

theorem moves_comparison (hp : Moves n Rule.factor.level Loop.factors.level x p) (hn : n ≤ bound) :
    Moves n Rule.expression.level Loop.sequence.level (Journaled.comparison bound x)
      (comparison bound p) := by
  intro k hk a ha q b
  have hsum := moves_sum hp hn
  refine .within ha (.bind (.still still_here) fun start => ?_)
  refine .bind (hsum k hk _ (Nat.le_refl _) _ _) fun left => .at?_bind fun isIn => ?_
  refine .when (fun _ => keeps_unsupported _) (.refl _) (.kind_bind fun t => ?_)
  cases hop : comparison? t with
  | none => exact .pure .forget
  | some op =>
    dsimp only
    rw [more_of_isSome rfl (Option.isSome_of_eq_some hop)]
    refine .bind .advance fun _ => .bind (hsum _ (by omega) _ (Nat.zero_le _) _ _) fun right => ?_
    refine .ite (fun _ => ?_) fun _ => keeps_rejectFrom _ _
    exact .bind (.still (still_emit _)) fun _ =>
      .pure (.passed (Nat.sub_le _ _) (Nat.le_refl _))

theorem keeps_constant (v : Value) : Keeps ⟨k, a, q, true⟩ ⟨k, a, Loop.factors.level, false⟩
    (Journaled.constant v) (constant v) :=
  .bind (.still (still_emit _)) fun _ => .bind .advance fun _ =>
    .pure (.passed (Nat.sub_le _ _) (Nat.le_refl _))

/-- What is nested in a factor stands behind a token that has been passed. -/
theorem moves_primary (hp : Moves n Rule.factor.level Loop.factors.level x p) (hn : n ≤ bound) :
    Moves (n + 1) Rule.factor.level Loop.factors.level (Journaled.primary bound x)
      (primary bound p) := by
  intro k hk a ha q b
  refine .within ha (.bind (.still still_here) fun span => .kind_bind fun t => ?_)
  cases t with
  | identifier name =>
    refine .bind (.still (still_lookup _ _)) fun e => ?_
    cases e with
    | var =>
      exact .bind (.still (still_emit _)) fun _ => .bind .advance fun _ =>
        .pure (.passed (Nat.sub_le _ _) (Nat.le_refl _))
    | constant v => exact keeps_constant v
    | _ => exact keeps_reject _ _
  | integer | real | string => exact keeps_constant _
  | symbol y =>
    cases y with
    | notWord =>
      refine .bind .advance fun _ => .bind (hp (k - 1) (by omega) _ (Nat.zero_le _) _ _) fun u => ?_
      refine .ite (fun _ => ?_) fun _ => keeps_rejectFrom _ _
      exact .bind (.still (still_emit _)) fun _ =>
        .pure (.passed (Nat.sub_le _ _) (Nat.le_refl _))
    | leftParen =>
      have hinner := moves_comparison hp hn
      refine .bind .advance fun _ => ?_
      refine .bind (hinner (k - 1) (by omega) _ (Nat.zero_le _) _ _) fun u => ?_
      refine .bind (keeps_accept _) fun _ => .pure ⟨?_, Nat.zero_le _, Nat.le_refl _, id⟩
      dsimp only
      omega
    | nilWord => exact keeps_unsupported _
    | _ => exact keeps_unexpected _
  | _ => exact keeps_unexpected _

theorem moves_factor (hn : n ≤ depth) (hbound : n ≤ bound) :
    Moves n Rule.factor.level Loop.factors.level (Journaled.factor bound depth)
      (factor bound depth) := by
  induction depth generalizing n with
  | zero =>
    intro k hk a ha q b
    exact .of_zero (by dsimp only; omega)
  | succ depth ih =>
    have hnested := ih (n := n - 1) (by omega) (by omega)
    exact (moves_primary hnested (by omega)).fewer (by omega)

theorem moves_expression (hn : n ≤ bound) : Moves n Rule.expression.level Loop.sequence.level
    (Journaled.expression bound) (expression bound) :=
  moves_comparison (moves_factor hn hn) hn

end

section
variable {n bound depth count : Nat} {name : String} {span : Span}

theorem moves_assignment (hn : n ≤ bound) : Moves n Rule.assignment.level Loop.sequence.level
    (Journaled.assignment bound name span) (assignment bound name span) := by
  intro k hk a ha q b
  refine .within ha (.bind (.still (still_lookup _ _)) fun e => ?_)
  cases e with
  | var declared slot =>
    refine .bind (keeps_accept _) fun _ => .bind (.still still_here) fun start => ?_
    refine .bind (moves_expression hn (k - 1) (by omega) _ (Nat.zero_le _) _ _) fun found => ?_
    have hstore : Keeps ⟨k - 1, 0, Loop.sequence.level, false⟩
        ⟨k, Rule.assignment.level + 1, Loop.sequence.level, false⟩
        (liftM (emit [.store slot])) (emit [.store slot]) :=
      (Keeps.still (still_emit _)).ends (Nat.sub_le k 1) (Nat.le_refl _)
    refine .ite (fun _ => .bind (.still (still_emit _)) fun _ => hstore) fun _ => ?_
    refine .ite (fun _ => ?_) fun _ => hstore
    exact .bind (.still (still_spanFrom _)) fun _ => .bind (keeps_reject _ _) fun _ => hstore
  | _ => exact keeps_reject _ _

/-- Each round of the loop passes a comma but the first, which stands behind a parenthesis. -/
theorem keeps_arguments {k : Nat} (hk : k ≤ count) (hbound : k ≤ bound) :
    Keeps ⟨k, 0, 0, false⟩ ⟨k, 0, Loop.sequence.level, false⟩
      (Journaled.arguments bound count) (arguments bound count) := by
  induction count generalizing k with
  | zero => exact .of_zero (Nat.le_zero.1 hk)
  | succ count ih =>
    refine .round_bind (l := .arguments) (Nat.zero_le _) ?_
    refine .bind (moves_expression hbound k (Nat.le_refl _) _ (Nat.zero_le _) _ _) fun t => ?_
    refine .bind (.still (still_emit _)) fun _ => .at?_bind fun c => ?_
    refine .ite (fun hc => ?_) fun _ => ?_
    · subst hc
      refine .bind (Keeps.advance.weaken (.refl _) (.refl _)) fun _ => ?_
      exact (ih (k := k - 1) (by omega) (by omega)).ends (Nat.sub_le k 1) (Nat.le_refl _)
    · exact .pure .forget

theorem moves_call (hn : n ≤ bound) : Moves n Rule.call.level Loop.sequence.level
    (Journaled.call bound name span) (call bound name span) := by
  intro k hk a ha q b
  refine .within ha (.ite (fun _ => ?_) fun _ => ?_)
  · have hclose : ∀ {loop c}, Keeps ⟨k - 1, 0, loop, c⟩
        ⟨k, Rule.call.level + 1, Loop.sequence.level, false⟩
        (Journaled.accept .rightParen) (accept .rightParen) := by
      intro loop c
      exact (keeps_accept _).ends (Nat.le_trans (Nat.sub_le _ 1) (Nat.sub_le k 1)) (Nat.zero_le _)
    refine .bind (keeps_accept _) fun _ => .at?_bind fun c => .ite (fun _ => hclose) fun _ => ?_
    have harguments : Keeps ⟨k - 1, 0, 0, false⟩ ⟨k - 1, 0, Loop.sequence.level, false⟩
        (Journaled.arguments bound bound) (arguments bound bound) :=
      keeps_arguments (by omega) (by omega)
    refine .bind (harguments.weaken ?_ (.refl _)) fun _ => hclose
    exact .forget
  · exact .bind (.still (still_lookup _ _)) fun e => keeps_reject _ _

theorem moves_condition (hn : n ≤ bound) (y : Symbol) :
    Moves n Rule.condition.level Loop.sequence.level
      (Journaled.condition bound y) (condition bound y) := by
  intro k hk a ha q b
  refine .within ha (.bind (.still still_here) fun start => ?_)
  refine .bind (moves_expression hn k hk _ (Nat.le_refl _) _ _) fun t => ?_
  refine .ite (fun _ => .pure ⟨Nat.le_refl _, Nat.le_refl _, Nat.le_refl _, id⟩) fun _ => ?_
  exact keeps_rejectFrom _ _

end

section
variable {n k bound depth count : Nat} {x : Journaled Unit} {p : Production Unit}

theorem moves_choice (hp : Moves n Rule.statement.level Loop.sequence.level x p) (hn : n ≤ bound) :
    Moves (n + 1) Rule.choice.level Loop.sequence.level (Journaled.choice bound x)
      (choice bound p) := by
  intro k hk a ha q b
  refine .within ha (.bind (keeps_accept _) fun _ => ?_)
  refine .bind (moves_condition hn _ (k - 1) (by omega) _ (Nat.zero_le _) _ _) fun _ => ?_
  refine .bind (keeps_accept _) fun _ => ?_
  refine .bind (.still still_defineLabel) fun otherwise => ?_
  refine .bind (.still still_defineLabel) fun done => .bind (.still (still_emit _)) fun _ => ?_
  refine .bind (hp (k - 1 - 1) (by omega) _ (Nat.zero_le _) _ _) fun _ => ?_
  refine .bind (.still (still_emit _)) fun _ => .at?_bind fun c => ?_
  have hlast : ∀ i c, i ≤ k → Keeps ⟨i, 0, Loop.sequence.level, c⟩
      ⟨k, Rule.choice.level + 1, Loop.sequence.level, false⟩
      (liftM (emit [.label done])) (emit [.label done]) := by
    intro i c hi
    exact (Keeps.still (still_emit _)).weaken (.refl _)
      ⟨hi, Nat.zero_le _, Nat.le_refl _, by simp⟩
  refine .ite (fun hc => ?_) fun _ => hlast (k - 1 - 1) _ (by omega)
  subst hc
  refine .bind (Keeps.advance.weaken (.refl _) (.refl _)) fun _ => ?_
  refine .bind (hp (k - 1 - 1 - 1) (by omega) _ (Nat.zero_le _) _ _) fun _ => ?_
  exact hlast (k - 1 - 1 - 1) _ (by omega)

theorem moves_loop (hp : Moves n Rule.statement.level Loop.sequence.level x p) (hn : n ≤ bound) :
    Moves (n + 1) Rule.loop.level Loop.sequence.level (Journaled.loop bound x) (loop bound p) := by
  intro k hk a ha q b
  refine .within ha (.bind (keeps_accept _) fun _ => ?_)
  refine .bind (.still still_defineLabel) fun again => ?_
  refine .bind (.still still_defineLabel) fun done => .bind (.still (still_emit _)) fun _ => ?_
  refine .bind (moves_condition hn _ (k - 1) (by omega) _ (Nat.zero_le _) _ _) fun _ => ?_
  refine .bind (keeps_accept _) fun _ => .bind (.still (still_emit _)) fun _ => ?_
  refine .bind (hp (k - 1 - 1) (by omega) _ (Nat.zero_le _) _ _) fun _ => ?_
  exact (Keeps.still (still_emit _)).ends (by omega) (Nat.le_refl _)

/-- Each round of the loop passes a semicolon but the last. -/
theorem keeps_sequence (hp : Moves n Rule.statement.level Loop.sequence.level x p) (hk : k ≤ n)
    (hcount : k ≤ count) : Keeps ⟨k, 0, Loop.sequence.level, false⟩
      ⟨k, 0, Loop.sequence.level + 1, false⟩ (Journaled.sequence x count) (sequence p count) := by
  induction count generalizing k with
  | zero => exact .of_zero (Nat.le_zero.1 hcount)
  | succ count ih =>
    refine .round_bind (l := .sequence) (Nat.le_refl _) (.at?_bind fun c => ?_)
    refine .ite (fun hc => ?_) fun _ =>
      .pure .forget
    subst hc
    refine .bind (Keeps.advance.weaken (.refl _) (.refl _)) fun _ => .at?_bind fun c => ?_
    refine .ite (fun _ => .pure ⟨Nat.sub_le _ _, Nat.le_refl _, Nat.zero_le _, by simp⟩) fun _ => ?_
    refine .bind (hp (k - 1) (by omega) _ (Nat.zero_le _) _ _) fun _ => ?_
    exact (ih (k := k - 1) (by omega) (by omega)).ends (Nat.sub_le k 1) (Nat.le_refl _)

theorem moves_compound (hp : Moves n Rule.statement.level Loop.sequence.level x p)
    (hn : n ≤ bound) : Moves (n + 1) Rule.compound.level Loop.factors.level
      (Journaled.compound bound x) (compound bound p) := by
  intro k hk a ha q b
  refine .within ha (.bind (keeps_accept _) fun _ => .at?_bind fun c => ?_)
  refine .ite (fun hc => ?_) fun _ => ?_
  · subst hc
    exact Keeps.advance.ends (Nat.le_trans (Nat.sub_le _ 1) (Nat.sub_le k 1)) (Nat.le_refl _)
  · refine .bind (hp (k - 1) (by omega) _ (Nat.zero_le _) _ _) fun _ => ?_
    refine .bind (keeps_sequence hp (by omega) (by omega)) fun _ => ?_
    exact (keeps_accept _).ends (Nat.le_trans (Nat.sub_le _ 1) (Nat.sub_le k 1)) (Nat.le_refl _)

end

section
variable {n k bound depth count : Nat} {name : String} {span : Span}

/-- A name is passed before anything is known of what it begins. -/
theorem keeps_simple {a q : Nat} (hk : k ≤ bound) :
    Keeps ⟨k, a, q, true⟩ ⟨k, a, Loop.sequence.level, false⟩
      (Journaled.simple bound name) (simple bound name) := by
  refine .bind (.still still_here) fun span => .bind .advance fun _ => .at?_bind fun c => ?_
  refine .ite (fun _ => ?_) fun _ => .at?_bind fun c => .ite (fun _ => ?_) fun _ => ?_
  · exact (moves_assignment hk (k - 1) (Nat.sub_le k 1) 0 (Nat.zero_le _) _ _).ends
      (Nat.sub_le k 1) (Nat.le_refl _)
  · exact (moves_call hk (k - 1) (Nat.sub_le k 1) 0 (Nat.zero_le _) _ _).ends
      (Nat.sub_le k 1) (Nat.le_refl _)
  · exact keeps_unexpected _

theorem moves_statement (hn : n ≤ depth) (hbound : n ≤ bound) :
    Moves n Rule.statement.level Loop.sequence.level (Journaled.statement bound depth)
      (statement bound depth) := by
  induction depth generalizing n with
  | zero =>
    intro k hk a ha q b
    exact .of_zero (by dsimp only; omega)
  | succ depth ih =>
    have hnested := ih (n := n - 1) (by omega) (by omega)
    intro k hk a ha q b
    refine .within ha (.kind_bind fun t => ?_)
    cases t with
    | identifier name => exact keeps_simple (by dsimp only; omega)
    | symbol y =>
      cases y with
      | beginWord =>
        have hcompound := moves_compound hnested (Nat.le_trans (Nat.sub_le n 1) hbound)
        exact (hcompound k (by omega) _ (Nat.le_refl _) _ _).weaken (.refl _)
          ⟨Nat.le_refl _, Nat.le_refl _, Nat.zero_le _, id⟩
      | ifWord =>
        have hlevel : Rule.statement.level + 1 ≤ Rule.choice.level := by decide
        exact moves_choice hnested (by omega) k (by omega) _ hlevel _ _
      | whileWord =>
        have hlevel : Rule.statement.level + 1 ≤ Rule.loop.level := by decide
        exact moves_loop hnested (by omega) k (by omega) _ hlevel _ _
      | caseWord | repeatWord | forWord | withWord | gotoWord => exact keeps_unsupported _
      | _ => exact keeps_unexpected _
    | _ => exact keeps_unexpected _

theorem moves_typeName : Moves n Rule.typeName.level Loop.factors.level Journaled.typeName
    typeName := by
  intro k hk a ha q b
  refine .within ha (.kind_bind fun t => ?_)
  cases t with
  | identifier name =>
    refine .bind (.still still_here) fun span => .bind (.still (still_lookup _ _)) fun e => ?_
    cases e with
    | type t =>
      refine .bind (.still still_get) fun st => .ite (fun _ => ?_) fun _ => keeps_reject _ _
      exact .bind .advance fun _ => .pure (.passed (Nat.sub_le k 1) (Nat.le_refl _))
    | _ => exact keeps_reject _ _
  | symbol y =>
    cases y with
    | arrayWord | recordWord | setWord | fileWord | packedWord => exact keeps_unsupported _
    | _ => exact keeps_unexpected _
  | _ => exact keeps_unexpected _

/-- Each round of the loop passes a comma and a name but the last. -/
theorem keeps_moreNames (hk : k ≤ count) :
    Keeps ⟨k, 0, 0, false⟩ ⟨k, 0, Loop.declarations.level, false⟩ (Journaled.moreNames count)
      (moreNames count) := by
  induction count generalizing k with
  | zero => exact .of_zero (Nat.le_zero.1 hk)
  | succ count ih =>
    refine .round_bind (l := .names) (Nat.zero_le _) (.at?_bind fun c => ?_)
    refine .ite (fun hc => ?_) fun _ =>
      .pure .forget
    subst hc
    refine .bind (Keeps.advance.weaken (.refl _) (.refl _)) fun _ => ?_
    refine .bind keeps_identifier fun x => ?_
    have hrest := ih (k := k - 1 - 1) (by omega)
    exact .bind hrest fun xs => .pure (.passed (by omega) (Nat.le_refl _))

theorem moves_variableDeclaration (hn : n ≤ bound) :
    Moves n Rule.variableDeclaration.level Loop.factors.level
      (Journaled.variableDeclaration bound) (variableDeclaration bound) := by
  intro k hk a ha q b
  refine .within ha (.bind keeps_identifier fun first => ?_)
  refine .bind (keeps_moreNames (by omega)) fun more => .bind (keeps_accept _) fun _ => ?_
  have htype := moves_typeName (k - 1 - 1) (Nat.le_refl _)
  refine .bind (htype _ (Nat.zero_le _) _ _) fun t => ?_
  refine (Keeps.still (still_declareAll _ _)).ends (by omega) (Nat.le_refl _)

theorem keeps_variableDeclarations (hk : k ≤ count) (hbound : k ≤ bound) :
    Keeps ⟨k, 0, 0, false⟩ ⟨k, 0, 0, false⟩ (Journaled.variableDeclarations bound count)
      (variableDeclarations bound count) := by
  induction count generalizing k with
  | zero => exact .of_zero (Nat.le_zero.1 hk)
  | succ count ih =>
    refine .round_bind (l := .declarations) (Nat.zero_le _) ?_
    have hdeclaration := moves_variableDeclaration hbound k (Nat.le_refl _)
    refine .bind (hdeclaration _ (Nat.zero_le _) _ _) fun _ => ?_
    refine .bind (keeps_accept _) fun _ => .kind_bind fun t => ?_
    cases t with
    | identifier name =>
      have hrest := ih (k := k - 1) (by omega) (by omega)
      exact hrest.weaken .forget
        ⟨Nat.sub_le k 1, Nat.le_refl _, Nat.le_refl _, id⟩
    | _ => exact .pure ⟨Nat.sub_le k 1, Nat.le_refl _, Nat.le_refl _, by simp⟩

theorem keeps_declarations {a q : Nat} {b : Bool} (hk : k ≤ bound)
    (ha : a ≤ Rule.declarations.level) : Keeps ⟨k, a, q, b⟩ ⟨k, a, q, false⟩
      (Journaled.declarations bound) (declarations bound) := by
  refine .within ha (.at?_bind fun c => .ite (fun hc => ?_) fun _ => ?_)
  · subst hc
    have hrest : Keeps ⟨k - 1, 0, 0, false⟩ ⟨k - 1, 0, 0, false⟩
        (Journaled.variableDeclarations bound bound) (variableDeclarations bound bound) :=
      keeps_variableDeclarations (by omega) (by omega)
    refine .bind (Keeps.advance.weaken ⟨Nat.le_refl _, Nat.le_refl _, Nat.le_refl _, by simp⟩
      (.refl _)) fun _ => ?_
    exact hrest.ends (Nat.sub_le k 1) (Nat.zero_le _)
  · exact .pure .forget

theorem moves_program (hn : n ≤ bound) : Moves n Rule.program.level Loop.factors.level
    (Journaled.program bound) (program bound) := by
  intro k hk a ha q b
  refine .within ha (.bind (keeps_accept _) fun _ => .bind keeps_identifier fun _ => ?_)
  refine .bind (keeps_accept _) fun _ => .bind (.still still_noDeclarations) fun _ => ?_
  refine .bind (keeps_declarations (k := k - 1 - 1 - 1) (by omega) (Nat.zero_le _)) fun _ => ?_
  refine .bind (.still still_noDeclarations) fun _ => ?_
  have hcompound : Moves (bound + 1) Rule.compound.level Loop.factors.level
      (Journaled.compound bound (Journaled.statement bound bound))
      (compound bound (statement bound bound)) :=
    moves_compound (moves_statement (Nat.le_refl _) (Nat.le_refl _)) (Nat.le_refl _)
  refine .bind (hcompound (k - 1 - 1 - 1) (by omega) _ (Nat.zero_le _) _ _) fun _ => ?_
  exact (keeps_accept _).ends (by omega) (Nat.le_refl _)

end
end MiniPascal.Grammar
