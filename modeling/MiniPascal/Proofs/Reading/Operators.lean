import MiniPascal.Proofs.Editor.Alignment
import MiniPascal.Proofs.Reading.Operands
import MiniPascal.Proofs.Scan.Symbols

/-! The reports of operators that do not take their operands. Only expressions are rejected for an
operator, so the operator is a token of the text and its operands are around it. The message names
the operation it stands for. Two operators stand for one operation: `div` is reported under the name
of `/`. -/
namespace MiniPascal
namespace Grammar

/-- The production leaves the last of the tokens it finds, and blames only operators among them. -/
structure Accountable (bound : Nat) {α : Type} (p : Production α) : Prop where
  suffix : ∀ s a s', p s = .ok a s' → s'.tokens <:+ s.tokens
  blames : Blames bound p

section
variable {α β : Type} {bound : Nat} {p q : Production α} {f : α → Production β} {c : Cause}

theorem Accountable.bind (hp : Accountable bound p) (hf : ∀ a, Accountable bound (f a)) :
    Accountable bound (p >>= f) := by
  constructor
  · intro s b s' h
    obtain ⟨a, s₁, h₁, h₂⟩ := bind_eq_ok.1 h
    exact ((hf a).suffix _ _ _ h₂).trans (hp.suffix _ _ _ h₁)
  · intro s r s' hs hlen h hop
    rcases bind_eq_error.1 h with h | ⟨a, s₁, h₁, h₂⟩
    · exact hp.blames s r s' hs hlen h hop
    · have hsuffix := hp.suffix _ _ _ h₁
      have hs₁ : s₁.Ended := by
        obtain ⟨before, hbefore⟩ := hsuffix
        have hkinds := congrArg (List.map (·.kind)) hbefore.symm
        rw [List.map_append] at hkinds
        exact hs.of_append hkinds
      exact ((hf a).blames s₁ r s' hs₁ (Nat.le_trans hsuffix.length_le hlen) h₂ hop).mono hsuffix

theorem Accountable.ite {c : Prop} [Decidable c] (hp : Accountable bound p)
    (hq : Accountable bound q) : Accountable bound (if c then p else q) := by
  by_cases h : c
  · rwa [if_pos h]
  · rwa [if_neg h]

/-- A production that rejects nothing. -/
theorem accountable_of_ok (h : ∀ s, ∃ a s', p s = .ok a s' ∧ s'.tokens <:+ s.tokens) :
    Accountable bound p := by
  constructor
  · intro s a s' ha
    obtain ⟨b, s₁, hb, hsuffix⟩ := h s
    cases hb.symm.trans ha
    exact hsuffix
  · intro s r s' _ _ hr
    obtain ⟨b, s₁, hb, -⟩ := h s
    cases hb.symm.trans hr

theorem accountable_pure (a : α) : Accountable bound (pure a) :=
  accountable_of_ok fun s => ⟨a, s, rfl, List.suffix_refl _⟩

theorem accountable_get : Accountable bound get :=
  accountable_of_ok fun s => ⟨s, s, rfl, List.suffix_refl _⟩

theorem accountable_kind : Accountable bound kind :=
  accountable_of_ok fun s => ⟨_, s, rfl, List.suffix_refl _⟩

theorem accountable_here : Accountable bound here :=
  accountable_of_ok fun s => ⟨_, s, rfl, List.suffix_refl _⟩

theorem accountable_at? (y : Symbol) : Accountable bound (at? y) :=
  accountable_of_ok fun s => ⟨_, s, rfl, List.suffix_refl _⟩

theorem accountable_spanFrom (start : Nat) : Accountable bound (spanFrom start) :=
  accountable_of_ok fun s => ⟨_, s, rfl, List.suffix_refl _⟩

theorem accountable_advance : Accountable bound advance :=
  accountable_of_ok fun s => ⟨(), s.advance, rfl, State.tokens_advance s⟩

theorem accountable_emit (is : List Instr) : Accountable bound (emit is) :=
  accountable_of_ok fun _ => ⟨(), _, rfl, List.suffix_refl _⟩

theorem accountable_declareSlot (t : Ty) : Accountable bound (declareSlot t) :=
  accountable_of_ok fun _ => ⟨_, _, rfl, List.suffix_refl _⟩

theorem accountable_defineLabel : Accountable bound defineLabel :=
  accountable_of_ok fun _ => ⟨_, _, rfl, List.suffix_refl _⟩

/-- A rejection for anything but an operator. -/
theorem accountable_reject (hc : c.operator? = none) (a : Span) :
    Accountable bound (reject c a : Production α) := by
  constructor
  · rintro s _ _ ⟨⟩
  · rintro s r s' _ _ ⟨⟩ hop
    exact absurd hc hop

theorem accountable_unexpected (e : Expectation) :
    Accountable bound (unexpected e : Production α) :=
  accountable_kind.bind fun _ => accountable_here.bind fun a => accountable_reject rfl a

theorem accountable_unsupported (f : Feature) :
    Accountable bound (unsupported f : Production α) :=
  accountable_here.bind fun a => accountable_reject rfl a

theorem accountable_accept (y : Symbol) : Accountable bound (accept y) :=
  (accountable_at? y).bind fun _ => accountable_advance.ite (accountable_unexpected _)

theorem accountable_lookup (x : String) (a : Span) : Accountable bound (lookup x a) := by
  apply accountable_get.bind
  intro s
  split
  · exact accountable_pure _
  · exact accountable_reject rfl a

theorem accountable_declare (x : String) (e : Entry) (a : Span) :
    Accountable bound (declare x e a) := by
  apply accountable_get.bind
  intro s
  split
  · exact accountable_of_ok fun _ => ⟨(), _, rfl, List.suffix_refl _⟩
  · exact accountable_reject rfl a

theorem accountable_identifier : Accountable bound identifier := by
  apply accountable_kind.bind
  intro k
  split
  · exact accountable_here.bind fun _ => accountable_advance.bind fun _ => accountable_pure _
  · exact accountable_unexpected _

end

section
variable {bound depth count : Nat} {p : Production Unit}

theorem accountable_expression : Accountable bound (expression bound) := by
  constructor
  · intro s t s' h
    exact (orderly_of_agree fun _ => Pairing.agree_expression).suffix h
  · exact expression_blames

theorem accountable_assignment (x : String) (a : Span) :
    Accountable bound (assignment bound x a) := by
  apply (accountable_lookup x a).bind
  intro e
  split
  · refine (accountable_accept _).bind fun _ => accountable_here.bind fun start => ?_
    refine accountable_expression.bind fun found => ?_
    apply Accountable.ite
    · exact (accountable_emit _).bind fun _ => accountable_emit _
    · apply Accountable.ite
      · exact (accountable_spanFrom _).bind fun _ => (accountable_reject rfl _).bind fun _ =>
          accountable_emit _
      · exact accountable_emit _
  · exact accountable_reject rfl a

theorem accountable_arguments : Accountable bound (arguments bound count) := by
  induction count with
  | zero => exact accountable_pure ()
  | succ count ih =>
    refine accountable_expression.bind fun t => (accountable_emit _).bind fun _ => ?_
    refine (accountable_at? _).bind fun _ => ?_
    exact (accountable_advance.bind fun _ => ih).ite (accountable_pure ())

theorem accountable_call (x : String) (a : Span) : Accountable bound (call bound x a) := by
  apply Accountable.ite
  · refine (accountable_accept _).bind fun _ => (accountable_at? _).bind fun _ => ?_
    exact (accountable_accept _).ite (accountable_arguments.bind fun _ => accountable_accept _)
  · exact (accountable_lookup x a).bind fun _ => accountable_reject rfl a

theorem accountable_condition (y : Symbol) : Accountable bound (condition bound y) := by
  refine accountable_here.bind fun _ => accountable_expression.bind fun t => ?_
  apply (accountable_pure ()).ite
  exact (accountable_spanFrom _).bind fun _ => accountable_reject rfl _

theorem accountable_choice (hp : Accountable bound p) : Accountable bound (choice bound p) := by
  refine (accountable_accept _).bind fun _ => (accountable_condition _).bind fun _ => ?_
  refine (accountable_accept _).bind fun _ => accountable_defineLabel.bind fun _ => ?_
  refine accountable_defineLabel.bind fun _ => (accountable_emit _).bind fun _ => ?_
  refine hp.bind fun _ => (accountable_emit _).bind fun _ => (accountable_at? _).bind fun _ => ?_
  apply Accountable.ite
  · exact accountable_advance.bind fun _ => hp.bind fun _ => accountable_emit _
  · exact accountable_emit _

theorem accountable_loop (hp : Accountable bound p) : Accountable bound (loop bound p) := by
  refine (accountable_accept _).bind fun _ => accountable_defineLabel.bind fun _ => ?_
  refine accountable_defineLabel.bind fun _ => (accountable_emit _).bind fun _ => ?_
  refine (accountable_condition _).bind fun _ => (accountable_accept _).bind fun _ => ?_
  exact (accountable_emit _).bind fun _ => hp.bind fun _ => accountable_emit _

theorem accountable_sequence (hp : Accountable bound p) :
    Accountable bound (sequence p count) := by
  induction count with
  | zero => exact accountable_pure ()
  | succ count ih =>
    refine (accountable_at? _).bind fun _ => Accountable.ite ?_ (accountable_pure ())
    refine accountable_advance.bind fun _ => (accountable_at? _).bind fun _ => ?_
    exact (accountable_pure ()).ite (hp.bind fun _ => ih)

theorem accountable_compound (hp : Accountable bound p) :
    Accountable bound (compound bound p) := by
  refine (accountable_accept _).bind fun _ => (accountable_at? _).bind fun _ => ?_
  apply accountable_advance.ite
  exact hp.bind fun _ => (accountable_sequence hp).bind fun _ => accountable_accept _

theorem accountable_simple (x : String) : Accountable bound (simple bound x) := by
  refine accountable_here.bind fun a => accountable_advance.bind fun _ => ?_
  refine (accountable_at? _).bind fun _ => (accountable_assignment x a).ite ?_
  exact (accountable_at? _).bind fun _ => (accountable_call x a).ite (accountable_unexpected _)

theorem accountable_statement : Accountable bound (statement bound depth) := by
  induction depth with
  | zero => exact accountable_unexpected _
  | succ depth ih =>
    apply accountable_kind.bind
    intro k
    split
    · exact accountable_simple _
    · exact accountable_compound ih
    · exact accountable_choice ih
    · exact accountable_loop ih
    all_goals first | exact accountable_unsupported _ | exact accountable_unexpected _

theorem accountable_noDeclarations : Accountable bound noDeclarations := by
  apply accountable_kind.bind
  intro k
  split
  all_goals first | exact accountable_unsupported _ | exact accountable_pure ()

theorem accountable_typeName : Accountable bound typeName := by
  apply accountable_kind.bind
  intro k
  split
  · refine accountable_here.bind fun a => (accountable_lookup _ a).bind fun e => ?_
    split
    · apply accountable_get.bind
      intro s
      apply Accountable.ite
      · exact accountable_advance.bind fun _ => accountable_pure _
      · exact accountable_reject rfl a
    · exact accountable_reject rfl a
  all_goals first | exact accountable_unsupported _ | exact accountable_unexpected _

theorem accountable_moreNames : Accountable bound (moreNames count) := by
  induction count with
  | zero => exact accountable_pure []
  | succ count ih =>
    refine (accountable_at? _).bind fun _ => Accountable.ite ?_ (accountable_pure [])
    refine accountable_advance.bind fun _ => accountable_identifier.bind fun _ => ?_
    exact ih.bind fun _ => accountable_pure _

theorem accountable_declareAll (t : Ty) (names : List (String × Span)) :
    Accountable bound (names.forM (declareVariable t)) := by
  induction names with
  | nil => exact accountable_pure ()
  | cons name names ih =>
    have hone : Accountable bound (declareVariable t name) :=
      (accountable_declareSlot t).bind fun _ => accountable_declare _ _ _
    exact hone.bind fun _ => ih

theorem accountable_variableDeclaration : Accountable bound (variableDeclaration bound) := by
  refine accountable_identifier.bind fun _ => accountable_moreNames.bind fun _ => ?_
  refine (accountable_accept _).bind fun _ => accountable_typeName.bind fun t => ?_
  exact accountable_declareAll t _

theorem accountable_variableDeclarations :
    Accountable bound (variableDeclarations bound count) := by
  induction count with
  | zero => exact accountable_pure ()
  | succ count ih =>
    refine accountable_variableDeclaration.bind fun _ => (accountable_accept _).bind fun _ => ?_
    apply accountable_kind.bind
    intro k
    split
    · exact ih
    · exact accountable_pure ()

theorem accountable_declarations : Accountable bound (declarations bound) := by
  refine (accountable_at? _).bind fun _ => Accountable.ite ?_ (accountable_pure ())
  exact accountable_advance.bind fun _ => accountable_variableDeclarations

/-- An operator that a program is rejected for is in it with its operands. -/
theorem accountable_program : Accountable bound (program bound) := by
  refine (accountable_accept _).bind fun _ => accountable_identifier.bind fun _ => ?_
  refine (accountable_accept _).bind fun _ => accountable_noDeclarations.bind fun _ => ?_
  refine accountable_declarations.bind fun _ => accountable_noDeclarations.bind fun _ => ?_
  exact (accountable_compound accountable_statement).bind fun _ => accountable_accept _

end

end Grammar

/-! The name of an operator in a message. -/

/-- The operator in the message of a rejection. All but `div` are called by their own name. -/
def Connective.reported (c : Connective) : String := if c = .div then "/" else c.symbol.spelling

theorem Connective.spelling_operator (c : Connective) : c.operator.spelling = c.reported := by
  cases c <;> rfl

theorem message_of_operator? {r : Rejection} {op : Operator} (h : r.cause.operator? = some op) :
    ∃ complaint, r.problem.message = "operator `" ++ op.spelling ++ "` " ++ complaint := by
  obtain ⟨cause, span⟩ := r
  cases cause with
  | comparedTypes op' a b =>
    cases h
    refine ⟨"cannot compare " ++ a.name ++ " with " ++ b.name, ?_⟩
    have hsplit : "` cannot compare " = "` " ++ "cannot compare " := rfl
    simp only [Rejection.problem, Cause.problem, Problem.typeError, hsplit, String.append_assoc]
  | operandTypes op' a b =>
    cases h
    refine ⟨"cannot be applied to " ++ a.name ++ " and " ++ b.name, ?_⟩
    have hsplit : "` cannot be applied to " = "` " ++ "cannot be applied to " := rfl
    simp only [Rejection.problem, Cause.problem, Problem.typeError, hsplit, String.append_assoc]
  | _ => cases h

/-- A text is rejected for an operator, which is a token of it. The place is that of the operator
with its operands, and the message calls the operator by its name, unless it is `div`. -/
structure Misapplied (source : String) (r : Rejection) (c : Connective) (left : List Token)
    (o : Token) (right behind : List Token) : Prop where
  tokens : ∀ t ∈ left ++ o :: right, t ∈ (tokenize source).1
  applied : Applied c left o right behind
  place : r.span.Spans (left ++ o :: right)
  within : r.span.offset ≤ o.span.offset ∧ o.stop ≤ r.span.stop
  written : ∃ chars, Text.slice? source.toList o.span.offset o.span.length = some chars ∧
    (String.ofList chars).toLower = c.symbol.spelling
  named : ∃ complaint, r.problem.message = "operator `" ++ c.reported ++ "` " ++ complaint

section
variable {source : String} {r : Rejection} {op : Operator} {a : Span} {us : List Token} {t : Token}

/-- Tokens that stand in order lie within their stretch. -/
theorem Span.Spans.covers (h : a.Spans us) (ho : us.Pairwise fun t u => t.stop ≤ u.span.offset)
    (ht : t ∈ us) : a.offset ≤ t.span.offset ∧ t.stop ≤ a.stop := by
  obtain ⟨first, last, hfirst, hlast, rfl⟩ := h
  have hextent : ∀ u : Token, u.span.offset ≤ u.stop := fun u => Nat.le_add_right _ _
  have hstart : first.span.offset ≤ t.span.offset := by
    obtain ⟨rest, rfl⟩ := List.head?_eq_some_iff.1 hfirst
    rcases List.mem_cons.1 ht with rfl | ht
    · exact Nat.le_refl _
    · exact Nat.le_trans (hextent first) ((List.pairwise_cons.1 ho).1 t ht)
  have hstop : t.stop ≤ last.stop := by
    obtain ⟨init, rfl⟩ := List.getLast?_eq_some_iff.1 hlast
    rcases List.mem_append.1 ht with ht | ht
    · exact Nat.le_trans ((List.pairwise_append.1 ho).2.2 t ht last (by simp)) (hextent last)
    · obtain rfl := List.mem_singleton.1 ht
      exact Nat.le_refl _
  refine ⟨hstart, ?_⟩
  have hsum := hextent t
  simp only [Span.stop]
  omega

theorem accuses_of_stop (h : (Parse.ofSource source).stop = some (.rejected r))
    (hop : r.cause.operator? ≠ none) : Accuses (startOf source).tokens r := by
  rw [ofSource_eq] at h
  cases hr : readProgram source with
  | ok u s => simp [hr] at h
  | error e s =>
    rw [hr] at h
    cases h
    have hlen : (startOf source).tokens.length ≤ (startOf source).kinds.length :=
      Nat.le_of_eq (Grammar.length_kinds _).symm
    exact Grammar.accountable_program.blames _ r s ended_startOf hlen hr hop

/-- Whenever a text is rejected because an operator does not take its operands, the operator is one
of its tokens. It stands within the place of the rejection, which begins where its left operand does
and ends where its right one does. The report names the operator as it is written, except that it
calls `div` by the name of the other division. -/
theorem misapplied_operator (h : (Parse.ofSource source).stop = some (.rejected r))
    (hop : r.cause.operator? = some op) :
    ∃ before left o right behind c,
      (startOf source).tokens = before ++ (left ++ o :: right) ++ behind ∧
      Misapplied source r c left o right behind ∧ op = c.operator ∧
      compile source = .error (.failure (failureOf source (some r.problem))) := by
  obtain ⟨before, left, o, right, behind, c, hsplit, happlied, hspans, hc⟩ :=
    accuses_of_stop h (by simp [hop])
  have hsub : (left ++ o :: right).Sublist (tokenize source).1 := by
    apply List.Sublist.trans _ tokens_startOf_sublist
    rw [hsplit]
    exact (List.sublist_append_right before _).trans (List.sublist_append_left _ behind)
  have ho : o ∈ (tokenize source).1 := hsub.subset (by simp)
  refine ⟨before, left, o, right, behind, c, hsplit, ?_, ?_, compile_of_rejected h⟩
  · constructor
    case tokens => exact fun t ht => hsub.subset ht
    case applied => exact happlied
    case place => exact hspans
    case within => exact hspans.covers ((tokens_ordered source).sublist hsub) (by simp)
    case written => exact slice_symbol ho happlied.operator
    case named =>
      rw [← c.spelling_operator]
      exact message_of_operator? hc
  · exact Option.some.inj (hop.symm.trans hc)

/-- In front of the operator there is a sum with a sign, and behind it a term of two factors. -/
theorem misapplied_operator_or :
    ∃ r before left o right behind c,
      (startOf "program p; begin writeln(-1 + 2 OR 3 * 4) end.").tokens =
        before ++ (left ++ o :: right) ++ behind ∧
      Misapplied "program p; begin writeln(-1 + 2 OR 3 * 4) end." r c left o right behind ∧
      r.span = ⟨25, 15⟩ ∧ Operator.or = c.operator := by
  have hstop : (Parse.ofSource "program p; begin writeln(-1 + 2 OR 3 * 4) end.").stop =
      some (.rejected ⟨.operandTypes .or .integer .integer, ⟨25, 15⟩⟩) := by
    decide +kernel
  obtain ⟨before, left, o, right, behind, c, hsplit, hmis, hop, -⟩ := misapplied_operator hstop rfl
  exact ⟨_, before, left, o, right, behind, c, hsplit, hmis, rfl, hop⟩

/-- The report of `div` names an operator that the text does not contain. -/
theorem div_misnamed :
    ∃ source r, source = "program p; begin writeln(true div 1) end." ∧
      (Parse.ofSource source).stop = some (.rejected r) ∧ r.cause.operator? = some .div ∧
      r.problem.message = "operator `/` cannot be applied to boolean and integer" ∧
      ∀ t ∈ (tokenize source).1, t.kind ≠ .symbol .slash ∧
        Text.slice? source.toList t.span.offset t.span.length ≠ some ['/'] := by
  refine ⟨_, ⟨.operandTypes .div .boolean .integer, ⟨25, 10⟩⟩, rfl, ?_, rfl, ?_, ?_⟩
  · decide +kernel
  · decide +kernel
  · decide +kernel

end
end MiniPascal
