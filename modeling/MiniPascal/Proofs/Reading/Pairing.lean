import Mathlib.Data.List.Forall2
import MiniPascal.Proofs.Reading.Production

/-! Two readings side by side. What a production does depends on the kinds of the tokens, on what
names stand for, and on nothing else, so that whatever relates the states of two readings in these
keeps relating them, and they end in the same way. -/
namespace MiniPascal

/-- Kinds of tokens that differ at most in a name. -/
inductive TokenKind.Matches (name : String → String → Prop) : TokenKind → TokenKind → Prop
  | identifier {x y : String} (h : name x y) : Matches name (.identifier x) (.identifier y)
  | same {k : TokenKind} (h : ∀ x, k ≠ .identifier x) : Matches name k k

/-- Expectations that differ at most in a name. -/
inductive Expectation.Matches (name : String → String → Prop) : Expectation → Expectation → Prop
  | assignmentOrCall {x y : String} (h : name x y) :
    Matches name (.assignmentOrCall x) (.assignmentOrCall y)
  | same (e : Expectation) : Matches name e e

/-- Causes that differ at most in a name. -/
inductive Cause.Matches (name : String → String → Prop) : Cause → Cause → Prop
  | unexpected {e e' : Expectation} {k k' : TokenKind} (he : e.Matches name e')
    (hk : k.Matches name k') : Matches name (.unexpected e k) (.unexpected e' k')
  | undefined {x y : String} (h : name x y) : Matches name (.undefined x) (.undefined y)
  | duplicate {x y : String} (h : name x y) : Matches name (.duplicate x) (.duplicate y)
  | notAType {x y : String} (h : name x y) : Matches name (.notAType x) (.notAType y)
  | notAssignable {x y : String} (e : Entry) (h : name x y) :
    Matches name (.notAssignable e x) (.notAssignable e y)
  | notAProcedure {x y : String} (e : Entry) (h : name x y) :
    Matches name (.notAProcedure e x) (.notAProcedure e y)
  | notAValue {x y : String} (e : Entry) (h : name x y) :
    Matches name (.notAValue e x) (.notAValue e y)
  | assignedType {x y : String} (found declared : Ty) (h : name x y) :
    Matches name (.assignedType found x declared) (.assignedType found y declared)
  | same (c : Cause) : Matches name c c

section
variable {name : String → String → Prop} {k k' : TokenKind} {c d : Cause}

/-- What does not look into names is the same of both kinds. -/
theorem TokenKind.Matches.congr {β : Type} {f : TokenKind → β} (h : k.Matches name k')
    (hf : ∀ x y, f (.identifier x) = f (.identifier y)) : f k = f k' := by
  cases h with
  | identifier => exact hf _ _
  | same => rfl

theorem TokenKind.Matches.refl (k : TokenKind) : k.Matches Eq k := by
  cases k with
  | identifier x => exact .identifier rfl
  | _ => exact .same (by simp)

theorem TokenKind.Matches.eq (h : k.Matches Eq k') : k = k' := by
  cases h with
  | identifier h => rw [h]
  | same => rfl

theorem Cause.Matches.eq (h : c.Matches Eq d) : c = d := by
  cases h with
  | unexpected he hk =>
    rw [hk.eq]
    cases he with
    | assignmentOrCall h => rw [h]
    | same => rfl
  | same => rfl
  | _ => simp_all

/-- The names in a cause do not show in its code. -/
theorem Cause.Matches.code (h : c.Matches name d) (a b : Span) :
    (c.problem a).code = (d.problem b).code := by
  cases h with
  | same => cases c <;> rfl
  | _ => rfl

end

namespace Grammar

/-- Two readings side by side: which states, names and places of them correspond, and in which ways
they may end. -/
structure Pairing where
  state : State → State → Prop
  name : String → String → Prop
  place : Span → Span → Prop
  stop : Rejection → State → Rejection → State → Prop
  kind_of_state : ∀ {s s'}, state s s' → s.current.kind.Matches name s'.current.kind
  here_of_state : ∀ {s s'}, state s s' → place s.current.span s'.current.span
  spanFrom_of_state : ∀ {s s' a b}, state s s' → place a b →
    place ⟨a.offset, s.lastStop - a.offset⟩ ⟨b.offset, s'.lastStop - b.offset⟩
  advance_state : ∀ {s s'}, state s s' → state s.advance s'.advance
  code_of_state : ∀ {s s'}, state s s' → s.code = s'.code
  withCode_state : ∀ {s s'} (code : CodeBuffer), state s s' →
    state { s with code } { s' with code }
  find?_of_state : ∀ {s s' x y}, state s s' → name x y → s.scopes.find? x = s'.scopes.find? y
  declare?_of_state : ∀ {s s' x y} (e : Entry), state s s' → name x y →
    (s.scopes.declare? x e = none ∧ s'.scopes.declare? y e = none) ∨
    ∃ a b, s.scopes.declare? x e = some a ∧ s'.scopes.declare? y e = some b ∧
      state { s with scopes := a } { s' with scopes := b }
  isRegistered_of_state : ∀ {s s'} (t : Ty), state s s' →
    s.scopes.isRegistered t = s'.scopes.isRegistered t
  isPrint_of_name : ∀ {x y}, name x y → (x.toLower == printName) = (y.toLower == printName)
  stop_of_state : ∀ {s s' a b c d}, state s s' → place a b → Cause.Matches name c d →
    stop ⟨c, a⟩ s ⟨d, b⟩ s'

theorem isPrint_of_eq {x y : String} (h : x = y) :
    (x.toLower == printName) = (y.toLower == printName) := by
  rw [h]

namespace Pairing

/-- Both readings go on from states that correspond, or both stop. Neither breaks a promise between
the parts of the compiler. -/
inductive Results (r : Pairing) {α β : Type} (V : α → β → Prop) :
    EStateM.Result Stop State α → EStateM.Result Stop State β → Prop
  | ok {a : α} {b : β} {s s' : State} (hv : V a b) (hs : r.state s s') :
    Results r V (.ok a s) (.ok b s')
  | error {c d : Rejection} {s s' : State} (h : r.stop c s d s') :
    Results r V (.error (.rejected c) s) (.error (.rejected d) s')

/-- From states that correspond, the productions come to values and states that do. -/
def Agree (r : Pairing) {α β : Type} (V : α → β → Prop) (p : Production α) (q : Production β) :
    Prop := ∀ s s', r.state s s' → r.Results V (p s) (q s')

section
variable {r : Pairing} {α α' β β' : Type} {V : α → α' → Prop} {W : β → β' → Prop}
  {p : Production α} {p' : Production α'} {f : α → Production β} {f' : α' → Production β'}
  {b : β} {b' : β'} {q : Production β} {q' : Production β'}

theorem Agree.pure (h : W b b') : r.Agree W (pure b) (pure b') := fun _ _ hs => .ok h hs

theorem Agree.bind (hp : r.Agree V p p') (hf : ∀ a a', V a a' → r.Agree W (f a) (f' a')) :
    r.Agree W (p >>= f) (p' >>= f') := by
  intro s s' hs
  have h := hp s s' hs
  rw [bind_apply, bind_apply]
  generalize p s = result, p' s' = result' at h ⊢
  cases h with
  | ok hv ht => exact hf _ _ hv _ _ ht
  | error h => exact .error h

/-- A production of which both readings know the value. -/
theorem Agree.andThen {p p' : Production α} {f f' : α → Production β} {W : β → β → Prop}
    (hp : r.Agree Eq p p') (hf : ∀ a, r.Agree W (f a) (f' a)) :
    r.Agree W (p >>= f) (p' >>= f') :=
  hp.bind fun a _ h => h ▸ hf a

theorem Agree.ite {c : Prop} [Decidable c] {u : Production β} {u' : Production β'}
    (hq : c → r.Agree W q q') (hu : ¬ c → r.Agree W u u') :
    r.Agree W (if c then q else u) (if c then q' else u') := by
  by_cases h : c
  · rw [if_pos h, if_pos h]
    exact hq h
  · rw [if_neg h, if_neg h]
    exact hu h

/-- A production that comes first in one case only. -/
theorem Agree.when {c : Prop} [Decidable c] {p p' : Production Unit} {f : Unit → Production β}
    {f' : Unit → Production β'} (hp : r.Agree Eq p p') (hf : r.Agree W (f ()) (f' ())) :
    r.Agree W (if c then p >>= f else f ()) (if c then p' >>= f' else f' ()) :=
  .ite (fun _ => hp.bind fun _ _ _ => hf) fun _ => hf

theorem Agree.unless {c : Prop} [Decidable c] {p p' : Production Unit} {f : Unit → Production β}
    {f' : Unit → Production β'} (hp : r.Agree Eq p p') (hf : r.Agree W (f ()) (f' ())) :
    r.Agree W (if c then f () else p >>= f) (if c then f' () else p' >>= f') :=
  .ite (fun _ => hf) fun _ => hp.bind fun _ _ _ => hf

end

section
variable (r : Pairing) {α β : Type} {V : α → β → Prop} {c d : Cause} {a b : Span} {x y : String}

theorem agree_advance : r.Agree Eq advance advance := fun _ _ hs => .ok rfl (r.advance_state hs)

theorem agree_kind : r.Agree (TokenKind.Matches r.name) kind kind := fun _ _ hs =>
  .ok (r.kind_of_state hs) hs

theorem agree_here : r.Agree r.place here here := fun _ _ hs => .ok (r.here_of_state hs) hs

theorem agree_get : r.Agree r.state get get := fun _ _ hs => .ok hs hs

theorem agree_at? (y : Symbol) : r.Agree Eq (at? y) (at? y) := by
  intro s s' hs
  have hk : (s.current.kind == .symbol y) = (s'.current.kind == .symbol y) :=
    (r.kind_of_state hs).congr (f := (· == .symbol y)) fun _ _ => rfl
  exact .ok hk hs

theorem agree_emit (is : List Instr) : r.Agree Eq (emit is) (emit is) := by
  intro s s' hs
  have hs' : emit is s' = .ok () { s' with code := s.code.emitAll is } := by
    rw [r.code_of_state hs]
    rfl
  rw [hs']
  exact .ok rfl (r.withCode_state _ hs)

theorem agree_declareSlot (t : Ty) : r.Agree Eq (declareSlot t) (declareSlot t) := by
  intro s s' hs
  rw [declareSlot_apply, declareSlot_apply, ← r.code_of_state hs]
  exact .ok rfl (r.withCode_state _ hs)

theorem agree_defineLabel : r.Agree Eq defineLabel defineLabel := by
  intro s s' hs
  have hs' : defineLabel s' =
      .ok s.code.defineLabel.1 { s' with code := s.code.defineLabel.2 } := by
    rw [r.code_of_state hs]
    rfl
  rw [hs']
  exact .ok rfl (r.withCode_state _ hs)

variable {r}

theorem agree_spanFrom (h : r.place a b) :
    r.Agree r.place (spanFrom a.offset) (spanFrom b.offset) :=
  fun _ _ hs => .ok (r.spanFrom_of_state hs h) hs

theorem agree_reject (hc : c.Matches r.name d) (h : r.place a b) :
    r.Agree V (reject c a) (reject d b) := fun _ _ hs => .error (r.stop_of_state hs h hc)

variable (r)

theorem agree_unsupported (f : Feature) : r.Agree V (unsupported f) (unsupported f) :=
  r.agree_here.bind fun _ _ h => agree_reject (.same _) h

theorem agree_unexpected {e e' : Expectation} (he : e.Matches r.name e') :
    r.Agree V (unexpected e) (unexpected e') :=
  r.agree_kind.bind fun _ _ hk => r.agree_here.bind fun _ _ h => agree_reject (.unexpected he hk) h

theorem agree_accept (y : Symbol) : r.Agree Eq (accept y) (accept y) :=
  (r.agree_at? y).andThen fun _ => .ite (fun _ => r.agree_advance) fun _ =>
    r.agree_unexpected (.same _)

variable {r}

theorem agree_lookup (hn : r.name x y) (h : r.place a b) :
    r.Agree Eq (lookup x a) (lookup y b) := by
  refine r.agree_get.bind fun s s' hs => ?_
  rw [r.find?_of_state hs hn]
  split
  · exact .pure rfl
  · exact agree_reject (.undefined hn) h

theorem agree_declare (e : Entry) (hn : r.name x y) (h : r.place a b) :
    r.Agree Eq (declare x e a) (declare y e b) := by
  intro s s' hs
  rcases r.declare?_of_state e hs hn with ⟨hx, hy⟩ | ⟨σ, σ', hx, hy, hstate⟩
  · rw [declare, declare, get_bind, get_bind, hx, hy]
    exact .error (r.stop_of_state hs h (.duplicate hn))
  · rw [declare_of_some a hx, declare_of_some b hy]
    exact .ok rfl hstate

/-- Names read at places that correspond. -/
def binder (r : Pairing) (u v : String × Span) : Prop := r.name u.1 v.1 ∧ r.place u.2 v.2

theorem agree_identifier : r.Agree r.binder identifier identifier := by
  refine r.agree_kind.bind fun k k' hk => ?_
  cases hk with
  | identifier hn =>
    exact r.agree_here.bind fun _ _ h => r.agree_advance.andThen fun _ => .pure ⟨hn, h⟩
  | same hk =>
    cases k with
    | identifier x => exact absurd rfl (hk x)
    | _ => exact r.agree_unexpected (.same _)

/-- Numeric types can be joined. -/
theorem agree_join {t u : Ty} (ht : t.isNumeric) (hu : u.isNumeric) :
    r.Agree Eq (join t u) (join t u) := by
  have hj : ∃ w, t.join? u = some w := by
    cases t <;> cases u <;> first
      | exact ⟨_, rfl⟩
      | exact absurd ht (by decide)
      | exact absurd hu (by decide)
  obtain ⟨w, hj⟩ := hj
  rw [join, hj]
  exact .pure rfl

end

section
variable {r : Pairing} {bound depth count : Nat} {p p' : Production Ty} {a b : Span}

theorem agree_chain {ω : Type} {operator? : TokenKind → Option ω}
    {combine combine' : ω → Ty → Ty → Production Ty}
    (ho : ∀ x y, operator? (.identifier x) = operator? (.identifier y)) (hp : r.Agree Eq p p')
    (hc : ∀ op t u, r.Agree Eq (combine op t u) (combine' op t u)) {left : Ty} :
    r.Agree Eq (chain operator? p combine bound left) (chain operator? p' combine' bound left) := by
  induction bound generalizing left with
  | zero => exact .pure rfl
  | succ bound ih =>
    refine r.agree_kind.bind fun k k' hk => ?_
    rw [hk.congr ho]
    split
    · exact .pure rfl
    · exact r.agree_advance.andThen fun _ => hp.andThen fun _ => (hc _ _ _).andThen fun _ => ih

theorem agree_add (h : r.place a b) (op : Operator) (t u : Ty) :
    r.Agree Eq (add a.offset op t u) (add b.offset op t u) := by
  refine .ite (fun hn => ?_) fun _ => .ite (fun _ => ?_) fun _ => .ite (fun _ => ?_) fun _ => ?_
  · simp only [Bool.and_eq_true] at hn
    exact (r.agree_emit _).andThen fun _ => agree_join hn.1.2 hn.2
  · exact (r.agree_emit _).andThen fun _ => .pure rfl
  · exact (r.agree_emit _).andThen fun _ => .pure rfl
  · exact (agree_spanFrom h).bind fun _ _ h => agree_reject (.same _) h

theorem agree_multiply (h : r.place a b) (op : Operator × Bool) (t u : Ty) :
    r.Agree Eq (multiply a.offset op t u) (multiply b.offset op t u) := by
  have hlast : ∀ t, r.Agree Eq (do emit op.1.code; return t : Production Ty)
      (do emit op.1.code; return t : Production Ty) := fun t =>
    (r.agree_emit _).andThen fun _ => .pure rfl
  refine .ite (fun hn => ?_) fun _ => .ite (fun _ => ?_) fun _ => .ite (fun _ => ?_) fun _ => ?_
  · simp only [Bool.and_eq_true] at hn
    exact (agree_join hn.1.2 hn.2).andThen hlast
  · exact (Agree.pure rfl).andThen hlast
  · exact (Agree.pure rfl).andThen hlast
  · exact (agree_spanFrom h).bind fun _ _ h => (agree_reject (.same _) h).andThen hlast

theorem agree_term (hp : r.Agree Eq p p') : r.Agree Eq (term bound p) (term bound p') :=
  r.agree_here.bind fun _ _ h => hp.andThen fun _ =>
    agree_chain (fun _ _ => rfl) hp (agree_multiply h)

theorem agree_sum (hp : r.Agree Eq p p') : r.Agree Eq (sum bound p) (sum bound p') := by
  refine r.agree_here.bind fun start start' h => r.agree_kind.bind fun k k' hk => ?_
  have hsign : sign? k = sign? k' := hk.congr fun _ _ => rfl
  simp only [hsign]
  refine .when r.agree_advance ((agree_term hp).andThen fun first => ?_)
  have hrest : r.Agree Eq (chain additive? (term bound p) (add start.offset) bound first)
      (chain additive? (term bound p') (add start'.offset) bound first) :=
    agree_chain (fun _ _ => rfl) (agree_term hp) (agree_add h)
  refine .ite (fun _ => ?_) fun _ => .when (r.agree_emit _) hrest
  exact (agree_spanFrom h).bind fun _ _ h => (agree_reject (.same _) h).andThen fun _ =>
    .when (r.agree_emit _) hrest

theorem agree_comparison (hp : r.Agree Eq p p') :
    r.Agree Eq (comparison bound p) (comparison bound p') := by
  refine r.agree_here.bind fun start start' h => (agree_sum hp).andThen fun left => ?_
  refine (r.agree_at? _).andThen fun _ => .when (r.agree_unsupported _) ?_
  refine r.agree_kind.bind fun k k' hk => ?_
  have hop : comparison? k = comparison? k' := hk.congr fun _ _ => rfl
  rw [hop]
  split
  · exact .pure rfl
  · refine r.agree_advance.andThen fun _ => (agree_sum hp).andThen fun right => ?_
    refine .ite (fun _ => (r.agree_emit _).andThen fun _ => .pure rfl) fun _ => ?_
    exact (agree_spanFrom h).bind fun _ _ h => agree_reject (.same _) h

theorem agree_constant (v : Value) : r.Agree Eq (constant v) (constant v) :=
  (r.agree_emit _).andThen fun _ => r.agree_advance.andThen fun _ => .pure rfl

theorem agree_primary (hp : r.Agree Eq p p') :
    r.Agree Eq (primary bound p) (primary bound p') := by
  refine r.agree_here.bind fun span span' h => r.agree_kind.bind fun k k' hk => ?_
  cases hk with
  | identifier hn =>
    refine (agree_lookup hn h).andThen fun e => ?_
    cases e with
    | var => exact (r.agree_emit _).andThen fun _ => r.agree_advance.andThen fun _ => .pure rfl
    | constant v => exact agree_constant v
    | _ => exact agree_reject (.notAValue _ hn) h
  | same hk =>
    cases k with
    | identifier x => exact absurd rfl (hk x)
    | integer | real | string => exact agree_constant _
    | symbol s =>
      cases s with
      | notWord =>
        refine r.agree_advance.andThen fun _ => hp.andThen fun t => ?_
        refine .ite (fun _ => (r.agree_emit _).andThen fun _ => .pure rfl) fun _ => ?_
        exact (agree_spanFrom h).bind fun _ _ h => agree_reject (.same _) h
      | leftParen =>
        exact r.agree_advance.andThen fun _ => (agree_comparison hp).andThen fun _ =>
          (r.agree_accept _).andThen fun _ => .pure rfl
      | nilWord => exact r.agree_unsupported _
      | _ => exact r.agree_unexpected (.same _)
    | _ => exact r.agree_unexpected (.same _)

theorem agree_factor : r.Agree Eq (factor bound depth) (factor bound depth) := by
  induction depth with
  | zero => exact r.agree_unexpected (.same _)
  | succ depth ih => exact agree_primary ih

theorem agree_expression : r.Agree Eq (expression bound) (expression bound) :=
  agree_comparison agree_factor

end

section
variable {r : Pairing} {bound depth count : Nat} {p p' : Production Unit} {a b : Span}
  {x y : String}

theorem agree_assignment (hn : r.name x y) (h : r.place a b) :
    r.Agree Eq (assignment bound x a) (assignment bound y b) := by
  refine (agree_lookup hn h).andThen fun e => ?_
  cases e with
  | var declared slot =>
    refine (r.agree_accept _).andThen fun _ => r.agree_here.bind fun start start' h => ?_
    refine agree_expression.andThen fun found => ?_
    have hstore : r.Agree Eq (emit [.store slot]) (emit [.store slot]) := r.agree_emit _
    refine .ite (fun _ => (r.agree_emit _).andThen fun _ => hstore) fun _ => ?_
    refine .ite (fun _ => ?_) fun _ => hstore
    exact (agree_spanFrom h).bind fun _ _ h =>
      (agree_reject (.assignedType _ _ hn) h).andThen fun _ => hstore
  | _ => exact agree_reject (.notAssignable _ hn) h

theorem agree_arguments : r.Agree Eq (arguments bound count) (arguments bound count) := by
  induction count with
  | zero => exact .pure rfl
  | succ count ih =>
    refine agree_expression.andThen fun t => (r.agree_emit _).andThen fun _ => ?_
    exact (r.agree_at? _).andThen fun _ => .ite (fun _ => r.agree_advance.andThen fun _ => ih)
      fun _ => .pure rfl

theorem agree_call (hn : r.name x y) (h : r.place a b) :
    r.Agree Eq (call bound x a) (call bound y b) := by
  rw [call, call, r.isPrint_of_name hn]
  refine .ite (fun _ => ?_) fun _ => (agree_lookup hn h).andThen fun _ =>
    agree_reject (.notAProcedure _ hn) h
  exact (r.agree_accept _).andThen fun _ => (r.agree_at? _).andThen fun _ =>
    .unless agree_arguments (r.agree_accept _)

theorem agree_condition (s : Symbol) : r.Agree Eq (condition bound s) (condition bound s) := by
  refine r.agree_here.bind fun start start' h => agree_expression.andThen fun t => ?_
  refine .ite (fun _ => .pure rfl) fun _ => ?_
  exact (agree_spanFrom h).bind fun _ _ h => agree_reject (.same _) h

theorem agree_choice (hp : r.Agree Eq p p') : r.Agree Eq (choice bound p) (choice bound p') := by
  refine (r.agree_accept _).andThen fun _ => (agree_condition _).andThen fun _ => ?_
  refine (r.agree_accept _).andThen fun _ => r.agree_defineLabel.andThen fun _ => ?_
  refine r.agree_defineLabel.andThen fun _ => (r.agree_emit _).andThen fun _ => ?_
  refine hp.andThen fun _ => (r.agree_emit _).andThen fun _ => (r.agree_at? _).andThen fun _ => ?_
  exact .ite (fun _ => r.agree_advance.andThen fun _ => hp.andThen fun _ => r.agree_emit _)
    fun _ => r.agree_emit _

theorem agree_loop (hp : r.Agree Eq p p') : r.Agree Eq (loop bound p) (loop bound p') := by
  refine (r.agree_accept _).andThen fun _ => r.agree_defineLabel.andThen fun _ => ?_
  refine r.agree_defineLabel.andThen fun _ => (r.agree_emit _).andThen fun _ => ?_
  refine (agree_condition _).andThen fun _ => (r.agree_accept _).andThen fun _ => ?_
  exact (r.agree_emit _).andThen fun _ => hp.andThen fun _ => r.agree_emit _

theorem agree_sequence (hp : r.Agree Eq p p') :
    r.Agree Eq (sequence p count) (sequence p' count) := by
  induction count with
  | zero => exact .pure rfl
  | succ count ih =>
    refine (r.agree_at? _).andThen fun _ => .ite (fun _ => ?_) fun _ => .pure rfl
    refine r.agree_advance.andThen fun _ => (r.agree_at? _).andThen fun _ => ?_
    exact .ite (fun _ => .pure rfl) fun _ => hp.andThen fun _ => ih

theorem agree_compound (hp : r.Agree Eq p p') :
    r.Agree Eq (compound bound p) (compound bound p') := by
  refine (r.agree_accept _).andThen fun _ => (r.agree_at? _).andThen fun _ => ?_
  exact .ite (fun _ => r.agree_advance) fun _ => hp.andThen fun _ =>
    (agree_sequence hp).andThen fun _ => r.agree_accept _

theorem agree_simple (hn : r.name x y) : r.Agree Eq (simple bound x) (simple bound y) := by
  refine r.agree_here.bind fun span span' h => r.agree_advance.andThen fun _ => ?_
  refine (r.agree_at? _).andThen fun _ => .ite (fun _ => agree_assignment hn h) fun _ => ?_
  exact (r.agree_at? _).andThen fun _ => .ite (fun _ => agree_call hn h) fun _ =>
    r.agree_unexpected (.assignmentOrCall hn)

theorem agree_statement : r.Agree Eq (statement bound depth) (statement bound depth) := by
  induction depth with
  | zero => exact r.agree_unexpected (.same _)
  | succ depth ih =>
    refine r.agree_kind.bind fun k k' hk => ?_
    cases hk with
    | identifier hn => exact agree_simple hn
    | same hk =>
      split
      · next x => exact absurd rfl (hk x)
      · exact agree_compound ih
      · exact agree_choice ih
      · exact agree_loop ih
      all_goals first | exact r.agree_unsupported _ | exact r.agree_unexpected (.same _)

theorem agree_noDeclarations : r.Agree Eq noDeclarations noDeclarations := by
  refine r.agree_kind.bind fun k k' hk => ?_
  cases hk with
  | identifier => exact .pure rfl
  | same =>
    split
    all_goals first | exact r.agree_unsupported _ | exact .pure rfl

theorem agree_typeName : r.Agree Eq typeName typeName := by
  refine r.agree_kind.bind fun k k' hk => ?_
  cases hk with
  | identifier hn =>
    refine r.agree_here.bind fun span span' h => (agree_lookup hn h).andThen fun e => ?_
    cases e with
    | type t =>
      refine r.agree_get.bind fun s s' hs => ?_
      rw [r.isRegistered_of_state t hs]
      exact .ite (fun _ => r.agree_advance.andThen fun _ => .pure rfl)
        fun _ => agree_reject (.notAType hn) h
    | _ => exact agree_reject (.notAType hn) h
  | same hk =>
    split
    · next x => exact absurd rfl (hk x)
    all_goals first | exact r.agree_unsupported _ | exact r.agree_unexpected (.same _)

theorem agree_moreNames :
    r.Agree (List.Forall₂ r.binder) (moreNames count) (moreNames count) := by
  induction count with
  | zero => exact .pure .nil
  | succ count ih =>
    refine (r.agree_at? _).bind fun c _ hc => hc ▸ .ite (fun _ => ?_) fun _ => .pure .nil
    exact r.agree_advance.bind fun _ _ _ => agree_identifier.bind fun _ _ hn =>
      ih.bind fun _ _ hns => .pure (.cons hn hns)

theorem agree_declareVariable (t : Ty) {u v : String × Span} (h : r.binder u v) :
    r.Agree Eq (declareVariable t u) (declareVariable t v) :=
  (r.agree_declareSlot t).andThen fun _ => agree_declare _ h.1 h.2

theorem agree_declareAll (t : Ty) {us vs : List (String × Span)} (h : List.Forall₂ r.binder us vs) :
    r.Agree Eq (us.forM (declareVariable t)) (vs.forM (declareVariable t)) := by
  induction h with
  | nil => exact .pure rfl
  | cons h _ ih => exact (agree_declareVariable t h).andThen fun _ => ih

theorem agree_variableDeclaration :
    r.Agree Eq (variableDeclaration bound) (variableDeclaration bound) := by
  refine agree_identifier.bind fun first first' hn => agree_moreNames.bind fun more more' hns => ?_
  refine (r.agree_accept _).andThen fun _ => agree_typeName.andThen fun t => ?_
  exact agree_declareAll t (.cons hn hns)

theorem agree_variableDeclarations :
    r.Agree Eq (variableDeclarations bound count) (variableDeclarations bound count) := by
  induction count with
  | zero => exact .pure rfl
  | succ count ih =>
    refine agree_variableDeclaration.andThen fun _ => (r.agree_accept _).andThen fun _ => ?_
    refine r.agree_kind.bind fun k k' hk => ?_
    cases hk with
    | identifier => exact ih
    | same =>
      split
      · exact ih
      · exact .pure rfl

theorem agree_declarations : r.Agree Eq (declarations bound) (declarations bound) := by
  refine (r.agree_at? _).andThen fun _ => .ite (fun _ => ?_) fun _ => .pure rfl
  exact r.agree_advance.andThen fun _ => agree_variableDeclarations

/-- Reading programs from states that correspond ends in states that do. -/
theorem agree_program : r.Agree Eq (program bound) (program bound) := by
  refine (r.agree_accept _).andThen fun _ => agree_identifier.bind fun _ _ _ => ?_
  refine (r.agree_accept _).andThen fun _ => agree_noDeclarations.andThen fun _ => ?_
  refine agree_declarations.andThen fun _ => agree_noDeclarations.andThen fun _ => ?_
  exact (agree_compound agree_statement).andThen fun _ => r.agree_accept _

end

end Pairing
end Grammar
end MiniPascal
