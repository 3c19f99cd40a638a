import MiniPascal.Proofs.Reading.Production

/-! How far a reading looks. A production sees the current token and none behind it. So the tokens
that it leaves behind the current one may be replaced, and so may a bound on the number of tokens
that it does not reach. -/
namespace MiniPascal.Grammar

/-- The state with other tokens behind the current one. -/
def State.withAhead (s : State) (ts : List Token) : State := { s with ahead := ts }

/-- The state in which a reading ended. -/
def stateOf {α : Type} : EStateM.Result Stop State α → State
  | .ok _ s | .error _ s => s

/-- The result of a reading with other tokens behind the current one. -/
def withAhead {α : Type} (ts : List Token) :
    EStateM.Result Stop State α → EStateM.Result Stop State α
  | .ok a s => .ok a (s.withAhead ts)
  | .error e s => .error e (s.withAhead ts)

/-- Where the first production passes fewer tokens than a bound and leaves some behind the current
one, the second does the same, whatever tokens are left instead. -/
structure Local {α : Type} (n : Nat) (p q : Production α) : Prop where
  leaves : ∀ s, (stateOf (p s)).ahead <:+ s.ahead
  same : ∀ {s : State} {xs ys us : List Token}, us ≠ [] → s.ahead = xs ++ us → xs.length < n →
    (stateOf (p s)).ahead = ys ++ us →
    ∀ vs, q (s.withAhead (xs ++ vs)) = withAhead (ys ++ vs) (p s)

/-- The production neither passes a token nor sees what is behind the current one. -/
def Blind {α : Type} (p : Production α) : Prop :=
  ∀ s ts, p (s.withAhead ts) = withAhead ts (p s)

section
variable {α β ι : Type} {m n b b' : Nat} {p p' q q' : Production α} {f g : α → Production β}
  {P Q : Nat → ι → Production α} {s : State} {us xs ys zs : List Token}

theorem ahead_withAhead (ts : List Token) (r : EStateM.Result Stop State α) :
    (stateOf (withAhead ts r)).ahead = ts := by
  cases r <;> rfl

theorem Blind.leaves (h : Blind p) (s : State) : (stateOf (p s)).ahead = s.ahead := by
  have hs : p s = withAhead s.ahead (p s) := h s s.ahead
  rw [hs, ahead_withAhead]

theorem Blind.local (h : Blind p) : Local n p p := by
  refine ⟨fun s => ?_, fun {s xs ys us} _ hs _ hend vs => ?_⟩
  · exact h.leaves s ▸ List.suffix_refl _
  · rw [h.leaves s, hs] at hend
    rw [List.append_cancel_right hend]
    exact h s _

theorem Local.mono (h : Local n p q) (hm : m ≤ n) : Local m p q :=
  ⟨h.leaves, fun hne hs hlt hend => h.same hne hs (Nat.lt_of_lt_of_le hlt hm) hend⟩

/-- What passes no tokens at all may go on in any way. -/
theorem Local.zero (h : Local 0 p q) (q' : Production α) : Local 0 p q' :=
  ⟨h.leaves, fun _ _ hlt => absurd hlt (Nat.not_lt_zero _)⟩

/-- What is left in the end was left on the way. -/
theorem split_of_suffix (h : ys ++ us <:+ zs) (hzs : zs <:+ xs ++ us) :
    ∃ ws, zs = ws ++ us ∧ ws.length ≤ xs.length := by
  obtain ⟨ws, rfl⟩ := h
  refine ⟨ws ++ ys, (List.append_assoc ws ys us).symm, ?_⟩
  have hlength := hzs.length_le
  simp only [List.length_append] at hlength ⊢
  omega

theorem Local.bind (hp : Local n p q) (hf : ∀ a, Local n (f a) (g a)) :
    Local n (p >>= f) (q >>= g) := by
  constructor
  · intro s
    have hfirst := hp.leaves s
    rw [bind_apply]
    cases h : p s with
    | ok a t =>
      rw [h] at hfirst
      exact ((hf a).leaves t).trans hfirst
    | error e t =>
      rw [h] at hfirst
      exact hfirst
  · intro s xs ys us hne hs hlt hend vs
    have hfirst := hp.leaves s
    rw [bind_apply] at hend ⊢
    cases h : p s with
    | ok a t =>
      rw [h] at hend hfirst
      have hsecond := (hf a).leaves t
      rw [hend] at hsecond
      obtain ⟨ws, hws, hle⟩ := split_of_suffix hsecond (hs ▸ hfirst)
      have hq : q (s.withAhead (xs ++ vs)) = withAhead (ws ++ vs) (p s) :=
        hp.same hne hs hlt (by rw [h]; exact hws) vs
      rw [bind_apply, hq, h]
      exact (hf a).same hne hws (Nat.lt_of_le_of_lt hle hlt) hend vs
    | error e t =>
      rw [h] at hend
      have hq : q (s.withAhead (xs ++ vs)) = withAhead (ys ++ vs) (p s) :=
        hp.same hne hs hlt (by rw [h]; exact hend) vs
      rw [bind_apply, hq, h]
      rfl

/-- A production that passes no token, and what comes next. -/
theorem Blind.bind (hp : Blind p) (hf : ∀ a, Local n (f a) (g a)) :
    Local n (p >>= f) (p >>= g) := hp.local.bind hf

theorem Local.ite {c : Prop} [Decidable c] (hp : c → Local n p q) (hq : ¬ c → Local n p' q') :
    Local n (if c then p else p') (if c then q else q') := by
  by_cases h : c
  · rw [if_pos h, if_pos h]
    exact hp h
  · rw [if_neg h, if_neg h]
    exact hq h

/-- A production that comes first in one case only. -/
theorem Local.when {c : Prop} [Decidable c] {p p' : Production Unit} {f g : Unit → Production β}
    (hp : Local n p p') (hf : ∀ u, Local n (f u) (g u)) :
    Local n (if c then p >>= f else f ()) (if c then p' >>= g else g ()) :=
  .ite (fun _ => hp.bind hf) fun _ => hf ()

/-- A look at the state, of which only what is not ahead is used. -/
theorem Local.get {f g : State → Production β} (hg : ∀ s ts, g (s.withAhead ts) = g s)
    (h : ∀ s, Local n (f s) (g s)) :
    Local n (MonadState.get >>= f) (MonadState.get >>= g) := by
  constructor
  · exact fun s => (h s).leaves s
  · intro s xs ys us hne hs hlt hend vs
    rw [get_bind, get_bind, hg]
    exact (h s).same hne hs hlt hend vs

theorem State.advance_suffix (s : State) : s.advance.ahead <:+ s.ahead := by
  unfold State.advance
  split
  · exact List.suffix_refl _
  · next t ts ha =>
    rw [ha]
    exact List.suffix_cons _ _

/-- Passing a token leaves those further behind as they are. -/
theorem State.advance_withAhead (hne : us ≠ []) (hs : s.ahead = xs ++ us)
    (hend : s.advance.ahead = ys ++ us) : xs.length = ys.length + 1 ∧
      ∀ vs, (s.withAhead (xs ++ vs)).advance = s.advance.withAhead (ys ++ vs) := by
  obtain ⟨current, ahead, lastStop, scopes, code⟩ := s
  obtain rfl : ahead = xs ++ us := hs
  cases xs with
  | nil =>
    exfalso
    cases us with
    | nil => exact hne rfl
    | cons u us =>
      have hlength := congrArg List.length hend
      simp only [State.advance, List.nil_append, List.length_append, List.length_cons] at hlength
      omega
  | cons x xs =>
    obtain rfl : xs = ys := List.append_cancel_right hend
    exact ⟨rfl, fun vs => rfl⟩

/-- What comes next may pass one token less. -/
theorem Local.advance {f g : Unit → Production β} (h : ∀ u, Local (n - 1) (f u) (g u)) :
    Local n (Grammar.advance >>= f) (Grammar.advance >>= g) := by
  constructor
  · intro s
    exact ((h ()).leaves s.advance).trans s.advance_suffix
  · intro s xs ys us hne hs hlt hend vs
    have hlast := (h ()).leaves s.advance
    have hend : (stateOf (f () s.advance)).ahead = ys ++ us := hend
    rw [hend] at hlast
    obtain ⟨zs, hzs, -⟩ := split_of_suffix hlast (hs ▸ s.advance_suffix)
    obtain ⟨hlength, hadvance⟩ := State.advance_withAhead hne hs hzs
    have hnext := (h ()).same hne hzs (by omega) hend vs
    rw [advance_bind, advance_bind, hadvance]
    exact hnext

theorem local_advance : Local n advance advance := by
  have h : Local n (advance >>= pure) (advance >>= pure) :=
    .advance fun u => Blind.local fun _ _ => rfl
  exact h

/-- A loop that passes a token in every round reaches no bound that is large enough. -/
theorem Local.loop (hzero : ∀ i, Local 0 (P 0 i) (Q 0 i))
    (hstep : ∀ m ≤ n, ∀ b b', (∀ i, Local (m - 1) (P b i) (Q b' i)) →
      ∀ i, Local m (P (b + 1) i) (Q (b' + 1) i))
    (hb : n ≤ b) (hb' : n ≤ b') (i : ι) : Local n (P b i) (Q b' i) := by
  have hall : ∀ b m b', m ≤ n → m ≤ b → m ≤ b' → ∀ i, Local m (P b i) (Q b' i) := by
    intro b
    induction b with
    | zero =>
      intro m b' _ hm _ i
      obtain rfl := Nat.le_zero.1 hm
      exact (hzero i).zero _
    | succ b ih =>
      intro m b' hmn hm hm' i
      cases b' with
      | zero =>
        obtain rfl := Nat.le_zero.1 hm'
        exact (hstep 0 hmn b 0 (ih 0 0 hmn (Nat.zero_le b) (Nat.le_refl 0)) i).zero _
      | succ b' =>
        exact hstep m hmn b b' (ih (m - 1) b' (by omega) (by omega) (by omega)) i
  exact hall b n b' (Nat.le_refl n) hb hb' i

end
section
variable {α : Type} {a b t : Ty} {c : Cause} {n start : Nat} {x : String} {span : Span} {y : Symbol}

theorem blind_pure (a : α) : Blind (pure a : Production α) := fun _ _ => rfl

theorem blind_kind : Blind kind := fun _ _ => rfl

theorem blind_here : Blind here := fun _ _ => rfl

theorem blind_at? : Blind (at? y) := fun _ _ => rfl

theorem blind_spanFrom : Blind (spanFrom start) := fun _ _ => rfl

theorem blind_reject : Blind (reject c span : Production α) := fun _ _ => rfl

theorem blind_unexpected (e : Expectation) : Blind (unexpected e : Production α) := fun _ _ => rfl

theorem blind_unsupported (f : Feature) : Blind (unsupported f : Production α) := fun _ _ => rfl

theorem blind_emit (is : List Instr) : Blind (emit is) := fun _ _ => rfl

theorem blind_declareSlot : Blind (declareSlot t) := fun _ _ => rfl

theorem blind_defineLabel : Blind defineLabel := fun _ _ => rfl

theorem blind_lookup : Blind (lookup x span) := by
  intro s ts
  rw [lookup, get_bind, get_bind]
  have hscopes : (s.withAhead ts).scopes = s.scopes := rfl
  rw [hscopes]
  cases s.scopes.find? x <;> rfl

theorem blind_declare (e : Entry) : Blind (declare x e span) := by
  intro s ts
  rw [declare, get_bind, get_bind]
  have hscopes : (s.withAhead ts).scopes = s.scopes := rfl
  rw [hscopes]
  cases s.scopes.declare? x e <;> rfl

theorem blind_join : Blind (join a b) := by
  intro s ts
  rw [join]
  cases a.join? b <;> rfl

theorem local_accept : Local n (accept y) (accept y) :=
  blind_at?.bind fun _ => .ite (fun _ => local_advance) fun _ => (blind_unexpected _).local

theorem accept_bind (f : Unit → Production α) :
    (accept y >>= f) = (do if ← at? y then advance >>= f else unexpected (.symbol y)) := by
  funext s
  rw [bind_apply, bind_apply, accept, bind_apply, at?_apply]
  cases s.current.isSymbol y <;> rfl

/-- Behind a symbol, one token less may be passed. -/
theorem Local.accept {f g : Unit → Production α} (h : ∀ u, Local (n - 1) (f u) (g u)) :
    Local n (Grammar.accept y >>= f) (Grammar.accept y >>= g) := by
  rw [accept_bind, accept_bind]
  exact blind_at?.bind fun _ => .ite (fun _ => .advance h) fun _ => (blind_unexpected _).local

theorem local_identifier : Local n identifier identifier := by
  refine blind_kind.bind fun k => ?_
  cases k with
  | identifier name => exact blind_here.bind fun _ => .advance fun _ => (blind_pure _).local
  | _ => exact (blind_unexpected _).local

end

section
variable {b b' d d' n start : Nat} {p q : Production Ty} {left right : Ty}

theorem local_chain {ω : Type} {operator? : TokenKind → Option ω}
    {combine : ω → Ty → Ty → Production Ty} (hp : Local n p q)
    (hc : ∀ m op t u, Local m (combine op t u) (combine op t u)) (hb : n ≤ b) (hb' : n ≤ b')
    (left : Ty) : Local n (chain operator? p combine b left) (chain operator? q combine b' left) := by
  refine Local.loop (P := chain operator? p combine) (Q := chain operator? q combine)
    (fun t => (blind_pure t).local) (fun m hm b b' ih t => ?_) hb hb' left
  refine blind_kind.bind fun k => ?_
  cases operator? k with
  | none => exact (blind_pure t).local
  | some op =>
    refine .advance fun _ => (hp.mono (by omega)).bind fun u => ?_
    exact (hc _ op t u).bind fun v => ih v

theorem local_add (op : Operator) : Local n (add start op left right) (add start op left right) := by
  refine .ite (fun _ => ?_) fun _ => .ite (fun _ => ?_) fun _ => .ite (fun _ => ?_) fun _ => ?_
  · exact (blind_emit _).bind fun _ => blind_join.local
  · exact (blind_emit _).bind fun _ => (blind_pure _).local
  · exact (blind_emit _).bind fun _ => (blind_pure _).local
  · exact blind_spanFrom.bind fun _ => blind_reject.local

theorem local_multiply (op : Operator × Bool) :
    Local n (multiply start op left right) (multiply start op left right) := by
  have hlast : ∀ t, Local n (do emit op.1.code; return t : Production Ty)
      (do emit op.1.code; return t : Production Ty) := fun t =>
    (blind_emit _).bind fun _ => (blind_pure t).local
  refine .ite (fun _ => ?_) fun _ => .ite (fun _ => ?_) fun _ => .ite (fun _ => ?_) fun _ => ?_
  · exact blind_join.bind hlast
  · exact hlast _
  · exact hlast _
  · exact blind_spanFrom.bind fun _ => blind_reject.bind hlast

theorem local_term (hp : Local n p q) (hb : n ≤ b) (hb' : n ≤ b') :
    Local n (term b p) (term b' q) :=
  blind_here.bind fun _ => hp.bind fun first =>
    local_chain hp (fun _ op _ _ => local_multiply op) hb hb' first

theorem local_sum (hp : Local n p q) (hb : n ≤ b) (hb' : n ≤ b') : Local n (sum b p) (sum b' q) := by
  have hterm : Local n (term b p) (term b' q) := local_term hp hb hb'
  refine blind_here.bind fun start => blind_kind.bind fun k => ?_
  have hrest : ∀ first, Local n (chain additive? (term b p) (add start.offset) b first)
      (chain additive? (term b' q) (add start.offset) b' first) :=
    local_chain hterm (fun _ op _ _ => local_add op) hb hb'
  refine .when local_advance fun _ => hterm.bind fun first => ?_
  refine .ite (fun _ => ?_) fun _ => .when (blind_emit _).local fun _ => hrest first
  exact blind_spanFrom.bind fun _ => blind_reject.bind fun _ =>
    .when (blind_emit _).local fun _ => hrest first

theorem local_comparison (hp : Local n p q) (hb : n ≤ b) (hb' : n ≤ b') :
    Local n (comparison b p) (comparison b' q) := by
  have hsum : Local n (sum b p) (sum b' q) := local_sum hp hb hb'
  refine blind_here.bind fun start => hsum.bind fun left => blind_at?.bind fun _ => ?_
  refine .when (blind_unsupported _).local fun _ => blind_kind.bind fun k => ?_
  cases comparison? k with
  | none => exact (blind_pure left).local
  | some op =>
    refine .advance fun _ => (hsum.mono (Nat.sub_le n 1)).bind fun right => ?_
    refine .ite (fun _ => (blind_emit _).bind fun _ => (blind_pure _).local) fun _ => ?_
    exact blind_spanFrom.bind fun _ => blind_reject.local

theorem local_constant (v : Value) : Local n (constant v) (constant v) :=
  (blind_emit _).bind fun _ => .advance fun _ => (blind_pure _).local

/-- Nested factors come behind a symbol. -/
theorem local_primary (hp : Local (n - 1) p q) (hb : n ≤ b) (hb' : n ≤ b') :
    Local n (primary b p) (primary b' q) := by
  refine blind_here.bind fun span => blind_kind.bind fun k => ?_
  cases k with
  | identifier name =>
    refine blind_lookup.bind fun e => ?_
    cases e with
    | var t slot => exact (blind_emit _).bind fun _ => .advance fun _ => (blind_pure _).local
    | constant v => exact local_constant v
    | _ => exact blind_reject.local
  | integer v => exact local_constant _
  | real v => exact local_constant _
  | string v => exact local_constant _
  | symbol s =>
    cases s with
    | notWord =>
      refine .advance fun _ => hp.bind fun t => ?_
      refine .ite (fun _ => (blind_emit _).bind fun _ => (blind_pure _).local) fun _ => ?_
      exact blind_spanFrom.bind fun _ => blind_reject.local
    | leftParen =>
      refine .advance fun _ => ?_
      have hinner : Local (n - 1) (comparison b p) (comparison b' q) :=
        local_comparison hp (by omega) (by omega)
      exact hinner.bind fun t => .accept fun _ => (blind_pure t).local
    | nilWord => exact (blind_unsupported _).local
    | _ => exact (blind_unexpected _).local
  | _ => exact (blind_unexpected _).local

theorem local_factor (hb : n ≤ b) (hb' : n ≤ b') (hd : n ≤ d) (hd' : n ≤ d') :
    Local n (factor b d) (factor b' d') := by
  refine Local.loop (P := fun d (_ : Unit) => factor b d) (Q := fun d _ => factor b' d)
    (fun _ => (blind_unexpected _).local) (fun m hm d d' ih _ => ?_) hd hd' ()
  exact local_primary (ih ()) (Nat.le_trans hm hb) (Nat.le_trans hm hb')

theorem local_expression (hb : n ≤ b) (hb' : n ≤ b') : Local n (expression b) (expression b') :=
  local_comparison (local_factor hb hb' hb hb') hb hb'

end

section
variable {b b' d d' n : Nat} {p q : Production Unit} {name : String} {span : Span} {y : Symbol}

theorem local_assignment (hb : n ≤ b) (hb' : n ≤ b') :
    Local n (assignment b name span) (assignment b' name span) := by
  refine blind_lookup.bind fun e => ?_
  cases e with
  | var declared slot =>
    refine .accept fun _ => blind_here.bind fun start => ?_
    have hexpression : Local (n - 1) (expression b) (expression b') :=
      local_expression (by omega) (by omega)
    refine hexpression.bind fun found => ?_
    have hstore : Local (n - 1) (emit [.store slot]) (emit [.store slot]) := (blind_emit _).local
    refine .ite (fun _ => (blind_emit _).bind fun _ => hstore) fun _ => ?_
    refine .ite (fun _ => ?_) fun _ => hstore
    exact blind_spanFrom.bind fun _ => blind_reject.bind fun _ => hstore
  | _ => exact blind_reject.local

theorem local_arguments (hb : n ≤ b) (hb' : n ≤ b') (hd : n ≤ d) (hd' : n ≤ d') :
    Local n (arguments b d) (arguments b' d') := by
  refine Local.loop (P := fun d (_ : Unit) => arguments b d) (Q := fun d _ => arguments b' d)
    (fun _ => (blind_pure _).local) (fun m hm d d' ih _ => ?_) hd hd' ()
  have hexpression : Local m (expression b) (expression b') :=
    local_expression (Nat.le_trans hm hb) (Nat.le_trans hm hb')
  refine hexpression.bind fun t => (blind_emit _).bind fun _ => blind_at?.bind fun _ => ?_
  exact .ite (fun _ => .advance fun _ => ih ()) fun _ => (blind_pure _).local

theorem local_call (hb : n ≤ b) (hb' : n ≤ b') : Local n (call b name span) (call b' name span) := by
  refine .ite (fun _ => ?_) fun _ => blind_lookup.bind fun _ => blind_reject.local
  refine .accept fun _ => blind_at?.bind fun _ => ?_
  have harguments : Local (n - 1) (arguments b b) (arguments b' b') :=
    local_arguments (by omega) (by omega) (by omega) (by omega)
  exact .ite (fun _ => local_accept) fun _ => harguments.bind fun _ => local_accept

theorem local_condition (hb : n ≤ b) (hb' : n ≤ b') : Local n (condition b y) (condition b' y) := by
  refine blind_here.bind fun start => (local_expression hb hb').bind fun t => ?_
  refine .ite (fun _ => (blind_pure _).local) fun _ => ?_
  exact blind_spanFrom.bind fun _ => blind_reject.local

theorem local_choice (hp : Local (n - 1) p q) (hb : n ≤ b) (hb' : n ≤ b') :
    Local n (choice b p) (choice b' q) := by
  have hcondition : Local (n - 1) (condition b .ifWord) (condition b' .ifWord) :=
    local_condition (by omega) (by omega)
  refine .accept fun _ => hcondition.bind fun _ => local_accept.bind fun _ => ?_
  refine blind_defineLabel.bind fun _ => blind_defineLabel.bind fun _ => ?_
  refine (blind_emit _).bind fun _ => hp.bind fun _ => (blind_emit _).bind fun _ => ?_
  refine blind_at?.bind fun _ => .ite (fun _ => ?_) fun _ => (blind_emit _).local
  exact local_advance.bind fun _ => hp.bind fun _ => (blind_emit _).local

theorem local_loop (hp : Local (n - 1) p q) (hb : n ≤ b) (hb' : n ≤ b') :
    Local n (loop b p) (loop b' q) := by
  have hcondition : Local (n - 1) (condition b .whileWord) (condition b' .whileWord) :=
    local_condition (by omega) (by omega)
  refine .accept fun _ => blind_defineLabel.bind fun _ => blind_defineLabel.bind fun _ => ?_
  refine (blind_emit _).bind fun _ => hcondition.bind fun _ => local_accept.bind fun _ => ?_
  exact (blind_emit _).bind fun _ => hp.bind fun _ => (blind_emit _).local

theorem local_sequence (hp : Local n p q) (hd : n ≤ d) (hd' : n ≤ d') :
    Local n (sequence p d) (sequence q d') := by
  refine Local.loop (P := fun d (_ : Unit) => sequence p d) (Q := fun d _ => sequence q d)
    (fun _ => (blind_pure _).local) (fun m hm d d' ih _ => ?_) hd hd' ()
  refine blind_at?.bind fun _ => .ite (fun _ => ?_) fun _ => (blind_pure _).local
  refine .advance fun _ => blind_at?.bind fun _ => ?_
  exact .ite (fun _ => (blind_pure _).local) fun _ => (hp.mono (by omega)).bind fun _ => ih ()

theorem local_compound (hp : Local (n - 1) p q) (hb : n ≤ b) (hb' : n ≤ b') :
    Local n (compound b p) (compound b' q) := by
  refine .accept fun _ => blind_at?.bind fun _ => .ite (fun _ => local_advance) fun _ => ?_
  have hsequence : Local (n - 1) (sequence p b) (sequence q b') :=
    local_sequence hp (by omega) (by omega)
  exact hp.bind fun _ => hsequence.bind fun _ => local_accept

theorem local_simple (hb : n ≤ b) (hb' : n ≤ b') : Local n (simple b name) (simple b' name) := by
  refine blind_here.bind fun span => .advance fun _ => blind_at?.bind fun _ => ?_
  refine .ite (fun _ => local_assignment (by omega) (by omega)) fun _ => blind_at?.bind fun _ => ?_
  exact .ite (fun _ => local_call (by omega) (by omega)) fun _ => (blind_unexpected _).local

theorem local_statement (hb : n ≤ b) (hb' : n ≤ b') (hd : n ≤ d) (hd' : n ≤ d') :
    Local n (statement b d) (statement b' d') := by
  refine Local.loop (P := fun d (_ : Unit) => statement b d) (Q := fun d _ => statement b' d)
    (fun _ => (blind_unexpected _).local) (fun m hm d d' ih _ => ?_) hd hd' ()
  have hmb := Nat.le_trans hm hb
  have hmb' := Nat.le_trans hm hb'
  refine blind_kind.bind fun k => ?_
  split
  · exact local_simple hmb hmb'
  · exact local_compound (ih ()) hmb hmb'
  · exact local_choice (ih ()) hmb hmb'
  · exact local_loop (ih ()) hmb hmb'
  all_goals first | exact (blind_unsupported _).local | exact (blind_unexpected _).local

theorem local_noDeclarations : Local n noDeclarations noDeclarations := by
  refine blind_kind.bind fun k => ?_
  split
  all_goals first | exact (blind_unsupported _).local | exact (blind_pure _).local

theorem local_typeName : Local n typeName typeName := by
  refine blind_kind.bind fun k => ?_
  split
  · refine blind_here.bind fun span => blind_lookup.bind fun e => ?_
    cases e with
    | type t =>
      refine .get (fun _ _ => rfl) fun s => ?_
      exact .ite (fun _ => .advance fun _ => (blind_pure _).local) fun _ => blind_reject.local
    | _ => exact blind_reject.local
  all_goals first | exact (blind_unsupported _).local | exact (blind_unexpected _).local

theorem local_moreNames (hd : n ≤ d) (hd' : n ≤ d') : Local n (moreNames d) (moreNames d') := by
  refine Local.loop (P := fun d (_ : Unit) => moreNames d) (Q := fun d _ => moreNames d)
    (fun _ => (blind_pure _).local) (fun m hm d d' ih _ => ?_) hd hd' ()
  refine blind_at?.bind fun _ => .ite (fun _ => ?_) fun _ => (blind_pure _).local
  exact .advance fun _ => local_identifier.bind fun name => (ih ()).bind fun names =>
    (blind_pure _).local

theorem local_declareAll (t : Ty) (names : List (String × Span)) :
    Local n (names.forM (declareVariable t)) (names.forM (declareVariable t)) := by
  induction names with
  | nil => exact (blind_pure _).local
  | cons name names ih =>
    have hdeclare : Local n (declareVariable t name) (declareVariable t name) :=
      blind_declareSlot.bind fun _ => (blind_declare _).local
    exact hdeclare.bind fun _ => ih

theorem local_variableDeclaration (hb : n ≤ b) (hb' : n ≤ b') :
    Local n (variableDeclaration b) (variableDeclaration b') := by
  refine local_identifier.bind fun first => (local_moreNames hb hb').bind fun more => ?_
  exact local_accept.bind fun _ => local_typeName.bind fun t => local_declareAll t _

theorem local_variableDeclarations (hb : n ≤ b) (hb' : n ≤ b') (hd : n ≤ d) (hd' : n ≤ d') :
    Local n (variableDeclarations b d) (variableDeclarations b' d') := by
  refine Local.loop (P := fun d (_ : Unit) => variableDeclarations b d)
    (Q := fun d _ => variableDeclarations b' d) (fun _ => (blind_pure _).local)
    (fun m hm d d' ih _ => ?_) hd hd' ()
  have hfirst : Local m (variableDeclaration b) (variableDeclaration b') :=
    local_variableDeclaration (Nat.le_trans hm hb) (Nat.le_trans hm hb')
  refine hfirst.bind fun _ => .accept fun _ => blind_kind.bind fun k => ?_
  split
  · exact ih ()
  · exact (blind_pure _).local

theorem local_declarations (hb : n ≤ b) (hb' : n ≤ b') :
    Local n (declarations b) (declarations b') := by
  refine blind_at?.bind fun _ => .ite (fun _ => ?_) fun _ => (blind_pure _).local
  exact .advance fun _ =>
    local_variableDeclarations (by omega) (by omega) (by omega) (by omega)

/-- Reading a program looks at no token behind the one at which it stops, and never reaches a bound
that exceeds the number of tokens it passes. -/
theorem local_program (hb : n ≤ b) (hb' : n ≤ b') : Local n (program b) (program b') := by
  refine local_accept.bind fun _ => local_identifier.bind fun _ => local_accept.bind fun _ => ?_
  refine local_noDeclarations.bind fun _ => (local_declarations hb hb').bind fun _ => ?_
  refine local_noDeclarations.bind fun _ => ?_
  have hstatement : Local n (statement b b) (statement b' b') := local_statement hb hb' hb hb'
  have hcompound : Local n (compound b (statement b b)) (compound b' (statement b' b')) :=
    local_compound (hstatement.mono (Nat.sub_le n 1)) hb hb'
  exact hcompound.bind fun _ => local_accept

end
end MiniPascal.Grammar
