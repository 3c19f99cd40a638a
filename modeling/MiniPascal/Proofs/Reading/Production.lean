import MiniPascal.Grammar.Program

/-! What the elementary productions do to the state: how many tokens they pass, what they emit, and
how many labels they allot. Every larger production is described by the same three. -/
namespace MiniPascal.Grammar

namespace State

variable {s : State} {k : TokenKind} {ks ts rest : List TokenKind} {is js : List Instr}
  {m n l : Nat}

/-- The kinds of the tokens still to be read. -/
def kinds (s : State) : List TokenKind := s.current.kind :: s.ahead.map (·.kind)

/-- What names stand for in the state. -/
def names (s : State) : String → Option Entry := s.scopes.find?

/-- The state with `n` tokens passed. -/
@[simp] def pass (s : State) : Nat → State
  | 0 => s
  | n + 1 => s.advance.pass n

/-- The state with `n` tokens passed, instructions emitted and `l` labels allotted. -/
def after (s : State) (n : Nat) (is : List Instr) (l : Nat) : State :=
  { s.pass n with code := { s.code.emitAll is with labels := s.code.labels + UInt32.ofNat l } }

/-- The end of the text is still ahead. -/
def Ended (s : State) : Prop := s.kinds.getLast? = some .endOfText

@[simp] theorem code_advance : s.advance.code = s.code := by
  unfold advance
  split <;> rfl

@[simp] theorem scopes_advance : s.advance.scopes = s.scopes := by
  unfold advance
  split <;> rfl

@[simp] theorem code_pass : (s.pass n).code = s.code := by
  induction n generalizing s with
  | zero => rfl
  | succ n ih => simp [ih]

@[simp] theorem scopes_pass : (s.pass n).scopes = s.scopes := by
  induction n generalizing s with
  | zero => rfl
  | succ n ih => simp [ih]

theorem pass_pass : (s.pass m).pass n = s.pass (m + n) := by
  induction m generalizing s with
  | zero => simp
  | succ m ih => simp [ih, Nat.succ_add]

theorem advance_withCode (c : CodeBuffer) :
    { s with code := c }.advance = { s.advance with code := c } := by
  unfold advance
  split <;> simp_all

theorem pass_withCode (c : CodeBuffer) :
    { s with code := c }.pass n = { s.pass n with code := c } := by
  induction n generalizing s with
  | zero => rfl
  | succ n ih => simp only [pass, advance_withCode, ih]

theorem emitAll_append (b : CodeBuffer) :
    b.emitAll (is ++ js) = (b.emitAll is).emitAll js := by
  simp [CodeBuffer.emitAll]

theorem emitAll_withLabels (b : CodeBuffer) (n : UInt32) :
    { b with labels := n }.emitAll is = { b.emitAll is with labels := n } := by
  induction is generalizing b with
  | nil => rfl
  | cons i is ih => exact ih (b.emit i)

/-- Two productions in a row add up. -/
theorem after_after {l' : Nat} :
    (s.after m is l).after n js l' = s.after (m + n) (is ++ js) (l + l') := by
  simp only [after, pass_withCode, pass_pass, emitAll_withLabels, emitAll_append,
    UInt32.add_assoc, UInt32.ofNat_add]

@[simp] theorem scopes_after : (s.after n is l).scopes = s.scopes := by simp [after]

@[simp] theorem names_after : (s.after n is l).names = s.names := by simp [names]

@[simp] theorem labels_after :
    (s.after n is l).code.labels = s.code.labels + UInt32.ofNat l := rfl

theorem after_zero : s.after 0 [] 0 = s := by
  simp [after, CodeBuffer.emitAll]

theorem after_emit : s.after 0 is 0 = { s with code := s.code.emitAll is } := by
  have h : s.code.labels + UInt32.ofNat 0 = (s.code.emitAll is).labels := by simp
  rw [after, h]
  rfl

theorem after_one : s.after 1 [] 0 = s.advance := by
  cases hs : s.advance
  have hc := s.code_advance
  simp_all [after, CodeBuffer.emitAll]

theorem advance_after : (s.after n is l).advance = s.after (n + 1) is l := by
  rw [← after_one, after_after, List.append_nil]
  rfl

theorem kind_of_kinds (h : s.kinds = k :: ks) : s.current.kind = k := by
  simp only [kinds, List.cons.injEq] at h
  exact h.1

theorem isSymbol_of_kinds (h : s.kinds = k :: ks) (sym : Symbol) :
    s.current.isSymbol sym = (k == .symbol sym) := by
  rw [Token.isSymbol, kind_of_kinds h]

theorem kinds_advance (h : s.kinds = k :: ks) (hk : ks ≠ []) : s.advance.kinds = ks := by
  simp only [kinds, List.cons.injEq] at h
  obtain ⟨-, rfl⟩ := h
  cases ha : s.ahead with
  | nil => simp [ha] at hk
  | cons t ts => simp [advance, ha, kinds]

theorem kinds_pass (h : s.kinds = ts ++ rest) (hr : rest ≠ []) :
    (s.pass ts.length).kinds = rest := by
  induction ts generalizing s with
  | nil => exact h
  | cons t ts ih => exact ih (kinds_advance h (by simp [hr]))

theorem kinds_after (h : s.kinds = ts ++ rest) (hr : rest ≠ []) :
    (s.after ts.length is l).kinds = rest := kinds_pass h hr

/-- While the end is ahead, passing any other token leaves the tokens behind it. -/
theorem Ended.kinds_eq (h : s.Ended) (hk : s.current.kind ≠ .endOfText) :
    s.kinds = s.current.kind :: s.advance.kinds := by
  cases ha : s.ahead with
  | nil => simp_all [Ended, kinds]
  | cons t ts => simp [advance, ha, kinds]

theorem Ended.of_append (h : s.Ended) {s' : State} (hs : s.kinds = ts ++ s'.kinds) :
    s'.Ended := by
  cases hl : s'.kinds.getLast? with
  | none => simp [kinds] at hl
  | some k => simpa [Ended, hs, hl] using h

theorem Ended.advance (h : s.Ended) (hk : s.current.kind ≠ .endOfText) : s.advance.Ended := by
  have hs : s.kinds = [s.current.kind] ++ s.advance.kinds := h.kinds_eq hk
  exact h.of_append hs

end State

/-- The production stopped early. -/
def Fails {α : Type} (r : EStateM.Result Stop State α) : Prop := ∃ e s, r = .error e s

/-- The production did nothing but reject the text at a place. -/
def Refuses {α : Type} (span : Span) (s : State) (r : EStateM.Result Stop State α) : Prop :=
  ∃ c, r = .error (.rejected ⟨c, span⟩) s

section
variable {α β : Type} {s s' s'' : State}

theorem bind_apply (x : Production α) (f : α → Production β) :
    (x >>= f) s = match x s with
      | .ok a s' => f a s'
      | .error e s' => .error e s' := by
  simp only [bind, EStateM.bind]
  cases x s <;> rfl

theorem map_apply (f : α → β) (x : Production α) :
    (f <$> x) s = match x s with
      | .ok a s' => .ok (f a) s'
      | .error e s' => .error e s' := by
  simp only [Functor.map, EStateM.map]
  cases x s <;> rfl

theorem bind_eq_ok {x : Production α} {f : α → Production β} {b : β} :
    (x >>= f) s = .ok b s'' ↔ ∃ a s', x s = .ok a s' ∧ f a s' = .ok b s'' := by
  rw [bind_apply]
  cases x s with
  | ok a s' =>
    constructor
    · intro h
      exact ⟨a, s', rfl, h⟩
    · rintro ⟨_, _, ⟨⟩, h⟩
      exact h
  | error e s' => simp

theorem bind_eq_error {x : Production α} {f : α → Production β} {e : Stop} :
    (x >>= f) s = .error e s'' ↔
      x s = .error e s'' ∨ ∃ a s', x s = .ok a s' ∧ f a s' = .error e s'' := by
  rw [bind_apply]
  cases x s with
  | ok a s' =>
    constructor
    · intro h
      exact .inr ⟨a, s', rfl, h⟩
    · rintro (⟨⟨⟩⟩ | ⟨_, _, ⟨⟩, h⟩)
      exact h
  | error e s' => simp

theorem bind_of_ok {x : Production α} {a : α} (h : x s = .ok a s') (f : α → Production β) :
    (x >>= f) s = f a s' := by
  rw [bind_apply, h]

theorem Fails.bind {x : Production α} (h : Fails (x s)) (f : α → Production β) :
    Fails ((x >>= f) s) := by
  obtain ⟨e, s', h⟩ := h
  exact ⟨e, s', by rw [bind_apply, h]⟩

theorem Fails.ne_ok {r : EStateM.Result Stop State α} (h : Fails r) (a : α) : r ≠ .ok a s := by
  obtain ⟨e, s', rfl⟩ := h
  simp

@[simp] theorem fails_error (e : Stop) : Fails (.error e s : EStateM.Result Stop State α) :=
  ⟨e, s, rfl⟩

theorem Refuses.fails {span : Span} {r : EStateM.Result Stop State α} (h : Refuses span s r) :
    Fails r := by
  obtain ⟨c, rfl⟩ := h
  exact fails_error _

@[simp] theorem refuses_error (c : Cause) (span : Span) :
    Refuses span s (.error (.rejected ⟨c, span⟩) s : EStateM.Result Stop State α) := ⟨c, rfl⟩

@[simp] theorem pure_apply (a : α) : (pure a : Production α) s = .ok a s := rfl

@[simp] theorem advance_apply : advance s = .ok () s.advance := rfl

@[simp] theorem kind_apply : kind s = .ok s.current.kind s := rfl

@[simp] theorem here_apply : here s = .ok s.current.span s := rfl

theorem get_bind (f : State → Production β) : (get >>= f) s = f s s := rfl

theorem here_bind (f : Span → Production β) : (here >>= f) s = f s.current.span s := rfl

theorem kind_bind {k : TokenKind} (h : s.current.kind = k) (f : TokenKind → Production β) :
    (kind >>= f) s = f k s := by
  subst h
  rfl

theorem advance_bind (f : Unit → Production β) : (advance >>= f) s = f () s.advance := rfl

@[simp] theorem at?_apply (sym : Symbol) : at? sym s = .ok (s.current.isSymbol sym) s := rfl

@[simp] theorem spanFrom_apply (start : Nat) :
    spanFrom start s = .ok ⟨start, s.lastStop - start⟩ s := rfl

@[simp] theorem reject_apply (c : Cause) (span : Span) :
    (reject c span : Production α) s = .error (.rejected ⟨c, span⟩) s := rfl

@[simp] theorem unexpected_apply (e : Expectation) :
    (unexpected e : Production α) s =
      .error (.rejected ⟨.unexpected e s.current.kind, s.current.span⟩) s := rfl

@[simp] theorem unsupported_apply (f : Feature) :
    (unsupported f : Production α) s = .error (.rejected ⟨.unsupported f, s.current.span⟩) s :=
  rfl

@[simp] theorem emit_apply (is : List Instr) : emit is s = .ok () (s.after 0 is 0) := by
  rw [State.after_emit]
  rfl

theorem defineLabel_apply : defineLabel s = .ok ⟨s.code.labels⟩ (s.after 0 [] 1) := rfl

theorem accept_of_kinds {sym : Symbol} {ks : List TokenKind} (h : s.kinds = .symbol sym :: ks) :
    accept sym s = .ok () (s.after 1 [] 0) := by
  simp [accept, bind_apply, State.isSymbol_of_kinds h, State.after_one]

/-- A symbol that was accepted was the current token. -/
theorem accept_eq_ok {sym : Symbol} (hs : s.Ended) (h : accept sym s = .ok () s') :
    s.kinds = .symbol sym :: s'.kinds ∧ s' = s.after 1 [] 0 := by
  simp only [accept, bind_apply, at?_apply] at h
  split at h
  · next hk =>
    have hk : s.current.kind = .symbol sym := by simpa [Token.isSymbol] using hk
    simp only [advance_apply, EStateM.Result.ok.injEq, true_and] at h
    subst h
    exact ⟨by rw [← hk]; exact hs.kinds_eq (by simp [hk]), State.after_one.symm⟩
  · simp at h

theorem lookup_of_some {x : String} {e : Entry} (span : Span) (h : s.names x = some e) :
    lookup x span s = .ok e s := by
  rw [State.names] at h
  rw [lookup, get_bind, h]
  rfl

theorem lookup_of_none {x : String} (span : Span) (h : s.names x = none) :
    lookup x span s = .error (.rejected ⟨.undefined x, span⟩) s := by
  rw [State.names] at h
  rw [lookup, get_bind, h]
  rfl

theorem declare_of_some {x : String} {e : Entry} {scopes : Scopes} (span : Span)
    (h : s.scopes.declare? x e = some scopes) : declare x e span s = .ok () { s with scopes } := by
  rw [declare, get_bind, h]
  rfl

theorem declare_of_none {x : String} {e : Entry} (span : Span)
    (h : s.scopes.declare? x e = none) : Refuses span s (declare x e span s) := by
  rw [declare, get_bind, h]
  exact refuses_error _ span

theorem declareSlot_apply (t : Ty) : declareSlot t s =
    .ok (s.code.declareSlot t).1 { s with code := (s.code.declareSlot t).2 } := rfl

end
end MiniPascal.Grammar
