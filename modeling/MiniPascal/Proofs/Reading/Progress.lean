import MiniPascal.Proofs.Reading.Pairing

/-! What a reading keeps to. A reading beside itself shows what holds of its states and of the
places it speaks of from beginning to end, such as how far it gets: the tokens it leaves are the
last of those it found, and it never breaks a promise between the parts of the compiler. -/
namespace MiniPascal.Grammar

/-- A property of the states of a reading and one of the places it speaks of, which passing tokens,
declaring names and emitting code keep. -/
structure Invariant where
  holds : State → Prop
  place : Span → Prop
  here : ∀ {s}, holds s → place s.current.span
  spanFrom : ∀ {s a}, holds s → place a → place ⟨a.offset, s.lastStop - a.offset⟩
  advance : ∀ {s}, holds s → holds s.advance
  withCode : ∀ {s} (code : CodeBuffer), holds s → holds { s with code }
  withScopes : ∀ {s} (scopes : Scopes), holds s → holds { s with scopes }

/-- The property holds where the reading ended, and of the place that was rejected, if one was.
Nothing but a rejection ended it early. -/
def Invariant.Kept (i : Invariant) {α : Type} : EStateM.Result Stop State α → Prop
  | .ok _ s => i.holds s
  | .error e s => i.holds s ∧ ∃ r, e = .rejected r ∧ i.place r.span

/-- A reading beside itself. -/
def Invariant.pairing (i : Invariant) : Pairing where
  state s t := s = t ∧ i.holds s
  name := Eq
  place a b := a = b ∧ i.place a
  stop c s d t := c = d ∧ s = t ∧ i.holds s ∧ i.place c.span
  kind_of_state := by
    rintro s _ ⟨rfl, -⟩
    exact .refl _
  here_of_state := by
    rintro s _ ⟨rfl, hs⟩
    exact ⟨rfl, i.here hs⟩
  spanFrom_of_state := by
    rintro s _ a _ ⟨rfl, hs⟩ ⟨rfl, ha⟩
    exact ⟨rfl, i.spanFrom hs ha⟩
  advance_state := by
    rintro s _ ⟨rfl, hs⟩
    exact ⟨rfl, i.advance hs⟩
  code_of_state := by
    rintro s _ ⟨rfl, -⟩
    rfl
  withCode_state := by
    rintro s _ code ⟨rfl, hs⟩
    exact ⟨rfl, i.withCode code hs⟩
  find?_of_state := by
    rintro s _ x _ ⟨rfl, -⟩ rfl
    rfl
  declare?_of_state := by
    rintro s _ x _ e ⟨rfl, hs⟩ rfl
    cases h : s.scopes.declare? x e with
    | none => exact .inl ⟨rfl, rfl⟩
    | some scopes => exact .inr ⟨scopes, scopes, rfl, rfl, rfl, i.withScopes scopes hs⟩
  isRegistered_of_state := by
    rintro s _ t ⟨rfl, -⟩
    rfl
  isPrint_of_name := @isPrint_of_eq
  stop_of_state := by
    rintro s _ a _ c d ⟨rfl, hs⟩ ⟨rfl, ha⟩ h
    obtain rfl := h.eq
    exact ⟨rfl, rfl, hs, ha⟩

/-- What holds where a reading begins holds where it ends. -/
theorem Invariant.keeps (i : Invariant) {α : Type} {p : Production α}
    (hp : i.pairing.Agree Eq p p) {s : State} (hs : i.holds s) : i.Kept (p s) := by
  have h := hp s s ⟨rfl, hs⟩
  generalize p s = result at h ⊢
  cases h with
  | ok _ ht => exact ht.2
  | error h => exact ⟨h.2.2.1, _, rfl, h.2.2.2⟩

theorem Invariant.keeps_program (i : Invariant) {s : State} (hs : i.holds s) (bound : Nat) :
    i.Kept (program bound s) := i.keeps Pairing.agree_program hs

/-- The tokens still to be read. -/
def State.tokens (s : State) : List Token := s.current :: s.ahead

/-- The last tokens of a state are left, and nothing but a rejection ended the reading. -/
def Leaves {α : Type} (s : State) : EStateM.Result Stop State α → Prop
  | .ok _ s' => s'.tokens <:+ s.tokens
  | .error e s' => s'.tokens <:+ s.tokens ∧ ∃ r, e = .rejected r

/-- The production leaves the last of the tokens it finds. -/
def Orderly {α : Type} (p : Production α) : Prop := ∀ s, Leaves s (p s)

theorem State.tokens_advance (s : State) : s.advance.tokens <:+ s.tokens := by
  unfold State.advance
  split
  · exact List.suffix_refl _
  · next t ts ha =>
    rw [State.tokens, State.tokens, ha]
    exact List.suffix_cons _ _

/-- The tokens of a state are the last of the given ones. -/
def Invariant.suffix (ts : List Token) : Invariant where
  holds s := s.tokens <:+ ts
  place _ := True
  here _ := trivial
  spanFrom _ _ := trivial
  advance h := (State.tokens_advance _).trans h
  withCode _ h := h
  withScopes _ h := h

/-- What does not tell a reading from itself leaves the last of the tokens it finds. -/
theorem orderly_of_agree {α : Type} {p : Production α}
    (hp : ∀ i : Invariant, i.pairing.Agree Eq p p) : Orderly p := by
  intro s
  have h := (Invariant.suffix s.tokens).keeps (hp _) (List.suffix_refl s.tokens)
  generalize p s = result at h ⊢
  cases result with
  | ok => exact h
  | error =>
    obtain ⟨ht, r, rfl, -⟩ := h
    exact ⟨ht, r, rfl⟩

/-- Reading a program leaves the last of its tokens, wherever it stops. -/
theorem orderly_program {bound : Nat} : Orderly (program bound) :=
  orderly_of_agree fun _ => Pairing.agree_program

/-- What a production leaves it has found. -/
theorem Orderly.suffix {α : Type} {p : Production α} (hp : Orderly p) {s s' : State} {a : α}
    (h : p s = .ok a s') : s'.tokens <:+ s.tokens := by
  have hleaves := hp s
  rwa [h] at hleaves

end MiniPascal.Grammar
