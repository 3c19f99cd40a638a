import MiniPascal.Proofs.Reading.Watch

/-! Productions that keep moving: with a journal they do what they do without it, and where a mark
fits when they begin, their notes are in order and another mark fits when they end. -/
namespace MiniPascal.Grammar

/-- What a production comes to beside its journal. -/
def Kept {α : Type} (m : Mark) (s : State) (w : Watch) (notes : List Note) :
    EStateM.Result Stop State α → Prop
  | .ok _ s' => passedIn notes ++ s'.tokens = s.tokens ∧ m.Fits s' (w.after notes) ∧
    (w.after notes).frames = w.frames
  | .error _ s' => passedIn notes ++ s'.tokens = s.tokens

/-- The production with a journal is the production, and takes one mark to another. -/
def Keeps {α : Type} (m m' : Mark) (x : Journaled α) (p : Production α) : Prop :=
  ∀ s w, m.Fits s w → (x s).2 = p s ∧ InOrder w (x s).1 ∧ Kept m' s w (x s).1 (x s).2

/-- The state in which a production ends. -/
def ending {α : Type} : EStateM.Result Stop State α → State
  | .ok _ s | .error _ s => s

/-- The production leaves all tokens where they are. -/
def Still {α : Type} (p : Production α) : Prop := ∀ s, (ending (p s)).tokens = s.tokens

section
variable {α β : Type} {m m₀ m₁ m' : Mark} {x : Journaled α} {p : Production α}
  {f : α → Journaled β} {g : α → Production β} {s s' : State} {w : Watch} {a : α}

theorem Mark.Fits.of_tokens (h : m.Fits s w) (ht : s'.tokens = s.tokens) : m.Fits s' w := by
  have hcurrent : s'.current = s.current := by
    simpa [State.tokens] using congrArg List.head? ht
  have hkinds : s'.kinds = s.kinds := by
    have hmap := congrArg (List.map fun t : Token => t.kind) ht
    exact hmap
  refine ⟨?_, ht ▸ h.tokens, h.sound, h.level, h.loop, hcurrent ▸ h.more⟩
  rw [State.Ended, hkinds]
  exact h.ended

theorem Journaled.bind_of_ok {notes : List Note} (h : x s = (notes, .ok a s')) :
    (x >>= f) s = (notes ++ (f a s').1, (f a s').2) := by
  change Journaled.bind x f s = _
  simp only [Journaled.bind, h]

theorem Journaled.bind_of_error {notes : List Note} {e : Stop} (h : x s = (notes, .error e s')) :
    (x >>= f) s = (notes, .error e s') := by
  change Journaled.bind x f s = _
  simp only [Journaled.bind, h]

theorem Journaled.note_bind {n : Note} {f : Unit → Journaled β} :
    (note n >>= f) s = (n :: (f () s).1, (f () s).2) := rfl

theorem Journaled.within_of_ok {r : Rule} {notes : List Note} (h : x s = (notes, .ok a s')) :
    within r x s = (.enter r :: (notes ++ [.leave]), .ok a s') := by
  have hbind : (x >>= fun a => note .leave >>= fun _ => pure a) s =
      (notes ++ [.leave], .ok a s') := Journaled.bind_of_ok h
  rw [within, note_bind, hbind]

theorem Journaled.within_of_error {r : Rule} {notes : List Note} {e : Stop}
    (h : x s = (notes, .error e s')) : within r x s = (.enter r :: notes, .error e s') := by
  have hbind : (x >>= fun a => note .leave >>= fun _ => pure a) s = (notes, .error e s') :=
    Journaled.bind_of_error h
  rw [within, note_bind, hbind]

namespace Keeps

theorem weaken (h : Keeps m m' x p) (hm : m₀.Within m) (hm' : m'.Within m₁) :
    Keeps m₀ m₁ x p := by
  intro s w hs
  obtain ⟨hp, hnotes, hkept⟩ := h s w (hs.within hm)
  refine ⟨hp, hnotes, ?_⟩
  cases hr : (x s).2 with
  | ok a s' =>
    rw [hr] at hkept
    obtain ⟨ht, hfits, hframes⟩ := hkept
    exact ⟨ht, hfits.within hm', hframes⟩
  | error e s' =>
    rw [hr] at hkept
    exact hkept

theorem ends {k k' a q q' : Nat} (h : Keeps m ⟨k', 0, q', false⟩ x p) (hk : k' ≤ k)
    (hq : q' ≤ q) : Keeps m ⟨k, a, q, false⟩ x p :=
  h.weaken (.refl m) (.passed hk hq)

theorem pure (hm : m.Within m') : Keeps m m' (Pure.pure a : Journaled α) (Pure.pure a) := by
  intro s w hs
  exact ⟨rfl, .nil hs.sound, rfl, hs.within hm, rfl⟩

/-- One production behind another. -/
theorem bind (h : Keeps m m₁ x p) (hf : ∀ a, Keeps m₁ m' (f a) (g a)) :
    Keeps m m' (x >>= f) (p >>= g) := by
  intro s w hs
  obtain ⟨hp, hnotes, hkept⟩ := h s w hs
  rw [bind_apply, ← hp]
  rcases hx : x s with ⟨notes, a | e⟩
  · next s' =>
    rw [hx] at hnotes hkept
    obtain ⟨ht, hfits, hframes⟩ := hkept
    obtain ⟨hp', hnotes', hkept'⟩ := hf a s' _ hfits
    rw [Journaled.bind_of_ok hx]
    refine ⟨hp', hnotes.append hnotes', ?_⟩
    cases hr : (f a s').2 with
    | ok b s'' =>
      rw [hr] at hkept'
      obtain ⟨ht', hfits', hframes'⟩ := hkept'
      refine ⟨?_, after_append ▸ hfits', ?_⟩
      · rw [passedIn_append, List.append_assoc, ht', ht]
      · rw [after_append, hframes', hframes]
    | error e s'' =>
      rw [hr] at hkept'
      have ht' : passedIn (f a s').1 ++ s''.tokens = s'.tokens := hkept'
      change passedIn (notes ++ (f a s').1) ++ s''.tokens = s.tokens
      rw [passedIn_append, List.append_assoc, ht', ht]
  · next s' =>
    rw [hx] at hnotes hkept
    rw [Journaled.bind_of_error hx]
    exact ⟨rfl, hnotes, hkept⟩

theorem ite {c : Prop} [Decidable c] {y : Journaled α} {q : Production α}
    (hx : c → Keeps m m' x p) (hy : ¬ c → Keeps m m' y q) :
    Keeps m m' (if c then x else y) (if c then p else q) := by
  split
  · next hc => exact hx hc
  · next hc => exact hy hc

/-- A production that may be left out in front of another. -/
theorem when {c : Prop} [Decidable c] {x : Journaled Unit} {p : Production Unit}
    {f : Unit → Journaled β} {g : Unit → Production β} (hx : c → Keeps m m₀ x p)
    (hm : m.Within m₀) (hf : Keeps m₀ m' (f ()) (g ())) :
    Keeps m m' (if c then x >>= f else f ()) (if c then p >>= g else g ()) :=
  .ite (fun hc => .bind (hx hc) fun _ => hf) fun _ => hf.weaken hm (.refl m')

/-- Where no token is left, nothing is promised. -/
theorem of_zero (h : m.tokens = 0) : Keeps m m' x p := by
  intro s w hs
  have hpos := hs.tokens_pos
  omega

/-- What passes no token has nothing to note. -/
theorem still (hp : Still p) : Keeps m m (liftM p) p := by
  intro s w hs
  have ht := hp s
  refine ⟨rfl, .nil hs.sound, ?_⟩
  change Kept m s w [] (p s)
  cases hr : p s with
  | ok a s' =>
    rw [hr] at ht
    exact ⟨ht, hs.of_tokens ht, rfl⟩
  | error e s' =>
    rw [hr] at ht
    exact ht

/-- What always ends in an error may be followed by anything. -/
theorem fails (hp : Still p) (he : ∀ s, Fails (p s)) : Keeps m m' (liftM p) p := by
  intro s w hs
  obtain ⟨hp, hnotes, hkept⟩ := still (m := m) hp s w hs
  refine ⟨hp, hnotes, ?_⟩
  obtain ⟨e, s', hfails⟩ := he s
  change Kept m' s w [] (p s)
  change Kept m s w [] (p s) at hkept
  rw [hfails] at hkept ⊢
  exact hkept

/-- What the current token is known to be decides whether it may be passed. -/
theorem kind_bind {f : TokenKind → Journaled α} {g : TokenKind → Production α}
    (hf : ∀ k, Keeps { m with more := k != .endOfText } m' (f k) (g k)) :
    Keeps m m' (liftM kind >>= f) (kind >>= g) := by
  intro s w hs
  have hfits : Mark.Fits { m with more := s.current.kind != .endOfText } s w :=
    ⟨hs.ended, hs.tokens, hs.sound, hs.level, hs.loop, fun h => by simpa using h⟩
  exact hf s.current.kind s w hfits

theorem at?_bind {y : Symbol} {f : Bool → Journaled α} {g : Bool → Production α}
    (hf : ∀ b, Keeps { m with more := m.more || b } m' (f b) (g b)) :
    Keeps m m' (liftM (at? y) >>= f) (at? y >>= g) := by
  intro s w hs
  have hfits : Mark.Fits { m with more := m.more || s.current.isSymbol y } s w := by
    refine ⟨hs.ended, hs.tokens, hs.sound, hs.level, hs.loop, fun h => ?_⟩
    rw [Bool.or_eq_true] at h
    rcases h with hmore | hy
    · exact hs.more hmore
    · have hkind : s.current.kind = .symbol y := by simpa [Token.isSymbol] using hy
      simp [hkind]
  exact hf (s.current.isSymbol y) s w hfits

/-- A token is passed, unless it is the end of the text. -/
theorem advance {n a q : Nat} :
    Keeps ⟨n, a, q, true⟩ ⟨n - 1, 0, 0, false⟩ Journaled.advance Grammar.advance := by
  intro s w hs
  obtain ⟨ht, hfits⟩ := hs.pass rfl
  exact ⟨rfl, .single hs.sound (hs.more rfl) hfits.sound, ht, hfits, rfl⟩

/-- A round of a loop begins. -/
theorem round_bind {l : Loop} {n a q : Nat} {b : Bool} {f : Unit → Journaled α}
    (hl : q ≤ l.level) (hf : Keeps ⟨n, a, l.level + 1, b⟩ m' (f ()) p) :
    Keeps ⟨n, a, q, b⟩ m' (Journaled.note (.round l) >>= f) p := by
  intro s w hs
  have hround := hs.round hl
  obtain ⟨hp, hnotes, hkept⟩ := hf s _ hround
  rw [Journaled.note_bind]
  refine ⟨hp, .cons hs.sound trivial hnotes, ?_⟩
  cases hr : (f () s).2 with
  | ok a s' =>
    rw [hr] at hkept
    exact hkept
  | error e s' =>
    rw [hr] at hkept
    exact hkept

/-- A rule is entered and left. -/
theorem within {r : Rule} {n n' a q q' : Nat} {b : Bool} (ha : a ≤ r.level)
    (h : Keeps ⟨n, r.level + 1, q, b⟩ ⟨n', r.level + 1, q', false⟩ x p) :
    Keeps ⟨n, a, q, b⟩ ⟨n', a, q', false⟩ (Journaled.within r x) p := by
  intro s w hs
  have hentered := hs.enter ha
  obtain ⟨hp, hnotes, hkept⟩ := h s _ hentered
  rw [← hp]
  rcases hx : x s with ⟨notes, a | e⟩
  · next v s' =>
    rw [hx] at hnotes hkept
    obtain ⟨ht, hfits, hframes⟩ := hkept
    obtain ⟨hleft, houter⟩ := hfits.leave hframes hs.level
    rw [Journaled.within_of_ok hx]
    refine ⟨rfl, .cons hs.sound trivial (hnotes.append ?_), ?_, hleft, houter⟩
    · have hleave : w.after (.enter r :: (notes ++ [.leave])) =
          (w.see (.enter r) |>.after notes).see .leave := after_append
      exact .single hnotes.sound_end trivial (hleave ▸ hleft.sound)
    · have hpassed : passedIn (.enter r :: (notes ++ [.leave])) = passedIn notes :=
        passedIn_append.trans (List.append_nil _)
      rw [hpassed]
      exact ht
  · next s' =>
    rw [hx] at hnotes hkept
    rw [Journaled.within_of_error hx]
    exact ⟨rfl, .cons hs.sound trivial hnotes, hkept⟩

end Keeps
end
end MiniPascal.Grammar
