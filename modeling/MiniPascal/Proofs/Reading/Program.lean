import MiniPascal.Proofs.Reading.Declarations
import MiniPascal.Proofs.Reading.StatementDecision

/-! The production of whole programs: it passes tokens that spell a program whose names and types
are in order, emits its code, and fails on all others. -/
namespace MiniPascal.Grammar

/-- The code, the slots and the labels of a tree, and nothing else, have been emitted. -/
structure State.Emitted (a : Tree) (s : State) : Prop where
  code : s.code.code.toList = a.code
  slots : s.code.slots = a.types.toArray
  labels : s.code.labels = UInt32.ofNat a.body.labels

section
variable {vs : List (String × Ty)} {s s' : State} {st : Stmt} {n m : Nat} {bound : Nat}
  {ts ks : List TokenKind} {k : TokenKind} {a : Tree}

/-- The code of a body stands behind that of the variables. -/
theorem State.Declared.emitted (h : s.Declared vs) :
    ((s.after n (st.code s.names 0) st.labels).after m [] 0).Emitted ⟨vs, st⟩ := by
  constructor
  · simp [State.after, Tree.code, Tree.types, h.names, h.code]
  · simpa [State.after, Tree.types] using h.slots
  · simp [h.labels]

theorem noDeclarations_eq_ok (h : noDeclarations s = .ok () s') : s' = s := by
  simp only [noDeclarations, bind_apply, kind_apply] at h
  cases hk : s.current.kind with
  | symbol y =>
    rw [hk] at h
    cases y <;> first | (cases h; rfl) | simp at h
  | _ =>
    rw [hk] at h
    cases h
    rfl

theorem noDeclarations_of_kinds (hk : s.kinds = k :: ks)
    (h : k = .symbol .varWord ∨ k = .symbol .beginWord) : noDeclarations s = .ok () s := by
  simp only [noDeclarations, bind_apply, kind_apply, State.kind_of_kinds hk]
  rcases h with rfl | rfl <;> rfl

/-- The tokens of variables, if there are any. -/
def SpellsDeclarations (ts : List TokenKind) (vs : List (String × Ty)) : Prop :=
  (ts = [] ∧ vs = []) ∨ ∃ us, ts = .symbol .varWord :: us ∧ SpellsVariables us vs

theorem declarations_eq_ok (h : s.Declared []) (hs : s.Ended) (hb : bound ≠ 0)
    (hp : declarations bound s = .ok () s') :
    ∃ ts vs, SpellsDeclarations ts vs ∧ s.kinds = ts ++ s'.kinds ∧ s'.Declared vs := by
  simp only [declarations, bind_apply, at?_apply] at hp
  split at hp
  · next hvar =>
    have hk : s.current.kind = .symbol .varWord := by simpa [Token.isSymbol] using hvar
    have hks := hs.kinds_eq (by simp [hk])
    obtain ⟨count, rfl⟩ := Nat.exists_eq_succ_of_ne_zero hb
    have hd : s.advance.Declared [] := State.after_one ▸ h.after
    obtain ⟨ts, vs, hv, hk₁, hd₁⟩ :=
      variableDeclarations_eq_ok hd (hs.advance (by simp [hk])) hp
    refine ⟨.symbol .varWord :: ts, vs, .inr ⟨ts, rfl, hv⟩, ?_, hd₁⟩
    rw [hks, hk, hk₁]
    rfl
  · cases hp
    exact ⟨[], [], .inl ⟨rfl, rfl⟩, rfl, h⟩

theorem spells_of_parts {us : List TokenKind} (x : String) (hv : SpellsDeclarations us vs)
    (hs : st.Spells .compound ts) :
    Tree.Spells (headingTokens x ++ (us ++ (ts ++ [.symbol .dot]))) ⟨vs, st⟩ := by
  rcases hv with ⟨rfl, rfl⟩ | ⟨us, rfl, hv⟩
  · exact .plain x hs
  · exact .declaring x hv hs

/-- The part of a program in front of its body. -/
def heading (bound : Nat) : Production Unit := do
  accept .programWord
  let _ ← identifier
  accept .semicolon
  noDeclarations
  declarations bound
  noDeclarations

theorem program_eq : program bound = (heading bound >>= fun _ =>
    compound bound (statement bound bound) >>= fun _ => accept .dot) := by
  simp only [program, heading, bind_assoc]

/-- What is passed in front of a body declares variables. -/
theorem heading_eq_ok (h : s.Declared []) (hs : s.Ended) (hb : bound ≠ 0)
    (hp : heading bound s = .ok () s') :
    ∃ x us vs, SpellsDeclarations us vs ∧ s.kinds = (headingTokens x ++ us) ++ s'.kinds ∧
      s'.Declared vs := by
  simp only [heading] at hp
  obtain ⟨_, s₁, h₁, hp⟩ := bind_eq_ok.1 hp
  obtain ⟨name, s₂, h₂, hp⟩ := bind_eq_ok.1 hp
  obtain ⟨_, s₃, h₃, hp⟩ := bind_eq_ok.1 hp
  obtain ⟨_, s₄, h₄, hp⟩ := bind_eq_ok.1 hp
  obtain ⟨_, s₅, h₅, h₆⟩ := bind_eq_ok.1 hp
  obtain ⟨hk₁, hs₁⟩ := accept_eq_ok hs h₁
  have he₁ : s₁.Ended := hs.of_append (List.singleton_append ▸ hk₁)
  obtain ⟨hk₂, hs₂⟩ := identifier_eq_ok he₁ h₂
  have he₂ : s₂.Ended := he₁.of_append (List.singleton_append ▸ hk₂)
  obtain ⟨hk₃, hs₃⟩ := accept_eq_ok he₂ h₃
  have he₃ : s₃.Ended := he₂.of_append (List.singleton_append ▸ hk₃)
  obtain rfl := noDeclarations_eq_ok h₄
  have hd₃ : s₄.Declared [] := by
    rw [hs₃, hs₂, hs₁]
    exact h.after.after.after
  obtain ⟨us, vs, hv, hk₅, hd₅⟩ := declarations_eq_ok hd₃ he₃ hb h₅
  obtain rfl := noDeclarations_eq_ok h₆
  refine ⟨name.1, us, vs, hv, ?_, hd₅⟩
  rw [hk₁, hk₂, hk₃, hk₅]
  simp [headingTokens]

/-- What is passed is a program, and its code has been emitted. -/
theorem program_reads (h : s.Declared []) (hs : s.Ended) (hb : s.kinds.length ≤ bound)
    (hp : program bound s = .ok () s') :
    ∃ ts a, Tree.Spells ts a ∧ a.body.NearestElse ∧ a.WellTyped ∧ s.kinds = ts ++ s'.kinds ∧
      s'.Emitted a := by
  have hb₀ : bound ≠ 0 := by
    rw [State.kinds, List.length_cons] at hb
    omega
  rw [program_eq] at hp
  obtain ⟨_, s₁, h₁, hp⟩ := bind_eq_ok.1 hp
  obtain ⟨_, s₂, h₂, h₃⟩ := bind_eq_ok.1 hp
  obtain ⟨x, us, vs, hv, hk₁, hd₁⟩ := heading_eq_ok h hs hb₀ h₁
  have hready : s₁.Ready bound 0 := by
    refine ⟨hs.of_append hk₁, ?_, hd₁.labels⟩
    rw [hk₁, List.length_append] at hb
    omega
  obtain ⟨ts, st, hst⟩ := compound_reads statement_reads _ _ _ hready h₂
  obtain ⟨hk₃, hs₃⟩ := accept_eq_ok (hst.ready hready).ended h₃
  refine ⟨_, ⟨vs, st⟩, spells_of_parts x hv hst.spells, hst.nearest,
    ⟨hd₁.declares, hd₁.names ▸ hst.typed⟩, ?_, ?_⟩
  · rw [hk₁, hst.kinds, hk₃]
    simp
  · rw [hs₃, hst.state]
    exact hd₁.emitted

theorem declarations_declaring {us : List TokenKind} (hv : SpellsDeclarations us vs)
    (h : s.Declared []) (hk : s.kinds = us ++ .symbol .beginWord :: ks) (hb : us.length ≤ bound) :
    Declaring [] vs (.symbol .beginWord :: ks) (declarations bound s) := by
  simp only [declarations, bind_apply, at?_apply]
  rcases hv with ⟨rfl, rfl⟩ | ⟨us, rfl, hv⟩
  · rw [State.isSymbol_of_kinds hk, ← show s.kinds = .symbol .beginWord :: ks from hk]
    exact declaring_nil h
  · have hk₁ : (s.after 1 [] 0).kinds = us ++ .symbol .beginWord :: ks :=
      State.kinds_advance hk (by simp)
    simp only [List.length_cons] at hb
    rw [State.isSymbol_of_kinds hk]
    have hrest : Declaring [] vs (.symbol .beginWord :: ks)
        (variableDeclarations bound bound (s.after 1 [] 0)) :=
      variableDeclarations_declaring hv h.after hk₁ (by simp) (by omega) (by omega)
    rw [State.after_one] at hrest
    exact hrest

theorem parts_of_spells (h : a.Spells ts) :
    ∃ x us vs, ts = headingTokens x ++ (us ++ (vs ++ [.symbol .dot])) ∧
      SpellsDeclarations us a.vars ∧ a.body.Spells .compound vs := by
  cases h with
  | plain x hs => exact ⟨x, [], _, rfl, .inl ⟨rfl, rfl⟩, hs⟩
  | declaring x hv hs => exact ⟨x, _, _, rfl, .inr ⟨_, rfl, hv⟩, hs⟩

theorem noDeclarations_declaring {us : List TokenKind} (hv : SpellsDeclarations us vs)
    (hk : s.kinds = us ++ .symbol .beginWord :: ks) : noDeclarations s = .ok () s := by
  rcases hv with ⟨rfl, rfl⟩ | ⟨us, rfl, hv⟩
  · exact noDeclarations_of_kinds hk (.inr rfl)
  · exact noDeclarations_of_kinds hk (.inl rfl)

/-- The body of a program with its variables declared, and the point behind it. -/
theorem body_decides (h : s.Declared vs) (hs : s.Ready bound 0) (hst : st.Spells .compound ts)
    (hn : st.NearestElse) (hk : s.kinds = ts ++ .symbol .dot :: k :: ks) :
    (st.WellTyped (namesOf vs) →
      ∃ s', (noDeclarations >>= fun _ => compound bound (statement bound bound) >>=
        fun _ => accept .dot) s = .ok () s' ∧ s'.Emitted ⟨vs, st⟩ ∧ s'.kinds = k :: ks) ∧
    (¬ st.WellTyped (namesOf vs) →
      Fails ((noDeclarations >>= fun _ => compound bound (statement bound bound) >>=
        fun _ => accept .dot) s)) := by
  have hbody := compound_decides hst hn hs hk
  obtain ⟨us, rfl⟩ := begin_of_compound hst
  rw [bind_of_ok (noDeclarations_of_kinds hk (.inr rfl))]
  rw [DecidesStmt, h.names] at hbody
  constructor
  · intro hty
    have hk₁ : (s.after (.symbol .beginWord :: us : List TokenKind).length
        (st.code (namesOf vs) 0) st.labels).kinds = .symbol .dot :: k :: ks :=
      State.kinds_after hk (by simp)
    rw [bind_of_ok (hbody.1 hty), accept_of_kinds hk₁]
    refine ⟨_, rfl, ?_, State.kinds_advance hk₁ (by simp)⟩
    rw [← h.names]
    exact h.emitted
  · intro hty
    exact (hbody.2 hty).bind _

/-- Tokens that spell a program are passed if its names and types are in order, and its code is
emitted. -/
theorem program_decides (h : s.Declared []) (hs : s.Ended) (hb : s.kinds.length ≤ bound)
    (ha : a.Spells ts) (hn : a.body.NearestElse) (hk : s.kinds = ts ++ k :: ks) :
    (a.WellTyped → ∃ s', program bound s = .ok () s' ∧ s'.Emitted a ∧ s'.kinds = k :: ks) ∧
    (¬ a.WellTyped → Fails (program bound s)) := by
  obtain ⟨x, us, vs, rfl, hv, hst⟩ := parts_of_spells ha
  obtain ⟨ws, rfl⟩ := begin_of_compound hst
  have hk₁ : s.kinds = headingTokens x ++
      (us ++ .symbol .beginWord :: (ws ++ .symbol .dot :: k :: ks)) := by
    rw [hk]
    simp
  have hk₂ : (s.after 1 [] 0).kinds = .identifier x :: .symbol .semicolon ::
      (us ++ .symbol .beginWord :: (ws ++ .symbol .dot :: k :: ks)) :=
    State.kinds_advance hk₁ (by simp)
  have hk₃ : ((s.after 1 [] 0).after 1 [] 0).kinds = .symbol .semicolon ::
      (us ++ .symbol .beginWord :: (ws ++ .symbol .dot :: k :: ks)) :=
    State.kinds_advance hk₂ (by simp)
  have hk₄ : (((s.after 1 [] 0).after 1 [] 0).after 1 [] 0).kinds =
      us ++ .symbol .beginWord :: (ws ++ .symbol .dot :: k :: ks) :=
    State.kinds_advance hk₃ (by simp)
  have hd : (((s.after 1 [] 0).after 1 [] 0).after 1 [] 0).Declared [] := h.after.after.after
  have hlen : us.length ≤ bound := by
    rw [hk₁] at hb
    simp only [List.length_append] at hb
    omega
  have hdec := declarations_declaring hv hd hk₄ hlen
  rw [program, bind_of_ok (accept_of_kinds hk₁), bind_of_ok (identifier_of_kinds hk₂),
    bind_of_ok (accept_of_kinds hk₃), bind_of_ok (noDeclarations_declaring hv hk₄)]
  by_cases hdecl : Declares a.vars
  · obtain ⟨s₄, h₄, hd₄, hk₅⟩ := hdec.1 hdecl
    have hks : s.kinds = (headingTokens x ++ us) ++ s₄.kinds := by
      rw [hk₁, hk₅, List.append_assoc]
    have hready : s₄.Ready bound 0 := by
      refine ⟨hs.of_append hks, ?_, hd₄.labels⟩
      rw [hks, List.length_append] at hb
      omega
    have hbody := body_decides hd₄ hready hst hn hk₅
    rw [bind_of_ok h₄]
    exact ⟨fun ht => hbody.1 ht.body, fun ht => hbody.2 fun hb => ht ⟨hdecl, hb⟩⟩
  · exact ⟨fun ht => absurd ht.declares hdecl, fun _ => (hdec.2 hdecl).bind _⟩

end
end MiniPascal.Grammar
