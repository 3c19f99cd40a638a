import MiniPascal.Proofs.Reading.Production
import MiniPascal.Proofs.Tree.Naming
import MiniPascal.Proofs.Tree.Translation

/-! The declarations of variables. A state in which variables have been declared knows their names,
has a slot for each, and has emitted the code that sets the slots to zero. -/
namespace MiniPascal

theorem zeroCode_append {n : Nat} {ts : List Ty} {t : Ty} :
    zeroCode n (ts ++ [t]) =
      zeroCode n ts ++ [.push (.zero t), .store (slotOf (n + ts.length))] := by
  induction ts generalizing n with
  | nil => rfl
  | cons u ts ih => simp [zeroCode, ih, Nat.add_assoc, Nat.add_comm 1]

namespace Scopes

variable {s : Scopes} {x : String}

theorem isDeclared_eq : s.isDeclared x = (s.find? x).isSome := by
  unfold isDeclared find?
  induction s.toList with
  | nil => rfl
  | cons scope rest ih =>
    rw [List.any_cons, ih, List.findSome?_cons, Scope.contains]
    cases scope.find? x <;> rfl

end Scopes

namespace Grammar

/-- The variables are all that has been declared. -/
structure State.Declared (vs : List (String × Ty)) (s : State) : Prop where
  inner : ∀ x, s.scopes.inner.find? x = variableNames vs x
  outer : s.scopes.outer = [Scope.builtin]
  declares : Declares vs
  slots : s.code.slots = (vs.map (·.2)).toArray
  code : s.code.code.toList = zeroCode 0 (vs.map (·.2))
  labels : s.code.labels = 0

section
variable {vs ws : List (String × Ty)} {s s' : State} {x : String} {t : Ty} {n : Nat} {span : Span}

theorem State.Declared.names (h : s.Declared vs) : s.names = namesOf vs := by
  funext x
  have hs : s.names x = (variableNames vs x).or (builtinNames x) := by
    simp only [State.names, Scopes.find?, Scopes.toList, h.outer, List.findSome?_cons, h.inner,
      List.findSome?_nil, builtinNames]
    cases variableNames vs x <;> simp
    cases Scope.builtin.find? x <;> rfl
  rw [hs, namesOf]
  cases hv : variableNames vs x with
  | none => simp
  | some e =>
    obtain ⟨v, hmem, hk⟩ : ∃ v ∈ vs, Scope.key v.1 = Scope.key x := by
      apply Classical.byContradiction
      intro hnot
      have hnone : variableNames vs x = none :=
        variableNames_eq_none_iff.2 fun v hmem hk => hnot ⟨v, hmem, hk⟩
      simp [hv] at hnone
    have hb : builtinNames x = none := by
      rw [← h.declares.fresh v hmem]
      exact Scope.find?_congr hk.symm
    simp [hb]

theorem State.Declared.after (h : s.Declared vs) : (s.after n [] 0).Declared vs := by
  constructor
  · simpa using h.inner
  · simpa using h.outer
  · exact h.declares
  · exact h.slots
  · simpa [State.after] using h.code
  · simp [h.labels]

theorem declared_initial {first : Token} {ahead : List Token} :
    State.Declared [] ⟨first, ahead, 0, .initial, .empty⟩ := by
  refine ⟨fun x => rfl, rfl, ⟨by simp, by simp⟩, rfl, rfl, rfl⟩


/-- A new variable with its slot. -/
theorem declareVariable_of_fresh (h : s.Declared vs) (hx : namesOf vs x = none) :
    ∃ s', declareVariable t (x, span) s = .ok () s' ∧ s'.Declared (vs ++ [(x, t)]) ∧
      s'.kinds = s.kinds := by
  have hnot : s.scopes.isDeclared x = false := by
    have hn : s.scopes.find? x = namesOf vs x := congrFun h.names x
    rw [Scopes.isDeclared_eq, hn, hx]
    rfl
  have hsize : s.code.slots.size = vs.length := by simp [h.slots]
  have hscopes : ∀ e, s.scopes.declare? x e =
      some { s.scopes with inner := s.scopes.inner.insert x e } := by
    intro e
    rw [Scopes.declare?, hnot]
    rfl
  rw [declareVariable, bind_of_ok (declareSlot_apply t)]
  refine ⟨_, declare_of_some span (hscopes _), ?_, rfl⟩
  constructor
  · intro y
    have hv := (namesOf_eq_none_iff.1 hx).2
    simp only [Scope.find?_insert, h.inner, variableNames_append, CodeBuffer.declareSlot, hsize]
    by_cases hk : Scope.key y = Scope.key x
    · have hy : variableNames vs y = none := by
        rw [variableNames_eq_none_iff] at hv ⊢
        rwa [hk]
      simp [hk, hy, slotOf]
    · simp [hk, Ne.symm hk]
  · exact h.outer
  · exact declares_append_iff.2 ⟨h.declares, hx⟩
  · simp [CodeBuffer.declareSlot, h.slots]
  · simp [CodeBuffer.declareSlot, h.code, zeroCode_append, slotOf, h.slots]
  · simp [CodeBuffer.declareSlot, h.labels]

/-- The slot of a name that is taken is set up all the same. -/
theorem declareVariable_refuses (h : s.Declared vs) (hx : namesOf vs x ≠ none) :
    Refuses span { s with code := (s.code.declareSlot t).2 } (declareVariable t (x, span) s) := by
  have hdec : s.scopes.isDeclared x = true := by
    have hn : s.scopes.find? x = namesOf vs x := congrFun h.names x
    rw [Scopes.isDeclared_eq, hn]
    exact Option.isSome_iff_ne_none.2 hx
  have hscopes : ∀ e, s.scopes.declare? x e = none := by
    intro e
    rw [Scopes.declare?, hdec]
    rfl
  rw [declareVariable, bind_of_ok (declareSlot_apply t)]
  exact declare_of_none span (hscopes _)

/-- The production declares the variables and leaves the given tokens, if the names are in order. -/
def Declaring (vs ws : List (String × Ty)) (ks : List TokenKind)
    (r : EStateM.Result Stop State Unit) : Prop :=
  (Declares (vs ++ ws) → ∃ s', r = .ok () s' ∧ s'.Declared (vs ++ ws) ∧ s'.kinds = ks) ∧
  (¬ Declares (vs ++ ws) → Fails r)

theorem declareVariable_declaring (h : s.Declared vs) :
    Declaring vs [(x, t)] s.kinds (declareVariable t (x, span) s) := by
  constructor
  · intro hd
    exact declareVariable_of_fresh h (declares_append_iff.1 hd).2
  · intro hd
    have hrefuses := @declareVariable_refuses vs s x t span h fun hx =>
      hd (declares_append_iff.2 ⟨h.declares, hx⟩)
    exact hrefuses.fails

theorem Declaring.of_ok {ks : List TokenKind} (h : Declaring vs ws ks (.ok () s)) :
    s.Declared (vs ++ ws) ∧ s.kinds = ks := by
  by_cases hd : Declares (vs ++ ws)
  · obtain ⟨s', hs, h⟩ := h.1 hd
    cases hs
    exact h
  · exact absurd rfl ((h.2 hd).ne_ok ())

/-- Declarations in a row. -/
theorem Declaring.bind {us : List (String × Ty)} {ks ks' : List TokenKind} {p : Production Unit}
    {f : Unit → Production Unit} (hp : Declaring vs ws ks (p s))
    (hf : ∀ s', s'.Declared (vs ++ ws) → s'.kinds = ks → Declaring (vs ++ ws) us ks' (f () s')) :
    Declaring vs (ws ++ us) ks' ((p >>= f) s) := by
  by_cases hd : Declares (vs ++ ws)
  · obtain ⟨s', hs, hdec, hk⟩ := hp.1 hd
    rw [bind_of_ok hs, Declaring, ← List.append_assoc]
    exact hf s' hdec hk
  · have hfail := (hp.2 hd).bind f
    refine ⟨fun hall => ?_, fun _ => hfail⟩
    rw [← List.append_assoc] at hall
    exact absurd hall.of_append hd

theorem declaring_nil (h : s.Declared vs) : Declaring vs [] s.kinds (.ok () s) := by
  rw [Declaring, List.append_nil]
  exact ⟨fun _ => ⟨s, rfl, h, rfl⟩, fun hd => absurd h.declares hd⟩

theorem forM_declaring {names : List (String × Span)} (h : s.Declared vs) :
    Declaring vs (names.map fun n => (n.1, t)) s.kinds (names.forM (declareVariable t) s) := by
  induction names generalizing vs s with
  | nil => exact declaring_nil h
  | cons n names ih =>
    have hfirst : Declaring vs [(n.1, t)] s.kinds (declareVariable t n s) :=
      declareVariable_declaring h
    refine hfirst.bind ?_
    intro s' hdec hk
    rw [← hk]
    exact ih hdec

end

section
variable {vs ws : List (String × Ty)} {s s' : State} {x : String} {xs : List String} {t : Ty}
  {n : String} {bound count : Nat} {k : TokenKind} {ts ks : List TokenKind}
  {names : List (String × Span)}

theorem identifier_of_kinds (h : s.kinds = .identifier x :: ks) :
    identifier s = .ok (x, s.current.span) (s.after 1 [] 0) := by
  simp [identifier, bind_apply, map_apply, State.kind_of_kinds h, State.after_one]

theorem identifier_eq_ok {name : String × Span} (hs : s.Ended)
    (h : identifier s = .ok name s') :
    s.kinds = .identifier name.1 :: s'.kinds ∧ s' = s.after 1 [] 0 := by
  simp only [identifier, bind_apply, kind_apply] at h
  cases hk : s.current.kind with
  | identifier x =>
    rw [hk] at h
    cases h
    exact ⟨hk ▸ hs.kinds_eq (by simp [hk]), State.after_one.symm⟩
  | _ => simp [hk] at h

theorem moreNames_eq_ok (hs : s.Ended) (h : moreNames count s = .ok names s') :
    s.kinds = (names.map (·.1)).flatMap (fun y => [.symbol .comma, .identifier y]) ++ s'.kinds ∧
      ∃ m, s' = s.after m [] 0 := by
  induction count generalizing s names with
  | zero =>
    cases h
    exact ⟨rfl, 0, State.after_zero.symm⟩
  | succ count ih =>
    simp only [moreNames, bind_apply, at?_apply] at h
    split at h
    · next hc =>
      have hk : s.current.kind = .symbol .comma := by simpa [Token.isSymbol] using hc
      have hks := hs.kinds_eq (by simp [hk])
      have hs₁ : s.advance.Ended := hs.advance (by simp [hk])
      simp only [bind_apply, advance_apply] at h
      split at h
      · next name s₁ hn =>
        obtain ⟨hk₁, hs₁'⟩ := identifier_eq_ok hs₁ hn
        split at h
        · next more s₂ hm =>
          cases h
          obtain ⟨hk₂, m, hs₂⟩ := ih (hs₁.of_append (List.singleton_append ▸ hk₁)) hm
          refine ⟨?_, 1 + (1 + m), ?_⟩
          · rw [hks, hk, hk₁, hk₂]
            simp
          · rw [hs₂, hs₁', ← State.after_one, State.after_after, State.after_after]
            simp
        · cases h
      · cases h
    · cases h
      exact ⟨rfl, 0, State.after_zero.symm⟩

/-- A list of names is read to its end. -/
theorem moreNames_of_kinds
    (h : s.kinds = xs.flatMap (fun y => [.symbol .comma, .identifier y]) ++ k :: ks)
    (hk : k ≠ .symbol .comma) (hc : xs.length ≤ count) :
    ∃ names m, moreNames count s = .ok names (s.after m [] 0) ∧ names.map (·.1) = xs ∧
      (s.after m [] 0).kinds = k :: ks := by
  induction xs generalizing s count with
  | nil =>
    refine ⟨[], 0, ?_, rfl, by rwa [State.after_zero]⟩
    rw [State.after_zero]
    cases count with
    | zero => rfl
    | succ count => simp [moreNames, bind_apply, State.isSymbol_of_kinds h, hk]
  | cons x xs ih =>
    cases count with
    | zero => simp at hc
    | succ count =>
      simp only [List.flatMap_cons, List.cons_append, List.nil_append] at h
      have hk₁ : (s.after 1 [] 0).kinds = .identifier x ::
          (xs.flatMap (fun y => [.symbol .comma, .identifier y]) ++ k :: ks) :=
        State.kinds_advance h (by simp)
      have hk₂ : ((s.after 1 [] 0).after 1 [] 0).kinds =
          xs.flatMap (fun y => [.symbol .comma, .identifier y]) ++ k :: ks :=
        State.kinds_advance hk₁ (by simp)
      obtain ⟨names, m, hm, hn, hk₃⟩ := ih hk₂ (by simpa using hc)
      refine ⟨(x, (s.after 1 [] 0).current.span) :: names, 1 + 1 + m, ?_, by simp [hn], ?_⟩
      · simp only [State.after_after, List.append_nil, Nat.reduceAdd] at hm
        simp [moreNames, bind_apply, map_apply, State.isSymbol_of_kinds h, State.after_one.symm,
          identifier_of_kinds hk₁, hm, State.after_after]
      · simpa [State.after_after] using hk₃


theorem State.Declared.isRegistered (h : s.Declared vs) (t : Ty) :
    s.scopes.isRegistered t = true := by
  simp only [Scopes.isRegistered, Scopes.toList, h.outer, List.any_cons, List.any_nil]
  cases t <;> simp [Scope.builtin, Ty.all]

theorem typeName_of_kind (h : s.Declared vs) (hk : s.current.kind = .identifier n)
    (ht : Ty.ofName? n = some t) : typeName s = .ok t (s.after 1 [] 0) := by
  have hn : s.names n = some (.type t) := by
    rw [h.names]
    exact namesOf_eq_type_iff.2 ht
  simp only [typeName, bind_apply, kind_apply, hk, here_apply, lookup_of_some _ hn]
  change (if s.scopes.isRegistered t then _ else _ : Production Ty) s = _
  rw [h.isRegistered]
  exact congrArg (EStateM.Result.ok t) State.after_one.symm

theorem typeName_refuses (h : s.Declared vs)
    (hk : ∀ n t, s.current.kind = .identifier n → Ty.ofName? n ≠ some t) :
    Refuses s.current.span s (typeName s) := by
  simp only [typeName, bind_apply, kind_apply]
  cases hc : s.current.kind with
  | identifier n =>
    simp only [bind_apply, here_apply]
    cases hn : s.names n with
    | none => simp [lookup_of_none _ hn]
    | some e =>
      simp only [lookup_of_some _ hn]
      cases e with
      | type t =>
        rw [h.names] at hn
        exact absurd (namesOf_eq_type_iff.1 hn) (hk n t hc)
      | _ => simp
  | symbol y => cases y <;> simp
  | _ => simp

/-- A type that was read has a name, and the name is passed. -/
theorem typeName_eq_ok (h : s.Declared vs) (hs : s.Ended) (ht : typeName s = .ok t s') :
    ∃ n, Ty.ofName? n = some t ∧ s.kinds = .identifier n :: s'.kinds ∧ s' = s.after 1 [] 0 := by
  by_cases hk : ∃ n u, s.current.kind = .identifier n ∧ Ty.ofName? n = some u
  · obtain ⟨n, u, hk, hu⟩ := hk
    rw [typeName_of_kind h hk hu] at ht
    cases ht
    refine ⟨n, hu, ?_, rfl⟩
    rw [State.after_one, ← hk]
    exact hs.kinds_eq (by simp [hk])
  · have hf := typeName_refuses h fun n u hn hu => hk ⟨n, u, hn, hu⟩
    exact absurd ht (hf.fails.ne_ok t)

/-- A declaration of names is read as such, and fails only if a name is not fresh. -/
theorem variableDeclaration_declaring (h : s.Declared vs)
    (hk : s.kinds = nameTokens x xs ++ .symbol .colon :: .identifier n :: k :: ks)
    (ht : Ty.ofName? n = some t) (hb : xs.length ≤ bound) :
    Declaring vs ((x :: xs).map (·, t)) (k :: ks) (variableDeclaration bound s) := by
  have hk₁ : (s.after 1 [] 0).kinds = xs.flatMap (fun y => [.symbol .comma, .identifier y]) ++
      .symbol .colon :: .identifier n :: k :: ks := State.kinds_advance hk (by simp)
  obtain ⟨names, m, hm, hn, hk₂⟩ := moreNames_of_kinds hk₁ (by simp) hb
  simp only [State.after_after, List.append_nil, Nat.add_zero] at hm hk₂
  have hk₃ : ((s.after (1 + m) [] 0).after 1 [] 0).kinds = .identifier n :: k :: ks :=
    State.kinds_advance hk₂ (by simp)
  simp only [State.after_after, List.append_nil, Nat.add_zero] at hk₃
  have hk₄ : ((s.after (1 + m + 1) [] 0).after 1 [] 0).kinds = k :: ks :=
    State.kinds_advance hk₃ (by simp)
  have hty := typeName_of_kind (h.after (n := 1 + m + 1)) (State.kind_of_kinds hk₃) ht
  simp only [State.after_after, List.append_nil, Nat.add_zero] at hk₄ hty
  have hvars : Declaring vs (((x, s.current.span) :: names).map fun y => (y.1, t)) (k :: ks)
      (((x, s.current.span) :: names).forM (declareVariable t) (s.after (1 + m + 1 + 1) [] 0)) := by
    rw [← hk₄]
    exact forM_declaring h.after
  have hall : ((x, s.current.span) :: names).map (fun y => (y.1, t)) = (x :: xs).map (·, t) := by
    rw [← hn]
    simp
  rw [hall] at hvars
  simp only [variableDeclaration, bind_apply, identifier_of_kinds hk, hm, accept_of_kinds hk₂,
    State.after_after, List.append_nil, Nat.add_zero, hty]
  exact hvars

theorem variableDeclaration_eq_ok (h : s.Declared vs) (hs : s.Ended)
    (hp : variableDeclaration bound s = .ok () s') :
    ∃ x xs n t, Ty.ofName? n = some t ∧
      s.kinds = nameTokens x xs ++ .symbol .colon :: .identifier n :: s'.kinds ∧
      s'.Declared (vs ++ (x :: xs).map (·, t)) := by
  simp only [variableDeclaration] at hp
  obtain ⟨first, s₁, h₁, hp⟩ := bind_eq_ok.1 hp
  obtain ⟨more, s₂, h₂, hp⟩ := bind_eq_ok.1 hp
  obtain ⟨_, s₃, h₃, hp⟩ := bind_eq_ok.1 hp
  obtain ⟨t, s₄, h₄, hp⟩ := bind_eq_ok.1 hp
  obtain ⟨hk₁, hs₁⟩ := identifier_eq_ok hs h₁
  have he₁ : s₁.Ended := hs.of_append (List.singleton_append ▸ hk₁)
  obtain ⟨hk₂, m, hs₂⟩ := moreNames_eq_ok he₁ h₂
  have he₂ : s₂.Ended := he₁.of_append hk₂
  obtain ⟨hk₃, hs₃⟩ := accept_eq_ok he₂ h₃
  have he₃ : s₃.Ended := he₂.of_append (List.singleton_append ▸ hk₃)
  have hd₃ : s₃.Declared vs := by
    rw [hs₃, hs₂, hs₁]
    exact h.after.after.after
  obtain ⟨n, ht, hk₄, hs₄⟩ := typeName_eq_ok hd₃ he₃ h₄
  have hd₄ : s₄.Declared vs := by
    rw [hs₄]
    exact hd₃.after
  have hvars : Declaring vs ((first :: more).map fun y => (y.1, t)) s₄.kinds
      ((first :: more).forM (declareVariable t) s₄) := forM_declaring hd₄
  rw [hp] at hvars
  obtain ⟨hd, hk⟩ := hvars.of_ok
  refine ⟨first.1, more.map (·.1), n, t, ht, ?_, ?_⟩
  · rw [hk₁, hk₂, hk₃, hk₄, hk]
    simp [nameTokens]
  · simpa [Function.comp_def] using hd

theorem length_declarationTokens : xs.length < (declarationTokens x xs n).length := by
  induction xs with
  | nil => simp [declarationTokens, nameTokens]
  | cons y xs ih =>
    simp only [declarationTokens, nameTokens, List.flatMap_cons, List.length_append,
      List.length_cons, List.length_nil] at ih ⊢
    omega

theorem variableDeclarations_succ :
    variableDeclarations bound (count + 1) s =
      (variableDeclaration bound >>= fun _ => accept .semicolon >>= fun _ => do
        if let .identifier _ ← kind then variableDeclarations bound count) s := rfl

theorem declarationTokens_append :
    declarationTokens x xs n ++ ks =
      nameTokens x xs ++ .symbol .colon :: .identifier n :: .symbol .semicolon :: ks := by
  simp [declarationTokens]

theorem head_of_spellsVariables (hv : SpellsVariables ts ws) :
    ∃ y us, ts = .identifier y :: us := by
  cases hv with
  | one x xs => exact ⟨x, _, rfl⟩
  | more x xs => exact ⟨x, _, rfl⟩

/-- Declarations are read as long as one more begins. -/
theorem variableDeclarations_declaring (hv : SpellsVariables ts ws) (h : s.Declared vs)
    (hk : s.kinds = ts ++ k :: ks) (hne : ∀ y, k ≠ .identifier y) (hb : ts.length ≤ bound)
    (hc : ts.length ≤ count) :
    Declaring vs ws (k :: ks) (variableDeclarations bound count s) := by
  induction hv generalizing vs s count with
  | @one n t x xs ht =>
    have hlen := @length_declarationTokens x xs n
    obtain ⟨count, rfl⟩ := Nat.exists_eq_succ_of_ne_zero (show count ≠ 0 by omega)
    rw [declarationTokens_append] at hk
    have hfirst := variableDeclaration_declaring h hk ht (show xs.length ≤ bound by omega)
    rw [variableDeclarations_succ, ← List.append_nil (List.map _ _)]
    refine hfirst.bind fun s₁ hd₁ hk₁ => ?_
    have hk₂ : (s₁.after 1 [] 0).kinds = k :: ks := State.kinds_advance hk₁ (by simp)
    rw [bind_of_ok (accept_of_kinds hk₁), bind_of_ok kind_apply, State.kind_of_kinds hk₂, ← hk₂]
    cases k with
    | identifier y => exact absurd rfl (hne y)
    | _ => exact declaring_nil hd₁.after
  | @more n t ts ws x xs ht hs ih =>
    have hlen := @length_declarationTokens x xs n
    simp only [List.length_append] at hb hc
    obtain ⟨count, rfl⟩ := Nat.exists_eq_succ_of_ne_zero (show count ≠ 0 by omega)
    rw [List.append_assoc, declarationTokens_append] at hk
    have hfirst := variableDeclaration_declaring h hk ht (show xs.length ≤ bound by omega)
    rw [variableDeclarations_succ]
    refine hfirst.bind fun s₁ hd₁ hk₁ => ?_
    have hk₂ : (s₁.after 1 [] 0).kinds = ts ++ k :: ks := State.kinds_advance hk₁ (by simp)
    have hrest : Declaring (vs ++ (x :: xs).map (·, t)) ws (k :: ks)
        (variableDeclarations bound count (s₁.after 1 [] 0)) :=
      ih hd₁.after hk₂ (by omega) (by omega)
    obtain ⟨y, us, rfl⟩ := head_of_spellsVariables hs
    rw [bind_of_ok (accept_of_kinds hk₁), bind_of_ok kind_apply, State.kind_of_kinds hk₂]
    exact hrest

/-- One declaration and its semicolon; what is left is read in the same way, or nothing is. -/
theorem variableDeclarations_succ_eq_ok (h : s.Declared vs) (hs : s.Ended)
    (hp : variableDeclarations bound (count + 1) s = .ok () s') :
    ∃ x xs n t s₁, Ty.ofName? n = some t ∧ s.kinds = declarationTokens x xs n ++ s₁.kinds ∧
      s₁.Declared (vs ++ (x :: xs).map (·, t)) ∧
      (variableDeclarations bound count s₁ = .ok () s' ∨ s' = s₁) := by
  rw [variableDeclarations_succ] at hp
  obtain ⟨_, s₁, h₁, hp⟩ := bind_eq_ok.1 hp
  obtain ⟨_, s₂, h₂, hp⟩ := bind_eq_ok.1 hp
  obtain ⟨x, xs, n, t, ht, hk₁, hd₁⟩ := variableDeclaration_eq_ok h hs h₁
  have hk₁' : s.kinds = nameTokens x xs ++ [.symbol .colon, .identifier n] ++ s₁.kinds := by
    rw [hk₁]
    simp
  obtain ⟨hk₂, hs₂⟩ := accept_eq_ok (hs.of_append hk₁') h₂
  refine ⟨x, xs, n, t, s₂, ht, ?_, ?_, ?_⟩
  · rw [declarationTokens_append, ← hk₂, hk₁]
  · rw [hs₂]
    exact hd₁.after
  · rw [bind_of_ok kind_apply] at hp
    cases hk : s₂.current.kind with
    | identifier y =>
      rw [hk] at hp
      exact .inl hp
    | _ =>
      rw [hk] at hp
      cases hp
      exact .inr rfl

theorem variableDeclarations_eq_ok (h : s.Declared vs) (hs : s.Ended)
    (hp : variableDeclarations bound (count + 1) s = .ok () s') :
    ∃ ts ws, SpellsVariables ts ws ∧ s.kinds = ts ++ s'.kinds ∧ s'.Declared (vs ++ ws) := by
  induction count generalizing vs s with
  | zero =>
    obtain ⟨x, xs, n, t, s₁, ht, hk, hd, hrest⟩ := variableDeclarations_succ_eq_ok h hs hp
    obtain rfl : s' = s₁ := by
      rcases hrest with hrest | hrest
      · cases hrest
        rfl
      · exact hrest
    exact ⟨_, _, .one x xs ht, hk, hd⟩
  | succ count ih =>
    obtain ⟨x, xs, n, t, s₁, ht, hk, hd, hrest | rfl⟩ := variableDeclarations_succ_eq_ok h hs hp
    · obtain ⟨ts, ws, hv, hk₁, hd₁⟩ := ih hd (hs.of_append hk) hrest
      refine ⟨_, _, .more x xs ht hv, ?_, ?_⟩
      · rw [hk, hk₁, List.append_assoc]
      · rwa [← List.append_assoc]
    · exact ⟨_, _, .one x xs ht, hk, hd⟩

end
end Grammar
end MiniPascal
