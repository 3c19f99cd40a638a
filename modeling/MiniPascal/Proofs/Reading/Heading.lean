import MiniPascal.Proofs.Reading.Program
import MiniPascal.Proofs.Reading.Unfinished

/-! How the reading of a program breaks off: in its heading, where there are only slots that have
been set to zero, or in its body. -/
namespace MiniPascal.Grammar

/-- The reading of the program breaks off in its body, inside a loop or a branch of a choice. -/
def BodyBreaksInside (bound : Nat) (s : State) : Prop :=
  ∃ s₁ t, heading bound s = .ok () s₁ ∧ Element bound bound s₁ t ∧ BreaksInside bound bound t

/-- All that has been emitted sets slots of the types to zero. -/
structure State.Zeroed (ts : List Ty) (s : State) : Prop where
  slots : s.code.slots = ts.toArray
  code : s.code.code.toList = zeroCode 0 ts
  labels : s.code.labels = 0

/-- The reading broke off where there are only slots, and with the tokens left no more than `room`
of them. -/
structure State.Bare (room : Nat) (s : State) (e : Stop) (s' : State) : Prop where
  rejects : s.Rejects e s'
  zeroed : ∃ ts, s'.Zeroed ts ∧ ts.length + s'.tokens.length ≤ room

section
variable {s s₁ s' : State} {e : Stop} {room bound count : Nat} {vs : List (String × Ty)}
  {names : List (String × Span)} {t : Ty} {y : Symbol}

theorem State.Declared.zeroed (h : s.Declared vs) : s.Zeroed (vs.map (·.2)) :=
  ⟨h.slots, h.code, h.labels⟩

theorem State.Zeroed.of_code {ts : List Ty} (h : s.Zeroed ts) (hc : s'.code = s.code) :
    s'.Zeroed ts := ⟨hc ▸ h.slots, hc ▸ h.code, hc ▸ h.labels⟩

theorem State.Rejects.tokens (h : s.Rejects e s') : s'.tokens <:+ s.tokens := by
  obtain ⟨ts, us, r, ht, -⟩ := h
  exact ⟨ts, ht.symm⟩

theorem State.Bare.behind (h : s₁.Bare room e s') (hs : s₁.tokens <:+ s.tokens) :
    s.Bare room e s' := ⟨h.rejects.behind hs, h.zeroed⟩

theorem State.Rejects.bare (h : s.Rejects e s') (hc : s'.code = s.code) (hd : s.Declared vs)
    (hr : vs.length + s.tokens.length ≤ room) : s.Bare room e s' := by
  refine ⟨h, _, hd.zeroed.of_code hc, ?_⟩
  have hle := h.tokens.length_le
  rw [List.length_map]
  omega

theorem Refuses.bare {α : Type} {r : EStateM.Result Stop State α}
    (h : Refuses s.current.span s r) (he : r = .error e s') (hd : s.Declared vs)
    (hr : vs.length + s.tokens.length ≤ room) : s.Bare room e s' := by
  obtain ⟨c, rfl⟩ := h
  cases he
  exact (rejects_here c).bare rfl hd hr

theorem identifier_refuses (h : identifier s = .error e s') :
    Refuses s.current.span s (identifier s) := by
  simp only [identifier, bind_apply, kind_apply] at h ⊢
  cases hk : s.current.kind with
  | identifier x => simp [hk, bind_apply, map_apply] at h
  | _ => simp

theorem span_of_identifier {name : String × Span} (h : identifier s = .ok name s') :
    name.2 = s.current.span := by
  simp only [identifier, bind_apply, kind_apply] at h
  cases hk : s.current.kind with
  | identifier x =>
    rw [hk] at h
    cases h
    rfl
  | _ => simp [hk] at h

theorem identifier_leads {name : String × Span} (hs : s.Ended) (h : identifier s = .ok name s') :
    s.Leads [s.current] [] 0 s' := by
  obtain ⟨hk, rfl⟩ := identifier_eq_ok hs h
  rw [State.after_one]
  exact leads_advance hs (by simp [State.kind_of_kinds hk])

theorem moreNames_succ : moreNames (count + 1) s =
    if s.current.isSymbol .comma then
      match identifier s.advance with
      | .error e s' => .error e s'
      | .ok name s₁ => match moreNames count s₁ with
        | .error e s' => .error e s'
        | .ok more s₂ => .ok (name :: more) s₂
    else .ok [] s := by
  simp only [moreNames, bind_apply, at?_apply]
  split
  · simp only [bind_apply, advance_apply]
    cases identifier s.advance with
    | error e s' => rfl
    | ok name s₁ =>
      dsimp only
      cases moreNames count s₁ <;> rfl
  · rfl

/-- Names are read to the end of their list, each at a token of its own, or one is missing. -/
theorem moreNames_proceed (hs : s.Ended) :
    match moreNames count s with
      | .ok names s' => ∃ ts, s.Leads ts [] 0 s' ∧ names.length ≤ ts.length ∧
        ∀ n ∈ names, ∃ t ∈ ts, n.2 = t.span
      | .error e s' => s.Rejects e s' ∧ s'.code = s.code := by
  induction count generalizing s with
  | zero => exact ⟨[], leads_nil, by simp, by simp⟩
  | succ count ih =>
    rw [moreNames_succ]
    by_cases hc : s.current.isSymbol .comma
    · have hk : s.current.kind = .symbol .comma := by simpa [Token.isSymbol] using hc
      have hadv := leads_advance hs (by simp [hk])
      have hs₁ := hadv.passes.ended hs
      rw [if_pos hc]
      cases hn : identifier s.advance with
      | error e s₁ =>
        obtain ⟨c, hrefuses⟩ := identifier_refuses hn
        cases hn.symm.trans hrefuses
        exact ⟨(rejects_here c).behind ⟨_, hadv.passes.tokens.symm⟩, State.code_advance⟩
      | ok name s₁ =>
        have hname := hadv.trans (identifier_leads hs₁ hn)
        have hrest := ih (hname.passes.ended hs)
        dsimp only
        cases hm : moreNames count s₁ with
        | error e s₂ =>
          rw [hm] at hrest
          refine ⟨hrest.1.behind ⟨_, hname.passes.tokens.symm⟩, hrest.2.trans ?_⟩
          rw [hname.code]
          exact CodeBuffer.grown_nil _
        | ok more s₂ =>
          rw [hm] at hrest
          obtain ⟨ts, hl, hlen, hspans⟩ := hrest
          refine ⟨_, hname.trans hl, ?_, ?_⟩
          · simp only [List.length_append, List.length_cons, List.length_nil]
            omega
          · intro n hn'
            rcases List.mem_cons.1 hn' with rfl | hn'
            · exact ⟨s.advance.current, by simp, span_of_identifier hn⟩
            · obtain ⟨t, ht, hspan⟩ := hspans n hn'
              exact ⟨t, List.mem_append_right _ ht, hspan⟩
    · rw [if_neg hc]
      exact ⟨[], leads_nil, by simp, by simp⟩

theorem declareVariable_apply {n : String × Span} : declareVariable t n s =
    match s.scopes.declare? n.1 (.var t (s.code.declareSlot t).1) with
    | some scopes => .ok () { s with code := (s.code.declareSlot t).2, scopes }
    | none => .error (.rejected ⟨.duplicate n.1, n.2⟩)
        { s with code := (s.code.declareSlot t).2 } := by
  rw [declareVariable, bind_of_ok (declareSlot_apply t), declare, get_bind]
  cases s.scopes.declare? n.1 (.var t (s.code.declareSlot t).1) <;> rfl

theorem State.Zeroed.declareSlot {ts : List Ty} (h : s.Zeroed ts) (scopes : Scopes) :
    State.Zeroed (ts ++ [t]) { s with code := (s.code.declareSlot t).2, scopes } := by
  constructor
  · simp [CodeBuffer.declareSlot, h.slots]
  · simp [CodeBuffer.declareSlot, h.code, zeroCode_append, slotOf, h.slots]
  · simp [CodeBuffer.declareSlot, h.labels]

/-- Of names with their type one is taken. Its slot and those of the names before are set up. -/
theorem declareAll_rejects {ts : List Ty} (hz : s.Zeroed ts)
    (h : names.forM (declareVariable t) s = .error e s') :
    s'.tokens = s.tokens ∧ (∃ n ∈ names, ∃ c, e = .rejected ⟨c, n.2⟩) ∧
      ∃ us, s'.Zeroed us ∧ us.length ≤ ts.length + names.length := by
  induction names generalizing s ts with
  | nil => cases h
  | cons n names ih =>
    change (declareVariable t n >>= fun _ => names.forM (declareVariable t)) s = _ at h
    rw [bind_apply, declareVariable_apply] at h
    cases hx : s.scopes.declare? n.1 (.var t (s.code.declareSlot t).1) with
    | none =>
      rw [hx] at h
      cases h
      refine ⟨rfl, ⟨n, by simp, _, rfl⟩, ts ++ [t], hz.declareSlot s.scopes, ?_⟩
      simp only [List.length_append, List.length_cons, List.length_nil]
      omega
    | some scopes =>
      rw [hx] at h
      obtain ⟨htokens, ⟨m, hm, hrejected⟩, us, hus, hlen⟩ := ih (hz.declareSlot scopes) h
      refine ⟨htokens, ⟨m, List.mem_cons_of_mem n hm, hrejected⟩, us, hus, ?_⟩
      simp only [List.length_append, List.length_cons, List.length_nil] at hlen ⊢
      omega

/-- A type name that is none is refused. -/
theorem typeName_bare (h : typeName s = .error e s') (hd : s.Declared vs)
    (hr : vs.length + s.tokens.length ≤ room) : s.Bare room e s' := by
  by_cases hk : ∃ n u, s.current.kind = .identifier n ∧ Ty.ofName? n = some u
  · obtain ⟨n, u, hk, hu⟩ := hk
    cases h.symm.trans (typeName_of_kind hd hk hu)
  · exact (typeName_refuses hd fun n u hn hu => hk ⟨n, u, hn, hu⟩).bare h hd hr

theorem State.Leads.declared {ts : List Token} (h : s.Leads ts [] 0 s') (hd : s.Declared vs) :
    s'.Declared vs := by
  have hc : s'.code = s.code := h.code.trans (CodeBuffer.grown_nil _)
  refine ⟨?_, ?_, hd.declares, hc ▸ hd.slots, hc ▸ hd.code, hc ▸ hd.labels⟩
  · rw [h.scopes]
    exact hd.inner
  · rw [h.scopes]
    exact hd.outer

/-- Where a reading went on with nothing emitted in between. -/
theorem State.Leads.bare {ts : List Token} (h : s.Leads ts [] 0 s₁)
    (hr : vs.length + s.tokens.length ≤ room)
    (h' : vs.length + s₁.tokens.length ≤ room → s₁.Bare room e s') : s.Bare room e s' := by
  have hlen := congrArg List.length h.passes.tokens
  rw [List.length_append] at hlen
  exact (h' (by omega)).behind ⟨ts, h.passes.tokens.symm⟩

/-- A declaration breaks off at one of its tokens, or at a name that is taken. -/
theorem variableDeclaration_bare (hd : s.Declared vs) (hs : s.Ended)
    (hr : vs.length + s.tokens.length ≤ room)
    (h : variableDeclaration bound s = .error e s') : s.Bare room e s' := by
  rw [variableDeclaration] at h
  rcases bind_eq_error.1 h with h₁ | ⟨first, s₁, h₁, h⟩
  · exact (identifier_refuses h₁).bare h₁ hd hr
  have hl₁ := identifier_leads hs h₁
  have hmore := @moreNames_proceed s₁ bound (hl₁.passes.ended hs)
  rcases bind_eq_error.1 h with h₂ | ⟨more, s₂, h₂, h⟩ <;> rw [h₂] at hmore
  · exact hl₁.bare hr fun hr => hmore.1.bare hmore.2 (hl₁.declared hd) hr
  obtain ⟨ts, hl₂, hlen, hspans⟩ := hmore
  have hl₂ := hl₁.trans hl₂
  rcases bind_eq_error.1 h with h₃ | ⟨_, s₃, h₃, h⟩
  · exact hl₂.bare hr fun hr => (accept_refuses h₃).bare h₃ (hl₂.declared hd) hr
  have hl₃ := hl₂.trans (accept_leads (hl₂.passes.ended hs) h₃)
  have hd₃ := hl₃.declared hd
  rcases bind_eq_error.1 h with h₄ | ⟨t, s₄, h₄, h⟩
  · exact hl₃.bare hr fun hr => typeName_bare h₄ hd₃ hr
  obtain ⟨n, -, hk, hs₄⟩ := typeName_eq_ok hd₃ (hl₃.passes.ended hs) h₄
  obtain ⟨us, -, hl₄⟩ := leads_after (List.singleton_append ▸ hk) hs₄
  have hl := hl₃.trans hl₄
  obtain ⟨htokens, ⟨m, hm, c, rfl⟩, ws, hzeroed, hws⟩ :=
    declareAll_rejects (hl.declared hd).zeroed h
  have hpassed := hl.passes.tokens
  rw [← htokens] at hpassed
  constructor
  · obtain ⟨t, ht, hspan⟩ : ∃ t ∈ s.current :: ts, m.2 = t.span := by
      rcases List.mem_cons.1 hm with rfl | hm
      · exact ⟨s.current, by simp, span_of_identifier h₁⟩
      · obtain ⟨t, ht, hspan⟩ := hspans m hm
        exact ⟨t, List.mem_cons_of_mem _ ht, hspan⟩
    rw [hspan]
    exact rejects_passed c hpassed (List.mem_append_left _ (List.mem_append_left _ ht))
  · refine ⟨ws, hzeroed, ?_⟩
    have hlen' := congrArg List.length hpassed
    simp only [List.length_append, List.length_cons, List.length_nil, List.length_map] at *
    omega

theorem length_nameTokens {x : String} {xs : List String} :
    (nameTokens x xs).length = 2 * xs.length + 1 := by
  induction xs with
  | nil => rfl
  | cons y xs ih =>
    simp only [nameTokens, List.flatMap_cons, List.length_append, List.length_cons,
      List.length_nil] at ih ⊢
    omega

/-- What has been declared has taken a token for each variable. -/
theorem variableDeclaration_leaves (hd : s.Declared vs) (hs : s.Ended)
    (h : variableDeclaration bound s = .ok () s') : ∃ ws, s'.Declared ws ∧ s'.Ended ∧
      s'.tokens <:+ s.tokens ∧ ws.length + s'.tokens.length ≤ vs.length + s.tokens.length := by
  obtain ⟨x, xs, n, t, -, hk, hd'⟩ := variableDeclaration_eq_ok hd hs h
  have hk' : s.kinds = nameTokens x xs ++ [.symbol .colon, .identifier n] ++ s'.kinds := by
    rw [hk, List.append_assoc]
    rfl
  refine ⟨_, hd', hs.of_append hk',
    (orderly_of_agree fun _ => Pairing.agree_variableDeclaration).suffix h, ?_⟩
  have hlen := congrArg List.length hk'
  simp only [length_kinds, length_nameTokens, List.length_append, List.length_cons,
    List.length_nil, List.length_map] at hlen ⊢
  omega

theorem variableDeclarations_bare (hd : s.Declared vs) (hs : s.Ended)
    (hr : vs.length + s.tokens.length ≤ room)
    (h : variableDeclarations bound count s = .error e s') : s.Bare room e s' := by
  induction count generalizing s vs with
  | zero => cases h
  | succ count ih =>
    rw [variableDeclarations_succ] at h
    rcases bind_eq_error.1 h with h₁ | ⟨_, s₁, h₁, h⟩
    · exact variableDeclaration_bare hd hs hr h₁
    obtain ⟨ws, hd₁, hs₁, hsuffix, hlen⟩ := variableDeclaration_leaves hd hs h₁
    have hr₁ := Nat.le_trans hlen hr
    rcases bind_eq_error.1 h with h₂ | ⟨_, s₂, h₂, h⟩
    · exact ((accept_refuses h₂).bare h₂ hd₁ hr₁).behind hsuffix
    have hl := accept_leads hs₁ h₂
    rw [bind_of_ok kind_apply] at h
    cases hk₂ : s₂.current.kind with
    | identifier y =>
      rw [hk₂] at h
      exact (hl.bare hr₁ fun hr₂ =>
        ih (hl.declared hd₁) (hl.passes.ended hs₁) hr₂ h).behind hsuffix
    | _ =>
      rw [hk₂] at h
      cases h

theorem noDeclarations_refuses (h : noDeclarations s = .error e s') :
    Refuses s.current.span s (noDeclarations s) := by
  simp only [noDeclarations, bind_apply, kind_apply] at h ⊢
  cases hk : s.current.kind with
  | symbol y =>
    rw [hk] at h
    cases y <;> first | exact refuses_error _ _ | cases h
  | _ =>
    rw [hk] at h
    cases h

theorem declarations_bare (hd : s.Declared vs) (hs : s.Ended)
    (hr : vs.length + s.tokens.length ≤ room)
    (h : declarations bound s = .error e s') : s.Bare room e s' := by
  simp only [declarations, bind_apply, at?_apply] at h
  split at h
  · next hvar =>
    have hk : s.current.kind = .symbol .varWord := by simpa [Token.isSymbol] using hvar
    have hl := leads_advance hs (by simp [hk])
    exact hl.bare hr fun hr =>
      variableDeclarations_bare (hl.declared hd) (hl.passes.ended hs) hr h
  · cases h

theorem length_variables {ks : List TokenKind} {ws : List (String × Ty)}
    (h : SpellsVariables ks ws) : ws.length ≤ ks.length := by
  induction h with
  | @one n t x xs _ =>
    have hlen := @length_declarationTokens x xs n
    simp only [List.length_map, List.length_cons]
    omega
  | @more n t ks ws x xs _ _ ih =>
    have hlen := @length_declarationTokens x xs n
    simp only [List.length_map, List.length_cons, List.length_append]
    omega

theorem length_declarations {ks : List TokenKind} (h : SpellsDeclarations ks vs) :
    vs.length ≤ ks.length := by
  rcases h with ⟨-, rfl⟩ | ⟨us, rfl, hv⟩
  · exact Nat.zero_le _
  · exact Nat.le_succ_of_le (length_variables hv)

theorem declarations_leave (hd : s.Declared []) (hs : s.Ended) (hb : bound ≠ 0)
    (h : declarations bound s = .ok () s') : ∃ vs, s'.Declared vs ∧ s'.Ended ∧
      s'.tokens <:+ s.tokens ∧ vs.length + s'.tokens.length ≤ s.tokens.length := by
  obtain ⟨ks, vs, hv, hk, hd'⟩ := declarations_eq_ok hd hs hb h
  refine ⟨vs, hd', hs.of_append hk,
    (orderly_of_agree fun _ => Pairing.agree_declarations).suffix h, ?_⟩
  have hvars := length_declarations hv
  rw [← length_kinds s, hk, List.length_append, length_kinds]
  omega

/-- A heading breaks off at one of its tokens, or at a name that is taken. -/
theorem heading_bare (hd : s.Declared []) (hs : s.Ended) (hb : bound ≠ 0)
    (h : heading bound s = .error e s') : s.Bare s.tokens.length e s' := by
  have hr : ([] : List (String × Ty)).length + s.tokens.length ≤ s.tokens.length := by simp
  rw [heading] at h
  rcases bind_eq_error.1 h with h₁ | ⟨_, s₁, h₁, h⟩
  · exact (accept_refuses h₁).bare h₁ hd hr
  have hl₁ := accept_leads hs h₁
  rcases bind_eq_error.1 h with h₂ | ⟨_, s₂, h₂, h⟩
  · exact hl₁.bare hr fun hr => (identifier_refuses h₂).bare h₂ (hl₁.declared hd) hr
  have hl₂ := hl₁.trans (identifier_leads (hl₁.passes.ended hs) h₂)
  rcases bind_eq_error.1 h with h₃ | ⟨_, s₃, h₃, h⟩
  · exact hl₂.bare hr fun hr => (accept_refuses h₃).bare h₃ (hl₂.declared hd) hr
  have hl₃ := hl₂.trans (accept_leads (hl₂.passes.ended hs) h₃)
  have hd₃ := hl₃.declared hd
  refine hl₃.bare hr fun hr₃ => ?_
  rcases bind_eq_error.1 h with h₄ | ⟨_, s₄, h₄, hrest⟩
  · exact (noDeclarations_refuses h₄).bare h₄ hd₃ hr₃
  obtain rfl := noDeclarations_eq_ok h₄
  have hs₃ := hl₃.passes.ended hs
  rcases bind_eq_error.1 hrest with h₅ | ⟨_, s₅, h₅, h₆⟩
  · exact declarations_bare hd₃ hs₃ hr₃ h₅
  obtain ⟨vs, hd₅, hs₅, hsuffix, hlen⟩ := declarations_leave hd₃ hs₃ hb h₅
  have hr₅ : vs.length + s₅.tokens.length ≤ s.tokens.length := by
    rw [List.length_nil] at hr₃
    omega
  exact ((noDeclarations_refuses h₆).bare h₆ hd₅ hr₅).behind hsuffix

theorem agree_heading {r : Pairing} : r.Agree Eq (heading bound) (heading bound) := by
  refine (r.agree_accept _).andThen fun _ => Pairing.agree_identifier.bind fun _ _ _ => ?_
  refine (r.agree_accept _).andThen fun _ => Pairing.agree_noDeclarations.andThen fun _ => ?_
  exact Pairing.agree_declarations.andThen fun _ => Pairing.agree_noDeclarations

/-- Behind a heading all that has been declared has its slot. -/
theorem heading_leaves (hd : s.Declared []) (hs : s.Ended) (hb : bound ≠ 0)
    (h : heading bound s = .ok () s') : ∃ vs, s'.Declared vs ∧ s'.Ended ∧
      s'.tokens <:+ s.tokens ∧ vs.length ≤ s.tokens.length := by
  obtain ⟨x, us, vs, hv, hk, hd'⟩ := heading_eq_ok hd hs hb h
  refine ⟨vs, hd', hs.of_append hk, (orderly_of_agree fun _ => agree_heading).suffix h, ?_⟩
  have hvars := length_declarations hv
  rw [← length_kinds s, hk, List.length_append, List.length_append]
  omega

end

/-- What has been emitted of a program: slots set to zero, and instructions with labels behind them.
There are no more slots, and no more labels, than there were tokens. -/
structure State.Remains (s : State) (ts : List Ty) (is : List Instr) (l : Nat) (s' : State) :
    Prop where
  slots : s'.code.slots = ts.toArray
  code : s'.code.code.toList = zeroCode 0 ts ++ is
  labels : s'.code.labels = UInt32.ofNat l
  slots_le : ts.length ≤ s.tokens.length
  labels_le : l ≤ s.tokens.length

section
variable {s s₁ s' : State} {e : Stop} {bound l : Nat} {vs : List (String × Ty)} {is : List Instr}

theorem State.Declared.remains (h : s₁.Declared vs) (hlen : vs.length ≤ s.tokens.length)
    (hc : s'.code = s₁.code.grown is l) (hl : l ≤ s.tokens.length) :
    s.Remains (vs.map (·.2)) is l s' := by
  refine ⟨?_, ?_, ?_, by rwa [List.length_map], hl⟩
  · rw [hc, CodeBuffer.slots_grown, h.slots]
  · rw [hc, CodeBuffer.code_grown, h.code]
  · rw [hc, CodeBuffer.labels_grown, h.labels, UInt32.zero_add]

/-- The reading of a program breaks off for a rejection of tokens that were read. Inside a loop or a
branch there are labels left to mark. Anywhere else all are marked, and the instructions find on the
stack whatever they take. -/
theorem program_breaks (hd : s.Declared []) (hs : s.Ended) (hb : s.kinds.length ≤ bound)
    (h : program bound s = .error e s') :
    s.Rejects e s' ∧ ∃ ts is l, s.Remains ts is l s' ∧
      (BodyBreaksInside bound s → (marksIn is).length < l) ∧
      (¬ BodyBreaksInside bound s → Marked 0 is l ∧
        (ts.length ≤ UInt32.size → ∃ us, flow? ts.toArray is [] = some us)) := by
  have hb₀ : bound ≠ 0 := by
    rw [length_kinds, State.tokens, List.length_cons] at hb
    omega
  rw [program_eq] at h
  rcases bind_eq_error.1 h with hhead | ⟨_, s₁, hhead, h⟩
  · obtain ⟨hrejects, ts, hz, hlen⟩ := heading_bare hd hs hb₀ hhead
    refine ⟨hrejects, ts, [], 0, ⟨hz.slots, by simp [hz.code], hz.labels, by omega, Nat.zero_le _⟩,
      ?_, fun _ => ⟨straight_nil.marked, fun _ => ⟨[], rfl⟩⟩⟩
    rintro ⟨s₁, t, hok, -⟩
    cases hhead.symm.trans hok
  obtain ⟨vs, hd₁, hs₁, hsuffix, hvs⟩ := heading_leaves hd hs hb₀ hhead
  have hlen := hsuffix.length_le
  have hready : s₁.Ready bound 0 := by
    refine ⟨hs₁, ?_, hd₁.labels⟩
    rw [length_kinds] at hb ⊢
    exact Nat.le_trans hlen hb
  have hinside : BodyBreaksInside bound s ↔
      ∃ t, Element bound bound s₁ t ∧ BreaksInside bound bound t := by
    constructor
    · rintro ⟨u, t, hu, ht⟩
      cases hhead.symm.trans hu
      exact ⟨t, ht⟩
    · rintro ⟨t, ht⟩
      exact ⟨s₁, t, hhead, ht⟩
  -- The body breaks off, or it is complete and there is no point behind it.
  have hbody :
      s₁.Unfinished 0 (∃ t, Element bound bound s₁ t ∧ BreaksInside bound bound t) e s' := by
    rcases bind_eq_error.1 h with hbody | ⟨_, s₂, hbody, hdot⟩
    · exact compound_unfinished statement_unfinished hready hbody
    · obtain ⟨ks, st, hst⟩ := compound_reads statement_reads _ _ _ hready hbody
      obtain ⟨ts, hc⟩ := hst.completes
      exact ((accept_breaks hdot).unfinished (not_inside_of_compound hready hbody)).behind hc
  refine ⟨hbody.rejects.behind hsuffix, vs.map (·.2), ?_⟩
  by_cases hi : BodyBreaksInside bound s
  · obtain ⟨is, l, hc, hmarks, hl⟩ := hbody.owes (hinside.1 hi)
    exact ⟨is, l, hd₁.remains hvs hc (by omega), fun _ => hmarks, fun ho => absurd hi ho⟩
  · obtain ⟨ts, is, l, us, hc⟩ := hbody.completes fun ho => hi (hinside.2 ho)
    have hts := congrArg List.length hc.leads.passes.tokens
    rw [List.length_append] at hts
    have hl := hc.labels
    refine ⟨is, l, hd₁.remains hvs hc.leads.code (by omega), fun ho => absurd ho hi,
      fun _ => ⟨hc.marked, fun hsize => ⟨us, hc.flows _ ?_⟩⟩⟩
    rw [List.length_map] at hsize
    rw [hd₁.names]
    exact allotted_namesOf hsize

end
end MiniPascal.Grammar
