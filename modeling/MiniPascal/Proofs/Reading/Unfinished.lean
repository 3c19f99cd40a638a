import Mathlib.Logic.Relation
import MiniPascal.Proofs.Reading.Diagnostics
import MiniPascal.Proofs.Reading.Rejections
import MiniPascal.Proofs.Reading.Statement

/-! How the reading of a statement breaks off. Inside a loop, and inside a branch of a choice, some
label has been allotted and not marked. Anywhere else all labels are marked, and the code emitted by
then finds on the stack whatever it takes. -/
namespace MiniPascal

section
variable {names : Names} {n : Nat} {st : Stmt}

theorem flows_stmt (h : st.WellTyped names) : Flows names (st.code names n) [] [] :=
  fun _ hs => flow?_stmt hs h

end

namespace Grammar

/-- The part of a choice in front of its branches. -/
def choiceHead (bound : Nat) : Production Unit := do
  accept .ifWord
  condition bound .ifWord
  accept .thenWord

/-- Between the states there are a statement and a semicolon. -/
def Follows (bound depth : Nat) (s t : State) : Prop :=
  ∃ s₁, statement bound depth s = .ok () s₁ ∧ accept .semicolon s₁ = .ok () t

/-- In the one state a compound statement begins, and in the other an element of it. -/
def Element (bound depth : Nat) (s t : State) : Prop :=
  ∃ s₁, accept .beginWord s = .ok () s₁ ∧ Relation.ReflTransGen (Follows bound depth) s₁ t

/-- The reading of the statement that begins in a state breaks off inside a loop, anywhere behind
`while`, or inside a branch of a choice, anywhere behind `then`. -/
inductive BreaksInside (bound : Nat) : Nat → State → Prop
  | loop {depth : Nat} {s : State} (hw : s.current.kind = .symbol .whileWord)
    (hf : Fails (statement bound (depth + 1) s)) : BreaksInside bound (depth + 1) s
  | branch {depth : Nat} {s s₁ : State} (hg : choiceHead bound s = .ok () s₁)
    (hf : Fails (statement bound (depth + 1) s)) : BreaksInside bound (depth + 1) s
  | element {depth : Nat} {s t : State} (he : Element bound depth s t)
    (ht : BreaksInside bound depth t) : BreaksInside bound (depth + 1) s

section
variable {s s₁ s' t : State} {bound depth n : Nat} {y : Symbol}

theorem kind_of_accept (h : accept y s = .ok () s') : s.current.kind = .symbol y := by
  simp only [accept, bind_apply, at?_apply] at h
  split at h
  · next hy => simpa [Token.isSymbol] using hy
  · cases h

theorem kind_of_choiceHead (h : choiceHead bound s = .ok () s') :
    s.current.kind = .symbol .ifWord := by
  obtain ⟨_, s₁, h₁, -⟩ := bind_eq_ok.1 h
  exact kind_of_accept h₁

theorem kind_of_element (h : Element bound depth s t) : s.current.kind = .symbol .beginWord := by
  obtain ⟨s₁, h₁, -⟩ := h
  exact kind_of_accept h₁

/-- Only statements that begin with one of three words break off inside. -/
theorem BreaksInside.kind (h : BreaksInside bound depth s) :
    ∃ y ∈ [Symbol.beginWord, .ifWord, .whileWord], s.current.kind = .symbol y := by
  cases h with
  | loop hw _ => exact ⟨_, by simp, hw⟩
  | branch hg _ => exact ⟨_, by simp, kind_of_choiceHead hg⟩
  | element he _ => exact ⟨_, by simp, kind_of_element he⟩

/-- What becomes of a compound statement with the last of its elements: it ends in front of `end`,
breaks off in the element, or goes on behind it. -/
inductive Ends (bound depth : Nat) (t : State) : EStateM.Result Stop State Unit → Prop
  | bare (ht : t.current.kind = .symbol .endWord) : Ends bound depth t (.ok () t.advance)
  | broken {e : Stop} {s' : State} (ht : statement bound depth t = .error e s') :
    Ends bound depth t (.error e s')
  | whole {s₁ : State} (ht : statement bound depth t = .ok () s₁)
    (hk : s₁.current.kind ≠ .symbol .semicolon) : Ends bound depth t (accept .endWord s₁)

theorem statement_end (ht : t.current.kind = .symbol .endWord) :
    Fails (statement bound depth t) := by
  cases depth with
  | zero => simp [statement]
  | succ depth =>
    have hr := @statement_succ bound t depth
    simp only [ht, TokenKind.symbol.injEq, reduceCtorEq, false_and, false_or, exists_false] at hr
    exact hr.2.fails

/-- Behind the last element there is none. -/
theorem Ends.not_follows {r : EStateM.Result Stop State Unit} (h : Ends bound depth t r)
    (u : State) : ¬ Follows bound depth t u := by
  rintro ⟨s₁, hs₁, hu⟩
  cases h with
  | bare ht => exact (statement_end ht).ne_ok () hs₁
  | broken ht => cases ht.symm.trans hs₁
  | whole ht hk =>
    cases ht.symm.trans hs₁
    exact hk (kind_of_accept hu)

theorem sequence_succ {p : Production Unit} {count : Nat} :
    sequence p (count + 1) s =
      if s.current.isSymbol .semicolon then
        if s.advance.current.isSymbol .endWord then .ok () s.advance
        else match p s.advance with
          | .error e s' => .error e s'
          | .ok () s₁ => sequence p count s₁
      else .ok () s := by
  simp only [sequence, bind_apply, at?_apply]
  split
  · simp only [advance_apply, bind_apply, at?_apply]
    split
    · rfl
    · rw [bind_apply]
      cases p s.advance <;> rfl
  · rfl

/-- The elements behind one that was read. -/
theorem sequence_ends {count : Nat} (h : s₁.Ready bound n) (hc : s₁.kinds.length ≤ count)
    (ht : statement bound depth t = .ok () s₁) :
    ∃ u, Relation.ReflTransGen (Follows bound depth) t u ∧ Ends bound depth u
      (match sequence (statement bound depth) count s₁ with
        | .error e s' => .error e s'
        | .ok () s₂ => accept .endWord s₂) := by
  induction count generalizing s₁ n t with
  | zero => simp [State.kinds] at hc
  | succ count ih =>
    rw [sequence_succ]
    by_cases hsemi : s₁.current.isSymbol .semicolon
    · have hk : s₁.current.kind = .symbol .semicolon := by simpa [Token.isSymbol] using hsemi
      have hks := h.ended.kinds_eq (by simp [hk])
      have hready : s₁.advance.Ready bound n :=
        h.after (List.singleton_append ▸ hks) State.after_one.symm
      have hfollows : Follows bound depth t s₁.advance :=
        ⟨s₁, ht, by rw [accept_of_kinds (hk ▸ hks), State.after_one]⟩
      rw [if_pos hsemi]
      by_cases hend : s₁.advance.current.isSymbol .endWord
      · have hk' : s₁.advance.current.kind = .symbol .endWord := by
          simpa [Token.isSymbol] using hend
        refine ⟨_, .single hfollows, ?_⟩
        rw [if_pos hend]
        dsimp only
        rw [accept_of_kinds (hk' ▸ hready.ended.kinds_eq (by simp [hk'])), State.after_one]
        exact .bare hk'
      · rw [if_neg hend]
        cases hs : statement bound depth s₁.advance with
        | error e s' => exact ⟨_, .single hfollows, .broken hs⟩
        | ok _ s₂ =>
          obtain ⟨us, st, hst⟩ := statement_reads _ _ _ hready hs
          have hlen : s₂.kinds.length ≤ count := by
            have hlen := congrArg List.length hst.kinds
            have hlen' := congrArg List.length hks
            rw [List.length_append] at hlen
            rw [List.length_cons] at hlen'
            omega
          obtain ⟨u, hu, hends⟩ := ih (hst.ready hready) hlen hs
          exact ⟨u, .head hfollows hu, hends⟩
    · rw [if_neg hsemi]
      exact ⟨t, .refl, .whole ht fun hk => hsemi (by simp [Token.isSymbol, hk])⟩

/-- A compound statement has a last element. -/
theorem compound_ends (h : s.Ready bound n) (hb : accept .beginWord s = .ok () s₁) :
    ∃ t, Relation.ReflTransGen (Follows bound depth) s₁ t ∧
      Ends bound depth t (compound bound (statement bound depth) s) := by
  obtain ⟨h₁, -, -⟩ := h.accept hb
  rw [compound_apply, hb]
  dsimp only
  split
  · next hend => exact ⟨s₁, .refl, .bare (by simpa [Token.isSymbol] using hend)⟩
  · cases hs : statement bound depth s₁ with
    | error e s' => exact ⟨s₁, .refl, .broken hs⟩
    | ok _ s₂ =>
      obtain ⟨us, st, hst⟩ := statement_reads _ _ _ h₁ hs
      have h₂ := hst.ready h₁
      exact sequence_ends h₂ h₂.length hs

theorem follows_rightUnique : Relator.RightUnique (Follows bound depth) := by
  rintro s t u ⟨s₁, hs, ht⟩ ⟨s₂, hs', hu⟩
  cases hs.symm.trans hs'
  cases ht.symm.trans hu
  rfl

/-- The last element is the only one behind which there is none. -/
theorem Element.eq_last {r : EStateM.Result Stop State Unit} (he : Element bound depth s t)
    (ht : Fails (statement bound depth t)) (hb : accept .beginWord s = .ok () s₁) {u : State}
    (hu : Relation.ReflTransGen (Follows bound depth) s₁ u) (hends : Ends bound depth u r) :
    t = u := by
  obtain ⟨s₂, hb', ht'⟩ := he
  cases hb.symm.trans hb'
  have hstuck : ∀ v, ¬ Follows bound depth t v := fun v ⟨_, hv, _⟩ => ht.ne_ok () hv
  rcases Relation.ReflTransGen.total_of_right_unique follows_rightUnique ht' hu with htu | hut
  · rcases htu.cases_head with rfl | ⟨v, hv, -⟩
    · rfl
    · exact absurd hv (hstuck v)
  · rcases hut.cases_head with rfl | ⟨v, hv, -⟩
    · rfl
    · exact absurd hv (hends.not_follows v)

end

/-- Statements have been read and emitted as a whole, but for what is left on the stack. -/
structure State.Completes (s : State) (n : Nat) (ts : List Token) (is : List Instr) (l : Nat)
    (us : List Ty) (s' : State) : Prop where
  leads : s.Leads ts is l s'
  marked : Marked n is l
  flows : Flows s.names is [] us
  labels : l ≤ ts.length

/-- Of the labels that have been allotted, which are no more than there were tokens, at least `k`
have not been marked. -/
def State.Owes (k : Nat) (s s' : State) : Prop :=
  ∃ is l, s'.code = s.code.grown is l ∧ (marksIn is).length + k ≤ l ∧ l ≤ s.tokens.length

/-- The reading of a statement broke off, inside or not. -/
structure State.Unfinished (n : Nat) (inside : Prop) (s : State) (e : Stop) (s' : State) :
    Prop where
  rejects : s.Rejects e s'
  owes : inside → s.Owes 1 s'
  completes : ¬ inside → ∃ ts is l us, s.Completes n ts is l us s'

section
variable {s s₁ s' : State} {bound j k l m n : Nat} {e : Stop} {is js : List Instr}
  {ts us : List Token} {vs ws : List Ty} {inside : Prop} {st : Stmt} {part : Part}
  {ks : List TokenKind}

theorem completes_nil : s.Completes n [] [] 0 [] s :=
  ⟨leads_nil, straight_nil.marked, flows_nil, Nat.le_refl _⟩

theorem State.Completes.trans (h : s.Completes n ts is l [] s₁)
    (h' : s₁.Completes (n + l) us js k vs s') :
    s.Completes n (ts ++ us) (is ++ js) (l + k) vs s' := by
  refine ⟨h.leads.trans h'.leads, h.marked.append h'.marked, ?_, ?_⟩
  · exact h.flows.append (h.leads.names ▸ h'.flows)
  · rw [List.length_append]
    exact Nat.add_le_add h.labels h'.labels

theorem State.Completes.ready (h : s.Completes n ts is l vs s') (hs : s.Ready bound n) :
    s'.Ready bound (n + l) := by
  refine ⟨h.leads.passes.ended hs.ended, ?_, ?_⟩
  · have hlen := hs.length
    rw [h.leads.passes.kinds, List.length_append] at hlen
    omega
  · rw [h.leads.code, CodeBuffer.labels_grown, hs.labels, UInt32.ofNat_add]

theorem ReadsStmt.completes (h : ReadsStmt part ks st n s s') :
    ∃ ts, s.Completes n ts (st.code s.names n) st.labels [] s' := by
  obtain ⟨ts, hlen, hl⟩ := leads_after h.kinds h.state
  exact ⟨ts, hl, marked_stmt s.names n st, flows_stmt h.typed,
    hlen.symm ▸ labels_le_length h.spells⟩

theorem State.Partway.completes (h : s.Partway ts s') :
    ∃ is vs, s.Completes n ts is 0 vs s' := by
  obtain ⟨is, hl, hstraight, hflows⟩ := h
  obtain ⟨vs, hvs⟩ := hflows []
  exact ⟨is, vs, hl, hstraight.marked, hvs, Nat.zero_le _⟩

theorem State.Breaks.unfinished (h : s.Breaks e s') (hi : ¬ inside) :
    s.Unfinished n inside e s' := by
  refine ⟨h.rejects, fun h => absurd h hi, fun _ => ?_⟩
  obtain ⟨ts, hts⟩ := h.partway
  obtain ⟨is, vs, hc⟩ := hts.completes (n := n)
  exact ⟨ts, is, 0, vs, hc⟩

theorem State.Owes.mono (h : s.Owes k s') (hj : j ≤ k) : s.Owes j s' := by
  obtain ⟨is, l, hc, hm, hl⟩ := h
  exact ⟨is, l, hc, by omega, hl⟩

/-- Labels that are owed where a reading goes on are owed from its beginning, with those of the
part before. -/
theorem State.Owes.behind (h' : s₁.Owes k s') (h : s.Leads ts is l s₁)
    (hm : (marksIn is).length + j ≤ l) (hl : l ≤ ts.length) : s.Owes (j + k) s' := by
  obtain ⟨js, m, hc, hm', hl'⟩ := h'
  refine ⟨is ++ js, l + m, ?_, ?_, ?_⟩
  · rw [hc, h.code, CodeBuffer.grown_grown]
  · rw [marksIn_append, List.length_append]
    omega
  · rw [h.passes.tokens, List.length_append]
    omega

theorem State.Completes.owes (h : s.Completes n ts is l vs s') : s.Owes 0 s' := by
  refine ⟨is, l, h.leads.code, (Nat.le_of_eq h.marked.length_marksIn), ?_⟩
  rw [h.leads.passes.tokens, List.length_append]
  exact Nat.le_add_right_of_le h.labels

/-- However a statement breaks off, it has not marked more labels than it allotted. -/
theorem State.Unfinished.owes_zero (h : s.Unfinished n inside e s') : s.Owes 0 s' := by
  by_cases hi : inside
  · exact (h.owes hi).mono (Nat.zero_le 1)
  · obtain ⟨ts, is, l, vs, hc⟩ := h.completes hi
    exact hc.owes

theorem State.Unfinished.congr {outside : Prop} (h : s.Unfinished n inside e s')
    (hi : outside ↔ inside) : s.Unfinished n outside e s' :=
  ⟨h.rejects, fun ho => h.owes (hi.1 ho), fun ho => h.completes fun hinside => ho (hi.2 hinside)⟩

/-- A statement that breaks off behind others. -/
theorem State.Unfinished.behind (h' : s₁.Unfinished (n + l) inside e s')
    (h : s.Completes n ts is l [] s₁) : s.Unfinished n inside e s' := by
  refine ⟨h'.rejects.behind ⟨ts, h.leads.passes.tokens.symm⟩, fun hi => ?_, fun hi => ?_⟩
  · have hm : (marksIn is).length + 0 ≤ l := Nat.le_of_eq h.marked.length_marksIn
    have howes := (h'.owes hi).behind h.leads hm h.labels
    rwa [Nat.zero_add] at howes
  · obtain ⟨us, js, k, vs, hc⟩ := h'.completes hi
    exact ⟨_, _, _, vs, h.trans hc⟩

end

/-- Wherever statements of the depth fail, they break off, inside or not. -/
def StatementsBreak (bound depth : Nat) : Prop :=
  ∀ s e s' n, s.Ready bound n → statement bound depth s = .error e s' →
    s.Unfinished n (BreaksInside bound depth s) e s'

section
variable {s s₁ s' t : State} {bound depth n : Nat} {e : Stop}

/-- The way to an element leads through whole statements. -/
theorem follows_completes (h : Relation.ReflTransGen (Follows bound depth) s t)
    (hs : s.Ready bound n) : ∃ ts is l, s.Completes n ts is l [] t := by
  induction h with
  | refl => exact ⟨[], [], 0, completes_nil⟩
  | @tail t u _ hu ih =>
    obtain ⟨ts, is, l, hc⟩ := ih
    obtain ⟨t₁, ht, ha⟩ := hu
    have hready := hc.ready hs
    obtain ⟨ks, st, hst⟩ := statement_reads _ _ _ hready ht
    obtain ⟨us, hst⟩ := hst.completes
    have hacc : t₁.Completes (n + l + st.labels) [t₁.current] [] 0 [] u :=
      ⟨accept_leads (hst.ready hready).ended ha, straight_nil.marked, flows_nil, Nat.zero_le _⟩
    exact ⟨_, _, _, hc.trans (hst.trans hacc)⟩

theorem element_completes (hs : s.Ready bound n) (hb : accept .beginWord s = .ok () s₁)
    (ht : Relation.ReflTransGen (Follows bound depth) s₁ t) :
    ∃ ts is l, s.Completes n ts is l [] t := by
  have hacc : s.Completes n [s.current] [] 0 [] s₁ :=
    ⟨accept_leads hs.ended hb, straight_nil.marked, flows_nil, Nat.zero_le _⟩
  obtain ⟨ts, is, l, hc⟩ := follows_completes ht (hacc.ready hs)
  exact ⟨_, _, _, hacc.trans hc⟩

/-- Statements that begin with the same word are of the same kind. -/
theorem statement_begin (hk : s.current.kind = .symbol .beginWord) :
    statement bound (depth + 1) s = compound bound (statement bound depth) s := by
  have hr := @statement_succ bound s depth
  simp only [hk, TokenKind.symbol.injEq, reduceCtorEq, false_and, false_or, exists_false,
    true_and] at hr
  rcases hr with hr | ⟨hk, -⟩
  · exact hr
  · exact absurd rfl (hk _ (by simp))

/-- What breaks off inside fails. -/
theorem BreaksInside.fails (h : BreaksInside bound depth s) (hs : s.Ready bound n) :
    Fails (statement bound depth s) := by
  induction h generalizing n with
  | loop _ hf => exact hf
  | branch _ hf => exact hf
  | @element depth s t he ht ih =>
    have hk := kind_of_element he
    obtain ⟨s₁, hb, hchain⟩ := id he
    obtain ⟨ts, is, l, hc⟩ := element_completes hs hb hchain
    have hfails := ih (hc.ready hs)
    obtain ⟨u, hu, hends⟩ := @compound_ends s s₁ bound depth n hs hb
    obtain rfl := he.eq_last hfails hb hu hends
    rw [statement_begin hk]
    -- The element that breaks off is the last, and the compound statement breaks off with it.
    generalize compound bound (statement bound depth) s = r at hends
    cases hends with
    | bare hend =>
      obtain ⟨y, hy, hk⟩ := ht.kind
      cases hend.symm.trans hk
      simp at hy
    | broken _ => exact fails_error _
    | whole hok _ => exact absurd hok (hfails.ne_ok ())

/-- No element but the last can break off inside. -/
theorem element_inside_iff {r : EStateM.Result Stop State Unit} (hs : s.Ready bound n)
    (hb : accept .beginWord s = .ok () s₁) (ht : Relation.ReflTransGen (Follows bound depth) s₁ t)
    (hends : Ends bound depth t r) :
    (∃ u, Element bound depth s u ∧ BreaksInside bound depth u) ↔ BreaksInside bound depth t := by
  constructor
  · rintro ⟨u, hu, hinside⟩
    obtain ⟨s₂, hb', hchain⟩ := id hu
    obtain ⟨us, js, k, hcu⟩ := element_completes hs hb' hchain
    rwa [← hu.eq_last (hinside.fails (hcu.ready hs)) hb ht hends]
  · exact fun hinside => ⟨t, ⟨s₁, hb, ht⟩, hinside⟩

/-- A compound statement breaks off inside if one of its elements does. -/
theorem compound_unfinished (hp : StatementsBreak bound depth) (hs : s.Ready bound n)
    (h : compound bound (statement bound depth) s = .error e s') :
    s.Unfinished n (∃ t, Element bound depth s t ∧ BreaksInside bound depth t) e s' := by
  cases hb : accept .beginWord s with
  | error e' s₁ =>
    rw [compound_apply, hb] at h
    cases h
    refine (accept_breaks hb).unfinished ?_
    rintro ⟨t, ⟨s₁, hok, -⟩, -⟩
    cases hb.symm.trans hok
  | ok _ s₁ =>
    obtain ⟨t, ht, hends⟩ := @compound_ends s s₁ bound depth n hs hb
    obtain ⟨ts, is, l, hc⟩ := element_completes hs hb ht
    have hready := hc.ready hs
    have honly := element_inside_iff hs hb ht hends
    rw [h] at hends
    generalize hr : (EStateM.Result.error e s' : EStateM.Result Stop State Unit) = r at hends
    cases hends with
    | bare hend => cases hr
    | broken hfail =>
      cases hr
      exact ((hp _ _ _ _ hready hfail).behind hc).congr honly
    | @whole t₁ hok hk =>
      obtain ⟨ks, st, hst⟩ := statement_reads _ _ _ hready hok
      obtain ⟨us, hst⟩ := hst.completes
      have hnot : ¬ BreaksInside bound depth t := fun hinside =>
        (hinside.fails hready).ne_ok () hok
      exact (((accept_breaks hr.symm).unfinished hnot).behind (hc.trans hst)).congr honly

/-- No element of a compound statement that was read breaks off inside. -/
theorem not_inside_of_compound (hs : s.Ready bound n)
    (h : compound bound (statement bound depth) s = .ok () s') :
    ¬ ∃ t, Element bound depth s t ∧ BreaksInside bound depth t := by
  rintro ⟨v, he, hinside⟩
  obtain ⟨s₁, hb, -⟩ := id he
  obtain ⟨t, ht, hends⟩ := @compound_ends s s₁ bound depth n hs hb
  have hlast := (element_inside_iff hs hb ht hends).1 ⟨v, he, hinside⟩
  obtain ⟨ts, is, l, hc⟩ := element_completes hs hb ht
  rw [h] at hends
  generalize hr : (EStateM.Result.ok () s' : EStateM.Result Stop State Unit) = r at hends
  cases hends with
  | bare hend =>
    obtain ⟨y, hy, hk⟩ := hlast.kind
    cases hend.symm.trans hk
    simp at hy
  | broken _ => cases hr
  | whole hok _ => exact (hlast.fails (hc.ready hs)).ne_ok () hok

/-- A condition between two words, with what is emitted at the first of them. -/
theorem condition_leads {first last sym : Symbol} {is : List Instr} {l : Nat} {s₂ s₃ : State}
    (hs : s.Ready bound n) (hf : accept first s = .ok () s₁)
    (hc : condition bound sym (s₁.after 0 is l) = .ok () s₂) (hl : accept last s₂ = .ok () s₃) :
    s₃.Ready bound (n + l) ∧ ∃ ts, ∃ c : Expr, c.HasType s.names .boolean ∧ 2 ≤ ts.length ∧
      s.Leads ts (is ++ c.code s.names) l s₃ := by
  obtain ⟨h₃, ks, c, -, hty, hk, hs₃⟩ := condition_accepted hs hf hc hl
  have hk' : s.kinds = (.symbol first :: (ks ++ [.symbol last])) ++ s₃.kinds := by
    rw [hk]
    simp
  have hlen : (.symbol first :: (ks ++ [.symbol last]) : List TokenKind).length =
      ks.length + 2 := by simp
  obtain ⟨ts, hts, hleads⟩ := leads_after hk' (hlen ▸ hs₃)
  exact ⟨h₃, ts, c, hty, by omega, hleads⟩

/-- From its first word on a loop owes the label behind it. -/
theorem loop_owes {ts : List Token} {s₂ : State}
    (h : s.Leads [s.current] [.label (labelOf n)] 2 s₁) (h' : s₁.Partway ts s₂) : s.Owes 1 s₂ := by
  obtain ⟨is, hl, hstraight, -⟩ := h'
  refine ⟨_, _, (h.trans hl).code, ?_, ?_⟩
  · simp [hstraight.marksIn, Instr.mark?]
  · rw [h.passes.tokens]
    simp [State.tokens]

theorem loop_unfinished (hp : StatementsBreak bound depth) (hs : s.Ready bound n)
    (hk : s.current.kind = .symbol .whileWord)
    (h : loop bound (statement bound depth) s = .error e s') : s.Rejects e s' ∧ s.Owes 1 s' := by
  have hks := hs.ended.kinds_eq (by simp [hk])
  have hw : accept .whileWord s = .ok () s.advance := by
    rw [accept_of_kinds (hk ▸ hks), State.after_one]
  have hhead : s.Leads [s.current] [.label (labelOf n)] 2
      (s.advance.after 0 [.label (labelOf n)] 2) := by
    simpa using (accept_leads hs.ended hw).trans (leads_emit [.label (labelOf n)] 2)
  have hsuffix : s.advance.tokens <:+ s.tokens := State.tokens_advance s
  have hended := hhead.passes.ended hs.ended
  rw [loop_apply hs, hw] at h
  dsimp only at h
  cases hc : condition bound .whileWord (s.advance.after 0 [.label (labelOf n)] 2) with
  | error e' s₂ =>
    rw [hc] at h
    cases h
    have hb := condition_breaks hended hc
    obtain ⟨ts, hpart⟩ := hb.partway
    exact ⟨hb.rejects.behind hsuffix, loop_owes hhead hpart⟩
  | ok _ s₂ =>
    obtain ⟨ts, hpart⟩ := condition_partway hended hc
    rw [hc] at h
    dsimp only at h
    cases hd : accept .doWord s₂ with
    | error e' s₃ =>
      rw [hd] at h
      cases h
      have hb := hpart.breaks (accept_breaks hd)
      obtain ⟨us, hpart'⟩ := hb.partway
      exact ⟨hb.rejects.behind hsuffix, loop_owes hhead hpart'⟩
    | ok _ s₃ =>
      obtain ⟨h₃, ts, c, hty, hlen, hleads⟩ := condition_leads hs hw hc hd
      rw [hd] at h
      simp only [loopRest] at h
      cases hbody : statement bound depth (s₃.after 0 [.jumpIfFalse (labelOf (n + 1))] 0) with
      | ok _ s₄ => simp [hbody] at h
      | error e' s₄ =>
        rw [hbody] at h
        cases h
        have hb := hp _ _ _ _ h₃.emit hbody
        have hl := hleads.trans (leads_emit [.jumpIfFalse (labelOf (n + 1))] 0)
        refine ⟨hb.rejects.behind ⟨_, hl.passes.tokens.symm⟩, hb.owes_zero.behind hl ?_ ?_⟩
        · simp [(straight_expr c).marksIn, Instr.mark?]
        · rw [List.length_append]
          omega

theorem choiceHead_apply : choiceHead bound s = match accept .ifWord s with
    | .error e s' => .error e s'
    | .ok () s₁ => match condition bound .ifWord s₁ with
      | .error e s' => .error e s'
      | .ok () s₂ => accept .thenWord s₂ := by
  simp only [choiceHead, bind_apply]
  cases accept .ifWord s with
  | error e s' => rfl
  | ok _ s₁ =>
    dsimp only
    cases condition bound .ifWord s₁ <;> rfl

theorem choice_of_head (hs : s.Ready bound n) {p : Production Unit} :
    choice bound p s = match choiceHead bound s with
      | .error e s' => .error e s'
      | .ok () s₃ => choiceRest p n s₃ := by
  rw [choice_apply hs, choiceHead_apply]
  cases accept .ifWord s with
  | error e s' => rfl
  | ok _ s₁ =>
    dsimp only
    cases condition bound .ifWord s₁ with
    | error e s' => rfl
    | ok _ s₂ => rfl

theorem choiceHead_breaks (hs : s.Ended) (h : choiceHead bound s = .error e s') :
    s.Breaks e s' := by
  rcases bind_eq_error.1 h with h₁ | ⟨_, s₁, h₁, h⟩
  · exact accept_breaks h₁
  have hacc : s.Partway [s.current] s₁ := accept_partway hs h₁
  have hs₁ := hacc.passes.ended hs
  rcases bind_eq_error.1 h with h₂ | ⟨_, s₂, h₂, h₃⟩
  · exact hacc.breaks (condition_breaks hs₁ h₂)
  obtain ⟨ts, hpart⟩ := condition_partway hs₁ h₂
  exact (hacc.trans hpart).breaks (accept_breaks h₃)

theorem choiceHead_leads (hs : s.Ready bound n) (h : choiceHead bound s = .ok () s₁) :
    s₁.Ready bound n ∧ ∃ ts, ∃ c : Expr, 2 ≤ ts.length ∧ s.Leads ts (c.code s.names) 0 s₁ := by
  obtain ⟨_, t₁, h₁, h⟩ := bind_eq_ok.1 h
  obtain ⟨_, t₂, h₂, h₃⟩ := bind_eq_ok.1 h
  have hcond : condition bound .ifWord (t₁.after 0 [] 0) = .ok () t₂ := by
    rwa [State.after_zero]
  obtain ⟨hready, ts, c, -, hlen, hleads⟩ := condition_leads hs h₁ hcond h₃
  exact ⟨hready, ts, c, hlen, hleads⟩

/-- A choice that breaks off behind its condition owes a label. -/
theorem choiceRest_unfinished (hp : StatementsBreak bound depth) (hs : s.Ready bound n)
    (h : choiceRest (statement bound depth) n s = .error e s') {s₀ : State} {ts : List Token}
    {c : Expr} (hlen : 2 ≤ ts.length) (hleads : s₀.Leads ts (c.code s₀.names) 0 s) :
    s₀.Rejects e s' ∧ s₀.Owes 1 s' := by
  have hbranch := hleads.trans (leads_emit [.jumpIfFalse (labelOf n)] 2)
  rw [choiceRest] at h
  cases hbody : statement bound depth (s.after 0 [.jumpIfFalse (labelOf n)] 2) with
  | error e' s₁ =>
    rw [hbody] at h
    cases h
    have hb := hp _ _ _ _ hs.emit hbody
    refine ⟨hb.rejects.behind ⟨_, hbranch.passes.tokens.symm⟩, hb.owes_zero.behind hbranch ?_ ?_⟩
    · simp [(straight_expr c).marksIn, Instr.mark?]
    · rw [List.length_append]
      omega
  | ok _ s₁ =>
    rw [hbody] at h
    obtain ⟨ks, a, ha⟩ := statement_reads _ _ _ hs.emit hbody
    obtain ⟨us, hc⟩ := ha.completes
    have h₁ := hc.ready hs.emit
    dsimp only at h
    split at h
    · next helse =>
      have hk : s₁.current.kind = .symbol .elseWord := by simpa [Token.isSymbol] using helse
      have hk₂ : s₁.kinds = [.symbol .elseWord] ++
          (s₁.after 1 [.jump (labelOf (n + 1)), .label (labelOf n)] 0).kinds := by
        rw [← hk]
        exact h₁.ended.kinds_eq (by simp [hk])
      obtain ⟨vs, -, helse⟩ := leads_after hk₂ rfl
      have hother := (hbranch.trans hc.leads).trans helse
      split at h
      · next hfail =>
        cases h
        have hb := hp _ _ _ _ (h₁.after hk₂ rfl) hfail
        refine ⟨hb.rejects.behind ⟨_, hother.passes.tokens.symm⟩, hb.owes_zero.behind hother ?_ ?_⟩
        · have hmarks := hc.marked.length_marksIn
          simp only [marksIn_append, List.length_append, (straight_expr c).marksIn, hmarks]
          simp [Instr.mark?]
          omega
        · have hlabels := hc.labels
          simp only [List.length_append]
          omega
      · cases h
    · cases h

/-- Wherever a statement fails, it breaks off, inside or not. -/
theorem statement_unfinished : StatementsBreak bound depth := by
  induction depth with
  | zero =>
    intro s e s' n _ h
    have hr : Refuses s.current.span s (statement bound 0 s) := by simp [statement]
    refine (hr.breaks h).unfinished fun hinside => ?_
    cases hinside
  | succ depth ih =>
    intro s e s' n hs h
    have hfails : Fails (statement bound (depth + 1) s) := ⟨e, s', h⟩
    -- What does not begin with one of three words does not break off inside.
    have hnot : (∀ y ∈ [Symbol.beginWord, .ifWord, .whileWord], s.current.kind ≠ .symbol y) →
        ¬ BreaksInside bound (depth + 1) s := by
      intro hne hinside
      obtain ⟨y, hy, hk⟩ := hinside.kind
      exact hne y hy hk
    rcases @statement_succ bound s depth with
      ⟨x, hk, hst⟩ | ⟨hk, hst⟩ | ⟨hk, hst⟩ | ⟨hk, hst⟩ | ⟨hne, hr⟩
    · exact (simple_breaks hs.ended hk (hst ▸ h)).unfinished (hnot (by simp [hk]))
    · have hc := compound_unfinished ih hs (hst ▸ h)
      refine hc.congr ⟨?_, ?_⟩
      · intro hinside
        cases hinside with
        | loop hw _ => cases hk.symm.trans hw
        | branch hg _ => cases hk.symm.trans (kind_of_choiceHead hg)
        | element he ht => exact ⟨_, he, ht⟩
      · rintro ⟨t, he, ht⟩
        exact .element he ht
    · have hchoice := hst ▸ h
      rw [choice_of_head hs] at hchoice
      cases hhead : choiceHead bound s with
      | error e' s₁ =>
        rw [hhead] at hchoice
        cases hchoice
        refine (choiceHead_breaks hs.ended hhead).unfinished fun hinside => ?_
        cases hinside with
        | loop hw _ => cases hk.symm.trans hw
        | branch hg _ => cases hhead.symm.trans hg
        | element he _ => cases hk.symm.trans (kind_of_element he)
      | ok _ s₁ =>
        rw [hhead] at hchoice
        obtain ⟨hready, ts, c, hlen, hleads⟩ := choiceHead_leads hs hhead
        obtain ⟨hrejects, howes⟩ := choiceRest_unfinished ih hready hchoice hlen hleads
        exact ⟨hrejects, fun _ => howes, fun hinside => absurd (.branch hhead hfails) hinside⟩
    · obtain ⟨hrejects, howes⟩ := loop_unfinished ih hs hk (hst ▸ h)
      exact ⟨hrejects, fun _ => howes, fun hinside => absurd (.loop hk hfails) hinside⟩
    · exact (hr.breaks h).unfinished (hnot hne)

end
end Grammar
end MiniPascal
