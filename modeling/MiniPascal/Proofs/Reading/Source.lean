import MiniPascal.Compile
import MiniPascal.Proofs.Reading.Program
import MiniPascal.Proofs.Scan.Faults
import MiniPascal.Proofs.Tree.Labels

/-! Texts and the trees they denote. A text compiles if and only if it denotes a tree whose names
and types are in order, and what it compiles to is the program of the tree. -/
namespace MiniPascal

/-- The tokens up to and including the first point. -/
def sentence : List TokenKind → List TokenKind
  | [] => []
  | k :: ks => if k = .symbol .dot then [k] else k :: sentence ks

/-- The kinds of the tokens of a text. -/
def kindsOf (source : String) : List TokenKind := (tokenize source).1.map (·.kind)

/-- The tree is what the text says, up to its first point. -/
structure Denotes (source : String) (a : Tree) : Prop where
  spells : a.Spells (sentence (kindsOf source))
  nearest : a.body.NearestElse

section
variable {ts us ks : List TokenKind} {e : Expr} {es : List Expr} {st : Stmt} {a : Tree}
  {vs : List (String × Ty)} {level : Level} {part : Part}

theorem symbol_ne_dot (c : Connective) : c.symbol ≠ .dot := by cases c <;> simp [Connective.symbol]

theorem dot_not_mem_expr (h : e.Spells level ts) : .symbol .dot ∉ ts := by
  induction h with
  | name => simp
  | ofFactor _ ih | ofTerm _ ih | ofSum _ ih => exact ih
  | constant hv =>
    intro hk
    rw [List.mem_singleton] at hk
    subst hk
    cases hv
  | not _ ih | brackets _ ih => simpa using ih
  | signed minus _ ih => cases minus <;> simpa [signSymbol] using ih
  | multiply _ _ _ ihl ihr | add _ _ _ ihl ihr | compare _ _ _ ihl ihr =>
    simpa [ihl, ihr] using (symbol_ne_dot _).symm

theorem dot_not_mem_exprs (h : Expr.SpellsAll ts es) : .symbol .dot ∉ ts := by
  induction h with
  | one he => exact dot_not_mem_expr he
  | more he _ ih => simpa [ih] using dot_not_mem_expr he

theorem dot_not_mem_stmt (h : st.Spells part ts) : .symbol .dot ∉ ts := by
  induction h with
  | empty | writeNothing => simp
  | block _ ih | last _ ih | lastSemicolon _ ih | ofCompound _ ih => simpa using ih
  | more _ _ iha ihb => simp [iha, ihb]
  | assign _ he => simpa using dot_not_mem_expr he
  | write _ hes => simpa using dot_not_mem_exprs hes
  | ifThen hc _ ih | loop hc _ ih => simpa [ih] using dot_not_mem_expr hc
  | ifElse hc _ _ iha ihb => simpa [iha, ihb] using dot_not_mem_expr hc

theorem dot_not_mem_declaration (x : String) (xs : List String) (n : String) :
    .symbol .dot ∉ declarationTokens x xs n := by
  simp [declarationTokens, nameTokens]

theorem dot_not_mem_variables (h : SpellsVariables ts vs) : .symbol .dot ∉ ts := by
  induction h with
  | one x xs => exact dot_not_mem_declaration x xs _
  | more x xs _ _ ih => simp [ih, dot_not_mem_declaration]

theorem sentence_append (h : .symbol .dot ∉ ts) :
    sentence (ts ++ .symbol .dot :: ks) = ts ++ [.symbol .dot] := by
  induction ts with
  | nil => simp [sentence]
  | cons k ts ih =>
    simp only [List.mem_cons, not_or] at h
    rw [List.cons_append, sentence, if_neg (Ne.symm h.1), ih h.2, List.cons_append]

theorem sentence_prefix (ks : List TokenKind) : ∃ rest, ks = sentence ks ++ rest := by
  induction ks with
  | nil => exact ⟨[], rfl⟩
  | cons k ks ih =>
    obtain ⟨rest, hr⟩ := ih
    by_cases hk : k = .symbol .dot
    · exact ⟨ks, by simp [sentence, hk]⟩
    · refine ⟨rest, ?_⟩
      rw [sentence, if_neg hk, List.cons_append, ← hr]

/-- A program has one point, at its end. -/
theorem ends_with_dot (h : a.Spells ts) : ∃ us, ts = us ++ [.symbol .dot] ∧ .symbol .dot ∉ us := by
  cases h with
  | @plain vs st x hs =>
    refine ⟨headingTokens x ++ vs, by simp, ?_⟩
    simp [headingTokens, dot_not_mem_stmt hs]
  | @declaring vs us ws st x hv hs =>
    refine ⟨headingTokens x ++ .symbol .varWord :: (us ++ vs), by simp, ?_⟩
    simp [headingTokens, dot_not_mem_stmt hs, dot_not_mem_variables hv]

/-- The tokens of a tree are the sentence of any text that begins with them. -/
theorem sentence_of_spells (h : a.Spells ts) : sentence (ts ++ ks) = ts := by
  obtain ⟨us, rfl, hus⟩ := ends_with_dot h
  rw [List.append_assoc, List.singleton_append, sentence_append hus]

end

section
variable {source : String} {p : Program} {s : Grammar.State} {a b : Tree} {ts : List TokenKind}

theorem isFatal_lexical (span : Span) (f : LexicalFault) :
    (f.problem span).code.isFatal = false := by
  cases f <;> rfl

theorem foldlM_push (log : ProblemLog) (es : List LexicalError) :
    (es.map (·.problem)).foldlM ProblemLog.push log =
      .ok ⟨log.problems ++ es.map (·.problem)⟩ := by
  induction es generalizing log with
  | nil => simp [pure, Except.pure]
  | cons e es ih =>
    have hpush : log.push e.problem = .ok ⟨log.problems ++ [e.problem]⟩ := by
      simp [ProblemLog.push, LexicalError.problem, isFatal_lexical]
    rw [List.map_cons, List.foldlM_cons, hpush]
    exact (ih _).trans (by simp)

/-- The errors of a text are always collected. -/
theorem Parse.log_eq (q : Parse) : q.log = .ok ⟨q.errors.map (·.problem)⟩ :=
  foldlM_push .empty q.errors

/-- A program comes from a complete parse without errors. -/
theorem compile_eq_ok_iff_ofSource : compile source = .ok p ↔
    (Parse.ofSource source).stop = none ∧ (Parse.ofSource source).errors = [] ∧
      (Parse.ofSource source).code.finish = .ok p := by
  simp only [compile, Parse.log_eq]
  cases hstop : (Parse.ofSource source).stop with
  | some stop => cases stop <;> simp
  | none =>
    cases herr : (Parse.ofSource source).errors with
    | cons e es => simp
    | nil =>
      simp only [List.map_nil, List.isEmpty_nil, if_true, true_and]
      cases (Parse.ofSource source).code.finish with
      | ok q =>
        constructor
        · intro h
          cases h
          rfl
        · intro h
          cases h
          rfl
      | error d =>
        constructor
        · intro h
          cases h
        · intro h
          cases h

/-- The label count of a tree decides whether its code can be completed. -/
theorem Grammar.State.Emitted.finish_eq_ok_iff (h : s.Emitted a) :
    s.code.finish = .ok p ↔ a.body.labels < UInt32.size ∧ p = a.program := by
  rw [CodeBuffer.finish_eq_ok_iff h.code, h.labels, a.marked_code.isPerm_iff, h.slots]
  rfl

/-- What a parser sees of a text. -/
def seen (source : String) : List Reading := Reading.meaningful (readings source)

/-- The state in which reading a text as a program begins. -/
def startOf (source : String) : Grammar.State :=
  let tokens := Reading.tokens (seen source)
  ⟨tokens.headD ⟨.endOfText, ⟨0, 0⟩⟩, tokens.tail, 0, .initial, .empty⟩

theorem kinds_startOf : (startOf source).kinds = (seen source).map (·.token.kind) := by
  have hlast : ((seen source).map (·.token.kind)).getLast? = some .endOfText :=
    Reading.getLast?_meaningful Reading.getLast?_all
  simp only [startOf, Grammar.State.kinds, Reading.tokens]
  cases h : seen source with
  | nil => simp [h] at hlast
  | cons r rs => simp

theorem ended_startOf : (startOf source).Ended := by
  rw [Grammar.State.Ended, kinds_startOf]
  exact Reading.getLast?_meaningful Reading.getLast?_all

theorem declared_startOf : (startOf source).Declared [] := Grammar.declared_initial

/-- Reading the text as a program. -/
def readProgram (source : String) : EStateM.Result Grammar.Stop Grammar.State Unit :=
  Grammar.program (startOf source).kinds.length (startOf source)

theorem ofTokens_seen :
    Parse.ofTokens ((Reading.tokens (seen source)).headD ⟨.endOfText, ⟨0, 0⟩⟩)
      (Reading.tokens (seen source)).tail = match readProgram source with
        | .ok () s => (none, s)
        | .error e s => (some e, s) := by
  have hlen : (startOf source).kinds.length = (Reading.tokens (seen source)).tail.length + 1 := by
    simp [startOf, Grammar.State.kinds]
  rw [readProgram, hlen]
  rfl

/-- The errors of the readings up to the token under consideration. -/
def errorsAt (source : String) (s : Grammar.State) : List LexicalError :=
  Reading.allErrors ((seen source).take ((seen source).length - s.ahead.length))

theorem ofSource_eq : Parse.ofSource source = match readProgram source with
    | .ok () s => ⟨none, s.current, errorsAt source s, s.code⟩
    | .error e s => ⟨some e, s.current, errorsAt source s, s.code⟩ := by
  have h : ∀ r, Parse.ofTokens ((Reading.tokens (seen source)).headD ⟨.endOfText, ⟨0, 0⟩⟩)
      (Reading.tokens (seen source)).tail = r →
      Parse.ofSource source = ⟨r.1, r.2.current, errorsAt source r.2, r.2.code⟩ := by
    rintro _ rfl
    rfl
  rw [h _ ofTokens_seen]
  cases readProgram source <;> rfl

/-- A program comes from a complete reading without errors. -/
theorem compile_eq_ok_iff_readProgram : compile source = .ok p ↔
    ∃ s, readProgram source = .ok () s ∧ errorsAt source s = [] ∧ s.code.finish = .ok p := by
  rw [compile_eq_ok_iff_ofSource, ofSource_eq]
  cases readProgram source <;> simp

/-- The tokens that were passed without errors are those of the text. -/
theorem kindsOf_eq_append {s : Grammar.State} (hk : (startOf source).kinds = ts ++ s.kinds)
    (he : errorsAt source s = []) : ∃ rest, kindsOf source = ts ++ rest := by
  rw [kinds_startOf] at hk
  have hlen : (seen source).length = ts.length + (s.ahead.length + 1) := by
    simpa [Grammar.State.kinds] using congrArg List.length hk
  have hn : (seen source).length - s.ahead.length = ts.length + 1 := by omega
  rw [errorsAt, hn] at he
  have htake : (seen source).take (ts.length + 1) = (readings source).take (ts.length + 1) :=
    Reading.take_meaningful (fun r hr => Reading.clear_all hr) (by rw [← seen]; omega) he
  have hkinds : kindsOf source = (readings source).map (·.token.kind) := by
    simp [kindsOf, tokenize, Reading.tokens]
  have hts : (kindsOf source).take ts.length = ts := calc
    (kindsOf source).take ts.length
      = (((readings source).take (ts.length + 1)).map (·.token.kind)).take ts.length := by
        rw [hkinds, List.map_take, List.take_take, Nat.min_eq_left (Nat.le_succ _)]
    _ = ((seen source).map (·.token.kind)).take ts.length := by
        rw [← htake, List.map_take, List.take_take, Nat.min_eq_left (Nat.le_succ _)]
    _ = ts := by rw [hk, List.take_left]
  refine ⟨(kindsOf source).drop ts.length, ?_⟩
  have hsplit := List.take_append_drop ts.length (kindsOf source)
  rw [hts] at hsplit
  exact hsplit.symm

/-- A text without errors is seen as it is. -/
theorem kinds_startOf_of_errors_nil (h : (tokenize source).2 = []) :
    (startOf source).kinds = kindsOf source := by
  have hseen : seen source = readings source :=
    Reading.meaningful_of_errors_nil (fun r hr => Reading.clear_all hr) h
  rw [kinds_startOf, hseen]
  simp [kindsOf, tokenize, Reading.tokens]

theorem errorsAt_of_errors_nil (h : (tokenize source).2 = []) : errorsAt source s = [] := by
  have hseen : seen source = readings source :=
    Reading.meaningful_of_errors_nil (fun r hr => Reading.clear_all hr) h
  rw [errorsAt, hseen]
  simp only [tokenize, Reading.allErrors, List.flatMap_eq_nil_iff] at h ⊢
  intro r hr
  exact h r (List.mem_of_mem_take hr)

/-- What compiles denotes a tree in order, whose program it compiles to. -/
theorem denotes_of_compile (h : compile source = .ok p) :
    ∃ a, Denotes source a ∧ a.WellTyped ∧ a.body.labels < UInt32.size ∧ p = a.program := by
  obtain ⟨s, hr, he, hf⟩ := compile_eq_ok_iff_readProgram.1 h
  obtain ⟨ts, a, hs, hn, ht, hk, hem⟩ :=
    Grammar.program_reads declared_startOf ended_startOf (Nat.le_refl _) hr
  obtain ⟨rest, hrest⟩ := kindsOf_eq_append hk he
  refine ⟨a, ⟨?_, hn⟩, ht, hem.finish_eq_ok_iff.1 hf⟩
  rw [hrest, sentence_of_spells hs]
  exact hs

/-- Whatever tree a text that compiles denotes, it is in order and has the same program. -/
theorem program_of_denotes (h : compile source = .ok p) (ha : Denotes source a) :
    a.WellTyped ∧ a.body.labels < UInt32.size ∧ p = a.program := by
  obtain ⟨s, hr, he, hf⟩ := compile_eq_ok_iff_readProgram.1 h
  obtain ⟨ts, b, hs, hn, ht, hk, hem⟩ :=
    Grammar.program_reads declared_startOf ended_startOf (Nat.le_refl _) hr
  obtain ⟨rest, hrest⟩ := kindsOf_eq_append hk he
  have hts : a.Spells ts := by
    have hsp := ha.spells
    rwa [hrest, sentence_of_spells hs] at hsp
  have hdec := Grammar.program_decides declared_startOf ended_startOf (Nat.le_refl _) hts
    ha.nearest hk
  by_cases hty : a.WellTyped
  · obtain ⟨s', hr', hem', -⟩ := hdec.1 hty
    rw [readProgram, hr'] at hr
    cases hr
    exact ⟨hty, hem'.finish_eq_ok_iff.1 hf⟩
  · exact absurd hr ((hdec.2 hty).ne_ok ())

/-- Without errors, a tree in order that the text denotes is what the text compiles to. -/
theorem compile_of_denotes (he : (tokenize source).2 = []) (ha : Denotes source a)
    (ht : a.WellTyped) (hl : a.body.labels < UInt32.size) : compile source = .ok a.program := by
  have hkinds := kinds_startOf_of_errors_nil he
  obtain ⟨rest, hrest⟩ := sentence_prefix (kindsOf source)
  obtain ⟨k, ks, rfl⟩ : ∃ k ks, rest = k :: ks := by
    cases rest with
    | cons k ks => exact ⟨k, ks, rfl⟩
    | nil =>
      obtain ⟨us, hus, -⟩ := ends_with_dot ha.spells
      have hlast : (startOf source).kinds.getLast? = some .endOfText := ended_startOf
      rw [hkinds, hrest, List.append_nil, hus] at hlast
      simp at hlast
  have hdec := Grammar.program_decides declared_startOf ended_startOf (Nat.le_refl _) ha.spells
    ha.nearest (hkinds.trans hrest)
  obtain ⟨s, hr, hem, -⟩ := hdec.1 ht
  exact compile_eq_ok_iff_readProgram.2
    ⟨s, hr, errorsAt_of_errors_nil he, hem.finish_eq_ok_iff.2 ⟨hl, rfl⟩⟩

end
end MiniPascal
