import MiniPascal.Proofs.Reading.Progress
import MiniPascal.Proofs.Reading.Source
import MiniPascal.Proofs.Scan.Errors

/-! What is reported of a text. Reading it as a program meets the errors before the token at which
it stops and no others, and reports each of them once, in order, the error it stopped for last. -/
namespace MiniPascal

namespace Reading

/-- Each error lies before the token of its reading and behind those of the readings before. -/
structure Spread (rs : List Reading) : Prop where
  before : ∀ r ∈ rs, ∀ e ∈ r.errors, e.span.offset < r.token.span.offset
  behind : rs.Pairwise fun r u => r.token.span.offset ≤ u.token.span.offset ∧
    ∀ e ∈ u.errors, r.token.span.offset ≤ e.span.offset

/-- The readings begin at an offset. -/
def From (n : Nat) (rs : List Reading) : Prop :=
  ∀ r ∈ rs, n ≤ r.token.span.offset ∧ ∀ e ∈ r.errors, n ≤ e.span.offset

variable {n k : Nat} {cs : List Char} {r m : Reading} {rs ms : List Reading}

theorem From.of_le (h : From n rs) (hk : k ≤ n) : From k rs := by
  intro r hr
  obtain ⟨ht, he⟩ := h r hr
  exact ⟨Nat.le_trans hk ht, fun e hmem => Nat.le_trans hk (he e hmem)⟩

theorem From.cons (h : From n rs) (hr : r.Reports k) (hk : k ≤ n) : From k (r :: rs) := by
  intro u hu
  rcases List.mem_cons.1 hu with rfl | hu
  · exact ⟨hr.start, fun e he => (hr.within e he).1⟩
  · exact h.of_le hk u hu

/-- A token that a parser sees in front of others. -/
theorem Spread.cons (h : Spread rs) (hf : From n rs) (hr : r.Reports k)
    (hm : r.token.kind.isMeaningful) (hn : r.token.span.offset ≤ n) : Spread (r :: rs) := by
  refine ⟨fun u hu => ?_, .cons (fun u hu => ?_) h.behind⟩
  · rcases List.mem_cons.1 hu with rfl | hu
    · exact hr.before hm
    · exact h.before u hu
  · obtain ⟨ht, he⟩ := hf u hu
    exact ⟨Nat.le_trans hn ht, fun e hmem => Nat.le_trans hn (he e hmem)⟩

/-- A token that a parser does not see leaves its errors to the one behind it. -/
theorem Spread.merge (h : Spread (m :: ms)) (hf : From n (m :: ms)) (hr : r.Reports k)
    (hn : r.token.span.offset < n) :
    Spread ({ m with errors := r.errors ++ m.errors } :: ms) := by
  obtain ⟨hfirst, hrest⟩ := List.pairwise_cons.1 h.behind
  refine ⟨fun u hu => ?_, .cons hfirst hrest⟩
  rcases List.mem_cons.1 hu with rfl | hu
  · intro e he
    rcases List.mem_append.1 he with he | he
    · have hlast := (hr.within e he).2
      have htoken := (hf m List.mem_cons_self).1
      change e.span.offset < m.token.span.offset
      omega
    · exact h.before m List.mem_cons_self e he
  · exact h.before u (List.mem_cons_of_mem m hu)

theorem From.merge (hf : From n (m :: ms)) (hr : r.Reports k) (hk : k ≤ n) :
    From k ({ m with errors := r.errors ++ m.errors } :: ms) := by
  intro u hu
  rcases List.mem_cons.1 hu with rfl | hu
  · obtain ⟨ht, he⟩ := hf.of_le hk m List.mem_cons_self
    refine ⟨ht, fun e hmem => ?_⟩
    rcases List.mem_append.1 hmem with hmem | hmem
    · exact (hr.within e hmem).1
    · exact he e hmem
  · exact hf.of_le hk u (List.mem_cons_of_mem m hu)

theorem exists_meaningful_cons (n : Nat) (cs : List Char) :
    ∃ m ms, meaningful (all n cs) = m :: ms := by
  have hlast : ((meaningful (all n cs)).map (·.token.kind)).getLast? = some .endOfText :=
    getLast?_meaningful getLast?_all
  cases h : meaningful (all n cs) with
  | nil => simp [h] at hlast
  | cons m ms => exact ⟨m, ms, rfl⟩

/-- What a parser sees of a text reports all of its errors, each before the token that is next. -/
theorem meaningful_spread (n : Nat) (cs : List Char) :
    Spread (meaningful (all n cs)) ∧ From n (meaningful (all n cs)) ∧
      allErrors (meaningful (all n cs)) = allErrors (all n cs) := by
  induction n, cs using all.induct with
  | case1 n cs step hend =>
    have hm : (next n cs).1.token.kind.isMeaningful := by
      have hkind : (next n cs).1.token.kind = .endOfText := eq_of_beq hend
      rw [hkind]
      rfl
    have hr := next_reports n cs
    have hnone : From (next n cs).1.token.span.offset [] := fun r hmem => by cases hmem
    rw [all_of_end hend, meaningful, if_pos hm, meaningful]
    exact ⟨.cons ⟨by simp, .nil⟩ hnone hr hm (Nat.le_refl _), hnone.cons hr hr.start, rfl⟩
  | case2 n cs step hend ih =>
    have hnot : (next n cs).1.token.isEnd = false := Bool.eq_false_iff.2 hend
    obtain ⟨hspread, hfrom, herrors⟩ := ih
    have hr := next_reports n cs
    have hstop := offset_lt_stop hnot
    have hk : n ≤ (next n cs).1.token.stop := Nat.le_trans hr.start (Nat.le_of_lt hstop)
    rw [all_of_not_end hnot, meaningful]
    by_cases hm : (next n cs).1.token.kind.isMeaningful
    · rw [if_pos hm]
      refine ⟨hspread.cons hfrom hr hm (Nat.le_of_lt hstop), hfrom.cons hr hk, ?_⟩
      exact congrArg ((next n cs).1.errors ++ ·) herrors
    · rw [if_neg hm]
      obtain ⟨m, ms, hms⟩ := exists_meaningful_cons (next n cs).1.token.stop (next n cs).2
      have hms' : meaningful (all step.1.token.stop step.2) = m :: ms := hms
      rw [hms'] at hspread hfrom herrors
      rw [hms]
      refine ⟨hspread.merge hfrom hr hstop, hfrom.merge hr hk, ?_⟩
      have hsplit : allErrors (m :: ms) = m.errors ++ allErrors ms := rfl
      change ((next n cs).1.errors ++ m.errors) ++ allErrors ms = _
      rw [List.append_assoc, ← hsplit, herrors]
      rfl

/-- The errors before a token are those of the readings up to it. -/
theorem Spread.filter_errors {qs : List Reading} (h : Spread (qs ++ m :: ms)) :
    (allErrors (qs ++ m :: ms)).filter (·.span.offset < m.token.span.offset) =
      allErrors (qs ++ [m]) := by
  have hbehind := h.behind
  rw [List.pairwise_append, List.pairwise_cons] at hbehind
  obtain ⟨-, ⟨hlater, -⟩, hearlier⟩ := hbehind
  have hkept : ∀ e ∈ allErrors (qs ++ [m]),
      decide (e.span.offset < m.token.span.offset) = true := by
    intro e he
    obtain ⟨r, hr, her⟩ := List.mem_flatMap.1 he
    rw [decide_eq_true_iff]
    rcases List.mem_append.1 hr with hr | hr
    · have hown := h.before r (List.mem_append_left _ hr) e her
      exact Nat.lt_of_lt_of_le hown (hearlier r hr m List.mem_cons_self).1
    · obtain rfl := List.mem_singleton.1 hr
      exact h.before r (by simp) e her
  have hlost : ∀ e ∈ allErrors ms, ¬ decide (e.span.offset < m.token.span.offset) = true := by
    intro e he
    obtain ⟨r, hr, her⟩ := List.mem_flatMap.1 he
    rw [decide_eq_true_iff]
    exact Nat.not_lt.2 ((hlater r hr).2 e her)
  have hsplit : allErrors (qs ++ m :: ms) = allErrors (qs ++ [m]) ++ allErrors ms := by
    simp [allErrors]
  rw [hsplit, List.filter_append, List.filter_eq_self.2 hkept, List.filter_eq_nil_iff.2 hlost,
    List.append_nil]

end Reading

/-- The lexical errors before the token at which reading the text as a program stopped. -/
def reached (source : String) : List LexicalError :=
  (tokenize source).2.filter (·.span.offset < (Parse.ofSource source).current.span.offset)

section
variable {source : String} {s : Grammar.State} {f : Failure}

theorem tokens_startOf : (startOf source).tokens = Reading.tokens (seen source) := by
  obtain ⟨m, ms, hms⟩ := Reading.exists_meaningful_cons 0 source.toList
  have hseen : seen source = m :: ms := hms
  rw [startOf, hseen]
  rfl

/-- What a parser sees are tokens of the text. -/
theorem tokens_startOf_sublist : (startOf source).tokens.Sublist (tokenize source).1 := by
  rw [tokens_startOf, seen, Reading.tokens_meaningful]
  exact List.filter_sublist

/-- The errors that have been met are those of the readings up to the token at hand. -/
theorem errorsAt_of_split {m : Reading} {qs ms : List Reading} (hs : seen source = qs ++ m :: ms)
    (ha : s.ahead.length = ms.length) : errorsAt source s = Reading.allErrors (qs ++ [m]) := by
  have hsplit : seen source = (qs ++ [m]) ++ ms := by simp [hs]
  have hlength : (seen source).length - s.ahead.length = (qs ++ [m]).length := by
    rw [hsplit, ha, @List.length_append _ (qs ++ [m]), Nat.add_sub_cancel]
  rw [errorsAt, hlength, hsplit, List.take_left]

/-- At any point of the reading, the errors met so far are those before the token at hand. -/
theorem errorsAt_eq (h : s.tokens <:+ (startOf source).tokens) : errorsAt source s =
    (tokenize source).2.filter (·.span.offset < s.current.span.offset) := by
  obtain ⟨hspread, -, herrors⟩ := Reading.meaningful_spread 0 source.toList
  obtain ⟨ts, hts⟩ := h
  rw [tokens_startOf] at hts
  obtain ⟨qs, us, hseen, -, hus⟩ := List.map_eq_append_iff.1 hts.symm
  obtain ⟨m, ms, rfl, hm, hms⟩ := List.map_eq_cons_iff.1 hus
  have hahead : s.ahead.length = ms.length := by rw [← hms, List.length_map]
  have hall : (tokenize source).2 = Reading.allErrors (qs ++ m :: ms) := by
    rw [← hseen]
    exact herrors.symm
  have hspread' : Reading.Spread (qs ++ m :: ms) := hseen ▸ hspread
  rw [errorsAt_of_split hseen hahead, hall, ← hm]
  exact hspread'.filter_errors.symm

/-- However the reading ends, it leaves the last tokens, and only a rejection breaks it off. -/
theorem leaves_readProgram (source : String) :
    Grammar.Leaves (startOf source) (readProgram source) :=
  Grammar.orderly_program _

theorem errors_ofSource : (Parse.ofSource source).errors = reached source := by
  have h := leaves_readProgram source
  rw [reached, ofSource_eq]
  cases hr : readProgram source with
  | ok _ s =>
    rw [hr] at h
    exact errorsAt_eq h
  | error e s =>
    rw [hr] at h
    exact errorsAt_eq h.1

theorem stop_ofSource (source : String) : (Parse.ofSource source).stop = none ∨
    ∃ r, (Parse.ofSource source).stop = some (.rejected r) := by
  have h := leaves_readProgram source
  rw [ofSource_eq]
  cases hr : readProgram source with
  | ok _ s => exact .inl rfl
  | error e s =>
    rw [hr] at h
    obtain ⟨-, r, rfl⟩ := h
    exact .inr ⟨r, rfl⟩

/-- The problems that a text is refused for. -/
def failureOf (source : String) (fatal : Option Problem) : Failure :=
  .ofProblems (.ofString source) ⟨(reached source).map (·.problem)⟩ fatal

theorem compile_of_rejected {r : Rejection}
    (h : (Parse.ofSource source).stop = some (.rejected r)) :
    compile source = .error (.failure (failureOf source (some r.problem))) := by
  simp only [compile, Parse.log_eq, h, errors_ofSource]
  rfl

theorem compile_of_reached (h : (Parse.ofSource source).stop = none) (he : reached source ≠ []) :
    compile source = .error (.failure (failureOf source none)) := by
  have hsome : ((reached source).map (·.problem)).isEmpty = false := by
    rw [List.isEmpty_eq_false_iff]
    exact fun hnil => he (List.map_eq_nil_iff.1 hnil)
  simp only [compile, Parse.log_eq, h, errors_ofSource, hsome]
  rfl

theorem compile_of_clean (h : (Parse.ofSource source).stop = none) (he : reached source = []) :
    compile source = (Parse.ofSource source).code.finish.mapError .defect := by
  simp only [compile, Parse.log_eq, h, errors_ofSource, he]
  rfl

/-- A text is refused for its problems if and only if there are any. -/
theorem exists_failure_iff : (∃ f, compile source = .error (.failure f)) ↔
    ¬ ((Parse.ofSource source).stop = none ∧ reached source = []) := by
  constructor
  · rintro ⟨f, hf⟩ ⟨hstop, he⟩
    rw [compile_of_clean hstop he] at hf
    cases hfinish : (Parse.ofSource source).code.finish <;> simp [hfinish, Except.mapError] at hf
  · intro h
    rcases stop_ofSource source with hstop | ⟨r, hr⟩
    · exact ⟨_, compile_of_reached hstop fun he => h ⟨hstop, he⟩⟩
    · exact ⟨_, compile_of_rejected hr⟩

/-- The labels of what the text says can be numbered in 32 bits. -/
def LabelsFit (source : String) : Prop := ∀ a, Denotes source a → a.body.labels < UInt32.size

/-- Each statement that needs two labels is spelled with two symbols of its own. -/
theorem labels_le_length {part : Part} {ts : List TokenKind} {st : Stmt} (h : st.Spells part ts) :
    st.labels ≤ ts.length := by
  induction h with
  | empty | assign | writeNothing | write => exact Nat.zero_le _
  | ofCompound _ ih => exact ih
  | block | last | lastSemicolon | more | ifThen | ifElse | loop =>
    simp only [Stmt.labels, List.length_cons, List.length_append, List.length_nil]
    omega

/-- The labels of a text of fewer than 2^32 tokens can be numbered. -/
theorem labelsFit_of_length (h : (tokenize source).1.length < UInt32.size) : LabelsFit source := by
  intro a ha
  have hbody : a.body.labels ≤ (sentence (kindsOf source)).length := by
    have hs := ha.spells
    generalize sentence (kindsOf source) = ts at hs
    cases hs with
    | plain _ hst | declaring _ _ hst =>
      have hle := labels_le_length hst
      simp only [List.length_append, List.length_cons]
      omega
  obtain ⟨rest, hrest⟩ := sentence_prefix (kindsOf source)
  have hlength : (kindsOf source).length = (tokenize source).1.length := List.length_map _
  rw [hrest, List.length_append] at hlength
  omega

/-- A text without problems denotes a tree whose code has been emitted. -/
theorem denotes_of_clean (h : (Parse.ofSource source).stop = none) (he : reached source = []) :
    ∃ a, Denotes source a ∧ ∀ p, (Parse.ofSource source).code.finish = .ok p ↔
      a.body.labels < UInt32.size ∧ p = a.program := by
  rw [← errors_ofSource] at he
  rw [ofSource_eq] at h he ⊢
  cases hr : readProgram source with
  | error e s => simp [hr] at h
  | ok u s =>
    simp only [hr] at he ⊢
    obtain ⟨ts, a, hs, hn, -, hk, hem⟩ :=
      Grammar.program_reads declared_startOf ended_startOf (Nat.le_refl _) hr
    obtain ⟨rest, hrest⟩ := kindsOf_eq_append hk he
    refine ⟨a, ⟨?_, hn⟩, fun p => hem.finish_eq_ok_iff⟩
    rw [hrest, sentence_of_spells hs]
    exact hs

/-- A text compiles if and only if there are no problems and its labels can be numbered. -/
theorem exists_compile_iff : (∃ p, compile source = .ok p) ↔
    (Parse.ofSource source).stop = none ∧ reached source = [] ∧ LabelsFit source := by
  constructor
  · rintro ⟨p, hp⟩
    obtain ⟨hstop, he, -⟩ := compile_eq_ok_iff_ofSource.1 hp
    refine ⟨hstop, errors_ofSource ▸ he, fun a ha => ?_⟩
    exact (program_of_denotes hp ha).2.1
  · rintro ⟨hstop, he, hfit⟩
    obtain ⟨a, ha, hfinish⟩ := denotes_of_clean hstop he
    exact ⟨_, compile_eq_ok_iff_ofSource.2
      ⟨hstop, errors_ofSource.trans he, (hfinish _).2 ⟨hfit a ha, rfl⟩⟩⟩

/-- The errors that the tokens of a text come with: from left to right, none of them fatal, its
tokens that a parser does not see and its unclosed comments. -/
structure Reported (source : String) : Prop where
  ordered : (tokenize source).2.Pairwise LexicalError.Before
  lexical : ∀ e ∈ (tokenize source).2, e.problem.code.isFatal = false
  tokens : ((tokenize source).2.filter (!·.isUnclosed)).map (·.token) =
    (tokenize source).1.filter (!·.kind.isMeaningful)
  comments : ∃ ss, Layout 0 source.toList ss ∧
    (tokenize source).1 = ss.filterMap Stretch.token? ++ [.atEnd source.utf8ByteSize] ∧
    (tokenize source).2.filter (·.isUnclosed) =
      ((ss.filterMap Stretch.comment?).filter (!·.isClosed)).map fun k => Gap.unclosed k.start

theorem reported (source : String) : Reported source := by
  constructor
  case ordered => exact (Reading.allErrors_ordered 0 source.toList).1
  case lexical => exact fun e _ => isFatal_lexical e.span e.fault
  case tokens => exact Reading.allErrors_faulty 0 source.toList
  case comments =>
    obtain ⟨ss, hlayout, htokens, herrors⟩ := Reading.all_layout 0 source.toList
    rw [Nat.zero_add, Text.size_toList] at htokens
    exact ⟨ss, hlayout, htokens, herrors.trans (filterMap_error? _)⟩

/-- The failure lists the errors that were reached, each with its line, and then the error that
ended the reading, if one did. -/
structure Failure.Complete (source : String) (f : Failure) : Prop where
  lexical : f.lexical.map (·.problem) = (reached source).map (·.problem)
  fatal : ∀ d ∈ f.fatal, d.problem.code ∈
    [.syntaxError, .typeError, .undefinedIdentifier, .duplicateIdentifier]
  stopped : f.fatal = none ↔ (Parse.ofSource source).stop = none
  count : f.count = f.all.length ∧ f.count = f.lexical.length + if f.fatal.isSome then 1 else 0
  count_pos : 1 ≤ f.count
  last : ∀ d ∈ f.fatal, f.all.getLast? = some d
  lines : ∀ d ∈ f.all, d.line = (SourceText.ofString source).lineIndex d.problem.span.offset

theorem code_problem (r : Rejection) : r.problem.code ∈
    [.syntaxError, .typeError, .undefinedIdentifier, .duplicateIdentifier] := by
  obtain ⟨cause, span⟩ := r
  cases cause <;> simp [Rejection.problem, Cause.problem, Problem.syntaxError, Problem.typeError,
    Problem.undefinedIdentifier, Problem.duplicateIdentifier]

theorem failureOf_complete {fatal : Option Problem}
    (hcode : ∀ q ∈ fatal, q.code ∈
      [.syntaxError, .typeError, .undefinedIdentifier, .duplicateIdentifier])
    (hstop : fatal = none ↔ (Parse.ofSource source).stop = none)
    (hsome : fatal = none → reached source ≠ []) : (failureOf source fatal).Complete source := by
  constructor
  case lexical => simp [failureOf, Failure.ofProblems, Diagnostic.ofProblem]
  case fatal =>
    intro d hd
    obtain ⟨q, hq, rfl⟩ := Option.map_eq_some_iff.1 hd
    exact hcode q hq
  case stopped => exact Option.map_eq_none_iff.trans hstop
  case count =>
    refine ⟨rfl, ?_⟩
    cases fatal <;> simp [failureOf, Failure.ofProblems, Failure.count, Failure.all]
  case count_pos =>
    cases fatal with
    | some q => simp [failureOf, Failure.ofProblems, Failure.count, Failure.all]
    | none =>
      have hcount : (failureOf source none).count = (reached source).length := by
        simp [failureOf, Failure.ofProblems, Failure.count, Failure.all]
      rw [hcount]
      exact List.length_pos_iff.2 (hsome rfl)
  case last =>
    intro d hd
    rw [Failure.all, Option.mem_def.1 hd]
    exact List.getLast?_concat
  case lines =>
    intro d hd
    rcases List.mem_append.1 hd with hd | hd
    · obtain ⟨q, -, rfl⟩ := List.mem_map.1 hd
      rfl
    · obtain ⟨q, -, rfl⟩ := Option.map_eq_some_iff.1 (Option.mem_toList.1 hd)
      rfl

theorem complete_of_failure (h : compile source = .error (.failure f)) : f.Complete source := by
  rcases stop_ofSource source with hstop | ⟨r, hr⟩
  · have he : reached source ≠ [] := fun he => exists_failure_iff.1 ⟨f, h⟩ ⟨hstop, he⟩
    rw [compile_of_reached hstop he] at h
    cases h
    exact failureOf_complete (by simp) (by simp [hstop]) fun _ => he
  · rw [compile_of_rejected hr] at h
    cases h
    refine failureOf_complete ?_ (by simp [hr]) (by simp)
    intro q hq
    cases hq
    exact code_problem r

/-- Every problem of a text is reported, once and in its place, up to the one that ends the reading;
a text without any compiles. -/
theorem diagnostics_complete (source : String) :
    Reported source ∧ (∀ f, compile source = .error (.failure f) → f.Complete source) ∧
    ((∃ p, compile source = .ok p) ↔
      (Parse.ofSource source).stop = none ∧ reached source = [] ∧ LabelsFit source) ∧
    ((∃ f, compile source = .error (.failure f)) ↔
      ¬ ((Parse.ofSource source).stop = none ∧ reached source = [])) :=
  ⟨reported source, fun _ => complete_of_failure, exists_compile_iff, exists_failure_iff⟩

/-- The character behind the name that is not declared is not reached. -/
example : (match compile "program p; begin ? x := 1; @ end." with
    | .error (.failure f) => f.codes
    | _ => []) = [.unexpectedCharacter, .undefinedIdentifier] := by decide +kernel

end
end MiniPascal
