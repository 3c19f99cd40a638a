import MiniPascal.Proofs.Reading.Declarations
import MiniPascal.Proofs.Reading.Diagnostics

/-! Names are compared and never looked into. Two texts whose tokens differ in nothing but names,
where names that are one in one text are one in the other, have the same outcome. -/
namespace MiniPascal

/-- The text is refused with problems of the given codes. -/
def RefusedWith (source : String) (codes : List ProblemCode) : Prop :=
  ∃ f, compile source = .error (.failure f) ∧ f.codes = codes

/-- The texts compile to one program, or are refused for the same. -/
structure SameOutcome (source source' : String) : Prop where
  program : ∀ p, compile source' = .ok p ↔ compile source = .ok p
  failure : ∀ codes, RefusedWith source' codes ↔ RefusedWith source codes
  defect : ∀ d, compile source' = .error (.defect d) ↔ compile source = .error (.defect d)

/-- The names that mean something without a declaration. -/
def givenNames : List String := Ty.all.map Ty.name ++ ["true", "false", Grammar.printName]

/-- A correspondence between names that is one to one up to the case of letters, and under which the
given names correspond to themselves. -/
structure Renaming (name : String → String → Prop) : Prop where
  one_to_one : ∀ {x x' y y' : String}, name x x' → name y y' →
    (Scope.key x = Scope.key y ↔ Scope.key x' = Scope.key y')
  fixes : ∀ w ∈ givenNames, name w w

section
variable {name : String → String → Prop} {x x' y y' : String}

theorem key_of_mem_givenNames : ∀ w ∈ givenNames, Scope.key w = w := by decide +kernel

theorem Renaming.given (hn : Renaming name) (h : name x x') {w : String} (hw : w ∈ givenNames) :
    Scope.key x = w ↔ Scope.key x' = w := by
  have hiff := hn.one_to_one h (hn.fixes w hw)
  rwa [key_of_mem_givenNames w hw] at hiff

theorem renaming_eq : Renaming Eq := ⟨by rintro x _ y _ rfl rfl; rfl, fun _ _ => rfl⟩

theorem Renaming.isPrint (hn : Renaming name) (h : name x x') :
    (x.toLower == Grammar.printName) = (x'.toLower == Grammar.printName) := by
  have hiff : x.toLower = Grammar.printName ↔ x'.toLower = Grammar.printName :=
    hn.given h (by decide)
  rw [Bool.eq_iff_iff, beq_iff_eq, beq_iff_eq]
  exact hiff

/-- Names that correspond are found under the same given names. -/
theorem lookup_congr {entries : List (String × Entry)} {k k' : String}
    (h : ∀ e ∈ entries, k = e.1 ↔ k' = e.1) : entries.lookup k = entries.lookup k' := by
  induction entries with
  | nil => rfl
  | cons e entries ih =>
    have hrest := ih fun e he => h e (List.mem_cons_of_mem _ he)
    have hhead : (k == e.1) = (k' == e.1) := by
      have hiff := h e List.mem_cons_self
      rwa [Bool.eq_iff_iff, beq_iff_eq, beq_iff_eq]
    rw [List.lookup_cons, List.lookup_cons, hhead, hrest]

theorem Renaming.find?_initial (hn : Renaming name) (h : name x x') :
    Scopes.initial.find? x = Scopes.initial.find? x' := by
  have hgiven : ∀ e ∈ Scope.builtin.entries, e.1 ∈ givenNames := by decide
  have hbuiltin : Scope.builtin.find? x = Scope.builtin.find? x' :=
    lookup_congr fun e he => hn.given h (hgiven e he)
  have hinitial : ∀ y, Scopes.initial.find? y = Scope.builtin.find? y := fun y => by
    have hempty : Scope.empty.find? y = none := rfl
    simp only [Scopes.find?, Scopes.toList, Scopes.initial, List.findSome?_cons, hempty]
    cases Scope.builtin.find? y <;> rfl
  rw [hinitial, hinitial, hbuiltin]

end

namespace Scopes

variable {s t : Scopes} {x y : String} {e : Entry}

theorem eq_of_declare? (h : s.declare? x e = some t) :
    t = { s with inner := s.inner.insert x e } := by
  unfold declare? at h
  split at h
  · cases h
  · exact (Option.some.inj h).symm

theorem find?_declare? (h : s.declare? x e = some t) :
    t.find? y = if Scope.key y == Scope.key x then some e else s.find? y := by
  rw [eq_of_declare? h, find?, find?, toList, toList, List.findSome?_cons, List.findSome?_cons,
    Scope.find?_insert]
  by_cases hkey : Scope.key y == Scope.key x
  · rw [if_pos hkey, if_pos hkey]
  · rw [if_neg hkey, if_neg hkey]

theorem isRegistered_declare? (h : s.declare? x e = some t) (u : Ty) :
    t.isRegistered u = s.isRegistered u := by
  rw [eq_of_declare? h]
  rfl

theorem declare?_eq_none_iff : s.declare? x e = none ↔ (s.find? x).isSome := by
  rw [← isDeclared_eq, declare?]
  cases s.isDeclared x <;> simp

end Scopes

namespace Grammar

/-- Two readings with the same kinds of tokens before them up to names, which made the same of those
behind. -/
structure State.Renamed (name : String → String → Prop) (s s' : State) : Prop where
  kinds : List.Forall₂ (TokenKind.Matches name) s.kinds s'.kinds
  names : ∀ {x x' : String}, name x x' → s.scopes.find? x = s'.scopes.find? x'
  types : ∀ t, s.scopes.isRegistered t = s'.scopes.isRegistered t
  code : s.code = s'.code

section
variable {name : String → String → Prop} {s s' : State} {x x' : String} {e : Entry}

theorem State.Renamed.advance (h : s.Renamed name s') : s.advance.Renamed name s'.advance := by
  have hkinds := h.kinds
  obtain ⟨current, ahead, lastStop, scopes, code⟩ := s
  obtain ⟨current', ahead', lastStop', scopes', code'⟩ := s'
  simp only [State.kinds, List.forall₂_cons] at hkinds
  obtain ⟨hcurrent, hahead⟩ := hkinds
  cases ahead with
  | nil =>
    obtain rfl := List.map_eq_nil_iff.1 (List.forall₂_nil_left_iff.1 hahead)
    exact ⟨h.kinds, h.names, h.types, h.code⟩
  | cons t ts =>
    cases ahead' with
    | nil => cases hahead
    | cons t' ts' => exact ⟨hahead, h.names, h.types, h.code⟩

/-- A name that is new in one reading is new in the other, and stands for the same in both. -/
theorem State.Renamed.declare? (h : s.Renamed name s') (hn : Renaming name) (hx : name x x') :
    (s.scopes.declare? x e = none ∧ s'.scopes.declare? x' e = none) ∨
    ∃ σ σ', s.scopes.declare? x e = some σ ∧ s'.scopes.declare? x' e = some σ' ∧
      State.Renamed name { s with scopes := σ } { s' with scopes := σ' } := by
  have hnone : s.scopes.declare? x e = none ↔ s'.scopes.declare? x' e = none := by
    rw [Scopes.declare?_eq_none_iff, Scopes.declare?_eq_none_iff, h.names hx]
  cases hσ : s.scopes.declare? x e with
  | none => exact .inl ⟨rfl, hnone.1 hσ⟩
  | some σ =>
    obtain ⟨σ', hσ'⟩ : ∃ σ', s'.scopes.declare? x' e = some σ' := by
      rw [← Option.ne_none_iff_exists']
      intro hnot
      rw [hnone.2 hnot] at hσ
      cases hσ
    refine .inr ⟨σ, σ', rfl, hσ', h.kinds, fun {y y'} hy => ?_, fun t => ?_, h.code⟩
    · have hkey : (Scope.key y == Scope.key x) = (Scope.key y' == Scope.key x') :=
        Bool.eq_iff_iff.2 (by simpa using hn.one_to_one hy hx)
      rw [Scopes.find?_declare? hσ, Scopes.find?_declare? hσ', hkey, h.names hy]
    · rw [Scopes.isRegistered_declare? hσ, Scopes.isRegistered_declare? hσ', h.types]

/-- Readings of texts whose tokens differ in nothing but names that correspond. -/
def namePairing {name : String → String → Prop} (hn : Renaming name) : Pairing where
  state := State.Renamed name
  name := name
  place _ _ := True
  stop c s d s' := s.Renamed name s' ∧ Cause.Matches name c.cause d.cause
  kind_of_state h := (List.forall₂_cons.1 h.kinds).1
  here_of_state _ := trivial
  spanFrom_of_state _ _ := trivial
  advance_state h := h.advance
  code_of_state h := h.code
  withCode_state _ h := ⟨h.kinds, h.names, h.types, rfl⟩
  find?_of_state h hx := h.names hx
  declare?_of_state _ h hx := h.declare? hn hx
  isRegistered_of_state t h := h.types t
  isPrint_of_name h := hn.isPrint h
  stop_of_state hs _ h := ⟨hs, h⟩

end
end Grammar

/-- What a parser sees of the texts differs in nothing but names and places. -/
structure SeenAlike (name : String → String → Prop) (source source' : String) : Prop where
  kinds : List.Forall₂ (TokenKind.Matches name) (startOf source).kinds (startOf source').kinds
  errors : (seen source).map (·.errors.map (·.problem.code)) =
    (seen source').map (·.errors.map (·.problem.code))

section
variable {name : String → String → Prop} {source source' : String}

/-- Texts that differ in names are read to the same end. -/
theorem readProgram_renamed (hn : Renaming name) (h : SeenAlike name source source') :
    (Grammar.namePairing hn).Results Eq (readProgram source) (readProgram source') := by
  have hstart : (startOf source).Renamed name (startOf source') :=
    ⟨h.kinds, fun hx => hn.find?_initial hx, fun _ => rfl, rfl⟩
  have hread : readProgram source' =
      Grammar.program (startOf source).kinds.length (startOf source') := by
    rw [readProgram, h.kinds.length_eq]
  rw [hread]
  exact @Grammar.Pairing.agree_program (Grammar.namePairing hn) _ _ _ hstart

/-- The codes of the errors that have been met. -/
theorem codes_errorsAt {s s' : Grammar.State} (h : SeenAlike name source source')
    (hs : s.Renamed name s') : (errorsAt source s).map (·.problem.code) =
      (errorsAt source' s').map (·.problem.code) := by
  have hahead : s.ahead.length = s'.ahead.length := by
    have hlength := hs.kinds.length_eq
    simpa [Grammar.State.kinds] using hlength
  have hseen : (seen source).length = (seen source').length := by
    have hlength := congrArg List.length h.errors
    simpa using hlength
  have hcodes : ∀ rs : List Reading, (Reading.allErrors rs).map (·.problem.code) =
      (rs.map (·.errors.map (·.problem.code))).flatten := by
    intro rs
    rw [Reading.allErrors, List.map_flatMap, List.flatMap_def]
  rw [errorsAt, errorsAt, hcodes, hcodes, List.map_take, List.map_take, h.errors, hseen, hahead]

theorem codes_failureOf (source : String) (fatal : Option Problem) :
    (failureOf source fatal).codes =
      (reached source).map (·.problem.code) ++ (fatal.map (·.code)).toList := by
  cases fatal <;> simp [failureOf, Failure.ofProblems, Failure.codes, Failure.all,
    Diagnostic.ofProblem, Function.comp_def]

theorem refusedWith_iff {f : Failure} {codes : List ProblemCode}
    (h : compile source = .error (.failure f)) : RefusedWith source codes ↔ f.codes = codes := by
  constructor
  · rintro ⟨g, hg, rfl⟩
    rw [h] at hg
    cases hg
    rfl
  · exact fun hcodes => ⟨f, h, hcodes⟩

theorem sameOutcome_of_failures {f f' : Failure} (h : compile source = .error (.failure f))
    (h' : compile source' = .error (.failure f')) (hcodes : f.codes = f'.codes) :
    SameOutcome source source' := by
  refine ⟨fun p => ?_, fun codes => ?_, fun d => ?_⟩
  · simp [h, h']
  · rw [refusedWith_iff h, refusedWith_iff h', hcodes]
  · simp [h, h']

theorem sameOutcome_of_compile_eq (h : compile source' = compile source) :
    SameOutcome source source' :=
  ⟨fun p => by rw [h], fun codes => by simp only [RefusedWith, h], fun d => by rw [h]⟩

/-- Texts that differ in nothing but names that correspond have the same outcome. -/
theorem sameOutcome_of_seenAlike (hn : Renaming name) (h : SeenAlike name source source') :
    SameOutcome source source' := by
  have hparse := @ofSource_eq source
  have hparse' := @ofSource_eq source'
  have hresults := readProgram_renamed hn h
  generalize readProgram source = result, readProgram source' = result' at hparse hparse' hresults
  cases hresults with
  | @ok _ _ s s' _ hs =>
    have hstop : (Parse.ofSource source).stop = none := by rw [hparse]
    have hstop' : (Parse.ofSource source').stop = none := by rw [hparse']
    have hreached : (reached source).map (·.problem.code) =
        (reached source').map (·.problem.code) := by
      rw [← errors_ofSource, ← errors_ofSource, hparse, hparse']
      exact codes_errorsAt h hs
    by_cases he : reached source = []
    · have he' : reached source' = [] := by
        rw [he] at hreached
        exact List.map_eq_nil_iff.1 hreached.symm
      have hcode : (Parse.ofSource source').code = (Parse.ofSource source).code := by
        rw [hparse, hparse']
        exact hs.code.symm
      apply sameOutcome_of_compile_eq
      rw [compile_of_clean hstop he, compile_of_clean hstop' he', hcode]
    · have he' : reached source' ≠ [] := fun he' => by
        rw [he'] at hreached
        exact he (List.map_eq_nil_iff.1 hreached)
      refine sameOutcome_of_failures (compile_of_reached hstop he) (compile_of_reached hstop' he') ?_
      rw [codes_failureOf, codes_failureOf, hreached]
  | @error c d s s' hrejected =>
    obtain ⟨hs, hcause⟩ := hrejected
    have hstop : (Parse.ofSource source).stop = some (.rejected c) := by rw [hparse]
    have hstop' : (Parse.ofSource source').stop = some (.rejected d) := by rw [hparse']
    have hreached : (reached source).map (·.problem.code) =
        (reached source').map (·.problem.code) := by
      rw [← errors_ofSource, ← errors_ofSource, hparse, hparse']
      exact codes_errorsAt h hs
    have hcode : c.problem.code = d.problem.code := hcause.code c.span d.span
    refine sameOutcome_of_failures (compile_of_rejected hstop) (compile_of_rejected hstop') ?_
    rw [codes_failureOf, codes_failureOf, hreached, Option.map_some, Option.map_some, hcode]

/-- Without lexical errors, all tokens are seen. -/
theorem seenAlike_of_errors_nil (he : (tokenize source).2 = []) (he' : (tokenize source').2 = [])
    (hk : List.Forall₂ (TokenKind.Matches name) (kindsOf source) (kindsOf source')) :
    SeenAlike name source source' := by
  have hnone : ∀ text, (tokenize text).2 = [] → (seen text).map (·.errors.map (·.problem.code)) =
      List.replicate (kindsOf text).length [] := by
    intro text ht
    have herrors : Reading.allErrors (seen text) = [] :=
      (Reading.meaningful_spread 0 text.toList).2.2.trans ht
    rw [← kinds_startOf_of_errors_nil ht, kinds_startOf, List.length_map, List.eq_replicate_iff]
    refine ⟨List.length_map _, fun codes hcodes => ?_⟩
    obtain ⟨r, hr, rfl⟩ := List.mem_map.1 hcodes
    rw [List.flatMap_eq_nil_iff.1 herrors r hr]
    rfl
  constructor
  case kinds =>
    rw [kinds_startOf_of_errors_nil he, kinds_startOf_of_errors_nil he']
    exact hk
  case errors => rw [hnone source he, hnone source' he', hk.length_eq]

end
end MiniPascal
