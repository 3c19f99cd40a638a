import MiniPascal.Proofs.Reading.Diagnostics
import MiniPascal.Proofs.Scan.Prefix

/-! What stands behind the point of a program. Passing the point takes the scanner to the next token
that a parser sees, so the errors before that token withhold the program, and nothing behind it
does. -/
namespace MiniPascal

namespace Reading

/-- The errors up to the first token that a parser sees. -/
def leadingErrors : List Reading → List LexicalError
  | [] => []
  | r :: rs => if r.token.kind.isMeaningful then r.errors else r.errors ++ leadingErrors rs

variable {n : Nat} {cs : List Char} {m : Reading} {qs rs ms : List Reading}

theorem errors_of_meaningful (h : meaningful rs = m :: ms) : m.errors = leadingErrors rs := by
  induction rs generalizing m ms with
  | nil => cases h
  | cons r rs ih =>
    rw [meaningful] at h
    by_cases hm : r.token.kind.isMeaningful
    · rw [if_pos hm] at h
      obtain ⟨rfl, -⟩ := List.cons.inj h
      rw [leadingErrors, if_pos hm]
    · rw [if_neg hm] at h
      rw [leadingErrors, if_neg hm]
      split at h
      · cases h
      · next m' ms' hms =>
        obtain ⟨rfl, -⟩ := List.cons.inj h
        rw [← ih hms]

/-- Readings without errors are seen as they are. -/
theorem meaningful_append (hc : ∀ r ∈ qs, r.Clear) (he : allErrors qs = []) :
    meaningful (qs ++ rs) = qs ++ meaningful rs := by
  induction qs with
  | nil => rfl
  | cons q qs ih =>
    simp only [allErrors, List.flatMap_cons, List.append_eq_nil_iff] at he
    rw [List.cons_append, meaningful, if_pos (hc q (by simp) he.1),
      ih (fun r hr => hc r (by simp [hr])) he.2]
    rfl

end Reading

/-- The text up to the end of its first point. -/
def upToPoint? (source : String) : Option (List Char) := do
  let d ← (tokenize source).1.find? (·.isSymbol .dot)
  let (front, _) ← Text.splitAt? d.stop source.toList
  return front

/-- The characters, a line feed, and another text. -/
def followedBy (front : List Char) (t : String) : String := String.ofList (front ++ '\n' :: t.toList)

/-- The errors before the first token that a parser sees in the text that follows. -/
def trailingErrors (front : List Char) (t : String) : List LexicalError :=
  Reading.leadingErrors (Reading.all (Text.size front) ('\n' :: t.toList))

section
variable {source : String} {p : Program} {s : Grammar.State} {ts : List TokenKind} {a : Tree}

/-- The tokens that were passed without errors are the first readings of the text. -/
theorem readings_of_passed (hk : (startOf source).kinds = ts ++ s.kinds)
    (he : errorsAt source s = []) : ∃ qs us, readings source = qs ++ us ∧
      qs.map (·.token.kind) = ts ∧ Reading.allErrors qs = [] := by
  rw [kinds_startOf] at hk
  have hlen : (seen source).length = ts.length + (s.ahead.length + 1) := by
    simpa [Grammar.State.kinds] using congrArg List.length hk
  have hn : (seen source).length - s.ahead.length = ts.length + 1 := by omega
  rw [errorsAt, hn] at he
  have htake : (seen source).take (ts.length + 1) = (readings source).take (ts.length + 1) :=
    Reading.take_meaningful (fun r hr => Reading.clear_all hr) (by rw [← seen]; omega) he
  have hfirst : (readings source).take ts.length = (seen source).take ts.length := by
    have h := congrArg (List.take ts.length) htake
    rw [List.take_take, List.take_take, Nat.min_eq_left (Nat.le_succ _)] at h
    exact h.symm
  refine ⟨(readings source).take ts.length, _, (List.take_append_drop _ _).symm, ?_, ?_⟩
  · rw [hfirst, List.map_take, hk, List.take_left]
  · rw [hfirst, List.eq_nil_iff_forall_not_mem]
    intro e hmem
    obtain ⟨r, hr, her⟩ := List.mem_flatMap.1 hmem
    have hlater : e ∈ Reading.allErrors ((seen source).take (ts.length + 1)) :=
      List.mem_flatMap.2 ⟨r, List.take_subset_take_left _ (Nat.le_succ _) hr, her⟩
    rw [he] at hlater
    cases hlater

/-- A text that was read as a tree divides behind its first point, and may go on in another way. -/
theorem split_at_point (hs : a.Spells ts) (hk : (startOf source).kinds = ts ++ s.kinds)
    (he : errorsAt source s = []) : ∃ front, upToPoint? source = some front ∧
      ∀ t, ∃ qs, readings (followedBy front t) =
          qs ++ Reading.all (Text.size front) ('\n' :: t.toList) ∧
        qs.map (·.token.kind) = ts ∧ (∀ r ∈ qs, r.Clear) ∧ Reading.allErrors qs = [] := by
  obtain ⟨ps, us, hread, hkinds, herrors⟩ := readings_of_passed hk he
  obtain ⟨ws, rfl, hws⟩ := ends_with_dot hs
  obtain ⟨qs, ds, rfl, hqs, hds⟩ := List.map_eq_append_iff.1 hkinds
  obtain ⟨q, rfl, hq⟩ := List.map_eq_singleton_iff.1 hds
  rw [List.append_assoc, List.singleton_append] at hread
  have hend : q.token.isEnd = false := by rw [Token.isEnd, hq]; rfl
  obtain ⟨front, rest, -, hcs, hstop, -, hall⟩ := Reading.all_cut hread hend (by rw [hq]; rfl)
  rw [Nat.zero_add] at hstop
  refine ⟨front, ?_, fun t => ⟨qs ++ [q], ?_, ?_, ?_, herrors⟩⟩
  · have hnone : (Reading.tokens qs).find? (·.isSymbol .dot) = none := by
      rw [List.find?_eq_none]
      intro d hd
      obtain ⟨r, hr, rfl⟩ := List.mem_map.1 hd
      intro hdot
      refine hws ?_
      rw [← hqs, ← eq_of_beq hdot]
      exact List.mem_map.2 ⟨r, hr, rfl⟩
    have hfind : (tokenize source).1.find? (·.isSymbol .dot) = some q.token := by
      have htokens : (tokenize source).1 = Reading.tokens qs ++ q.token :: Reading.tokens us := by
        rw [tokenize, hread]
        simp [Reading.tokens]
      rw [htokens, List.find?_append, hnone, List.find?_cons_of_pos (by simp [Token.isSymbol, hq])]
      rfl
    rw [upToPoint?, hfind, hcs]
    simp [hstop, Text.splitAt?_size_append]
  · have hnew : readings (followedBy front t) = Reading.all 0 (front ++ '\n' :: t.toList) := by
      rw [readings, followedBy, String.toList_ofList]
    have hapart : Apart ('\n' :: t.toList) := by
      rintro x ⟨⟩
      decide
    rw [hnew, hall _ hapart, hstop, List.append_assoc]
    rfl
  · rw [List.map_append, hqs, List.map_singleton, hq]
  · intro r hr
    have hmem : r ∈ readings source := by
      rw [hread]
      rcases List.mem_append.1 hr with hr | hr
      · exact List.mem_append_left _ hr
      · rw [List.mem_singleton.1 hr]
        simp
    exact Reading.clear_all hmem

/-- A text that begins with the readings of a program is read as that program, and the errors that
are met are those before the token behind it. -/
theorem ofSource_of_readings {n : Nat} {cs : List Char} {qs : List Reading} (hs : a.Spells ts)
    (hn : a.body.NearestElse) (ht : a.WellTyped) (hread : readings source = qs ++ Reading.all n cs)
    (hkinds : qs.map (·.token.kind) = ts) (hclear : ∀ r ∈ qs, r.Clear)
    (he : Reading.allErrors qs = []) : ∃ s : Grammar.State, s.Emitted a ∧ Parse.ofSource source =
      ⟨none, s.current, Reading.leadingErrors (Reading.all n cs), s.code⟩ := by
  obtain ⟨m, ms, hms⟩ := Reading.exists_meaningful_cons n cs
  have hseen : seen source = qs ++ m :: ms := by
    rw [seen, hread, Reading.meaningful_append hclear he, hms]
  have hk : (startOf source).kinds = ts ++ m.token.kind :: ms.map (·.token.kind) := by
    rw [kinds_startOf, hseen, List.map_append, hkinds]
    rfl
  obtain ⟨s, hr, hem, hrest⟩ := (Grammar.program_decides declared_startOf ended_startOf
    (Nat.le_refl _) hs hn hk).1 ht
  have hahead : s.ahead.length = ms.length := by
    have hlength := congrArg List.length hrest
    simpa [Grammar.State.kinds] using hlength
  have hmet : errorsAt source s = Reading.leadingErrors (Reading.all n cs) := by
    have hsplit : Reading.allErrors (qs ++ [m]) = Reading.allErrors qs ++ m.errors := by
      simp [Reading.allErrors]
    rw [errorsAt_of_split hseen hahead, hsplit, he, List.nil_append,
      Reading.errors_of_meaningful hms]
  have hread' : readProgram source = .ok () s := hr
  refine ⟨s, hem, ?_⟩
  simp only [ofSource_eq, hread', hmet]

/-- A text that compiles may be continued behind its first point with anything, as long as there is
no error before the next token that a parser sees. -/
theorem compile_followedBy (h : compile source = .ok p) :
    ∃ front, upToPoint? source = some front ∧ ∀ t,
      (trailingErrors front t = [] → compile (followedBy front t) = .ok p) ∧
      (trailingErrors front t ≠ [] → compile (followedBy front t) =
        .error (.failure (failureOf (followedBy front t) none)) ∧
          reached (followedBy front t) = trailingErrors front t) := by
  obtain ⟨s, hr, he, hf⟩ := compile_eq_ok_iff_readProgram.1 h
  obtain ⟨ts, a, hs, hn, ht, hk, hem⟩ :=
    Grammar.program_reads declared_startOf ended_startOf (Nat.le_refl _) hr
  obtain ⟨front, hfront, hnew⟩ := split_at_point hs hk he
  refine ⟨front, hfront, fun t => ?_⟩
  obtain ⟨qs, hread, hkinds, hclear, herrors⟩ := hnew t
  obtain ⟨s', hem', hparse⟩ := ofSource_of_readings hs hn ht hread hkinds hclear herrors
  have hstop : (Parse.ofSource (followedBy front t)).stop = none := by rw [hparse]
  have hmet : (Parse.ofSource (followedBy front t)).errors = trailingErrors front t := by
    rw [hparse]
    rfl
  have hreached := errors_ofSource.symm.trans hmet
  constructor
  · intro hnone
    refine compile_eq_ok_iff_ofSource.2 ⟨hstop, hmet.trans hnone, ?_⟩
    rw [hparse]
    exact hem'.finish_eq_ok_iff.2 (hem.finish_eq_ok_iff.1 hf)
  · intro hsome
    exact ⟨compile_of_reached hstop (hreached ▸ hsome), hreached⟩

/-- Behind the next token, errors do no harm. -/
theorem compile_followedBy_name : ∃ p, compile "program p; begin end." = .ok p ∧
    compile "program p; begin end.\nx ? \x7b" = .ok p := by
  obtain ⟨p, hp⟩ : ∃ p, compile "program p; begin end." = .ok p := by
    have hok : (compile "program p; begin end.").toOption.isSome := by decide +kernel
    cases h : compile "program p; begin end." with
    | ok p => exact ⟨p, rfl⟩
    | error e => simp [h, Except.toOption] at hok
  obtain ⟨front, hfront, hfollowed⟩ := compile_followedBy hp
  have hcut : upToPoint? "program p; begin end." = some "program p; begin end.".toList := by
    decide +kernel
  obtain rfl := Option.some.inj (hfront.symm.trans hcut)
  have hnone : trailingErrors "program p; begin end.".toList "x ? \x7b" = [] := by decide +kernel
  have htext : followedBy "program p; begin end.".toList "x ? \x7b" =
      "program p; begin end.\nx ? \x7b" := by decide +kernel
  exact ⟨p, hp, htext ▸ (hfollowed _).1 hnone⟩

/-- Before the next token, they withhold the program. -/
theorem compile_unknown_behind_point : ¬ ∀ source p, compile source = .ok p →
    ∀ front, upToPoint? source = some front → ∀ t, compile (followedBy front t) = .ok p := by
  intro h
  have hok : (compile "program p; begin end.").toOption.isSome := by decide +kernel
  have hcut : upToPoint? "program p; begin end." = some "program p; begin end.".toList := by
    decide +kernel
  have hrefused : (compile (followedBy "program p; begin end.".toList "?")).toOption.isSome =
      false := by decide +kernel
  cases hp : compile "program p; begin end." with
  | error e => simp [hp, Except.toOption] at hok
  | ok p =>
    rw [h _ p hp _ hcut] at hrefused
    cases hrefused

end
end MiniPascal
