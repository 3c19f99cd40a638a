import MiniPascal.Editor.Report
import MiniPascal.Editor.SemanticToken
import MiniPascal.Proofs.Editor.Position
import MiniPascal.Proofs.Reading.Places

/-! Every text has an answer. Whatever its characters, its problems and its coloured tokens have
their places, and compiling it breaks none of the promises between the parts of the compiler. -/
namespace MiniPascal

/-- A list has an answer if its elements have. -/
theorem mapM_eq_filterMap {α β : Type} {f : α → Option β} {xs : List α}
    (h : ∀ x ∈ xs, ∃ y, f x = some y) : xs.mapM f = some (xs.filterMap f) := by
  induction xs with
  | nil => rfl
  | cons x xs ih =>
    obtain ⟨y, hy⟩ := h x List.mem_cons_self
    rw [List.mapM_cons, hy, ih fun x' hx' => h x' (List.mem_cons_of_mem x hx'),
      List.filterMap_cons_some hy]
    rfl

namespace Editor

section
variable {t : SourceText} {a b : Nat} {p : Problem} {tokens : List Token} {hs : List Highlight}
  {source : String}

theorem exists_report (h : p.span.Fits t.chars) : ∃ r, report? t p = some r := by
  obtain ⟨start, hstart⟩ := exists_position h.start
  obtain ⟨stop, hstop⟩ := exists_position h.stop
  refine ⟨⟨⟨start, stop⟩, p.code, p.message⟩, ?_⟩
  simp [report?, range?, hstart, hstop]

/-- Coloured tokens that stand in order can be placed relative to one another. -/
theorem exists_encode {previous : Position} (hfirst : ∀ h ∈ hs, previous.Precedes h.start)
    (hordered : hs.Pairwise fun h k => h.start.Precedes k.start) :
    ∃ ks, encode? previous hs = some ks := by
  induction hs generalizing previous with
  | nil => exact ⟨[], rfl⟩
  | cons h hs ih =>
    obtain ⟨hnext, hrest⟩ := List.pairwise_cons.1 hordered
    obtain ⟨ks, hks⟩ := ih hnext hrest
    have hprevious := hfirst h List.mem_cons_self
    unfold Position.Precedes at hprevious
    simp only [encode?, hks, Option.map_some]
    rw [if_neg (by omega)]
    split
    · rw [if_neg (by omega)]
      exact ⟨_, rfl⟩
    · exact ⟨_, rfl⟩

/-- A token with its class, as it is coloured. -/
def highlight? (t : SourceText) (k : Token × TokenClass) : Option Highlight := do
  return ⟨← position? t k.1.span.offset, Text.size16 (← t.slice? k.1.span), k.2⟩

theorem highlights?_eq : highlights? t tokens =
    (tokens.filterMap fun k => (TokenClass.ofToken? k.kind).map (k, ·)).mapM (highlight? t) := rfl

theorem exists_highlight {k : Token × TokenClass} (h : k.1.span.Fits t.chars) :
    ∃ c, highlight? t k = some c := by
  obtain ⟨start, hstart⟩ := exists_position h.start
  obtain ⟨ds, hds⟩ := Option.isSome_iff_exists.1 h.isSome_slice?
  have hslice : t.slice? k.1.span = some ds := hds
  refine ⟨⟨start, Text.size16 ds, k.2⟩, ?_⟩
  rw [highlight?, hstart, hslice]
  rfl

theorem start_highlight {k : Token × TokenClass} {c : Highlight} (h : highlight? t k = some c) :
    position? t k.1.span.offset = some c.start := by
  obtain ⟨start, hstart, h⟩ := Option.bind_eq_some_iff.1 h
  obtain ⟨ds, -, h⟩ := Option.bind_eq_some_iff.1 h
  cases h
  exact hstart

/-- A token as it is coloured, if it is. -/
def coloured? (t : SourceText) (k : Token) : Option Highlight :=
  (TokenClass.ofToken? k.kind).bind fun c => highlight? t (k, c)

theorem start_coloured {k : Token} {c : Highlight} (h : coloured? t k = some c) :
    position? t k.span.offset = some c.start := by
  obtain ⟨tokenClass, -, h⟩ := Option.bind_eq_some_iff.1 h
  exact start_highlight h

/-- Tokens that stand in a text can be coloured. -/
theorem highlights?_eq_filterMap (hfits : ∀ k ∈ tokens, k.span.Fits t.chars) :
    highlights? t tokens = some (tokens.filterMap (coloured? t)) := by
  let colour (k : Token) : Option (Token × TokenClass) := (TokenClass.ofToken? k.kind).map (k, ·)
  have hcoloured : ∀ q ∈ tokens.filterMap colour, ∃ h, highlight? t q = some h := by
    intro q hq
    obtain ⟨k, hk, hkq⟩ := List.mem_filterMap.1 hq
    obtain ⟨c, -, rfl⟩ := Option.map_eq_some_iff.1 hkq
    exact exists_highlight (hfits k hk)
  have hbind : ∀ k, (colour k).bind (highlight? t) = coloured? t k := fun k => Option.bind_map
  rw [highlights?_eq, mapM_eq_filterMap hcoloured, List.filterMap_filterMap]
  simp only [hbind]

/-- Tokens that stand in order are coloured in order. -/
theorem ordered_coloured (hfits : ∀ k ∈ tokens, k.span.Fits t.chars)
    (hordered : tokens.Pairwise fun k l => k.stop ≤ l.span.offset) :
    (tokens.filterMap (coloured? t)).Pairwise fun h k => h.start.Precedes k.start := by
  rw [List.pairwise_filterMap]
  refine hordered.imp_of_mem fun {k l} hk hl hkl h hh j hj => ?_
  have hle : k.span.offset ≤ l.span.offset := Nat.le_trans (Nat.le_add_right _ _) hkl
  obtain ⟨p, q, hp, hq, hprecedes⟩ := position?_of_le (hfits k hk).start (hfits l hl).start hle
  obtain rfl := Option.some.inj (hp.symm.trans (start_coloured hh))
  obtain rfl := Option.some.inj (hq.symm.trans (start_coloured hj))
  exact hprecedes

end

section
variable {source : String}

/-- The coloured tokens of every text can be placed. -/
theorem exists_semanticTokens (source : String) : ∃ ks, semanticTokens? source = some ks := by
  have hfits : ∀ k ∈ (tokenize source).1, k.span.Fits (SourceText.ofString source).chars :=
    fun k hk => fits_token hk
  have hordered := ordered_coloured hfits (tokens_ordered source)
  obtain ⟨ks, hks⟩ := exists_encode (fun h _ => Position.origin_precedes h.start) hordered
  exact ⟨ks, Option.bind_eq_some_iff.2 ⟨_, highlights?_eq_filterMap hfits, hks⟩⟩

/-- All problems of a text can be placed. -/
theorem reports_of_failure {f : Failure} (h : compile source = .error (.failure f)) :
    reports? source =
      some (f.all.filterMap fun d => report? (.ofString source) d.problem) := by
  simp only [reports?, h]
  refine mapM_eq_filterMap fun d hd => ?_
  exact exists_report (t := .ofString source) (fits_diagnostic h d hd)

/-- The problems of a text can be placed unless compiling it breaks a promise. -/
theorem exists_reports (h : ∀ d, compile source ≠ .error (.defect d)) :
    ∃ rs, reports? source = some rs := by
  cases hc : compile source with
  | ok p => exact ⟨[], by simp only [reports?, hc]⟩
  | error refusal => cases refusal with
    | failure f => exact ⟨_, reports_of_failure hc⟩
    | defect d => exact absurd hc (h d)

end
end Editor

/-- Nothing breaks when the text is scanned, compiled, and shown in an editor. -/
structure Unfailing (source : String) : Prop where
  lexemes : ∀ t ∈ (tokenize source).1,
    (Text.slice? source.toList t.span.offset t.span.length).isSome
  strings : ∀ t ∈ (tokenize source).1, ∀ v, t.kind = .string v → 2 ≤ t.span.length ∧
    Text.slice? source.toList (t.span.offset + 1) (t.span.length - 2) = some v.toList
  lines : Text.Rows 0 source.toList (SourceText.ofString source).lines
  places : ∀ front back, source.toList = front ++ back →
    Editor.position? (.ofString source) (Text.size front) = some (Editor.Position.after ⟨0, 0⟩ front)
  joins : ∀ d, (Parse.ofSource source).stop ≠ some (.defect d)
  log : ∃ log, (Parse.ofSource source).log = .ok log
  labels : (Parse.ofSource source).stop = none → (Parse.ofSource source).errors = [] →
    ∃ p, (Parse.ofSource source).code.finish = .ok p
  compiled : ∀ d, compile source ≠ .error (.defect d)
  reports : ∃ rs, Editor.reports? source = some rs
  semanticTokens : ∃ ks, Editor.semanticTokens? source = some ks

section
variable {source : String}

theorem compile_ne_defect (h : LabelsFit source) (d : Defect) :
    compile source ≠ .error (.defect d) := by
  rcases stop_ofSource source with hstop | ⟨r, hr⟩
  · by_cases he : reached source = []
    · obtain ⟨p, hp⟩ := exists_compile_iff.2 ⟨hstop, he, h⟩
      simp [hp]
    · simp [compile_of_reached hstop he]
  · simp [compile_of_rejected hr]

theorem exists_finish (h : LabelsFit source) (hstop : (Parse.ofSource source).stop = none)
    (he : (Parse.ofSource source).errors = []) :
    ∃ p, (Parse.ofSource source).code.finish = .ok p := by
  obtain ⟨a, ha, hfinish⟩ := denotes_of_clean hstop (errors_ofSource.symm.trans he)
  exact ⟨_, (hfinish _).2 ⟨h a ha, rfl⟩⟩

/-- A string constant has two quotes, and its value between them. -/
theorem slice_string {t : Token} {v : String} (ht : t ∈ (tokenize source).1)
    (hv : t.kind = .string v) : 2 ≤ t.span.length ∧
      Text.slice? source.toList (t.span.offset + 1) (t.span.length - 2) = some v.toList := by
  obtain ⟨ss, hlayout, htokens, -⟩ := (reported source).comments
  rw [htokens, List.mem_append, List.mem_singleton] at ht
  rcases ht with ht | rfl
  · obtain ⟨chars, hs⟩ := Layout.lexeme_of_mem ht
    refine ⟨?_, hlayout.slice_string hs hv⟩
    obtain ⟨-, hlength, hspelled⟩ := hlayout.proper hs
    rw [hlength, hspelled.string v hv, Text.size_cons, Text.size_append]
    have hquote : Lexeme.quote.utf8Size = 1 := rfl
    simp only [Text.size_cons, Text.size_nil, hquote]
    omega
  · cases hv

/-- No text makes the front end fail, as long as labels can be numbered. -/
theorem front_end_unfailing (h : LabelsFit source) : Unfailing source where
  lexemes _ ht := (fits_token ht).isSome_slice?
  strings _ ht _ hv := slice_string ht hv
  lines := Text.rows_lines (.ofString source)
  places _ _ hsplit := Editor.position?_append hsplit
  joins := by
    intro d hd
    rcases stop_ofSource source with hstop | ⟨r, hr⟩
    · cases hstop.symm.trans hd
    · cases hr.symm.trans hd
  log := ⟨_, Parse.log_eq _⟩
  labels := exists_finish h
  compiled := compile_ne_defect h
  reports := Editor.exists_reports (compile_ne_defect h)
  semanticTokens := Editor.exists_semanticTokens source

/-- A text with characters of all lengths, all breaks, and something wrong in every line. -/
theorem front_end_unfailing_malformed :
    LabelsFit "program \x7bß\r\nvar 😀: reel;\rbegin if 'ж\nthen 1e := .. 9999999999 \x7b 'é" ∧
    Unfailing "program \x7bß\r\nvar 😀: reel;\rbegin if 'ж\nthen 1e := .. 9999999999 \x7b 'é" := by
  have hfit : LabelsFit
      "program \x7bß\r\nvar 😀: reel;\rbegin if 'ж\nthen 1e := .. 9999999999 \x7b 'é" :=
    labelsFit_of_length (by decide +kernel)
  exact ⟨hfit, front_end_unfailing hfit⟩

end
end MiniPascal
