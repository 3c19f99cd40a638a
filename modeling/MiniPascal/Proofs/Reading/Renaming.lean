import MiniPascal.Proofs.Reading.Names
import MiniPascal.Proofs.Scan.Case
import MiniPascal.Proofs.Scan.Lossless

/-! Renaming and the case of letters. Neither the choice of names nor the case of letters shows in
the outcome of a text. -/
namespace MiniPascal

/-- Whether the token is a string constant. -/
def TokenKind.isString : TokenKind → Bool
  | string _ => true
  | _ => false

/-- The texts have no lexical errors, and their tokens agree except for the spellings of names,
which correspond one to one. -/
structure Renamed (source source' : String) : Prop where
  errors : (tokenize source).2 = []
  errors' : (tokenize source').2 = []
  tokens : ∃ name, Renaming name ∧
    List.Forall₂ (TokenKind.Matches name) (kindsOf source) (kindsOf source')

/-- The texts differ in the case of letters only, and in none of the string constants. -/
structure Recased (source source' : String) : Prop where
  letters : lowered source.toList = lowered source'.toList
  constants : ∀ t ∈ (tokenize source).1, t.kind.isString →
    Text.slice? source'.toList t.span.offset t.span.length =
      Text.slice? source.toList t.span.offset t.span.length

namespace TokenKind

variable {k k' : TokenKind}

section
variable {name : String → String → Prop} [∀ x y, Decidable (name x y)]

/-- Whether the kinds differ in a name at most. -/
def agree (name : String → String → Prop) [∀ x y, Decidable (name x y)] :
    TokenKind → TokenKind → Bool
  | .identifier x, .identifier y => name x y
  | .identifier _, _ => false
  | k, k' => k = k'

theorem agree_iff : agree name k k' = true ↔ k.Matches name k' := by
  constructor
  · intro h
    cases k with
    | identifier x =>
      cases k' with
      | identifier y => exact .identifier (of_decide_eq_true h)
      | _ => cases h
    | _ =>
      obtain rfl := of_decide_eq_true h
      exact .same (by simp)
  · intro h
    cases h with
    | identifier h => exact decide_eq_true h
    | same h =>
      cases k with
      | identifier x => exact absurd rfl (h x)
      | _ => simp [agree]

instance (k k' : TokenKind) : Decidable (k.Matches name k') := decidable_of_iff _ agree_iff

end

theorem isMeaningful_lowered (k : TokenKind) : k.lowered.isMeaningful = k.isMeaningful := by
  cases k <;> rfl

/-- Kinds that are one in small letters differ in a name at most, if their string constants do not
differ. -/
theorem matches_of_lowered (h : k.lowered = k'.lowered)
    (hs : ∀ v v', k = .string v → k' = .string v' → v = v') :
    k.Matches (fun x y => Scope.key x = Scope.key y) k' := by
  cases k with
  | identifier x =>
    cases k' with
    | identifier y => exact .identifier (TokenKind.identifier.inj h)
    | _ => cases h
  | string v =>
    cases k' with
    | string v' =>
      obtain rfl := hs v v' rfl rfl
      exact .same (by simp)
    | _ => cases h
  | _ =>
    cases k' <;> cases h
    exact .same (by simp)

end TokenKind

namespace Reading

theorem meaningful_lowered (rs : List Reading) :
    meaningful (rs.map lowered) = (meaningful rs).map lowered := by
  induction rs with
  | nil => rfl
  | cons r rs ih =>
    have hm : r.lowered.token.kind.isMeaningful = r.token.kind.isMeaningful :=
      TokenKind.isMeaningful_lowered _
    rw [List.map_cons, meaningful, meaningful, hm, ih]
    cases meaningful rs with
    | nil => split <;> rfl
    | cons m ms => split <;> rfl

end Reading

section
variable {source source' : String} {t : Token} {v : String}

/-- A string constant stands in the text between quotes. -/
theorem slice_of_string (ht : t ∈ (tokenize source).1) (hv : t.kind = .string v) :
    Text.slice? source.toList t.span.offset t.span.length =
      some (Lexeme.quote :: (v.toList ++ [Lexeme.quote])) := by
  obtain ⟨ss, hlayout, htokens, -⟩ := Reading.all_layout 0 source.toList
  have hmem : t ∈ ss.filterMap Stretch.token? := by
    have ht' : t ∈ Reading.tokens (Reading.all 0 source.toList) := ht
    rw [htokens, List.mem_append, List.mem_singleton] at ht'
    rcases ht' with ht' | rfl
    · exact ht'
    · cases hv
  obtain ⟨chars, hchars⟩ := Layout.lexeme_of_mem hmem
  obtain ⟨-, -, hspelled⟩ := hlayout.proper hchars
  rw [hlayout.slice_lexeme hchars, hspelled.string v hv]

theorem mem_tokenize_of_seen {r : Reading} (h : r ∈ seen source) :
    r.token ∈ (tokenize source).1 := by
  have htoken : r.token ∈ (startOf source).tokens := by
    rw [tokens_startOf]
    exact List.mem_map_of_mem h
  exact tokens_startOf_sublist.subset htoken

/-- String constants that stand in both texts at one place and were left alone are the same. -/
theorem Recased.string_eq {t' : Token} {v' : String} (h : Recased source source')
    (ht : t ∈ (tokenize source).1) (ht' : t' ∈ (tokenize source').1) (hspan : t.span = t'.span)
    (hv : t.kind = .string v) (hv' : t'.kind = .string v') : v = v' := by
  have hstring : t.kind.isString := by rw [hv]; rfl
  have hsame := h.constants t ht hstring
  rw [slice_of_string ht hv, hspan, slice_of_string ht' hv'] at hsame
  have hlists : v'.toList ++ [Lexeme.quote] = v.toList ++ [Lexeme.quote] :=
    (List.cons.inj (Option.some.inj hsame)).2
  exact String.toList_inj.1 (List.append_cancel_right hlists).symm

/-- A parser sees the same of both texts but for the case of letters in names. -/
theorem Recased.seenAlike (h : Recased source source') :
    SeenAlike (fun x y => Scope.key x = Scope.key y) source source' := by
  have hseen : (seen source).map Reading.lowered = (seen source').map Reading.lowered := by
    rw [seen, seen, ← Reading.meaningful_lowered, ← Reading.meaningful_lowered,
      Reading.map_lowered_readings h.letters]
  have hlowered : ∀ rs : List Reading, (rs.map Reading.lowered).map
      (·.errors.map (·.problem.code)) = rs.map (·.errors.map (·.problem.code)) := fun rs =>
    List.map_map
  constructor
  case errors => rw [← hlowered, hseen, hlowered]
  case kinds =>
    rw [← List.forall₂_eq_eq_eq, List.forall₂_map_left_iff, List.forall₂_map_right_iff,
      List.forall₂_iff_zip] at hseen
    obtain ⟨hlength, hsame⟩ := hseen
    rw [kinds_startOf, kinds_startOf, List.forall₂_map_left_iff, List.forall₂_map_right_iff,
      List.forall₂_iff_zip]
    refine ⟨hlength, fun {r r'} hr => ?_⟩
    obtain ⟨hmem, hmem'⟩ := List.of_mem_zip hr
    have htokens : r.lowered.token = r'.lowered.token := congrArg (·.token) (hsame hr)
    have hspan : r.token.span = r'.token.span := congrArg (·.span) htokens
    refine TokenKind.matches_of_lowered (congrArg (·.kind) htokens) fun v v' hv hv' => ?_
    exact h.string_eq (mem_tokenize_of_seen hmem) (mem_tokenize_of_seen hmem') hspan hv hv'

theorem renaming_key : Renaming fun x y => Scope.key x = Scope.key y :=
  ⟨fun hx hy => by rw [hx, hy], fun _ _ => rfl⟩

/-- Names do not matter. Texts whose tokens differ in nothing but the names, chosen differently one
by one, compile to one program or are refused for the same, and so do texts with or without errors
that differ in nothing but the case of letters outside their string constants. -/
theorem compile_renamed : (Renamed source source' → SameOutcome source source') ∧
    (Recased source source' → SameOutcome source source') := by
  constructor
  · rintro ⟨he, he', name, hn, hkinds⟩
    exact sameOutcome_of_seenAlike hn (seenAlike_of_errors_nil he he' hkinds)
  · intro h
    exact sameOutcome_of_seenAlike renaming_key h.seenAlike

/-- The given names stay, `p` becomes `q`, and `a` and `b` trade places. -/
def tradedNames : List (String × String) :=
  [("p", "q"), ("a", "b"), ("b", "a")] ++ givenNames.map fun w => (w, w)

theorem renaming_traded : Renaming fun x y => (Scope.key x, Scope.key y) ∈ tradedNames := by
  have hpairs : ∀ u ∈ tradedNames, ∀ v ∈ tradedNames, u.1 = v.1 ↔ u.2 = v.2 := by decide +kernel
  exact ⟨fun hx hy => hpairs _ hx _ hy, by decide +kernel⟩

/-- The names of the variables trade places, `p` becomes `q`, and letters change their case. -/
theorem compile_renamed_swapped :
    Renamed "program p;var a,B:Integer;begin B:=a;writeln(b)end."
      "PROGRAM q;var b,a:iNTEGER;begin a:=B;WriteLn(A)end." ∧
    SameOutcome "program p;var a,B:Integer;begin B:=a;writeln(b)end."
      "PROGRAM q;var b,a:iNTEGER;begin a:=B;WriteLn(A)end." ∧
    Recased "program p;begin writeln(2e1,'Hi')\x7bGo\x7dend."
      "PROGRAM P;begin WriteLn(2E1,'Hi')\x7bgO\x7dEND." ∧
    SameOutcome "program p;begin writeln(2e1,'Hi')\x7bGo\x7dend."
      "PROGRAM P;begin WriteLn(2E1,'Hi')\x7bgO\x7dEND." := by
  have hr : Renamed "program p;var a,B:Integer;begin B:=a;writeln(b)end."
      "PROGRAM q;var b,a:iNTEGER;begin a:=B;WriteLn(A)end." :=
    ⟨by decide +kernel, by decide +kernel, _, renaming_traded, by decide +kernel⟩
  have hc : Recased "program p;begin writeln(2e1,'Hi')\x7bGo\x7dend."
      "PROGRAM P;begin WriteLn(2E1,'Hi')\x7bgO\x7dEND." :=
    ⟨by decide +kernel, by decide +kernel⟩
  exact ⟨hr, compile_renamed.1 hr, hc, compile_renamed.2 hc⟩

end
end MiniPascal
