import MiniPascal.Proofs.Reading.Source
import MiniPascal.Proofs.Wire.Program

/-! The constants of a text. A number past the largest real is a fault of the text, and a string
ends at its first quote and does not go on in the next line. So every real in the code of a program
is finite, and every string is on one line and has no quote. -/
namespace MiniPascal

/-- A value that a constant of a text can have. -/
def Value.Writable : Value → Prop
  | real v => v.isFinite
  | string v => ∀ c ∈ v.toList, Lexeme.isStringChar c
  | integer _ | boolean _ => True

theorem Value.Writable.finite {v : Value} (h : v.Writable) : v.Finite := by
  cases v with
  | real v => exact h
  | _ => trivial

namespace Lexeme

/-- The lexeme is no constant, or one that can be written. -/
def Writable (l : Lexeme) : Prop := ∀ k v, l.outcome = .ok k → k.value? = some v → v.Writable

variable {c : Char} {cs digits chars fraction rest whole : List Char} {d : Decimal}

theorem word_writable : (word cs).Writable := by
  intro k v hk hv
  simp only [word] at hk
  split at hk <;> cases hk <;> cases hv

theorem string_writable : (string cs).Writable := by
  intro k v hk hv
  unfold string at hk
  split at hk
  · cases hk
  · split at hk
    · cases hk
      cases hv
      intro c hc
      rw [String.toList_ofList] at hc
      exact List.all_eq_true.1 List.all_takeWhile c hc
    · cases hk

theorem integer_writable : (integer digits rest).Writable := by
  intro k v hk hv
  simp only [integer] at hk
  split at hk <;> cases hk
  cases hv
  trivial

theorem real_writable : (real d chars rest).Writable := by
  intro k v hk hv
  simp only [real] at hk
  split at hk
  · next hfinite =>
    cases hk
    cases hv
    exact hfinite
  · cases hk

theorem scaled_writable : (scaled whole fraction rest).Writable := by
  unfold scaled
  split
  · split
    · exact integer_writable
    · exact real_writable
  · intro k v hk
    cases hk
  · exact real_writable

theorem number_writable : (number cs).Writable := by
  unfold number
  split
  · exact scaled_writable
  · split
    · dsimp only
      split
      · intro k v hk
        cases hk
      · exact scaled_writable
    · exact scaled_writable

theorem symbol_writable : (symbol c cs).Writable := by
  intro k v hk hv
  unfold symbol at hk
  split at hk
  · cases hk
    cases hv
  · split at hk <;> cases hk
    cases hv

theorem read_writable (c : Char) (cs : List Char) : (read c cs).Writable := by
  unfold read
  split
  · exact string_writable
  · split
    · exact number_writable
    · split
      · exact word_writable
      · exact symbol_writable

end Lexeme

namespace Reading

theorem writable_next {offset : Nat} {cs : List Char} {v : Value}
    (h : (next offset cs).1.token.kind.value? = some v) : v.Writable := by
  unfold next at h
  dsimp only at h
  split at h
  · cases h
  · next c rest _ =>
    unfold ofLexeme at h
    dsimp only at h
    split at h
    · next kind hkind => exact Lexeme.read_writable c rest kind v hkind h
    · next fault _ => cases fault <;> cases h

theorem writable_all {offset : Nat} {cs : List Char} {r : Reading} {v : Value}
    (hr : r ∈ all offset cs) (h : r.token.kind.value? = some v) : v.Writable := by
  induction offset, cs using all.induct with
  | case1 offset cs step hend =>
    rw [all_of_end hend, List.mem_singleton] at hr
    subst hr
    exact writable_next h
  | case2 offset cs step hend ih =>
    rw [all_of_not_end (Bool.eq_false_iff.2 hend)] at hr
    rcases List.mem_cons.1 hr with rfl | hr
    · exact writable_next h
    · exact ih hr

end Reading

section Code
variable {P : Value → Prop} {names : Names} {ts : List TokenKind} {e : Expr} {es : List Expr}
  {st : Stmt} {level : Level} {part : Part}

/-- Every value the code pushes is of the given kind. -/
def Pushes (P : Value → Prop) (code : List Instr) : Prop := ∀ v, .push v ∈ code → P v

/-- Every constant among the tokens is of the given kind. -/
def Constants (P : Value → Prop) (ts : List TokenKind) : Prop :=
  ∀ k ∈ ts, ∀ v, k.value? = some v → P v

@[simp] theorem pushes_nil : Pushes P [] := by
  intro v hv
  cases hv

@[simp] theorem pushes_append {a b : List Instr} :
    Pushes P (a ++ b) ↔ Pushes P a ∧ Pushes P b := by
  simp [Pushes, or_imp, forall_and]

@[simp] theorem pushes_cons {i : Instr} {code : List Instr} :
    Pushes P (i :: code) ↔ (∀ v, .push v = i → P v) ∧ Pushes P code := by
  simp [Pushes, or_imp, forall_and]

@[simp] theorem constants_append {us : List TokenKind} :
    Constants P (ts ++ us) ↔ Constants P ts ∧ Constants P us := by
  simp [Constants, or_imp, forall_and]

@[simp] theorem constants_cons {k : TokenKind} :
    Constants P (k :: ts) ↔ (∀ v, k.value? = some v → P v) ∧ Constants P ts := by
  simp [Constants]

theorem Connective.pushes_code (c : Connective) (left : Option Ty) : Pushes P (c.code left) := by
  unfold Connective.code
  split
  · simp
  · cases c <;> simp [operator, Operator.code]

/-- The code of an expression pushes its constants, and those that its names stand for. -/
theorem Expr.pushes_code (h : e.Spells level ts) (ht : Constants P ts)
    (hn : ∀ x v, names x = some (.constant v) → P v) : Pushes P (e.code names) := by
  induction h with
  | name x =>
    cases hx : names x with
    | none => simp [Expr.code, hx]
    | some entry =>
      cases entry with
      | constant v => simpa [Expr.code, hx, Entry.code] using hn x v hx
      | _ => simp [Expr.code, hx, Entry.code]
  | constant hv =>
    have := (constants_cons.1 ht).1 _ hv
    simpa [Expr.code] using this
  | ofFactor _ ih | ofTerm _ ih | ofSum _ ih => exact ih ht
  | not _ ih => simp_all [Expr.code]
  | brackets _ ih => simp_all
  | signed minus _ ih => cases minus <;> simp_all [Expr.code]
  | multiply _ _ _ ihl ihr | add _ _ _ ihl ihr | compare _ _ _ ihl ihr =>
    simp_all [Expr.code, Connective.pushes_code]

theorem Expr.pushes_printCode (h : Expr.SpellsAll ts es) (ht : Constants P ts)
    (hn : ∀ x v, names x = some (.constant v) → P v) :
    ∀ e ∈ es, Pushes P (e.printCode names) := by
  have hprint : ∀ e : Expr, Pushes P ((e.type? names).toList.map .print) := by
    intro e v hv
    simp at hv
  induction h with
  | one he =>
    intro e' he'
    obtain rfl := List.mem_singleton.1 he'
    exact pushes_append.2 ⟨Expr.pushes_code he ht hn, hprint _⟩
  | more he _ ih =>
    simp only [constants_append, constants_cons] at ht
    intro e' he'
    rcases List.mem_cons.1 he' with rfl | he'
    · exact pushes_append.2 ⟨Expr.pushes_code he ht.1 hn, hprint _⟩
    · exact ih ht.2.2 e' he'

theorem pushes_assignCode {x : String} (h : e.Spells level ts) (ht : Constants P ts)
    (hn : ∀ x v, names x = some (.constant v) → P v) : Pushes P (assignCode names x e) := by
  unfold assignCode
  split
  · have := Expr.pushes_code h ht hn
    unfold storeCode
    split <;> simp [this]
  · simp

/-- The code of a statement pushes its constants, and those that its names stand for. -/
theorem Stmt.pushes_code (h : st.Spells part ts) (ht : Constants P ts)
    (hn : ∀ x v, names x = some (.constant v) → P v) (n : Nat) : Pushes P (st.code names n) := by
  induction h generalizing n with
  | empty => simp [Stmt.code]
  | block _ ih | last _ ih | lastSemicolon _ ih | ofCompound _ ih => simp_all [Stmt.code]
  | more _ _ iha ihb => simp_all [Stmt.code]
  | assign x he => exact pushes_assignCode he (by simp_all) hn
  | writeNothing => simp [Stmt.code]
  | write hx hes =>
    have := Expr.pushes_printCode hes (by simp_all) hn
    intro v hv
    obtain ⟨e, he, hv⟩ := List.mem_flatMap.1 hv
    exact this e he v hv
  | ifThen hc _ ih =>
    have := Expr.pushes_code hc (by simp_all) hn
    simp_all [Stmt.code, choiceCode]
  | ifElse hc _ _ iha ihb =>
    have := Expr.pushes_code hc (by simp_all) hn
    simp_all [Stmt.code, choiceCode]
  | loop hc _ ih =>
    have := Expr.pushes_code hc (by simp_all) hn
    simp_all [Stmt.code, loopCode]

theorem Tree.pushes_body {a : Tree} (h : a.Spells ts) (ht : Constants P ts)
    (hn : ∀ x v, names x = some (.constant v) → P v) (n : Nat) :
    Pushes P (a.body.code names n) := by
  cases h with
  | plain x hs => exact Stmt.pushes_code hs (by simp_all) hn n
  | declaring x hv hs => exact Stmt.pushes_code hs (by simp_all) hn n

theorem pushes_zeroCode (hz : ∀ t, P (.zero t)) (n : Nat) (ts : List Ty) :
    Pushes P (zeroCode n ts) := by
  induction ts generalizing n with
  | nil => simp [zeroCode]
  | cons t ts ih => simp [zeroCode, hz, ih]

end Code

/-- The constants of a text can be written. -/
theorem constants_kindsOf (source : String) : Constants Value.Writable (kindsOf source) := by
  intro k hk v hv
  simp only [kindsOf, tokenize, Reading.tokens, List.map_map, List.mem_map] at hk
  obtain ⟨r, hr, rfl⟩ := hk
  exact Reading.writable_all hr hv

theorem Value.writable_zero (t : Ty) : (Value.zero t).Writable := by
  cases t with
  | real => exact (by decide : (0 : Float).isFinite = true)
  | string => simp [zero, Writable]
  | integer | boolean => trivial

/-- The only constants with names are truth values. -/
theorem writable_of_namesOf {vs : List (String × Ty)} {x : String} {v : Value}
    (h : namesOf vs x = some (.constant v)) : v.Writable := by
  unfold namesOf at h
  cases hb : builtinNames x with
  | none =>
    rw [hb, Option.none_or] at h
    simp [variableNames, Option.bind_eq_some_iff] at h
  | some entry =>
    rw [hb, Option.some_or] at h
    cases h
    obtain ⟨before, behind, hsplit, -⟩ := List.lookup_eq_some_iff.1 hb
    have hmem : (Scope.key x, Entry.constant v) ∈ Scope.builtin.entries := by simp [hsplit]
    simp [Scope.builtin] at hmem
    rcases hmem with ⟨-, rfl⟩ | ⟨-, rfl⟩ <;> trivial

/-- Every constant in a program that compiles can be written. -/
theorem writable_of_compile {source : String} {p : Program} (h : compile source = .ok p) :
    Pushes Value.Writable p.code.toList := by
  obtain ⟨a, ha, -, -, rfl⟩ := denotes_of_compile h
  have hconstants := constants_kindsOf source
  obtain ⟨rest, hrest⟩ := sentence_prefix (kindsOf source)
  rw [hrest, constants_append] at hconstants
  have hbody : Pushes Value.Writable (a.body.code (namesOf a.vars) 0) :=
    a.pushes_body ha.spells hconstants.1 (fun _ _ => writable_of_namesOf) 0
  simp [Tree.program, Tree.code, pushes_zeroCode Value.writable_zero, hbody]

end MiniPascal
