import MiniPascal.Proofs.Editor.Answers
import MiniPascal.Proofs.Editor.Coordinates
import MiniPascal.Proofs.Scan.Pieces

/-! The relative form of coloured tokens loses nothing. Adding up the distances leads back to the
coloured tokens of the text, each of which covers its token and nothing else. -/
namespace MiniPascal

namespace Editor

/-- The place behind a coloured token. -/
def Highlight.stop (h : Highlight) : Position := ⟨h.start.line, h.start.character + h.length⟩

/-- The first place is before the second. -/
def Position.Before (p q : Position) : Prop :=
  p.line < q.line ∨ p.line = q.line ∧ p.character < q.character

/-- Where a coloured token starts if the one before it starts at a place. -/
def SemanticToken.start (previous : Position) (k : SemanticToken) : Position :=
  if k.deltaLine = 0 then ⟨previous.line, previous.character + k.deltaStart⟩
  else ⟨previous.line + k.deltaLine, k.deltaStart⟩

/-- The coloured tokens that others in relative form stand for, from a place on. -/
def decode (previous : Position) : List SemanticToken → List Highlight
  | [] => []
  | k :: ks => ⟨k.start previous, k.length, k.tokenClass⟩ :: decode (k.start previous) ks

/-- A coloured token covers a token of the text. -/
structure Highlight.Shows (t : SourceText) (k : Token) (h : Highlight) : Prop where
  range : range? t k.span = some ⟨h.start, h.stop⟩
  tokenClass : TokenClass.ofToken? k.kind = some h.tokenClass
  length : 1 ≤ h.length

namespace Position

variable {p q r : Position} {xs ys : List Char}

theorem Before.of_precedes (hpq : p.Before q) (hqr : q.Precedes r) : p.Before r := by
  unfold Before Precedes at *
  omega

/-- Characters lead on from where those before them lead, unless a pair is cut. -/
theorem after_append (hy : ys.head? ≠ some '\n') : p.after (xs ++ ys) = (p.after xs).after ys := by
  induction p, xs using after.induct with
  | case1 p => rfl
  | case2 p cs ih => exact ih
  | case3 p c cs hpair hc ih =>
    have hpair' : ∀ ds, c = '\r' → cs ++ ys = '\n' :: ds → False := by
      intro ds hr hds
      cases cs with
      | nil =>
        rw [List.nil_append] at hds
        exact hy (by rw [hds]; rfl)
      | cons d es =>
        obtain ⟨rfl, -⟩ := List.cons.inj hds
        exact hpair es hr rfl
    have hxs : p.after (c :: cs) = after ⟨p.line + 1, 0⟩ cs :=
      after_break (Text.break_single hc hpair)
    have hall : p.after (c :: (cs ++ ys)) = after ⟨p.line + 1, 0⟩ (cs ++ ys) :=
      after_break (Text.break_single hc hpair')
    rw [List.cons_append, hall, hxs, ih]
  | case4 p c cs hpair hc ih => rw [List.cons_append, after_cons hc, after_cons hc, ih]

end Position

section
variable {t : SourceText} {c : Highlight} {hs : List Highlight} {k l : Token}
  {ks : List SemanticToken} {n : Nat} {p previous : Position} {tc : TokenClass}

theorem range?_eq_some {span : Span} {r : TextRange} (h : range? t span = some r) :
    position? t span.offset = some r.start ∧ position? t span.stop = some r.stop := by
  obtain ⟨start, hstart, h⟩ := Option.bind_eq_some_iff.1 h
  obtain ⟨stop, hstop, h⟩ := Option.bind_eq_some_iff.1 h
  cases h
  exact ⟨hstart, hstop⟩

/-- Tokens that stand one behind another are covered one behind another. -/
theorem Highlight.Shows.ordered {d : Highlight} (hk : c.Shows t k) (hl : d.Shows t l)
    (hkl : k.stop ≤ l.span.offset) (hfk : k.span.Fits t.chars) (hfl : l.span.Fits t.chars) :
    c.start.Before d.start ∧ c.stop.Precedes d.start := by
  obtain ⟨p, q, hp, hq, hprecedes⟩ := position?_of_le hfk.stop hfl.start hkl
  obtain ⟨-, hstop⟩ := range?_eq_some hk.range
  obtain ⟨hstart, -⟩ := range?_eq_some hl.range
  obtain rfl := Option.some.inj (hp.symm.trans hstop)
  obtain rfl := Option.some.inj (hq.symm.trans hstart)
  have hpos := hk.length
  have hbefore : c.start.Before c.stop := .inr ⟨rfl, by
    show c.start.character < c.start.character + c.length
    omega⟩
  exact ⟨hbefore.of_precedes hprecedes, hprecedes⟩

end
end Editor
end MiniPascal
