import MiniPascal.Proofs.Scan.Faults

/-! How a text divides: into the lexemes of its tokens, blanks and comments, each of them where the
one before ends. -/
namespace MiniPascal

/-- A comment: where its brace stands, what follows, and the brace that ends it, if one does. -/
structure Comment where
  start : Nat
  body : List Char
  closing : Option Char

namespace Comment

/-- The characters of a comment, its braces among them. -/
def chars (c : Comment) : List Char := '\x7b' :: (c.body ++ c.closing.toList)

/-- The offset just after a comment. -/
def stop (c : Comment) : Nat := c.start + Text.size c.chars

/-- Whether the comment ends the way it should. -/
def isClosed (c : Comment) : Bool := c.closing == some '\x7d'

/-- There is no brace in a comment but where it begins and ends. -/
structure Proper (c : Comment) : Prop where
  body : ∀ x ∈ c.body, x ≠ '\x7b' ∧ x ≠ '\x7d'
  closing : ∀ x ∈ c.closing, x = '\x7b' ∨ x = '\x7d'

/-- The error that an unclosed comment is. -/
def error? (c : Comment) : Option LexicalError :=
  if c.isClosed then none else some (Gap.unclosed c.start)

end Comment

/-- A stretch of text that is taken at once. -/
inductive Stretch where
  | blank (start : Nat) (c : Char)
  | comment (c : Comment)
  | lexeme (t : Token) (chars : List Char)

namespace Stretch

def start : Stretch → Nat
  | blank n _ => n
  | comment c => c.start
  | lexeme t _ => t.span.offset

def chars : Stretch → List Char
  | blank _ c => [c]
  | comment c => c.chars
  | lexeme _ cs => cs

/-- The offset just after the stretch. -/
def stop (s : Stretch) : Nat := s.start + Text.size s.chars

def token? : Stretch → Option Token
  | lexeme t _ => some t
  | _ => none

def comment? : Stretch → Option Comment
  | comment c => some c
  | _ => none

/-- The stretch is what it is taken for. -/
def Proper : Stretch → Prop
  | blank _ c => Gap.isBlank c
  | comment c => c.Proper
  | lexeme t cs => cs ≠ [] ∧ t.span.length = Text.size cs ∧ t.kind.Spelled cs

/-- Whether nothing but the end of the text ends the stretch. -/
def IsOpen : Stretch → Prop
  | comment c => c.closing = none
  | _ => False

end Stretch

/-- The stretches follow one another from an offset on and make up the text. -/
inductive Layout : Nat → List Char → List Stretch → Prop
  | nil (n : Nat) : Layout n [] []
  | cons {s : Stretch} {cs : List Char} {ss : List Stretch} (hs : s.Proper)
    (ho : s.IsOpen → cs = []) (h : Layout s.stop cs ss) :
    Layout s.start (s.chars ++ cs) (s :: ss)

namespace Layout

variable {n b : Nat} {cs : List Char} {ss : List Stretch} {s : Stretch}

theorem proper (h : Layout n cs ss) (hs : s ∈ ss) : s.Proper := by
  induction h with
  | nil => cases hs
  | cons hp _ _ ih =>
    rcases List.mem_cons.1 hs with rfl | hs
    · exact hp
    · exact ih hs

/-- Where a stretch stands in the text. -/
theorem split (h : Layout n cs ss) (hs : s ∈ ss) :
    ∃ before behind, cs = before ++ s.chars ++ behind ∧ s.start = n + Text.size before ∧
      (s.IsOpen → behind = []) := by
  induction h with
  | nil => cases hs
  | @cons u cs us hp ho _ ih =>
    rcases List.mem_cons.1 hs with rfl | hs
    · exact ⟨[], cs, by simp, rfl, ho⟩
    · obtain ⟨before, behind, rfl, hstart, hopen⟩ := ih hs
      refine ⟨u.chars ++ before, behind, by simp, ?_, hopen⟩
      rw [hstart, Text.size_append, Stretch.stop]
      omega

theorem start_le (h : Layout n cs ss) (hs : s ∈ ss) : n ≤ s.start := by
  obtain ⟨before, behind, -, hstart, -⟩ := h.split hs
  omega

/-- The stretches are in order and do not overlap. -/
theorem ordered (h : Layout n cs ss) : ss.Pairwise fun s u => s.stop ≤ u.start := by
  induction h with
  | nil => exact .nil
  | cons _ _ h ih => exact .cons (fun u hu => h.start_le hu) ih

/-- No byte is left out. -/
theorem covers (h : Layout n cs ss) (hn : n ≤ b) (hb : b < n + Text.size cs) :
    ∃ s ∈ ss, s.start ≤ b ∧ b < s.stop := by
  induction h with
  | nil =>
    simp only [Text.size] at hb
    omega
  | @cons s cs ss _ _ _ ih =>
    by_cases hs : b < s.stop
    · exact ⟨s, List.mem_cons_self, hn, hs⟩
    · have hstop : s.stop = s.start + Text.size s.chars := rfl
      rw [Text.size_append] at hb
      obtain ⟨u, hu, hcover⟩ := ih (by omega) (by omega)
      exact ⟨u, List.mem_cons_of_mem s hu, hcover⟩

end Layout
end MiniPascal
