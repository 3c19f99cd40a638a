import Mathlib.Data.List.Nodup
import MiniPascal.Proofs.Machine.Targets
import MiniPascal.Proofs.Reading.Names

/-! The scopes that can be open after scopes were opened and closed and names declared in any order.
All names in them are distinct, the given names keep their meaning, and when a scope is closed
again everything is as it was before it was opened. -/
namespace MiniPascal

namespace Scopes

/-- What can be done to the open scopes. -/
inductive Operation where
  | enter
  | leave
  | declare (name : String) (e : Entry) (span : Span)
deriving Repr, DecidableEq

/-- The open scopes after an operation. One that is refused changes nothing. -/
def perform (s : Scopes) : Operation → Scopes
  | .enter => s.enter
  | .leave => (s.leave?.map (·.2)).getD s
  | .declare x e span => (s.declare x e span).toOption.getD s

/-- What a name is bound to by an operation, if it binds one. -/
def Operation.binding? (s : Scopes) : Operation → Option (String × Entry)
  | .declare x e span => if (s.declare x e span).isOk then some (x, e) else none
  | .enter | .leave => none

/-- Everything that is bound in some open scope. -/
def entries (s : Scopes) : List (String × Entry) := s.toList.flatMap Scope.entries

/-- The outermost scope. -/
def outermost (s : Scopes) : Scope := s.toList.getLast (List.cons_ne_nil _ _)

/-- What an operation can do. -/
inductive Effect (s : Scopes) : Operation → Scopes → Prop
  | entered : Effect s .enter s.enter
  | left {o : Scope} {os : List Scope} (h : s.outer = o :: os) : Effect s .leave ⟨o, os⟩
  | kept (h : s.outer = []) : Effect s .leave s
  | bound {x : String} {e : Entry} {span : Span} (h : s.isDeclared x = false) :
    Effect s (.declare x e span) { s with inner := s.inner.insert x e }
  | refused {x : String} {e : Entry} {span : Span} (h : s.isDeclared x = true) :
    Effect s (.declare x e span) s

section
variable {s t : Scopes} {x y : String} {e : Entry} {span : Span} {o : Operation}
  {os : List Operation}

theorem declare_eq : s.declare x e span = if s.isDeclared x then
    .error (.duplicateIdentifier span x) else .ok { s with inner := s.inner.insert x e } := by
  unfold declare declare?
  cases s.isDeclared x <;> rfl

theorem effect_perform (s : Scopes) (o : Operation) : s.Effect o (s.perform o) := by
  cases o with
  | enter => exact .entered
  | leave =>
    rw [perform, leave?]
    cases h : s.outer with
    | nil => exact .kept h
    | cons o os => exact .left h
  | declare x e span =>
    rw [perform, declare_eq]
    cases h : s.isDeclared x with
    | true => exact .refused h
    | false => exact .bound h

/-- What holds of all scopes that can be open: all names are distinct, and the outermost scope holds
the given ones. -/
structure Orderly (s : Scopes) : Prop where
  distinct : (s.entries.map (·.1)).Nodup
  builtin : Scope.builtin.entries <:+ s.outermost.entries

namespace Orderly

end Orderly

/-- Some scopes are open inside one in which the names are bound, which is inside others. -/
def Above (s : Scopes) (bound : List (String × Entry)) (t : Scopes) : Prop :=
  ∃ upper scope, t.toList = upper ++ scope :: s.toList ∧
    scope.entries = (bound.map fun b => (Scope.key b.1, b.2)).reverse

variable {bound : List (String × Entry)}

/-- An operation that does not close the scope leaves those outside of it as they are. -/
theorem Above.perform (h : s.Above bound t) (hopen : s.depth < (t.perform o).depth) :
    s.Above (bound ++ if t.depth = s.depth + 1 then (o.binding? t).toList else [])
      (t.perform o) := by
  obtain ⟨upper, scope, htoList, hentries⟩ := h
  have hdepth : t.depth = upper.length + (s.depth + 1) := by
    simp [depth, htoList]
  have heffect := effect_perform t o
  generalize t.perform o = u at heffect hopen
  obtain ⟨inner, outer⟩ := t
  cases heffect with
  | entered =>
    refine ⟨.empty :: upper, scope, congrArg (_ :: ·) htoList, ?_⟩
    simpa [Operation.binding?] using hentries
  | @left c cs houter =>
    obtain rfl : outer = c :: cs := houter
    cases upper with
    | nil =>
      have hrest : toList ⟨c, cs⟩ = s.toList := List.tail_eq_of_cons_eq htoList
      rw [depth, depth, hrest] at hopen
      exact (Nat.lt_irrefl _ hopen).elim
    | cons top upper =>
      refine ⟨upper, scope, List.tail_eq_of_cons_eq htoList, ?_⟩
      simpa [Operation.binding?] using hentries
  | kept => exact ⟨upper, scope, htoList, by simpa [Operation.binding?] using hentries⟩
  | refused hbound =>
    refine ⟨upper, scope, htoList, ?_⟩
    simpa [Operation.binding?, declare_eq, hbound, Except.isOk, Except.toBool] using hentries
  | @bound x e span hfree =>
    have hbinds : (Operation.declare x e span).binding? ⟨inner, outer⟩ = some (x, e) := by
      rw [Operation.binding?, declare_eq, hfree]
      rfl
    cases upper with
    | nil =>
      obtain ⟨rfl, rfl⟩ := List.cons.inj htoList
      refine ⟨[], _, rfl, ?_⟩
      rw [hbinds, if_pos (by simpa using hdepth)]
      simpa [Scope.insert] using hentries
    | cons top upper =>
      obtain ⟨rfl, rfl⟩ := List.cons.inj htoList
      refine ⟨_ :: upper, scope, rfl, ?_⟩
      rw [if_neg (by rw [hdepth, List.length_cons]; omega), List.append_nil]
      exact hentries

theorem Above.leave? (h : s.Above bound t) (hdepth : t.depth = s.depth + 1) :
    ∃ scope, t.leave? = some (scope, s) ∧ t.inner = scope ∧
      scope.entries = (bound.map fun b => (Scope.key b.1, b.2)).reverse := by
  obtain ⟨upper, scope, htoList, hentries⟩ := h
  have hnone : upper = [] := by simpa [depth, htoList] using hdepth
  subst hnone
  obtain ⟨inner, outer⟩ := t
  obtain ⟨rfl, rfl⟩ := List.cons.inj htoList
  exact ⟨_, rfl, rfl, hentries⟩

end
end Scopes
end MiniPascal
