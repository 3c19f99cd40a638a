import MiniPascal.Proofs.Tree.Basic

/-! Scoping and typing of syntax trees as relations, and the type of an expression as a function
that agrees with them. -/
namespace MiniPascal

/-- What each name stands for. -/
abbrev Names := String → Option Entry

/-- The type of a number computed from two numbers. -/
def Ty.wider (a b : Ty) : Ty := if a = .real ∨ b = .real then .real else .integer

/-- The types an operator takes, and the type of what it gives. -/
inductive Connective.Takes : Connective → Ty → Ty → Ty → Prop
  | numbers {c : Connective} {a b : Ty} (hc : c = .plus ∨ c = .minus ∨ c = .times ∨ c = .slash)
    (ha : a.isNumeric) (hb : b.isNumeric) : Takes c a b (a.wider b)
  | strings : Takes .plus .string .string .string
  | integers {c : Connective} (hc : c = .div ∨ c = .mod) : Takes c .integer .integer .integer
  | truths {c : Connective} (hc : c = .and ∨ c = .or) : Takes c .boolean .boolean .boolean
  | ordered {c : Connective} {a b : Ty} (hc : c.rank = .comparing) (ha : a.isNumeric)
    (hb : b.isNumeric) : Takes c a b .boolean
  | alike {c : Connective} {a : Ty} (hc : c = .equal ∨ c = .notEqual)
    (ha : a = .boolean ∨ a = .string) : Takes c a a .boolean

/-- The type of an expression. -/
inductive Expr.HasType (names : Names) : Expr → Ty → Prop
  | var {x : String} {t : Ty} {s : Slot} (hx : names x = some (.var t s)) :
    HasType names (.name x) t
  | named {x : String} {v : Value} (hx : names x = some (.constant v)) :
    HasType names (.name x) v.ty
  | constant (v : Value) : HasType names (.constant v) v.ty
  | signed {e : Expr} {t : Ty} (minus : Bool) (he : HasType names e t) (ht : t.isNumeric) :
    HasType names (.signed minus e) t
  | not {e : Expr} (he : HasType names e .boolean) : HasType names (.not e) .boolean
  | binary {c : Connective} {l r : Expr} {a b t : Ty} (hl : HasType names l a)
    (hr : HasType names r b) (hc : c.Takes a b t) : HasType names (.binary c l r) t

/-- Names are used for what they stand for, and values where their type fits. -/
def Stmt.WellTyped (names : Names) : Stmt → Prop
  | skip => True
  | seq a b => a.WellTyped names ∧ b.WellTyped names
  | assign x e =>
    ∃ t s u, names x = some (.var t s) ∧ e.HasType names u ∧ u.fits t
  | write es => ∀ e ∈ es, ∃ t, e.HasType names t
  | ifThen c a => c.HasType names .boolean ∧ a.WellTyped names
  | ifElse c a b => c.HasType names .boolean ∧ a.WellTyped names ∧ b.WellTyped names
  | loop c a => c.HasType names .boolean ∧ a.WellTyped names

/-- The type of a value, if a name stands for one. -/
def Entry.valueType? : Entry → Option Ty
  | var t _ => some t
  | constant v => some v.ty
  | _ => none

/-- The type of what an operator gives for operands of two types. -/
def Connective.type? (c : Connective) (a b : Ty) : Option Ty :=
  match c with
  | plus => if a.isNumeric && b.isNumeric then some (a.wider b)
    else if a == .string && b == .string then some .string else none
  | minus | times | slash => if a.isNumeric && b.isNumeric then some (a.wider b) else none
  | div | mod => if a == .integer && b == .integer then some .integer else none
  | and | or => if a == .boolean && b == .boolean then some .boolean else none
  | equal | notEqual =>
    if (a.isNumeric && b.isNumeric) || (a == b && (a == .boolean || a == .string)) then
      some .boolean
    else none
  | less | lessOrEqual | greater | greaterOrEqual =>
    if a.isNumeric && b.isNumeric then some .boolean else none

/-- The type of an expression, if it has one. -/
def Expr.type? (names : Names) : Expr → Option Ty
  | name x => (names x).bind Entry.valueType?
  | constant v => some v.ty
  | signed _ e => (e.type? names).filter (·.isNumeric)
  | not e => (e.type? names).filter (· == .boolean)
  | binary c l r => do c.type? (← l.type? names) (← r.type? names)

theorem Connective.type?_of_takes {c : Connective} {a b t : Ty} (h : c.Takes a b t) :
    c.type? a b = some t := by
  cases h with
  | numbers hc ha hb => rcases hc with rfl | rfl | rfl | rfl <;> simp [type?, ha, hb]
  | strings => rfl
  | integers hc => rcases hc with rfl | rfl <;> rfl
  | truths hc => rcases hc with rfl | rfl <;> rfl
  | ordered hc ha hb => cases c <;> simp_all [rank, type?]
  | alike hc ha => rcases hc with rfl | rfl <;> rcases ha with rfl | rfl <;> rfl

theorem Connective.takes_of_type? {c : Connective} {a b t : Ty} (h : c.type? a b = some t) :
    c.Takes a b t := by
  cases c with
  | plus =>
    simp only [type?] at h
    split at h
    · next hn =>
      rw [Bool.and_eq_true] at hn
      cases h
      exact .numbers (by simp) hn.1 hn.2
    · simp only [Option.ite_none_right_eq_some, Bool.and_eq_true, beq_iff_eq,
        Option.some.injEq] at h
      obtain ⟨⟨rfl, rfl⟩, rfl⟩ := h
      exact .strings
  | minus | times | slash =>
    simp only [type?, Option.ite_none_right_eq_some, Bool.and_eq_true, Option.some.injEq] at h
    obtain ⟨⟨ha, hb⟩, rfl⟩ := h
    exact .numbers (by simp) ha hb
  | div | mod =>
    simp only [type?, Option.ite_none_right_eq_some, Bool.and_eq_true, beq_iff_eq,
      Option.some.injEq] at h
    obtain ⟨⟨rfl, rfl⟩, rfl⟩ := h
    exact .integers (by simp)
  | and | or =>
    simp only [type?, Option.ite_none_right_eq_some, Bool.and_eq_true, beq_iff_eq,
      Option.some.injEq] at h
    obtain ⟨⟨rfl, rfl⟩, rfl⟩ := h
    exact .truths (by simp)
  | equal | notEqual =>
    simp only [type?, Option.ite_none_right_eq_some, Bool.or_eq_true, Bool.and_eq_true,
      beq_iff_eq, Option.some.injEq] at h
    rcases h with ⟨⟨ha, hb⟩ | ⟨rfl, ha⟩, rfl⟩
    · exact .ordered rfl ha hb
    · exact .alike (by simp) ha
  | less | lessOrEqual | greater | greaterOrEqual =>
    simp only [type?, Option.ite_none_right_eq_some, Bool.and_eq_true, Option.some.injEq] at h
    obtain ⟨⟨ha, hb⟩, rfl⟩ := h
    exact .ordered rfl ha hb

theorem Connective.type?_eq_some_iff {c : Connective} {a b t : Ty} :
    c.type? a b = some t ↔ c.Takes a b t := ⟨takes_of_type?, type?_of_takes⟩

namespace Expr

variable {names : Names} {e : Expr} {t : Ty}

theorem type?_of_hasType (h : e.HasType names t) : e.type? names = some t := by
  induction h with
  | var hx => simp [type?, hx, Entry.valueType?]
  | named hx => simp [type?, hx, Entry.valueType?]
  | constant v => rfl
  | signed minus _ ht ih => simp [type?, ih, ht]
  | not _ ih => simp [type?, ih]
  | binary _ _ hc ihl ihr => simpa [type?, ihl, ihr] using Connective.type?_of_takes hc

theorem hasType_of_type? (h : e.type? names = some t) : e.HasType names t := by
  induction e generalizing t with
  | name x =>
    cases hx : names x with
    | none => simp [type?, hx] at h
    | some entry =>
      simp only [type?, hx, Option.bind_some] at h
      cases entry with
      | var u s => cases h; exact .var hx
      | constant v => cases h; exact .named hx
      | _ => cases h
  | constant v => cases h; exact .constant v
  | signed minus e ih =>
    simp only [type?, Option.filter_eq_some_iff] at h
    exact .signed minus (ih h.1) h.2
  | not e ih =>
    simp only [type?, Option.filter_eq_some_iff, beq_iff_eq] at h
    obtain ⟨he, rfl⟩ := h
    exact .not (ih he)
  | binary c l r ihl ihr =>
    simp only [type?, Option.bind_eq_bind, Option.bind_eq_some_iff] at h
    obtain ⟨a, ha, b, hb, hc⟩ := h
    exact .binary (ihl ha) (ihr hb) (Connective.takes_of_type? hc)

/-- The function finds the type of every expression that has one. -/
theorem type?_eq_some_iff : e.type? names = some t ↔ e.HasType names t :=
  ⟨hasType_of_type?, type?_of_hasType⟩

theorem HasType.unique {u : Ty} (h : e.HasType names t) (h' : e.HasType names u) : t = u :=
  Option.some.inj ((type?_of_hasType h).symm.trans (type?_of_hasType h'))

end Expr

/-- The names a program cannot declare, with their meanings. -/
def builtinNames : Names := Scope.builtin.find?

/-- The slot of a number. -/
def slotOf (n : Nat) : Slot := ⟨UInt32.ofNat n⟩

/-- What names stand for among the variables: names of one key are one name, and the slots of
variables are counted in the order of their declaration. -/
def variableNames (vs : List (String × Ty)) : Names := fun x =>
  (vs.findIdx? (Scope.key ·.1 == Scope.key x)).bind fun n =>
    vs[n]?.map fun v => .var v.2 (slotOf n)

/-- What names stand for in a program with the given variables. -/
def namesOf (vs : List (String × Ty)) : Names := fun x =>
  (builtinNames x).or (variableNames vs x)

/-- Every name is declared at most once, in letters of either case, and stands for nothing else. -/
structure Declares (vs : List (String × Ty)) : Prop where
  distinct : (vs.map (Scope.key ·.1)).Nodup
  fresh : ∀ v ∈ vs, builtinNames v.1 = none

/-- A program whose names and types are in order. -/
structure Tree.WellTyped (a : Tree) : Prop where
  declares : Declares a.vars
  body : a.body.WellTyped (namesOf a.vars)

end MiniPascal
