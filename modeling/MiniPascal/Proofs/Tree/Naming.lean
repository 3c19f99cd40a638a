import MiniPascal.Proofs.Tree.Typing

/-! What names stand for in a program, and when one more name can be declared. -/
namespace MiniPascal

namespace Scope

variable {s : Scope} {x y : String} {e : Entry}

theorem find?_insert :
    (s.insert x e).find? y = if key y == key x then some e else s.find? y := by
  simp only [find?, insert, List.lookup_cons]
  split <;> simp_all

theorem find?_congr (h : key x = key y) : s.find? x = s.find? y := by
  rw [find?, find?, h]

end Scope

section
variable {vs ws : List (String × Ty)} {x y : String} {t : Ty} {s : Slot} {e : Entry}

theorem variableNames_append :
    variableNames (vs ++ [(x, t)]) y = (variableNames vs y).or
      (if Scope.key x == Scope.key y then some (.var t (slotOf vs.length)) else none) := by
  simp only [variableNames, List.findIdx?_append]
  cases hv : vs.findIdx? (Scope.key ·.1 == Scope.key y) with
  | none =>
    by_cases hk : Scope.key x == Scope.key y
    · simp [List.findIdx?_cons, hk]
    · simp [List.findIdx?_cons, hk]
  | some n =>
    have hn := (List.findIdx?_eq_some_iff_getElem.1 hv).choose
    simp [List.getElem?_append_left hn, List.getElem?_eq_getElem hn]

theorem variableNames_eq_none_iff :
    variableNames vs x = none ↔ ∀ v ∈ vs, Scope.key v.1 ≠ Scope.key x := by
  constructor
  · intro h v hv hk
    cases hf : vs.findIdx? (Scope.key ·.1 == Scope.key x) with
    | none =>
      have hne := List.findIdx?_eq_none_iff.1 hf v hv
      simp [hk] at hne
    | some n =>
      have hn := (List.findIdx?_eq_some_iff_getElem.1 hf).choose
      simp [variableNames, hf, List.getElem?_eq_getElem hn] at h
  · intro h
    have hf : vs.findIdx? (Scope.key ·.1 == Scope.key x) = none :=
      List.findIdx?_eq_none_iff.2 fun v hv => by simpa using h v hv
    simp [variableNames, hf]

theorem namesOf_eq_none_iff :
    namesOf vs x = none ↔ builtinNames x = none ∧ variableNames vs x = none := by
  simp [namesOf, Option.or_eq_none_iff]

/-- One more name is in order if it stands for nothing yet. -/
theorem declares_append_iff :
    Declares (vs ++ [(x, t)]) ↔ Declares vs ∧ namesOf vs x = none := by
  constructor
  · intro h
    have hd := h.distinct
    rw [List.map_append, List.nodup_append] at hd
    obtain ⟨hd, -, hne⟩ := hd
    refine ⟨⟨hd, fun v hv => h.fresh v (by simp [hv])⟩, ?_⟩
    refine namesOf_eq_none_iff.2 ⟨h.fresh (x, t) (by simp), variableNames_eq_none_iff.2 ?_⟩
    intro v hv
    exact hne _ (List.mem_map_of_mem hv) _ (by simp)
  · rintro ⟨h, hx⟩
    obtain ⟨hb, hv⟩ := namesOf_eq_none_iff.1 hx
    rw [variableNames_eq_none_iff] at hv
    constructor
    · rw [List.map_append, List.nodup_append]
      refine ⟨h.distinct, by simp, ?_⟩
      intro k hk k' hk'
      obtain ⟨v, hmem, rfl⟩ := List.mem_map.1 hk
      simp only [List.map_cons, List.map_nil, List.mem_singleton] at hk'
      subst hk'
      exact hv v hmem
    · intro v hmem
      rcases List.mem_append.1 hmem with hmem | hmem
      · exact h.fresh v hmem
      · simp only [List.mem_singleton] at hmem
        subst hmem
        exact hb

theorem Declares.of_append (h : Declares (vs ++ ws)) : Declares vs := by
  have hd := h.distinct
  rw [List.map_append, List.nodup_append] at hd
  exact ⟨hd.1, fun v hv => h.fresh v (by simp [hv])⟩

/-- A variable is found at the number of its slot. -/
theorem variableNames_eq_some (h : variableNames vs x = some e) :
    ∃ n, ∃ hn : n < vs.length, e = .var vs[n].2 (slotOf n) ∧
      vs.find? (Scope.key ·.1 == Scope.key x) = some vs[n] := by
  rw [variableNames] at h
  cases hf : vs.findIdx? (Scope.key ·.1 == Scope.key x) with
  | none => simp [hf] at h
  | some n =>
    obtain ⟨hn, hk, -⟩ := List.findIdx?_eq_some_iff_getElem.1 hf
    simp only [hf, Option.bind_some, List.getElem?_eq_getElem hn, Option.map_some,
      Option.some.injEq] at h
    refine ⟨n, hn, h.symm, ?_⟩
    rw [List.find?_eq_bind_findIdx?_getElem?, hf]
    exact List.getElem?_eq_getElem hn

/-- The names of types come before those of the truth values. -/
theorem lookup_types (us : List Ty) (rest : List (String × Entry)) (key : String) :
    ((us.map fun u => (u.name, Entry.type u)) ++ rest).lookup key =
      match us.find? (·.name == key) with
      | some u => some (.type u)
      | none => rest.lookup key := by
  induction us with
  | nil => rfl
  | cons u us ih =>
    simp only [List.map_cons, List.cons_append, List.lookup_cons, List.find?_cons]
    rw [BEq.comm]
    cases u.name == key
    · exact ih
    · rfl

theorem builtinNames_eq (x : String) : builtinNames x = match Ty.ofName? x with
    | some t => some (.type t)
    | none => [("true", Entry.constant (.boolean true)), ("false", .constant (.boolean false))]
      |>.lookup (Scope.key x) := lookup_types Ty.all _ _

/-- The built-in names stand for types and truth values. -/
theorem builtinNames_eq_some (h : builtinNames x = some e) :
    (∃ t, e = .type t ∧ Ty.ofName? x = some t) ∨ ∃ b, e = .constant (.boolean b) := by
  rw [builtinNames_eq] at h
  cases ht : Ty.ofName? x with
  | some t =>
    rw [ht] at h
    exact .inl ⟨t, (Option.some.inj h).symm, rfl⟩
  | none =>
    simp only [ht, List.lookup_cons, List.lookup_nil] at h
    split at h
    · exact .inr ⟨true, (Option.some.inj h).symm⟩
    · split at h
      · exact .inr ⟨false, (Option.some.inj h).symm⟩
      · cases h

theorem builtinNames_eq_type_iff : builtinNames x = some (.type t) ↔ Ty.ofName? x = some t := by
  constructor
  · intro h
    rcases builtinNames_eq_some h with ⟨u, hu, hx⟩ | ⟨b, hb⟩
    · cases hu
      exact hx
    · cases hb
  · intro h
    rw [builtinNames_eq, h]

theorem builtinNames_ne_var : builtinNames x ≠ some (.var t s) := by
  intro h
  rcases builtinNames_eq_some h with ⟨u, hu, -⟩ | ⟨b, hb⟩
  · cases hu
  · cases hb

/-- What is no variable is built in. -/
theorem namesOf_eq_some_iff (he : ∀ t s, e ≠ .var t s) :
    namesOf vs x = some e ↔ builtinNames x = some e := by
  rw [namesOf]
  cases hb : builtinNames x with
  | some e' => simp
  | none =>
    simp only [Option.none_or]
    constructor
    · intro h
      obtain ⟨n, hn, rfl, -⟩ := variableNames_eq_some h
      exact absurd rfl (he _ _)
    · intro h
      cases h

/-- What a program declares is never a type, so the type names are the built-in ones. -/
theorem namesOf_eq_type_iff : namesOf vs x = some (.type t) ↔ Ty.ofName? x = some t :=
  (namesOf_eq_some_iff (by simp)).trans builtinNames_eq_type_iff

theorem variableNames_of_namesOf (h : namesOf vs x = some (.var t s)) :
    variableNames vs x = some (.var t s) := by
  rw [namesOf] at h
  cases hb : builtinNames x with
  | none => simpa [hb] using h
  | some e =>
    rw [hb, Option.some_or] at h
    exact absurd (hb.trans h) builtinNames_ne_var

end
end MiniPascal
