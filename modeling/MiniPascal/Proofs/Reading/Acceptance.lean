import MiniPascal.Proofs.Reading.Source
import MiniPascal.Proofs.Tree.Attachment

/-! Which texts compile, and to what. -/
namespace MiniPascal

variable {source : String} {p : Program}

/-- Any tree of the sentence of a text that is in order makes the text compile. -/
theorem exists_compile_of_spells {a : Tree} (he : (tokenize source).2 = [])
    (hs : a.Spells (sentence (kindsOf source))) (ht : a.WellTyped)
    (hl : a.body.labels < UInt32.size) : ∃ p, compile source = .ok p := by
  have hd : Denotes source a.regroup :=
    ⟨Tree.regroup_spells hs, Stmt.regroup_nearest a.body⟩
  have hl' : a.regroup.body.labels < UInt32.size := by
    rw [Tree.regroup, Stmt.regroup_labels]
    exact hl
  exact ⟨_, compile_of_denotes he hd (Tree.regroup_wellTyped ht) hl'⟩

/-- A text without lexical errors compiles if and only if its tokens up to the first point spell a
tree whose names and types are in order, however its `else`s are attached. It then compiles to the
program of the tree whose `else`s are at the nearest `if`. Labels are counted in 32 bits. -/
theorem compile_eq_ok_iff (he : (tokenize source).2 = []) :
    ((∃ p, compile source = .ok p) ↔
      ∃ a : Tree, a.Spells (sentence (kindsOf source)) ∧ a.WellTyped ∧
        a.body.labels < UInt32.size) ∧
    ∀ p, compile source = .ok p ↔
      ∃ a, Denotes source a ∧ a.WellTyped ∧ a.body.labels < UInt32.size ∧ p = a.program := by
  refine ⟨⟨?_, ?_⟩, fun p => ⟨denotes_of_compile, ?_⟩⟩
  · rintro ⟨p, hp⟩
    obtain ⟨a, ha, ht, hl, -⟩ := denotes_of_compile hp
    exact ⟨a, ha.spells, ht, hl⟩
  · rintro ⟨a, hs, ht, hl⟩
    exact exists_compile_of_spells he hs ht hl
  · rintro ⟨a, ha, ht, hl, rfl⟩
    exact compile_of_denotes he ha ht hl

/-- An `else` behind two choices: the text is accepted by way of the tree that gives it to the
first. -/
theorem compile_nested_choices :
    (tokenize "program p; begin if true then if false then begin end else begin end end.").2 = [] ∧
    ∃ p, compile
      "program p; begin if true then if false then begin end else begin end end." = .ok p := by
  have he : (tokenize
      "program p; begin if true then if false then begin end else begin end end.").2 = [] := by
    decide +kernel
  have spells : ∀ x, (Expr.name x).Spells .comparison [.identifier x] := fun x =>
    .ofSum (.ofTerm (.ofFactor (.name x)))
  have typed : ∀ x b, namesOf [] x = some (.constant (.boolean b)) →
      (Expr.name x).HasType (namesOf []) .boolean := fun x b hx => .named hx
  refine ⟨he, (compile_eq_ok_iff he).1.2 ⟨⟨[], .seq (.ifElse (.name "true")
    (.ifThen (.name "false") .skip) .skip) .skip⟩, ?_, ⟨⟨by simp, by simp⟩, ?_⟩, by decide⟩⟩
  · have hs : Tree.Spells _ ⟨[], .seq (.ifElse (.name "true")
        (.ifThen (.name "false") .skip) .skip) .skip⟩ :=
      .plain "p" (.block (.last (.ifElse (spells "true")
        (.ifThen (spells "false") (.ofCompound .empty)) (.ofCompound .empty))))
    exact Eq.mp (congrArg (Tree.Spells · _) (by decide +kernel)) hs
  · exact ⟨⟨typed "true" true (by decide +kernel), ⟨typed "false" false (by decide +kernel),
      trivial⟩, trivial⟩, trivial⟩

end MiniPascal
