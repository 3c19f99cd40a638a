import MiniPascal.Proofs.Tree.Labels

/-! The grammar does not say which `if` an `else` belongs to. Whatever tree spells a text, there is
one that spells it with every `else` at the nearest `if`, and that is in order if the other is. -/
namespace MiniPascal

namespace Stmt

/-- An open statement with an `else` behind it. -/
@[simp] def attach : Stmt → Stmt → Stmt
  | ifThen c a, b => if a.isOpen then ifThen c (a.attach b) else ifElse c a b
  | ifElse c a a', b => ifElse c a (a'.attach b)
  | loop c a, b => loop c (a.attach b)
  | st, _ => st

/-- The statement with every `else` at the nearest `if`. -/
@[simp] def regroup : Stmt → Stmt
  | seq a b => seq a.regroup b.regroup
  | ifThen c a => ifThen c a.regroup
  | ifElse c a b =>
    if a.regroup.isOpen then ifThen c (a.regroup.attach b.regroup)
    else ifElse c a.regroup b.regroup
  | loop c a => loop c a.regroup
  | st => st

variable {names : Names} {a b st : Stmt} {ts us : List TokenKind} {part : Part}

theorem attach_nearest (ho : a.isOpen) (ha : a.NearestElse) (hb : b.NearestElse) :
    (a.attach b).NearestElse := by
  induction a with
  | ifThen c a ih =>
    rw [attach]
    split
    · next h => exact ih h ha
    · next h => exact ⟨by simpa using h, ha, hb⟩
  | ifElse c a a' _ ih => exact ⟨ha.1, ha.2.1, ih ho ha.2.2⟩
  | loop c a ih => exact ih ho ha
  | skip | seq | assign | write => cases ho

theorem attach_labels (ho : a.isOpen) : (a.attach b).labels = a.labels + b.labels := by
  induction a with
  | ifThen c a ih =>
    rw [attach]
    split
    · next h =>
      simp only [labels, ih h]
      omega
    · simp only [labels]
      omega
  | ifElse c a a' _ ih =>
    simp only [attach, labels, ih ho]
    omega
  | loop c a ih =>
    simp only [attach, labels, ih ho]
    omega
  | skip | seq | assign | write => cases ho

theorem attach_wellTyped (ho : a.isOpen) :
    (a.attach b).WellTyped names ↔ a.WellTyped names ∧ b.WellTyped names := by
  induction a with
  | ifThen c a ih =>
    rw [attach]
    split
    · next h => simp only [WellTyped, ih h, and_assoc]
    · simp only [WellTyped, and_assoc]
  | ifElse c a a' _ ih => simp only [attach, WellTyped, ih ho, and_assoc]
  | loop c a ih => simp only [attach, WellTyped, ih ho, and_assoc]
  | skip | seq | assign | write => cases ho

theorem attach_spells (h : a.Spells part ts) (ho : a.isOpen) (hb : b.Spells .statement us) :
    (a.attach b).Spells .statement (ts ++ .symbol .elseWord :: us) := by
  induction h with
  | empty | last | lastSemicolon | more | assign | writeNothing | write => cases ho
  | block hs =>
    rw [isOpen_of_spells hs (by simp)] at ho
    cases ho
  | ofCompound _ ih => exact ih ho
  | @ifThen ts vs c a hc ha ih =>
    rw [attach]
    split
    · next h =>
      have hs : (ifThen c (a.attach b)).Spells .statement _ := .ifThen hc (ih h)
      simpa using hs
    · have hs : (ifElse c a b).Spells .statement _ := .ifElse hc ha hb
      simpa using hs
  | @ifElse ts vs ws c a a' hc ha _ _ ih =>
    have hs : (ifElse c a (a'.attach b)).Spells .statement _ := .ifElse hc ha (ih ho)
    simpa using hs
  | @loop ts vs c a hc _ ih =>
    have hs : (loop c (a.attach b)).Spells .statement _ := .loop hc (ih ho)
    simpa using hs

theorem regroup_nearest (st : Stmt) : st.regroup.NearestElse := by
  induction st with
  | skip | assign | write => trivial
  | seq a b iha ihb => exact ⟨iha, ihb⟩
  | ifThen c a ih | loop c a ih => exact ih
  | ifElse c a b iha ihb =>
    rw [regroup]
    split
    · next h => exact attach_nearest h iha ihb
    · next h => exact ⟨by simpa using h, iha, ihb⟩

theorem regroup_labels (st : Stmt) : st.regroup.labels = st.labels := by
  induction st with
  | skip | assign | write => rfl
  | seq a b iha ihb => simp only [regroup, labels, iha, ihb]
  | ifThen c a ih | loop c a ih => simp only [regroup, labels, ih]
  | ifElse c a b iha ihb =>
    rw [regroup]
    split
    · next h => simp only [labels, attach_labels h, iha, ihb]
    · simp only [labels, iha, ihb]

theorem regroup_wellTyped (st : Stmt) : st.regroup.WellTyped names ↔ st.WellTyped names := by
  induction st with
  | skip | assign | write => rfl
  | seq a b iha ihb => simp only [regroup, WellTyped, iha, ihb]
  | ifThen c a ih | loop c a ih => simp only [regroup, WellTyped, ih]
  | ifElse c a b iha ihb =>
    rw [regroup]
    split
    · next h => simp only [WellTyped, attach_wellTyped h, iha, ihb]
    · simp only [WellTyped, iha, ihb]

/-- Regrouping leaves the tokens as they are. -/
theorem regroup_spells (h : st.Spells part ts) : st.regroup.Spells part ts := by
  induction h with
  | empty => exact .empty
  | block _ ih => exact .block ih
  | last _ ih => exact .last ih
  | lastSemicolon _ ih => exact .lastSemicolon ih
  | more _ _ iha ihb => exact .more iha ihb
  | ofCompound _ ih => exact .ofCompound ih
  | assign x he => exact .assign x he
  | writeNothing hx => exact .writeNothing hx
  | write hx hes => exact .write hx hes
  | ifThen hc _ ih => exact .ifThen hc ih
  | loop hc _ ih => exact .loop hc ih
  | ifElse hc _ _ iha ihb =>
    rw [regroup]
    split
    · next h => exact .ifThen hc (attach_spells iha h ihb)
    · exact .ifElse hc iha ihb

end Stmt

namespace Tree

variable {a : Tree} {ts : List TokenKind}

/-- A program with every `else` at the nearest `if`. -/
def regroup (a : Tree) : Tree := { a with body := a.body.regroup }

theorem regroup_spells (h : a.Spells ts) : a.regroup.Spells ts := by
  cases h with
  | plain x hs => exact .plain x (Stmt.regroup_spells hs)
  | declaring x hv hs => exact .declaring x hv (Stmt.regroup_spells hs)

theorem regroup_wellTyped (h : a.WellTyped) : a.regroup.WellTyped :=
  ⟨h.declares, (Stmt.regroup_wellTyped a.body).2 h.body⟩

end Tree
end MiniPascal
