import MiniPascal.Proofs.Scan.Spelling

/-! Where no fault is reported, no token is passed over: what a parser sees is all there is. -/
namespace MiniPascal

namespace Reading

variable {offset n : Nat} {cs : List Char} {r : Reading} {rs : List Reading}

theorem all_of_end (h : (next offset cs).1.token.isEnd = true) :
    all offset cs = [(next offset cs).1] := by
  rw [all]
  simp [h]

theorem all_of_not_end (h : (next offset cs).1.token.isEnd = false) :
    all offset cs = (next offset cs).1 ::
      all (next offset cs).1.token.stop (next offset cs).2 := by
  rw [all]
  simp [h]

/-- A token that a parser does not see comes with an error. -/
theorem isMeaningful_next (h : (next offset cs).1.errors = []) :
    (next offset cs).1.token.kind.isMeaningful := by
  unfold next at h ⊢
  dsimp only at h ⊢
  split at h
  · rfl
  · next c rest hr =>
    unfold ofLexeme at h ⊢
    dsimp only at h ⊢
    split at h
    · next k hk =>
      have hread := Lexeme.read_faithful c rest
      rw [Lexeme.Faithful, hk] at hread
      exact hread.1
    · simp at h

/-- Every reading either reports a fault or makes a token a parser sees. -/
def Clear (r : Reading) : Prop := r.errors = [] → r.token.kind.isMeaningful

theorem clear_all (h : r ∈ all offset cs) : r.Clear := by
  induction offset, cs using all.induct with
  | case1 offset cs step hend =>
    rw [all_of_end hend, List.mem_singleton] at h
    subst h
    exact isMeaningful_next
  | case2 offset cs step hend ih =>
    rw [all_of_not_end (Bool.eq_false_iff.2 hend)] at h
    rcases List.mem_cons.1 h with rfl | h
    · exact isMeaningful_next
    · exact ih h

/-- The last token of a text is the one that marks its end. -/
theorem getLast?_all : ((all offset cs).map (·.token.kind)).getLast? = some .endOfText := by
  induction offset, cs using all.induct with
  | case1 offset cs step hend =>
    rw [all_of_end hend]
    simpa [Token.isEnd] using hend
  | case2 offset cs step hend ih =>
    rw [all_of_not_end (Bool.eq_false_iff.2 hend), List.map_cons, List.getLast?_cons, ih]
    rfl

/-- A parser sees the tokens of a text but for those with a fault. -/
theorem tokens_meaningful : tokens (meaningful rs) = (tokens rs).filter (·.kind.isMeaningful) := by
  induction rs with
  | nil => rfl
  | cons r rs ih =>
    rw [meaningful, tokens, tokens, List.map_cons, List.filter_cons]
    split
    · exact congrArg (r.token :: ·) ih
    · refine Eq.trans ?_ ih
      cases meaningful rs <;> rfl

theorem isMeaningful_of_mem (h : r ∈ meaningful rs) : r.token.kind.isMeaningful := by
  have htoken : r.token ∈ tokens (meaningful rs) := List.mem_map_of_mem h
  rw [tokens_meaningful] at htoken
  exact (List.mem_filter.1 htoken).2

theorem kinds_meaningful : (meaningful rs).map (·.token.kind) =
    (rs.map (·.token.kind)).filter (·.isMeaningful) := by
  have h := congrArg (List.map (·.kind)) (@tokens_meaningful rs)
  simpa [tokens, List.filter_map, Function.comp_def] using h

theorem getLast?_meaningful (h : (rs.map (·.token.kind)).getLast? = some .endOfText) :
    ((meaningful rs).map (·.token.kind)).getLast? = some .endOfText := by
  obtain ⟨ks, hk⟩ := List.getLast?_eq_some_iff.1 h
  rw [kinds_meaningful, hk, List.filter_append]
  exact List.getLast?_concat

/-- Up to a point with no errors before it, the readings a parser sees are those of the text. -/
theorem take_meaningful (hc : ∀ r ∈ rs, r.Clear) (hn : n ≤ (meaningful rs).length)
    (he : allErrors ((meaningful rs).take n) = []) : (meaningful rs).take n = rs.take n := by
  induction rs generalizing n with
  | nil => rfl
  | cons r rs ih =>
    cases n with
    | zero => rfl
    | succ n =>
      rw [meaningful] at hn he ⊢
      split at hn <;> rename_i hm
      · simp only [hm, if_true, List.take_succ_cons, allErrors, List.flatMap_cons,
          List.append_eq_nil_iff] at he ⊢
        rw [ih (fun r hr => hc r (by simp [hr])) (by simpa using hn) he.2]
      · exfalso
        have hr : r.errors ≠ [] := fun hr => hm (hc r (by simp) hr)
        simp only [hm] at he
        split at hn
        · simp at hn
        · next m ms hms =>
          simp [hms, allErrors, hr] at he

/-- A text without errors is seen as it is. -/
theorem meaningful_of_errors_nil (hc : ∀ r ∈ rs, r.Clear) (he : allErrors rs = []) :
    meaningful rs = rs := by
  induction rs with
  | nil => rfl
  | cons r rs ih =>
    simp only [allErrors, List.flatMap_cons, List.append_eq_nil_iff] at he
    rw [meaningful, if_pos (hc r (by simp) he.1), ih (fun r hr => hc r (by simp [hr])) he.2]

end Reading
end MiniPascal
