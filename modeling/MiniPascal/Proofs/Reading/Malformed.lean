import MiniPascal.Proofs.Scan.Blanking

/-! Malformed tokens are invisible to a parser. Blanking them out changes nothing of what is read as
a program, and of the errors it takes away those of the malformed tokens. -/
namespace MiniPascal

namespace Reading

variable {r : Reading} {rs : List Reading}

/-- If a parser sees all tokens, the readings are seen as they are. -/
theorem meaningful_of_all (h : ∀ r ∈ rs, r.token.kind.isMeaningful) : meaningful rs = rs := by
  induction rs with
  | nil => rfl
  | cons r rs ih =>
    have hrest := ih fun u hu => h u (List.mem_cons_of_mem r hu)
    rw [meaningful, if_pos (h r List.mem_cons_self), hrest]

theorem tokens_map_unclosed : tokens (rs.map unclosed) = tokens rs := by
  rw [tokens, List.map_map]
  rfl

theorem allErrors_map_unclosed :
    allErrors (rs.map unclosed) = (allErrors rs).filter (·.isUnclosed) := by
  rw [allErrors, List.flatMap_map, allErrors, List.filter_flatMap]
  rfl

end Reading

section
variable {source source' : String}

theorem readings_blanked : readings (blanked source) = (seen source).map Reading.unclosed := by
  have hblanks : Reading.Blanks 0 source.toList (blanked source).toList := by
    rw [blanked, String.toList_ofList]
    exact Reading.blanks_blankFrom fun b _ => rfl
  exact Reading.all_of_blanks hblanks

theorem seen_blanked : seen (blanked source) = (seen source).map Reading.unclosed := by
  rw [seen, readings_blanked]
  refine Reading.meaningful_of_all fun r hr => ?_
  obtain ⟨q, hq, rfl⟩ := List.mem_map.1 hr
  exact Reading.isMeaningful_of_mem (r := q) hq

/-- The errors that have been met in a text without its malformed tokens. -/
theorem errorsAt_of_seen {s : Grammar.State}
    (h : seen source' = (seen source).map Reading.unclosed) :
    errorsAt source' s = (errorsAt source s).filter (·.isUnclosed) := by
  rw [errorsAt, h, List.length_map, ← List.map_take]
  exact Reading.allErrors_map_unclosed

theorem readProgram_of_tokens (h : Reading.tokens (seen source') = Reading.tokens (seen source)) :
    readProgram source' = readProgram source := by
  have hstart : startOf source' = startOf source := by rw [startOf, startOf, h]
  rw [readProgram, readProgram, hstart]

/-- With spaces in the place of its malformed tokens, a text is read as the same program, with the
same rejection if there is one, and only the errors of unclosed comments are left. -/
theorem ofSource_blanked (source : String) :
    Parse.ofSource (blanked source) = { Parse.ofSource source with
      errors := (Parse.ofSource source).errors.filter (·.isUnclosed) } ∧
    tokenize (blanked source) = ((tokenize source).1.filter (·.kind.isMeaningful),
      (tokenize source).2.filter (·.isUnclosed)) ∧
    Text.size (blanked source).toList = Text.size source.toList := by
  have htokens : Reading.tokens (seen (blanked source)) = Reading.tokens (seen source) := by
    rw [seen_blanked, Reading.tokens_map_unclosed]
  refine ⟨?_, ?_, ?_⟩
  · rw [ofSource_eq, ofSource_eq, readProgram_of_tokens htokens]
    cases readProgram source with
    | ok u s => simp only [errorsAt_of_seen seen_blanked]
    | error e s => simp only [errorsAt_of_seen seen_blanked]
  · have herrors : Reading.allErrors (seen source) = (tokenize source).2 :=
      (Reading.meaningful_spread 0 source.toList).2.2
    have hmeaningful : Reading.tokens (seen source) =
        (tokenize source).1.filter (·.kind.isMeaningful) := Reading.tokens_meaningful
    rw [← herrors, ← hmeaningful, tokenize, readings_blanked, Reading.tokens_map_unclosed,
      Reading.allErrors_map_unclosed]
  · rw [blanked, String.toList_ofList, size_blankFrom]

example : blanked "x := 1e é;'no\n\x7bopen" = "x :=      ;   \n\x7bopen" := by decide +kernel

end
end MiniPascal
