import MiniPascal.Proofs.Text.Table

/-! Texts made up of complete lines, each with a line feed behind it. The line table of such a text
gives the lines back. -/
namespace MiniPascal

/-- The text is the lines one after another, each without a break and with a line feed behind it. -/
structure CompleteLines (text : String) (lines : List String) : Prop where
  eq : text = String.join (lines.map (· ++ "\n"))
  unbroken : ∀ l ∈ lines, Text.OnOneLine l.toList

namespace Text

/-- The characters of lines, a line feed behind each. -/
def feeds (bodies : List (List Char)) : List Char := bodies.flatMap (· ++ ['\n'])

variable {n offset i : Nat} {body front rest : List Char} {bodies : List (List Char)}

theorem feeds_cons : feeds (body :: bodies) = body ++ '\n' :: feeds bodies := by simp [feeds]

/-- The first line of a text ends at its first line feed, if nothing else breaks it. -/
theorem split_feed (hb : OnOneLine body) : Line.split n offset (body ++ '\n' :: rest) =
    ⟨n, offset + size body - n, offset + size body - n + 1⟩ ::
      Line.split (offset + size body + 1) (offset + size body + 1) rest := by
  induction body generalizing offset with
  | nil => simp [Line.split]
  | cons c body ih =>
    obtain ⟨⟨hr, hn⟩, hbody⟩ := List.forall_mem_cons.1 hb
    rw [List.cons_append, Line.split, if_neg (not_or.2 ⟨hr, hn⟩), ih hbody, size_cons,
      Nat.add_assoc]
    exact fun _ hc => absurd hc hr

theorem length_split_feeds (hb : ∀ b ∈ bodies, OnOneLine b) :
    (Line.split n n (feeds bodies)).length = bodies.length := by
  induction bodies generalizing n with
  | nil => simp [feeds, Line.split]
  | cons body bodies ih =>
    obtain ⟨hbody, hrest⟩ := List.forall_mem_cons.1 hb
    rw [feeds_cons, split_feed hbody, List.length_cons, ih hrest, List.length_cons]

/-- The lines are found where the line table says, behind whatever is in front of them. -/
theorem slice?_split_feeds (hb : ∀ b ∈ bodies, OnOneLine b) (hn : n = size front) :
    ((Line.split n n (feeds bodies))[i]?.bind fun l =>
      slice? (front ++ feeds bodies) l.start l.length) = bodies[i]? := by
  induction bodies generalizing n front i with
  | nil => simp [feeds, Line.split]
  | cons body bodies ih =>
    obtain ⟨hbody, hrest⟩ := List.forall_mem_cons.1 hb
    rw [feeds_cons, split_feed hbody]
    cases i with
    | zero =>
      have hslice := @slice?_append front body ('\n' :: feeds bodies)
      rw [List.append_assoc] at hslice
      simpa [hn] using hslice
    | succ i =>
      have hnext : n + size body + 1 = size (front ++ body ++ ['\n']) := by
        simp [hn, Char.utf8Size, Nat.add_assoc]
      have hlater := ih (i := i) hrest hnext
      simpa using hlater

end Text

namespace CompleteLines

variable {text : String} {ls ls' : List String}

theorem toList_eq (h : CompleteLines text ls) :
    text.toList = Text.feeds (ls.map String.toList) := by
  rw [h.eq, String.toList_join, Text.feeds, List.flatMap_map, List.flatMap_map]
  simp

theorem onOneLine (h : CompleteLines text ls) :
    ∀ b ∈ ls.map String.toList, Text.OnOneLine b := by
  intro b hb
  obtain ⟨l, hl, rfl⟩ := List.mem_map.1 hb
  exact h.unbroken l hl

/-- The text has no other lines. -/
theorem length_lines (h : CompleteLines text ls) :
    (SourceText.ofString text).lines.length = ls.length := by
  have hlength := Text.length_split_feeds (n := 0) h.onOneLine
  rwa [← h.toList_eq, List.length_map] at hlength

/-- The line table of the text leads to the lines. -/
theorem lineText? (h : CompleteLines text ls) (i : Nat) :
    (SourceText.ofString text).lineText? i = ls[i]?.map String.toList := by
  have hslice := @Text.slice?_split_feeds 0 i [] _ h.onOneLine rfl
  rw [List.nil_append, ← h.toList_eq, List.getElem?_map] at hslice
  exact hslice

/-- A text is made up of complete lines in one way only. -/
theorem unique (h : CompleteLines text ls) (h' : CompleteLines text ls') : ls = ls' := by
  refine List.ext_getElem? fun i => ?_
  have hi := (h.lineText? i).symm.trans (h'.lineText? i)
  exact Option.map_injective (fun _ _ => String.toList_inj.1) hi

end CompleteLines
end MiniPascal
