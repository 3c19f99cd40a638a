import MiniPascal.Proofs.Machine.Preservation
import MiniPascal.Proofs.Scan.Constants

/-! A program that prints an integer and a string. What it prints is what its text says, but for the
least integer: a sign is no part of a number, and the number behind the sign does not fit. -/
namespace MiniPascal

/-- The text of a program that prints an integer and a string, on a line each. -/
def printingText (n : Int32) (s : String) : String :=
  "program p; begin writeln(" ++ toString n.toInt ++ ", '" ++ s ++ "') end."

/-- The tokens between the brackets. -/
def printedTokens (n : Int32) (s : String) : List TokenKind :=
  integerTokens n ++ .symbol .comma :: [.string s]

/-- The tokens of the text, up to the point. -/
def printingTokens (n : Int32) (s : String) : List TokenKind :=
  headingTokens "p" ++ (.symbol .beginWord :: (.identifier "writeln" :: .symbol .leftParen ::
    (printedTokens n s ++ [.symbol .rightParen]) ++ [.symbol .endWord]) ++ [.symbol .dot])

/-- An integer as an expression. -/
def integerExpr (n : Int32) : Expr :=
  if n.toInt < 0 then .signed true (.constant (.integer (-n))) else .constant (.integer n)

/-- The program as a tree. -/
def printingTree (n : Int32) (s : String) : Tree :=
  ⟨[], .seq (.write [integerExpr n, .constant (.string s)]) .skip⟩

section
variable {n : Int32} {s : String} {rest : List Char} {ks : List TokenKind} {q : Progress}

theorem toList_pieces (a b c d e : String) : (a ++ b ++ c ++ d ++ e).toList =
    a.toList ++ (b.toList ++ (c.toList ++ (d.toList ++ e.toList))) := by
  simp only [String.toList_append, List.append_assoc]

theorem toList_printingText : (printingText n s).toList = "program p; begin writeln(".toList ++
    ((toString n.toInt).toList ++ (", '".toList ++ (s.toList ++ "') end.".toList))) :=
  toList_pieces _ _ _ _ _

/-- The text up to the first bracket. -/
theorem lexed_opening (h : Lexed rest ks) : Lexed ("program p; begin writeln(".toList ++ rest)
    (.symbol .programWord :: .identifier "p" :: .symbol .semicolon :: .symbol .beginWord ::
      .identifier "writeln" :: .symbol .leftParen :: ks) := by
  have hprogram : Lexeme.Leads "program".toList (.symbol .programWord) [' '] := by decide +kernel
  have hname : Lexeme.Leads "p".toList (.identifier "p") [';'] := by decide +kernel
  have hsemicolon : Lexeme.Leads ";".toList (.symbol .semicolon) [' '] := by decide +kernel
  have hbegin : Lexeme.Leads "begin".toList (.symbol .beginWord) [' '] := by decide +kernel
  have hwriteln : Lexeme.Leads "writeln".toList (.identifier "writeln") ['('] := by decide +kernel
  have hopen : Lexeme.Leads ['('] (.symbol .leftParen) rest :=
    Lexeme.leads_symbol (by decide) rfl rfl fun _ => rfl
  -- The pieces are put together from the last one on: each is read in front of the next.
  have hcall := Lexed.spaced (hwriteln.more (by decide)) (.next hopen h)
  have hblock := Lexed.spaced (hbegin.more (by decide)) hcall
  have hheading := Lexed.next (hprogram.more (by decide))
    (.spaced (hname.more (by decide)) (.next (hsemicolon.more (by decide)) hblock))
  exact hheading

/-- The text from the comma on. -/
theorem lexed_closing (hs : ∀ x ∈ s.toList, Lexeme.isStringChar x) :
    Lexed (", '".toList ++ (s.toList ++ "') end.".toList))
      [.symbol .comma, .string s, .symbol .rightParen, .symbol .endWord, .symbol .dot] := by
  have hcomma : Lexeme.Leads ",".toList (.symbol .comma) [' '] := by decide +kernel
  have hclose : Lexeme.Leads ")".toList (.symbol .rightParen) [' '] := by decide +kernel
  have hend : Lexeme.Leads "end".toList (.symbol .endWord) ['.'] := by decide +kernel
  have hdot : Lexeme.Leads ".".toList (.symbol .dot) [] := by decide +kernel
  have hstring : Lexeme.Leads (Lexeme.quote :: (s.toList ++ [Lexeme.quote])) (.string s)
      ") end.".toList := Lexeme.leads_string hs
  have hbehind := Lexed.next (hclose.more (by decide))
    (.spaced hend (.next hdot (.filler .nil)))
  have hlexed := Lexed.next (hcomma.more (by decide)) (.spaced hstring hbehind)
  have htext : ", '".toList ++ (s.toList ++ "') end.".toList) = ',' :: ' ' ::
      (Lexeme.quote :: (s.toList ++ [Lexeme.quote]) ++ ") end.".toList) := by
    rw [List.cons_append, List.append_assoc]
    rfl
  rw [htext]
  exact hlexed

theorem lexed_printingText (hn : n ≠ Int32.minValue) (hs : ∀ x ∈ s.toList, Lexeme.isStringChar x) :
    Lexed (printingText n s).toList (printingTokens n s) := by
  have hbehind : EndsInteger (',' :: (" '".toList ++ (s.toList ++ "') end.".toList))) :=
    Lexeme.endsInteger_cons (by decide) (by decide) (by decide)
  have hlexed := lexed_opening (lexed_integer hn hbehind (lexed_closing hs))
  have htokens : printingTokens n s = .symbol .programWord :: .identifier "p" ::
      .symbol .semicolon :: .symbol .beginWord :: .identifier "writeln" :: .symbol .leftParen ::
        (integerTokens n ++ [.symbol .comma, .string s, .symbol .rightParen, .symbol .endWord,
          .symbol .dot]) := by
    simp [printingTokens, printedTokens, headingTokens]
  rw [toList_printingText, htokens]
  exact hlexed

theorem integerExpr_spells : (integerExpr n).Spells .comparison (integerTokens n) := by
  have hnumber : ∀ m, (Expr.constant (.integer m)).Spells .term [.integer m] := fun m =>
    .ofFactor (.constant rfl)
  rw [integerExpr, integerTokens]
  split
  · exact .ofSum (.signed true (hnumber (-n)))
  · exact .ofSum (.ofTerm (hnumber n))

theorem integerExpr_eval {m : Memory} : (integerExpr n).eval m = .ok (.integer n) := by
  rw [integerExpr]
  split
  · have hback : Int32.ofInt (-(-n).toInt) = n := by
      rw [Int32.ofInt_neg, Int32.ofInt_toInt, Int32.neg_neg]
    exact congrArg (Except.ok ∘ Value.integer) hback
  · rfl

theorem printingTree_spells : (printingTree n s).Spells (printingTokens n s) :=
  .plain "p" (.block (.last (.write (x := "writeln") (by decide +kernel)
    (.more integerExpr_spells (.one (.ofSum (.ofTerm (.ofFactor (.constant rfl)))))))))

theorem printingTree_wellTyped : (printingTree n s).WellTyped := by
  refine ⟨⟨by simp [printingTree], by simp [printingTree]⟩, fun e he => ?_, trivial⟩
  simp only [List.mem_cons, List.not_mem_nil, or_false] at he
  rcases he with rfl | rfl
  · rw [integerExpr]
    split
    · exact ⟨_, .signed true (.constant _) rfl⟩
    · exact ⟨_, .constant _⟩
  · exact ⟨_, .constant _⟩

theorem denotes_printingText (h : kindsOf (printingText n s) =
    printingTokens n s ++ [.endOfText]) : Denotes (printingText n s) (printingTree n s) := by
  refine ⟨?_, trivial, trivial⟩
  rw [h, sentence_of_spells printingTree_spells]
  exact printingTree_spells

theorem printAll_pair {v w : Value} {e f : Expr} (he : e.eval q.memory = .ok v)
    (hf : f.eval q.memory = .ok w) : printAll [e, f] q = .done ((q.print v).print w) := by
  have hf' : f.eval (q.print v).memory = .ok w := hf
  rw [printAll, he, Progress.use, printAll, hf']
  rfl

/-- The program prints its two lines and nothing else. -/
theorem printingTree_terminates :
    (printingTree n s).Terminates (toString n.toInt ++ "\n" ++ s ++ "\n").toUTF8 := by
  have hstring : (Expr.constant (.string s)).eval (.initial []) = .ok (.string s) := rfl
  have hprint := @printAll_pair ⟨.initial [], .empty⟩ _ _ _ _ (@integerExpr_eval n _) hstring
  have hbytes : ByteArray.empty ++ (toString n.toInt ++ "\n").toUTF8 ++ (s ++ "\n").toUTF8 =
      (toString n.toInt ++ "\n" ++ s ++ "\n").toUTF8 := by
    rw [ByteArray.empty_append]
    simp only [String.toUTF8, String.toByteArray_append, ByteArray.append_assoc]
  refine ⟨0, .initial [], ?_⟩
  rw [← hbytes]
  exact congrArg (Outcome.andThen · Outcome.done) hprint

/-- An integer and a string are printed as they are written, each on its line, if the integer is not
the least and the string can be in quotes. -/
theorem literals_print_themselves (hn : n ≠ Int32.minValue)
    (hs : ∀ c ∈ s.toList, c ≠ '\x27' ∧ c ≠ '\r' ∧ c ≠ '\n') :
    ∃ p, compile (printingText n s) = .ok p ∧
      p.Terminates (toString n.toInt ++ "\n" ++ s ++ "\n").toUTF8 := by
  have hchars : ∀ c ∈ s.toList, Lexeme.isStringChar c := fun c hc =>
    Lexeme.isStringChar_iff.2 (hs c hc)
  obtain ⟨herrors, hkinds⟩ := kinds_of_lexed (lexed_printingText hn hchars)
  have hl : (printingTree n s).body.labels < UInt32.size := Nat.zero_lt_succ _
  have hruns : ∀ fuel, (printingTree n s).RunsAs fuel ((printingTree n s).run fuel) := fun fuel =>
    Tree.program_runs printingTree_wellTyped hl (Nat.zero_le _)
  exact ⟨_, compile_of_denotes herrors (denotes_printingText hkinds) printingTree_wellTyped hl,
    (Tree.terminates_iff hruns).2 printingTree_terminates⟩

/-- The integer next to the least, and a string with what is code elsewhere. -/
theorem literals_print_themselves_code : ∃ p,
    compile "program p; begin writeln(-2147483647, '\x7bend\x7d é') end." = .ok p ∧
      p.Terminates "-2147483647\n\x7bend\x7d é\n".toUTF8 := by
  have htext : printingText (-2147483647) "\x7bend\x7d é" =
      "program p; begin writeln(-2147483647, '\x7bend\x7d é') end." := by decide +kernel
  have hlines : toString (-2147483647 : Int32).toInt ++ "\n" ++ "\x7bend\x7d é" ++ "\n" =
      "-2147483647\n\x7bend\x7d é\n" := by decide +kernel
  have hchars : "\x7bend\x7d é".toList.all fun c => c ≠ '\x27' ∧ c ≠ '\r' ∧ c ≠ '\n' := by
    decide +kernel
  rw [← htext, ← hlines]
  exact literals_print_themselves (by decide) fun c hc =>
    of_decide_eq_true (List.all_eq_true.1 hchars c hc)

/-- The digits of the least integer are no number: it cannot be written. -/
theorem least_integer_unwritable :
    ¬ ∃ p, compile (printingText Int32.minValue "c") = .ok p ∧
      p.Terminates (toString Int32.minValue.toInt ++ "\n" ++ "c" ++ "\n").toUTF8 := by
  rintro ⟨p, hp, -⟩
  have hrefused : (compile (printingText Int32.minValue "c")).toOption = none := by decide +kernel
  rw [hp] at hrefused
  cases hrefused

end
end MiniPascal
