import MiniPascal.Proofs.Reading.Source
import MiniPascal.Proofs.Scan.Calls
import MiniPascal.Proofs.Scan.Errors

/-! How a parser gets its tokens. It asks a scanner for one token after another and passes over
those with a fault. The offset of the scanner grows with each of them, so there is always a token
behind them, at the latest the end of the text. -/
namespace MiniPascal

namespace Scanner

/-- The scanner passes over so many tokens with a fault, then hands out a token. -/
inductive Skips : Scanner → Nat → Token → Scanner → Prop
  | stop {s : Scanner} (h : s.nextToken.1.kind.isMeaningful) :
    Skips s 0 s.nextToken.1 s.nextToken.2
  | skip {s s' : Scanner} {k : Nat} {t : Token} (h : s.nextToken.1.kind.isMeaningful = false)
    (hs : Skips s.nextToken.2 k t s') : Skips s (k + 1) t s'

/-- The tokens that a parser is handed one after another, up to the end of the text. -/
inductive Feeds : Scanner → List Token → Prop
  | last {s s' : Scanner} {k : Nat} {t : Token} (h : s.Skips k t s') (hend : t.isEnd = true) :
    Feeds s [t]
  | more {s s' : Scanner} {k : Nat} {t : Token} {ts : List Token} (h : s.Skips k t s')
    (hend : t.isEnd = false) (hs : Feeds s' ts) : Feeds s (t :: ts)

/-- Every token takes the scanner further, until there is nothing left of the text. -/
structure Progresses (s : Scanner) : Prop where
  further : s.nextToken.1.isEnd = false → s.offset < s.nextToken.2.offset
  within : s.nextToken.2.offset + Text.size s.nextToken.2.rest = s.offset + Text.size s.rest
  /-- Passing over tokens with a fault comes to an end. -/
  skips : ∃ k t s', s.Skips k t s' ∧ k ≤ s.rest.length

variable {s : Scanner} {t : Token} {ts : List Token}

theorem isEnd_of_not_isMeaningful (h : t.kind.isMeaningful = false) : t.isEnd = false := by
  obtain ⟨kind, span⟩ := t
  cases kind with
  | endOfText => cases h
  | _ => rfl

/-- A token that is not the end of the text moves the scanner on. -/
theorem offset_lt (h : s.nextToken.1.isEnd = false) : s.offset < s.nextToken.2.offset := by
  have hstart : s.offset ≤ s.nextToken.1.span.offset := (Reading.next_reports s.offset s.rest).start
  have hstop : s.nextToken.1.span.offset < s.nextToken.2.offset := Reading.offset_lt_stop h
  omega

theorem length_rest_lt (h : s.nextToken.1.isEnd = false) :
    s.nextToken.2.rest.length < s.rest.length :=
  Reading.length_next_lt h

/-- There are no more tokens with a fault than characters. -/
theorem exists_skips (s : Scanner) : ∃ k t s', s.Skips k t s' ∧ k ≤ s.rest.length := by
  by_cases hm : s.nextToken.1.kind.isMeaningful = true
  · exact ⟨0, _, _, .stop hm, Nat.zero_le _⟩
  · have hfault : s.nextToken.1.kind.isMeaningful = false := Bool.eq_false_iff.2 hm
    have hshorter := length_rest_lt (isEnd_of_not_isMeaningful hfault)
    obtain ⟨k, t, s', hs, hk⟩ := exists_skips s.nextToken.2
    exact ⟨k + 1, t, s', .skip hfault hs, Nat.lt_of_le_of_lt hk hshorter⟩
termination_by s.rest.length

theorem progresses (s : Scanner) : s.Progresses :=
  ⟨offset_lt, Reading.stop_add_size, exists_skips s⟩

theorem Feeds.skip (h : s.nextToken.2.Feeds ts) (hf : s.nextToken.1.kind.isMeaningful = false) :
    s.Feeds ts := by
  cases h with
  | last hs hend => exact .last (.skip hf hs) hend
  | more hs hend hrest => exact .more (.skip hf hs) hend hrest

/-- A parser is handed the tokens of the text that have no fault. -/
theorem feeds_all (n : Nat) (cs : List Char) : ∀ s : Scanner, s.offset = n → s.rest = cs →
    s.Feeds (Reading.tokens (Reading.meaningful (Reading.all n cs))) := by
  induction n, cs using Reading.all.induct with
  | case1 n cs step hend =>
    rintro s rfl rfl
    have htoken : s.nextToken.1.kind = .endOfText := eq_of_beq hend
    have hm : s.nextToken.1.kind.isMeaningful := by rw [htoken]; rfl
    have hall : Reading.tokens (Reading.meaningful (Reading.all s.offset s.rest)) =
        [s.nextToken.1] := by
      rw [Reading.tokens_meaningful, Reading.all_of_end hend]
      exact List.filter_cons_of_pos hm
    rw [hall]
    exact .last (.stop hm) hend
  | case2 n cs step hend ih =>
    rintro s rfl rfl
    have hnot : s.nextToken.1.isEnd = false := Bool.eq_false_iff.2 hend
    have hrest := ih s.nextToken.2 rfl rfl
    rw [Reading.tokens_meaningful] at hrest ⊢
    rw [Reading.all_of_not_end hnot, Reading.tokens, List.map_cons, List.filter_cons]
    split
    · next hm => exact .more (.stop hm) hnot hrest
    · next hm => exact hrest.skip (Bool.eq_false_iff.2 hm)

/-- Reading a text as a program begins with the tokens that its scanner hands out. -/
theorem feeds_ofString (source : String) :
    (ofString source).Feeds (Reading.tokens (seen source)) :=
  feeds_all 0 source.toList (ofString source) rfl rfl

end Scanner
end MiniPascal
