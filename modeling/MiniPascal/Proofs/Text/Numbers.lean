import MiniPascal.Proofs.Json.Number
import MiniPascal.Proofs.Scan.Pieces

/-! The texts of numbers. Whatever the notation, there is no line break in them. -/
namespace MiniPascal

namespace Text

instance : DecidablePred OnOneLine := fun cs =>
  List.decidableBAll (fun c => c ≠ '\r' ∧ c ≠ '\n') cs

variable {cs : List Char} {n : Nat}

theorem onOneLine_of_isDigit (h : ∀ c ∈ cs, c.isDigit = true) : OnOneLine cs := by
  intro c hc
  have hdigit := h c hc
  constructor
  · rintro rfl
    cases hdigit
  · rintro rfl
    cases hdigit

theorem onOneLine_toDigits : OnOneLine (Nat.toDigits 10 n) :=
  onOneLine_of_isDigit fun _ => Decimal.isDigit_toDigits

theorem onOneLine_zeros : OnOneLine (List.replicate n '0') := by
  refine onOneLine_of_isDigit fun c hc => ?_
  rw [List.eq_of_mem_replicate hc]
  rfl

theorem onOneLine_int (n : Int) : OnOneLine (toString n).toList := by
  rw [toList_toString]
  refine .append ?_ onOneLine_toDigits
  split
  · decide
  · exact .nil

end Text

namespace RealNotation
open Text

variable (n : RealNotation) (d : Decimal) (x : Float)

theorem onOneLine_positionalText : OnOneLine (n.positionalText d).toList := by
  have hpoint : OnOneLine ['.'] := by decide
  have hzero : OnOneLine ['0'] := by decide
  have hdigits : OnOneLine (Nat.toDigits 10 d.digits) := onOneLine_toDigits
  unfold positionalText
  generalize Nat.toDigits 10 d.digits = digits at hdigits
  dsimp only
  split
  · rw [String.toList_append, String.toList_ofList]
    refine (hdigits.append onOneLine_zeros).append ?_
    split
    · exact hpoint.append hzero
    · exact .nil
  · split <;> rw [String.toList_ofList]
    · have hwhole (k : Nat) : OnOneLine (digits.take k) := fun c hc =>
        hdigits c (List.mem_of_mem_take hc)
      have hfraction (k : Nat) : OnOneLine (digits.drop k) := fun c hc =>
        hdigits c (List.mem_of_mem_drop hc)
      exact (hwhole _).append (hpoint.append (hfraction _))
    · exact (hzero.append (hpoint.append onOneLine_zeros)).append hdigits

theorem onOneLine_scientificText : OnOneLine (n.scientificText d).toList := by
  have hdigits : OnOneLine (Nat.toDigits 10 d.digits) := onOneLine_toDigits
  unfold scientificText
  generalize Nat.toDigits 10 d.digits = digits at hdigits
  dsimp only
  simp only [String.toList_append, String.toList_ofList, Nat.toString_eq_ofList_toDigits]
  refine .append (.append (.append ?_ ?_) ?_) onOneLine_toDigits
  · split
    · exact hdigits
    · next c cs _ =>
      obtain ⟨hc, hcs⟩ := List.forall_mem_cons.1 hdigits
      exact List.forall_mem_cons.2 ⟨hc, List.forall_mem_cons.2 ⟨by decide, hcs⟩⟩
    · exact .nil
  · decide
  · split
    · decide
    · split
      · decide
      · exact .nil

theorem onOneLine_decimalText : OnOneLine (n.decimalText d).toList := by
  unfold decimalText
  split
  · exact n.onOneLine_positionalText _
  · split
    · exact n.onOneLine_positionalText d
    · exact n.onOneLine_scientificText d

/-- A real is on one line, also if it is no number or infinite. -/
theorem onOneLine_text : OnOneLine (n.text x).toList := by
  have hmagnitude : OnOneLine
      (if x.isInf then "inf" else n.decimalText (Decimal.shortest n.tie x)).toList := by
    split
    · decide
    · exact n.onOneLine_decimalText _
  unfold text
  split
  · decide
  · dsimp only
    split
    · rw [String.toList_append]
      exact OnOneLine.append (by decide) hmagnitude
    · exact hmagnitude

end RealNotation
end MiniPascal
