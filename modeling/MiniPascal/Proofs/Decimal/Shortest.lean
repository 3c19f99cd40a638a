import MiniPascal.Decimal.Layout
import MiniPascal.Proofs.Decimal.Exact

/-! The shortest decimal of a finite real reads back as that real. -/
namespace MiniPascal
open Float.Model Float.Model.UnpackedFloat

variable {x : Float} {m : Nat} {e : Int}

/-- A finite real is a zero, or it holds its mantissa and its exponent. -/
theorem unpack_of_isFinite (h : x.isFinite) :
    (mantissaOf x.toBits.toNat = 0 ∧ x.toModel.unpack = .zero (signOf x.toBits.toNat)) ∨
    ∃ hs : Stored (mantissaOf x.toBits.toNat) (powerOf x.toBits.toNat),
      x.toModel.unpack = .finite (signOf x.toBits.toNat) (mantissaOf x.toBits.toNat)
        (powerOf x.toBits.toNat) hs.pos := by
  have hfield := exponentField_of_isFinite _ h
  have hunpack := unpack_eq _ hfield
  by_cases h0 : mantissaOf x.toBits.toNat = 0
  · exact .inl ⟨h0, hunpack.trans (dif_pos h0)⟩
  · exact .inr ⟨stored_of_field hfield h0, hunpack.trans (dif_neg h0)⟩

theorem unpack_abs (h : x.isFinite) : x.abs.toModel.unpack = x.toModel.unpack.abs := by
  show (pack x.toModel.unpack.abs).unpack = _
  rcases unpack_of_isFinite h with ⟨_, hunpack⟩ | ⟨hs, hunpack⟩
  · rw [hunpack]
    exact unpack_pack_zero _
  · rw [hunpack]
    exact unpack_pack hs _

/-- A finite real is its magnitude with its sign. -/
theorem signed_abs (h : x.isFinite) : (if RealNotation.signed x then -x.abs else x.abs) = x := by
  have hx := pack_unpack x h
  have hsigned : RealNotation.signed x = true ↔ 2 ^ 63 ≤ x.toBits.toNat := by
    simp [RealNotation.signed]
  have hcases : x.toModel.unpack =
      if RealNotation.signed x then x.toModel.unpack.abs.neg else x.toModel.unpack.abs := by
    by_cases hneg : 2 ^ 63 ≤ x.toBits.toNat
    · have hsign : signOf x.toBits.toNat = .negative := if_pos hneg
      rw [if_pos (hsigned.2 hneg)]
      rcases unpack_of_isFinite h with ⟨_, hunpack⟩ | ⟨hs, hunpack⟩ <;> rw [hunpack, hsign] <;> rfl
    · have hsign : signOf x.toBits.toNat = .positive := if_neg hneg
      rw [if_neg (mt hsigned.1 hneg)]
      rcases unpack_of_isFinite h with ⟨_, hunpack⟩ | ⟨hs, hunpack⟩ <;> rw [hunpack, hsign] <;> rfl
  split
  case isTrue hsign =>
    show Float.ofModel (pack x.abs.toModel.unpack.neg) = x
    rw [if_pos hsign] at hcases
    rw [unpack_abs h, ← hcases, hx]
  case isFalse hsign =>
    show Float.ofModel (pack x.toModel.unpack.abs) = x
    rw [if_neg hsign] at hcases
    rw [← hcases, hx]

namespace Decimal

theorem toFloat_of_value {d : Decimal} (h : Stored m e) (hv : d.value = m * 2 ^ e) :
    d.toFloat = h.real .positive := by
  rw [← value_reduce] at hv
  exact ofScientific_exact h hv

theorem toFloat_of_zero {d : Decimal} (hv : d.value = 0) :
    d.toFloat = .ofModel (pack (.zero .positive)) := by
  have hzero : d.value = value ⟨0, 0⟩ := by simpa using hv
  rw [toFloat_eq_of_value hzero]
  decide +kernel

/-- The exact decimal of a real stands for its mantissa, scaled. -/
theorem value_ofFloat (x : Float) :
    (ofFloat x).value = mantissaOf x.toBits.toNat * (2 : ℚ) ^ powerOf x.toBits.toNat := by
  have hparts : ofFloat x =
      if powerOf x.toBits.toNat < 0 then
        ⟨mantissaOf x.toBits.toNat * 5 ^ (powerOf x.toBits.toNat).natAbs, powerOf x.toBits.toNat⟩
      else ⟨mantissaOf x.toBits.toNat <<< (powerOf x.toBits.toNat).natAbs, 0⟩ := rfl
  rw [hparts]
  generalize mantissaOf x.toBits.toNat = m
  generalize powerOf x.toBits.toNat = e
  split
  case isTrue hneg =>
    obtain ⟨j, rfl⟩ : ∃ j : Nat, e = -j := ⟨e.natAbs, by omega⟩
    have hfive : (5 : ℚ) ^ j * 2 ^ j = 10 ^ j := by
      rw [← mul_pow]
      norm_num
    simp only [value, Int.natAbs_neg, Int.natAbs_natCast, zpow_neg, zpow_natCast]
    push_cast
    rw [← hfive]
    field_simp
  case isFalse hnonneg =>
    obtain ⟨j, rfl⟩ : ∃ j : Nat, e = j := ⟨e.natAbs, by omega⟩
    simp [value, Nat.shiftLeft_eq]

theorem toFloat_ofFloat (h : x.isFinite) : (ofFloat x).toFloat = x.abs := by
  have hv := value_ofFloat x
  show _ = Float.ofModel (pack x.toModel.unpack.abs)
  rcases unpack_of_isFinite h with ⟨hzero, hunpack⟩ | ⟨hs, hunpack⟩
  · rw [hzero, Nat.cast_zero, zero_mul] at hv
    rw [toFloat_of_zero hv, hunpack]
    rfl
  · rw [toFloat_of_value hs hv, hunpack]
    rfl

/-- The shortest decimal of a finite real reads as its magnitude. -/
theorem toFloat_shortest (tie : Tie) (h : x.isFinite) : (shortest tie x).toFloat = x.abs := by
  unfold shortest
  rw [toFloat_eq_of_value (value_reduce _)]
  cases hfound : (List.range (length (ofFloat x).digits)).findSome? fun n =>
      ((ofFloat x).neighbours tie (length (ofFloat x).digits - (n + 1))).find? fun d =>
        d.toFloat = x.abs with
  | none => exact toFloat_ofFloat h
  | some d =>
    obtain ⟨n, _, hn⟩ := List.exists_of_findSome?_eq_some hfound
    simpa using List.find?_some hn

end Decimal
end MiniPascal
