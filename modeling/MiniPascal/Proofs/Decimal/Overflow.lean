import MiniPascal.Proofs.Decimal.Exact

/-! What a decimal reads as: a finite real, or an infinite one where no real is large enough. It
never reads as something that is not a number. -/
namespace MiniPascal
open Float.Model Float.Model.UnpackedFloat

section
variable {x : UnpackedFloat} {s t : Sign} {m : Nat} {e : Int}

theorem isNaN_of_mantissa : UnpackedFloat.isNaN
    (if h : m = 0 then .zero s else .finite s m e (Nat.pos_of_ne_zero h)) = false := by
  by_cases hzero : m = 0
  · rw [dif_pos hzero]
    rfl
  · rw [dif_neg hzero]
    rfl

/-- Fields that are not those of something that is no number. -/
theorem isNaN_unpack_components {q : BitVec 11} {v : BitVec 52} (h : q ≠ -1#11 ∨ v = 0#52) :
    (unpack Format.binary64 (packComponents Format.binary64 s q v)).isNaN = false := by
  have hexponent : unpackExponent (packComponents Format.binary64 s q v) = q :=
    unpackExponent_packComponents
  by_cases hq : q = -1#11
  · have hmantissa : unpackMantissa (packComponents Format.binary64 s q v) = 0#52 :=
      unpackMantissa_packComponents.trans (h.resolve_left fun hne => hne hq)
    unfold Float.Model.UnpackedFloat.unpack
    rw [if_pos (hexponent.trans hq), if_pos hmantissa]
    rfl
  · have hfield : exponentField (packComponents Format.binary64 s q v).toNat ≠ 2047 := fun hmax =>
      hq (hexponent.symm.trans ((unpackExponent_eq_max _).2 hmax))
    rw [unpack_eq _ hfield]
    exact isNaN_of_mantissa

/-- Packing keeps a number a number. -/
theorem isNaN_unpack_pack (h : x.isNaN = false) : (Float.Model.pack x).unpack.isNaN = false := by
  show (unpack Format.binary64 (UnpackedFloat.pack Format.binary64 x)).isNaN = false
  cases x with
  | notANumber => cases h
  | infinity s => exact isNaN_unpack_components (.inr rfl)
  | zero s => exact isNaN_unpack_components (.inr rfl)
  | finite s m e hm =>
    unfold Float.Model.UnpackedFloat.pack
    dsimp only
    split
    · exact isNaN_unpack_components (.inr rfl)
    · next hsmall =>
      split
      · refine isNaN_unpack_components (.inl fun hq => hsmall ?_)
        have hmax := congrArg BitVec.toNat hq
        rw [BitVec.toNat_ofNat] at hmax
        have hall : (-1#11).toNat = 2 ^ 11 - 1 := rfl
        rw [hall] at hmax
        omega
      · exact isNaN_unpack_components (.inl (by decide))

theorem isNaN_round {acc : Accuracy} :
    (roundWithAccuracy Format.binary64 s m e acc).isNaN = false := by
  unfold roundWithAccuracy
  exact isNaN_of_mantissa

theorem isNaN_mul_finite (h : x.isNaN = false) (hm : 0 < m) :
    (UnpackedFloat.mul Format.binary64 x (.finite s m e hm)).isNaN = false := by
  cases x with
  | notANumber => cases h
  | infinity t | zero t => rfl
  | finite t k f hk => exact isNaN_round

theorem isNaN_div_finite (h : x.isNaN = false) (hm : 0 < m) :
    (UnpackedFloat.div Format.binary64 x (.finite s m e hm)).isNaN = false := by
  cases x with
  | notANumber => cases h
  | infinity t | zero t => rfl
  | finite t k f hk => exact isNaN_round

theorem isNaN_neg (h : x.isNaN = false) : x.neg.isNaN = false := by
  cases x with
  | notANumber => cases h
  | infinity | zero | finite => rfl

theorem isNaN_ofNat (n : Nat) : (UnpackedFloat.ofNat Format.binary64 n).isNaN = false := by
  unfold Float.Model.UnpackedFloat.ofNat Float.Model.UnpackedFloat.ofInt
  unfold Float.Model.UnpackedFloat.normalize
  split
  · exact isNaN_round
  · rfl
  · exact isNaN_round

theorem isNaN_ite {p : Prop} [Decidable p] {y : UnpackedFloat} (hx : x.isNaN = false)
    (hy : y.isNaN = false) : UnpackedFloat.isNaN (if p then x else y) = false := by
  by_cases h : p
  · rwa [if_pos h]
  · rwa [if_neg h]

theorem isNaN_ofScientific_long (n : Nat) (k : Int) :
    (UnpackedFloat.ofScientific Format.binary64 n k).isNaN = false := by
  unfold Float.Model.UnpackedFloat.ofScientific
  by_cases hn : n = 0
  · rw [dif_pos hn]
    rfl
  · rw [dif_neg hn]
    refine isNaN_ite rfl (isNaN_ite rfl (isNaN_ite ?_ ?_))
    · exact isNaN_mul_finite rfl _
    · exact isNaN_div_finite rfl _

end

theorem isNaN_ofScientific (n : Nat) (negative : Bool) (k : Nat) :
    (Float.ofScientific n negative k).isNaN = false := by
  unfold Float.ofScientific
  split
  · next h =>
    obtain ⟨m, e, hs, hv⟩ := exists_stored_powerOfTen h.2
    obtain ⟨hin, hpower⟩ := Array.getElem?_eq_some_iff.1 (powersOfTen_eq k h.2)
    have hright := unpack_pack_ofNat hs (by positivity) hv
    have hleft : (Float.Model.ofUInt64 n.toUInt64).unpack.isNaN = false :=
      isNaN_unpack_pack (isNaN_ofNat _)
    simp only [hpower]
    split
    · show (pack (UnpackedFloat.div _ (Float.Model.ofUInt64 _).unpack _)).unpack.isNaN = false
      rw [hright]
      exact isNaN_unpack_pack (isNaN_div_finite hleft _)
    · show (pack (UnpackedFloat.mul _ (Float.Model.ofUInt64 _).unpack _)).unpack.isNaN = false
      rw [hright]
      exact isNaN_unpack_pack (isNaN_mul_finite hleft _)
  · exact isNaN_unpack_pack (isNaN_ofScientific_long n _)

/-- An integer is a number as a real. -/
theorem isNaN_ofInt (i : Int) : (Float.ofInt i).isNaN = false := by
  cases i with
  | ofNat n => exact isNaN_ofScientific n false 0
  | negSucc n => exact isNaN_unpack_pack (isNaN_neg (isNaN_ofScientific (n + 1) false 0))

/-- A decimal reads as a finite real unless it is too large. -/
theorem Decimal.isFinite_toFloat (d : Decimal) : d.toFloat.isFinite = !d.toFloat.isInf := by
  have hnumber : d.toFloat.isNaN = false := isNaN_ofScientific _ _ _
  rw [Bool.eq_iff_iff, isFinite_iff, Bool.not_eq_true']
  exact and_iff_right hnumber

end MiniPascal
