import MiniPascal.Proofs.Decimal.Binary

/-! Products and quotients of finite binary reals whose exact result is one again. -/
namespace MiniPascal
open Float.Model Float.Model.UnpackedFloat

variable {m M m₁ m₂ : Nat} {e E e₁ e₂ : Int}

theorem log2_mul_two_pow (hm : 0 < m) (k : Nat) : (m * 2 ^ k).log2 = m.log2 + k := by
  induction k with
  | zero => simp
  | succ k ih =>
    have hpos : m * 2 ^ k ≠ 0 := by positivity
    rw [pow_succ, ← mul_assoc, mul_comm _ 2, Nat.log2_two_mul hpos, ih]
    omega

theorem mul_two_zpow_eq_iff (h : E ≤ e) :
    (M : ℚ) * 2 ^ E = m * 2 ^ e ↔ M = m * 2 ^ (e - E).toNat := by
  simpa only [Nat.cast_ofNat] using mul_zpow_eq_iff (β := 2) (by norm_num) h

/-- The exponent of the leading bit belongs to the number. -/
theorem totalExponent_eq (hM : 0 < M) (hm : 0 < m) (hv : (M : ℚ) * 2 ^ E = m * 2 ^ e) :
    totalExponent M E = totalExponent m e := by
  unfold totalExponent
  rcases le_total E e with h | h
  · rw [(mul_two_zpow_eq_iff h).1 hv, log2_mul_two_pow hm]
    omega
  · rw [(mul_two_zpow_eq_iff h).1 hv.symm, log2_mul_two_pow hM]
    omega

theorem targetExponent_eq (t : Int) : Format.binary64.targetExponent t = max (t - 53) (-1074) := rfl

theorem Stored.target (h : Stored m e) :
    Format.binary64.targetExponent (totalExponent m e) = e := by
  have hle := Nat.le_log2 h.pos.ne' (k := 52)
  have hlt := (Nat.log2_lt h.pos.ne').2 h.bits
  have := h.least
  have := h.full
  rw [targetExponent_eq]
  unfold totalExponent
  omega

theorem shiftRight_exact (m k : Nat) :
    ExtendedMantissa.ofMantissaAndAccuracy (m * 2 ^ k) .exact >>> k =
      .ofMantissaAndAccuracy m .exact := by
  show Nat.repeat ExtendedMantissa.shiftRightOne k _ = _
  induction k generalizing m with
  | zero => simp [Nat.repeat]
  | succ k ih =>
    rw [Nat.repeat, pow_succ', ← mul_assoc, ih]
    simp [ExtendedMantissa.shiftRightOne, ExtendedMantissa.ofMantissaAndAccuracy]

/-- Rounding keeps a number that a real can hold. -/
theorem round_exact (h : Stored m e) (hM : 0 < M) (hE : E ≤ e)
    (hv : (M : ℚ) * 2 ^ E = m * 2 ^ e) (s : Sign) :
    roundWithAccuracy Format.binary64 s M E .exact = .finite s m e h.pos := by
  have htarget : Format.binary64.targetExponent (totalExponent M E) = e := by
    rw [totalExponent_eq hM h.pos hv, h.target]
  have hfirst : shiftToTargetExponent Format.binary64 M E .exact =
      (.ofMantissaAndAccuracy m .exact, e) := by
    simp only [shiftToTargetExponent, htarget, shiftToExponent]
    rw [(mul_two_zpow_eq_iff hE).1 hv, shiftRight_exact]
    congr 1
    omega
  have hsecond : shiftToTargetExponent Format.binary64 m e .exact =
      (.ofMantissaAndAccuracy m .exact, e) := by
    have hshift (x : ExtendedMantissa) : x >>> 0 = x := rfl
    simp [shiftToTargetExponent, h.target, shiftToExponent, hshift]
  unfold roundWithAccuracy
  rw [hfirst]
  show (match shiftToTargetExponent Format.binary64 m e .exact with
    | (x, k) => if hx : x.mantissa = 0 then zero s
      else .finite s x.mantissa k (Nat.pos_of_ne_zero hx)) = _
  rw [hsecond]
  exact dif_neg h.pos.ne'

/-- A number with as many bits as a mantissa has no larger exponent than the real that holds it. -/
theorem Stored.exponent_le (h : Stored m e) (hlog : 52 ≤ M.log2)
    (hv : (M : ℚ) * 2 ^ E = m * 2 ^ e) : E ≤ e := by
  have hM : 0 < M := by
    rcases Nat.eq_zero_or_pos M with rfl | hM
    · simp at hlog
    · exact hM
  have := h.target
  rw [targetExponent_eq, ← totalExponent_eq hM h.pos hv] at this
  unfold totalExponent at this
  omega

/-- A product of enough bits that a real can hold is exact. -/
theorem mul_exact (h : Stored m e) (h₁ : 0 < m₁) (h₂ : 0 < m₂) (hlog : 52 ≤ m₁.log2)
    (hv : (m₁ * 2 ^ e₁ : ℚ) * (m₂ * 2 ^ e₂) = m * 2 ^ e) :
    UnpackedFloat.mul Format.binary64 (.finite .positive m₁ e₁ h₁) (.finite .positive m₂ e₂ h₂) =
      .finite .positive m e h.pos := by
  have hpos := Nat.mul_pos h₁ h₂
  have hprod : ((m₁ * m₂ : Nat) : ℚ) * 2 ^ (e₁ + e₂) = m * 2 ^ e := by
    rw [← hv, zpow_add₀ (by norm_num)]
    push_cast
    ring
  have hbits : 52 ≤ (m₁ * m₂).log2 := by
    rw [Nat.le_log2 h₁.ne'] at hlog
    rw [Nat.le_log2 hpos.ne']
    exact hlog.trans (Nat.le_mul_of_pos_right _ h₂)
  exact round_exact h hpos (h.exponent_le hbits hprod) hprod _

/-- A quotient is no smaller than the difference of the exponents of the leading bits. -/
theorem totalExponent_sub_le (h₁ : 0 < m₁) (h₂ : 0 < m₂) (hm : 0 < m)
    (hv : (m₁ : ℚ) * 2 ^ e₁ = ((m₂ * m : Nat) : ℚ) * 2 ^ (e₂ + e)) :
    totalExponent m₁ e₁ - totalExponent m₂ e₂ ≤ totalExponent m e := by
  have hpos := Nat.mul_pos h₂ hm
  have hlog : (m₂ * m).log2 < m₂.log2 + m.log2 + 2 := by
    rw [Nat.log2_lt hpos.ne']
    calc m₂ * m < 2 ^ (m₂.log2 + 1) * 2 ^ (m.log2 + 1) :=
          Nat.mul_lt_mul'' Nat.lt_log2_self Nat.lt_log2_self
      _ = 2 ^ (m₂.log2 + m.log2 + 2) := by ring
  rw [totalExponent_eq h₁ hpos hv]
  unfold totalExponent
  omega

/-- The division that a real can hold the result of leaves no remainder. -/
theorem divCore_exact (h : Stored m e) (h₁ : 0 < m₁) (h₂ : 0 < m₂)
    (hv : (m₁ : ℚ) * 2 ^ e₁ = ((m₂ * m : Nat) : ℚ) * 2 ^ (e₂ + e)) :
    ∃ t ≤ e, divCore Format.binary64 m₁ e₁ m₂ e₂ = (m * 2 ^ (e - t).toNat, t, .exact) := by
  have htotal := totalExponent_sub_le h₁ h₂ h.pos hv
  generalize ht : min (e₁ - e₂) (Format.binary64.targetExponent
    (totalExponent m₁ e₁ - totalExponent m₂ e₂)) = t
  have hte : t ≤ e := by
    have := h.target
    rw [targetExponent_eq] at this ht
    omega
  have hshift : m₁ <<< (e₁ - e₂ - t).toNat = m * 2 ^ (e - t).toNat * m₂ := by
    have hscaled : ((m₁ * 2 ^ (e₁ - e₂ - t).toNat : Nat) : ℚ) * 2 ^ (e₂ + t) = m₁ * 2 ^ e₁ := by
      rw [mul_two_zpow_eq_iff (by omega), show e₁ - (e₂ + t) = e₁ - e₂ - t by omega]
    have hshifted := (mul_two_zpow_eq_iff (by omega)).1 (hscaled.trans hv)
    rw [Nat.shiftLeft_eq, hshifted, show e₂ + e - (e₂ + t) = e - t by omega]
    ring
  refine ⟨t, hte, ?_⟩
  simp only [divCore, ht, hshift, Nat.mul_div_cancel _ h₂, Nat.mul_mod_left, accuracyOfFraction,
    if_true]

/-- A quotient that a real can hold is exact. -/
theorem div_exact (h : Stored m e) (h₁ : 0 < m₁) (h₂ : 0 < m₂)
    (hv : (m₁ * 2 ^ e₁ : ℚ) / (m₂ * 2 ^ e₂) = m * 2 ^ e) :
    UnpackedFloat.div Format.binary64 (.finite .positive m₁ e₁ h₁) (.finite .positive m₂ e₂ h₂) =
      .finite .positive m e h.pos := by
  have hprod : (m₁ : ℚ) * 2 ^ e₁ = ((m₂ * m : Nat) : ℚ) * 2 ^ (e₂ + e) := by
    have hpos : (m₂ * 2 ^ e₂ : ℚ) ≠ 0 := by positivity
    rw [div_eq_iff hpos] at hv
    rw [hv, zpow_add₀ (by norm_num)]
    push_cast
    ring
  obtain ⟨t, hte, hcore⟩ := divCore_exact h h₁ h₂ hprod
  have hpos := h.pos
  show (match divCore Format.binary64 m₁ e₁ m₂ e₂ with
    | (m, e, acc) => roundWithAccuracy Format.binary64 (Sign.positive / Sign.positive) m e acc) = _
  rw [hcore]
  exact round_exact h (by positivity) hte ((mul_two_zpow_eq_iff hte).2 rfl) _

end MiniPascal
