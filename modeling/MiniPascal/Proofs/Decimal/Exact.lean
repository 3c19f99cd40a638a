import MiniPascal.Proofs.Decimal.Rounding

/-! Reading a decimal whose number a real can hold. -/
namespace MiniPascal
open Float.Model Float.Model.UnpackedFloat

variable {m n : Nat} {e k : Int}

/-- The real of a mantissa and an exponent. -/
def Stored.real (h : Stored m e) (s : Sign) : Float := .ofModel (pack (.finite s m e h.pos))

/-- A short mantissa is made as long as a real has it. -/
theorem exists_stored (hpos : 0 < m) (hbits : m < 2 ^ 53) (hleast : -1074 ≤ e) (hmost : e ≤ 971) :
    ∃ m' e', Stored m' e' ∧ (m : ℚ) * 2 ^ e = m' * 2 ^ e' := by
  have hlog := (Nat.log2_lt hpos.ne').2 hbits
  generalize ht : max ((m.log2 : Int) + e - 52) (-1074) = t
  have hte : t ≤ e := by omega
  have hpos' : 0 < m * 2 ^ (e - t).toNat := by positivity
  have hlog' := log2_mul_two_pow hpos (e - t).toNat
  refine ⟨m * 2 ^ (e - t).toNat, t, ⟨?_, ?_, hpos', by omega, by omega⟩,
    ((mul_two_zpow_eq_iff hte).2 rfl).symm⟩
  · rw [← Nat.log2_lt hpos'.ne', hlog']
    omega
  · rw [← Nat.le_log2 hpos'.ne', hlog']
    omega

theorem ofNat_exact (h : Stored m e) (hn : 0 < n) (hv : (n : ℚ) = m * 2 ^ e) :
    UnpackedFloat.ofNat Format.binary64 n = .finite .positive m e h.pos := by
  have hv0 : (n : ℚ) * 2 ^ (0 : Int) = m * 2 ^ e := by rw [zpow_zero, mul_one, hv]
  have htarget : Format.binary64.targetExponent (totalExponent n 0) = e := by
    rw [totalExponent_eq hn h.pos hv0, h.target]
  have hcompare : compare (n : Int) 0 = .gt := by
    rw [Int.compare_eq_gt]
    omega
  have hround : UnpackedFloat.ofNat Format.binary64 n = roundWithAccuracy Format.binary64 .positive
      (n * 2 ^ (0 - e).toNat) (0 - (0 - e).toNat) .exact := by
    unfold Float.Model.UnpackedFloat.ofNat Float.Model.UnpackedFloat.ofInt
    unfold Float.Model.UnpackedFloat.normalize
    simp only [hcompare, Int.toNat_natCast, Float.Model.UnpackedFloat.round, htarget,
      decreaseExponent, Nat.shiftLeft_eq]
  rw [hround]
  apply round_exact h (by positivity) (by omega)
  rw [← hv0]
  rw [mul_two_zpow_eq_iff (by omega)]
  congr 2
  omega

theorem powersOfTen_eq : ∀ j ≤ 22, Float.exactlyRepresentablePowersOfTen[j]? =
    some (.ofModel (pack (UnpackedFloat.ofNat Format.binary64 (10 ^ j)))) := by
  decide +kernel

/-- A natural number that a real can hold, packed and unpacked. -/
theorem unpack_pack_ofNat (h : Stored m e) (hn : 0 < n) (hv : (n : ℚ) = m * 2 ^ e) :
    (pack (UnpackedFloat.ofNat Format.binary64 n)).unpack = .finite .positive m e h.pos := by
  rw [ofNat_exact h hn hv, unpack_pack h]

theorem exists_stored_powerOfTen {j : Nat} (hj : j ≤ 22) :
    ∃ m e, Stored m e ∧ ((10 ^ j : Nat) : ℚ) = m * 2 ^ e := by
  have hfive : 5 ^ j < 2 ^ 53 := lt_of_le_of_lt (Nat.pow_le_pow_right (by omega) hj) (by norm_num)
  obtain ⟨m, e, h, hv⟩ := exists_stored (e := j) (by positivity) hfive (by omega) (by omega)
  refine ⟨m, e, h, ?_⟩
  rw [← hv, show 10 ^ j = 5 ^ j * 2 ^ j by rw [← mul_pow]; rfl]
  push_cast
  rw [zpow_natCast]

/-- A real of one or more has its leading bit in place. -/
theorem Stored.log2_eq (h : Stored m e) (hn : 0 < n) (hv : (n : ℚ) = m * 2 ^ e) : m.log2 = 52 := by
  have htotal : totalExponent n 0 = totalExponent m e :=
    totalExponent_eq hn h.pos (by rw [zpow_zero, mul_one, hv])
  have := h.target
  rw [targetExponent_eq, ← htotal] at this
  unfold totalExponent at this htotal
  omega

theorem ten_zpow_of_neg (hk : k < 0) : (10 : ℚ) ^ k = ((10 ^ k.natAbs : Nat) : ℚ)⁻¹ := by
  obtain ⟨j, rfl⟩ : ∃ j : Nat, k = -j := ⟨k.natAbs, by omega⟩
  simp

theorem ten_zpow_of_nonneg (hk : 0 ≤ k) : (10 : ℚ) ^ k = ((10 ^ k.natAbs : Nat) : ℚ) := by
  obtain ⟨j, rfl⟩ : ∃ j : Nat, k = j := ⟨k.natAbs, by omega⟩
  simp

/-- The short way to read a decimal: both numbers are reals, and so is the result. -/
theorem ofScientific_short (h : Stored m e) (hn : 0 < n) (hbits : n < 2 ^ 53)
    (hk : k.natAbs ≤ 22) (hv : (n : ℚ) * 10 ^ k = m * 2 ^ e) :
    Float.ofScientific n (k < 0) k.natAbs = h.real .positive := by
  obtain ⟨m₁, e₁, h₁, hv₁⟩ := exists_stored (e := 0) hn hbits (by omega) (by omega)
  obtain ⟨m₂, e₂, h₂, hv₂⟩ := exists_stored_powerOfTen hk
  rw [zpow_zero, mul_one] at hv₁
  have hleft : (Float.Model.ofUInt64 n.toUInt64).unpack = .finite .positive m₁ e₁ h₁.pos := by
    have hword : n.toUInt64.toNat = n := Nat.mod_eq_of_lt (by omega)
    unfold Float.Model.ofUInt64 Float.Model.UnpackedFloat.ofUInt64
    rw [hword]
    exact unpack_pack_ofNat h₁ hn hv₁
  obtain ⟨hin, hpower⟩ := Array.getElem?_eq_some_iff.1 (powersOfTen_eq _ hk)
  have hright := unpack_pack_ofNat h₂ (by positivity) hv₂
  unfold Float.ofScientific
  rw [dif_pos ⟨hbits, hk⟩]
  simp only [hpower]
  by_cases hneg : k < 0
  · have hq : (m₁ * 2 ^ e₁ : ℚ) / (m₂ * 2 ^ e₂) = m * 2 ^ e := by
      rw [← hv₁, ← hv₂, ← hv, ten_zpow_of_neg hneg, div_eq_mul_inv]
    rw [if_pos (decide_eq_true hneg)]
    show Float.ofModel (pack (UnpackedFloat.div _ (Float.Model.ofUInt64 _).unpack _)) = _
    rw [hleft, hright, div_exact h h₁.pos h₂.pos hq]
    rfl
  · have hp : (m₁ * 2 ^ e₁ : ℚ) * (m₂ * 2 ^ e₂) = m * 2 ^ e := by
      rw [← hv₁, ← hv₂, ← hv, ten_zpow_of_nonneg (by omega)]
    rw [if_neg (by simpa using hneg)]
    show Float.ofModel (pack (UnpackedFloat.mul _ (Float.Model.ofUInt64 _).unpack _)) = _
    rw [hleft, hright, mul_exact h h₁.pos h₂.pos (h₁.log2_eq hn hv₁).ge hp]
    rfl

/-- A real is no less than the least positive one and below two to the power of 1024. -/
theorem Stored.bounds (h : Stored m e) :
    (2 : ℚ) ^ (-1074 : Int) ≤ m * 2 ^ e ∧ (m : ℚ) * 2 ^ e < 2 ^ (1024 : Int) := by
  have htwo : (1 : ℚ) < 2 := by norm_num
  have hle : (2 : ℚ) ^ (-1074 : Int) ≤ 2 ^ e := zpow_le_zpow_right₀ htwo.le h.least
  have hge : (2 : ℚ) ^ e ≤ 2 ^ (971 : Int) := zpow_le_zpow_right₀ htwo.le h.most
  have hpos : (1 : ℚ) ≤ m := by exact_mod_cast h.pos
  have hbits : (m : ℚ) < 2 ^ (53 : Int) := by exact_mod_cast h.bits
  constructor
  · calc (2 : ℚ) ^ (-1074 : Int) ≤ 2 ^ e := hle
      _ ≤ m * 2 ^ e := le_mul_of_one_le_left (by positivity) hpos
  · calc (m : ℚ) * 2 ^ e ≤ m * 2 ^ (971 : Int) :=
        mul_le_mul_of_nonneg_left hge (zero_le_one.trans hpos)
      _ < 2 ^ (53 : Int) * 2 ^ (971 : Int) := mul_lt_mul_of_pos_right hbits (zpow_pos (by norm_num) _)
      _ = 2 ^ (1024 : Int) := by
          rw [show (1024 : Int) = 53 + 971 by norm_num, zpow_add₀ (by norm_num)]

/-- The exponent of a decimal that a real can hold is neither too large nor too small to be read. -/
theorem Stored.exponent_bounds (h : Stored m e) (hn : 0 < n)
    (hv : (n : ℚ) * 10 ^ k = m * 2 ^ e) : k < 1024 ∧ -1074 ≤ n.log2 + k := by
  obtain ⟨hlow, hhigh⟩ := h.bounds
  rw [← hv] at hlow hhigh
  have htwo : (1 : ℚ) < 2 := by norm_num
  have hpos : (1 : ℚ) ≤ n := by exact_mod_cast hn
  have hlog : (n : ℚ) < 2 ^ ((n.log2 : Int) + 1) := by
    have : ((n : Nat) : ℚ) < ((2 ^ (n.log2 + 1) : Nat) : ℚ) := by exact_mod_cast Nat.lt_log2_self
    exact_mod_cast this
  rcases lt_or_ge k 0 with hk | hk
  · refine ⟨by omega, ?_⟩
    have hbase : (10 : ℚ) ^ k ≤ 2 ^ k := by
      obtain ⟨j, rfl⟩ : ∃ j : Nat, k = -j := ⟨k.natAbs, by omega⟩
      rw [zpow_neg, zpow_neg]
      exact inv_anti₀ (by positivity) (zpow_le_zpow_left₀ (by omega) (by norm_num) (by norm_num))
    have : (2 : ℚ) ^ (-1074 : Int) < 2 ^ ((n.log2 : Int) + 1 + k) := by
      calc (2 : ℚ) ^ (-1074 : Int) ≤ n * 10 ^ k := hlow
        _ ≤ n * 2 ^ k := mul_le_mul_of_nonneg_left hbase (by positivity)
        _ < 2 ^ ((n.log2 : Int) + 1) * 2 ^ k := mul_lt_mul_of_pos_right hlog (by positivity)
        _ = 2 ^ ((n.log2 : Int) + 1 + k) := by rw [← zpow_add₀ (by norm_num)]
    have := (zpow_lt_zpow_iff_right₀ htwo).1 this
    omega
  · refine ⟨?_, by omega⟩
    have hbase : (2 : ℚ) ^ k ≤ 10 ^ k := zpow_le_zpow_left₀ hk (by norm_num) (by norm_num)
    have : (2 : ℚ) ^ k < 2 ^ (1024 : Int) := by
      calc (2 : ℚ) ^ k ≤ 10 ^ k := hbase
        _ ≤ n * 10 ^ k := le_mul_of_one_le_left (by positivity) hpos
        _ < 2 ^ (1024 : Int) := hhigh
    exact (zpow_lt_zpow_iff_right₀ htwo).1 this

/-- The long way to read a decimal: an exact product or quotient. -/
theorem ofScientific_long (h : Stored m e) (hn : 0 < n) (hv : (n : ℚ) * 10 ^ k = m * 2 ^ e) :
    Float.ofModel (Float.Model.ofScientific n k) = h.real .positive := by
  obtain ⟨hmost, hleast⟩ := h.exponent_bounds hn hv
  have hhigh : ¬ k > 2 ^ 11 := by omega
  have hlow : ¬ k < -(2 ^ 11 + n.log2) := by omega
  unfold Float.Model.ofScientific Float.Model.UnpackedFloat.ofScientific
  rw [dif_neg hn.ne', if_neg hhigh, if_neg hlow]
  by_cases hk : 0 ≤ k
  · rw [if_pos hk]
    have hten : 0 < 10 ^ k.toNat := by positivity
    have hshift : 0 < n <<< 53 := by rw [Nat.shiftLeft_eq]; positivity
    have hlog : 52 ≤ (n <<< 53).log2 := by
      rw [Nat.shiftLeft_eq, log2_mul_two_pow hn]
      omega
    have hp : ((n <<< 53 : Nat) * 2 ^ (-53 : Int) : ℚ) * ((10 ^ k.toNat : Nat) * 2 ^ (0 : Int)) =
        m * 2 ^ e := by
      rw [← hv, ten_zpow_of_nonneg hk, Nat.shiftLeft_eq, show k.natAbs = k.toNat by omega]
      push_cast
      ring
    show Float.ofModel (pack (UnpackedFloat.mul Format.binary64 (.finite .positive (n <<< 53) (-53)
      hshift) (.finite .positive (10 ^ k.toNat) 0 hten))) = _
    rw [mul_exact h hshift hten hlog hp]
    rfl
  · rw [if_neg hk]
    have hten : 0 < 10 ^ (-k).toNat := by positivity
    have hq : (n * 2 ^ (0 : Int) : ℚ) / ((10 ^ (-k).toNat : Nat) * 2 ^ (0 : Int)) = m * 2 ^ e := by
      rw [← hv, ten_zpow_of_neg (by omega), show k.natAbs = (-k).toNat by omega, zpow_zero,
        mul_one, mul_one, div_eq_mul_inv]
    rw [div_exact h hn hten hq]
    rfl

/-- A decimal whose number a real can hold reads as that real. -/
theorem ofScientific_exact (h : Stored m e) (hv : (n : ℚ) * 10 ^ k = m * 2 ^ e) :
    Float.ofScientific n (k < 0) k.natAbs = h.real .positive := by
  have hn : 0 < n := by
    rcases Nat.eq_zero_or_pos n with rfl | hn
    · have hpos : (0 : ℚ) < m * 2 ^ e := by
        have : (0 : ℚ) < m := by exact_mod_cast h.pos
        positivity
      simp [← hv] at hpos
    · exact hn
  by_cases hshort : n < 2 ^ 53 ∧ k.natAbs ≤ 22
  · exact ofScientific_short h hn hshort.1 hshort.2 hv
  · have hk : (if decide (k < 0) = true then Int.negOfNat k.natAbs else Int.ofNat k.natAbs) = k := by
      by_cases hneg : k < 0
      · rw [if_pos (decide_eq_true hneg), Int.negOfNat_eq]
        simp only [Int.ofNat_eq_natCast]
        omega
      · rw [if_neg (by simpa using hneg)]
        simp only [Int.ofNat_eq_natCast]
        omega
    unfold Float.ofScientific
    rw [dif_neg hshort]
    simp only [hk]
    exact ofScientific_long h hn hv

end MiniPascal
