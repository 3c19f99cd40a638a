import Mathlib.Algebra.Order.Field.Power
import Mathlib.Algebra.Order.Ring.Rat
import Mathlib.Tactic.FieldSimp
import Mathlib.Tactic.NormNum
import Mathlib.Tactic.Positivity
import Mathlib.Tactic.Ring
import MiniPascal.Decimal.Basic

/-! The number a decimal stands for. Reading a decimal as a real depends on that number alone,
however its digits and its exponent are chosen. -/
namespace MiniPascal

/-- Scaling by powers of one base: the same number with the smaller exponent has the larger factor. -/
theorem mul_zpow_eq_iff {β M m : Nat} {E e : Int} (hβ : 0 < β) (h : E ≤ e) :
    (M : ℚ) * (β : ℚ) ^ E = m * (β : ℚ) ^ e ↔ M = m * β ^ (e - E).toNat := by
  have hpos : (0 : ℚ) < (β : ℚ) ^ E := zpow_pos (by exact_mod_cast hβ) E
  have hsplit : (β : ℚ) ^ e = ((β ^ (e - E).toNat : Nat) : ℚ) * (β : ℚ) ^ E := by
    have hne : (β : ℚ) ≠ 0 := by exact_mod_cast hβ.ne'
    push_cast
    rw [← zpow_natCast, ← zpow_add₀ hne]
    congr 1
    omega
  rw [hsplit, ← mul_assoc, mul_left_inj' hpos.ne']
  exact_mod_cast Iff.rfl

/-- Digits, at least one. -/
def Digits (ds : List Char) : Prop := ds ≠ [] ∧ ∀ c ∈ ds, c.isDigit

namespace Decimal
variable {a b : Decimal}

theorem natOfDigits_eq (cs : List Char) : natOfDigits cs = Nat.ofDigitChars 10 cs 0 :=
  Nat.ofDigitChars_eq_foldl.symm

theorem natOfDigits_append (as bs : List Char) :
    natOfDigits (as ++ bs) = 10 ^ bs.length * natOfDigits as + natOfDigits bs := by
  simp only [natOfDigits_eq, Nat.ofDigitChars_append]
  exact Nat.ofDigitChars_eq_ofDigitChars_zero

/-- The number a decimal stands for. -/
def value (d : Decimal) : ℚ := d.digits * (10 : ℚ) ^ d.exponent

@[simp] theorem value_zero (e : Int) : value ⟨0, e⟩ = 0 := by simp [value]

theorem value_eq_iff (h : a.exponent ≤ b.exponent) :
    a.value = b.value ↔ a.digits = b.digits * 10 ^ (b.exponent - a.exponent).toNat := by
  simpa only [value, Nat.cast_ofNat] using mul_zpow_eq_iff (β := 10) (by norm_num) h

theorem value_reduce (d : Decimal) : d.reduce.value = d.value := by
  fun_induction reduce d with
  | case1 d h => simp [value, h]
  | case2 d h h10 ih =>
    rw [ih, eq_comm, value_eq_iff (by simp)]
    have hone : (d.exponent + 1 - d.exponent).toNat = 1 := by omega
    simp only [hone, pow_one]
    omega
  | case3 d => rfl

/-- No zero ends the digits, and zero itself has exponent zero. -/
def Reduced (d : Decimal) : Prop := d.digits % 10 = 0 → d = ⟨0, 0⟩

theorem reduced_reduce (d : Decimal) : d.reduce.Reduced := by
  fun_induction reduce d with
  | case1 d h => intro _; rfl
  | case2 d h h10 ih => exact ih
  | case3 d h h10 => exact fun hz => absurd hz h10

theorem Reduced.eq_of_le (ha : a.Reduced) (hb : b.Reduced) (hv : a.value = b.value)
    (h : a.exponent ≤ b.exponent) : a = b := by
  have hdigits := (value_eq_iff h).1 hv
  by_cases heq : a.exponent = b.exponent
  · rw [heq, Int.sub_self, Int.toNat_zero, pow_zero, mul_one] at hdigits
    cases a; cases b; simp_all
  · -- A factor of ten is left among the digits of `a`, so both are zero.
    obtain ⟨k, hk⟩ : ∃ k, (b.exponent - a.exponent).toNat = k + 1 :=
      ⟨(b.exponent - a.exponent).toNat - 1, by omega⟩
    have hza : a = ⟨0, 0⟩ := by
      apply ha
      rw [hdigits, hk, pow_succ, ← mul_assoc]
      exact Nat.mul_mod_left _ 10
    have hzb : b = ⟨0, 0⟩ := by
      apply hb
      rw [hza] at hdigits
      have : b.digits = 0 := by simpa using hdigits.symm
      omega
    rw [hza, hzb]

/-- Decimals that stand for the same number have the same reduced form. -/
theorem reduce_eq_of_value (h : a.value = b.value) : a.reduce = b.reduce := by
  have hv : a.reduce.value = b.reduce.value := by rw [value_reduce, value_reduce, h]
  rcases le_total a.reduce.exponent b.reduce.exponent with hle | hle
  · exact (reduced_reduce a).eq_of_le (reduced_reduce b) hv hle
  · exact ((reduced_reduce b).eq_of_le (reduced_reduce a) hv.symm hle).symm

/-- The real a decimal reads as depends on the number it stands for alone. -/
theorem toFloat_eq_of_value (h : a.value = b.value) : a.toFloat = b.toFloat := by
  simp only [toFloat, reduce_eq_of_value h]

end Decimal
end MiniPascal
