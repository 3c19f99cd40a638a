import Mathlib.Algebra.Order.Ring.Rat
import Mathlib.Data.Int.ModEq
import Mathlib.Data.Rat.Floor
import MiniPascal.Machine.Basic

/-! The instructions that compute with integers. What they give is exact but for a multiple of
`2 ^ 32`, and a quotient and its remainder make up the number that was divided. -/
namespace MiniPascal

/-- A number of 32 bits that differs from an exact result by a multiple of `2 ^ 32`. -/
structure Wraps (exact n : Int) : Prop where
  low : -2 ^ 31 ≤ n
  high : n < 2 ^ 31
  congruent : n ≡ exact [ZMOD 2 ^ 32]

/-- The whole number next to a number on the side of zero. -/
def truncated (x : ℚ) : Int := if 0 ≤ x then ⌊x⌋ else ⌈x⌉

section
variable {exact n a b : Int} {l r : Int32}

/-- Each exact result wraps to one number. -/
theorem wraps_iff : Wraps exact n ↔ n = exact.bmod (2 ^ 32) := by
  rw [Int.bmod_eq_emod]
  constructor
  · rintro ⟨hlow, hhigh, hcongruent⟩
    have hmod : n % 2 ^ 32 = exact % 2 ^ 32 := hcongruent
    split <;> omega
  · intro hn
    refine ⟨?_, ?_, ?_⟩
    · split at hn <;> omega
    · split at hn <;> omega
    · show n % 2 ^ 32 = exact % 2 ^ 32
      split at hn <;> omega

theorem wraps_add : Wraps (l.toInt + r.toInt) n ↔ n = (l + r).toInt := by
  rw [wraps_iff, Int32.toInt_add]

theorem wraps_sub : Wraps (l.toInt - r.toInt) n ↔ n = (l - r).toInt := by
  rw [wraps_iff, Int32.toInt_sub]

theorem wraps_mul : Wraps (l.toInt * r.toInt) n ↔ n = (l * r).toInt := by
  rw [wraps_iff, Int32.toInt_mul]

theorem wraps_neg : Wraps (-r.toInt) n ↔ n = (-r).toInt := by
  rw [wraps_iff, Int32.toInt_neg]

theorem truncated_neg (x : ℚ) : truncated (-x) = -truncated x := by
  unfold truncated
  rcases lt_trichotomy x 0 with hx | rfl | hx
  · rw [if_pos (by linarith), if_neg (by linarith), Int.floor_neg]
  · simp
  · rw [if_neg (by linarith), if_pos hx.le, Int.ceil_neg]

/-- To truncate an exact quotient is to divide toward zero. -/
theorem truncated_div (a b : Int) : truncated (a / b) = a.tdiv b := by
  have hnonneg : ∀ m n : Nat, truncated ((m : ℚ) / n) = (m : Int).tdiv n := by
    intro m n
    rw [truncated, if_pos (by positivity), Rat.floor_natCast_div_natCast,
      Int.tdiv_eq_ediv_of_nonneg (Int.natCast_nonneg m)]
  obtain ⟨m, rfl | rfl⟩ := a.eq_nat_or_neg <;> obtain ⟨n, rfl | rfl⟩ := b.eq_nat_or_neg
  · exact hnonneg m n
  · rw [Int.tdiv_neg, ← hnonneg, ← truncated_neg, Int.cast_neg, div_neg]
    rfl
  · rw [Int.neg_tdiv, ← hnonneg, ← truncated_neg, Int.cast_neg, neg_div]
    rfl
  · rw [Int.tdiv_neg, Int.neg_tdiv, neg_neg, ← hnonneg, Int.cast_neg, Int.cast_neg, neg_div_neg_eq]
    rfl

theorem wraps_div : Wraps (truncated (l.toInt / r.toInt)) n ↔ n = (l / r).toInt := by
  rw [truncated_div, wraps_iff, Int32.toInt_div]

/-- The exact quotient and the remainder make up the dividend, and wrapping the quotient changes it
by a multiple of `2 ^ 32` only. -/
theorem div_mul_add_mod (l r : Int32) :
    (l / r).toInt * r.toInt + (l % r).toInt ≡ l.toInt [ZMOD 2 ^ 32] := by
  have hquotient : (l / r).toInt ≡ l.toInt.tdiv r.toInt [ZMOD 2 ^ 32] := by
    rw [← truncated_div]
    exact (wraps_div.2 rfl).congruent
  calc (l / r).toInt * r.toInt + (l % r).toInt
      ≡ l.toInt.tdiv r.toInt * r.toInt + (l % r).toInt [ZMOD 2 ^ 32] :=
        (hquotient.mul_right _).add_right _
    _ = l.toInt := by rw [Int32.toInt_mod, Int.tdiv_mul_add_tmod]

theorem abs_mod_lt (hr : r.toInt ≠ 0) : |(l % r).toInt| < |r.toInt| := by
  rw [Int32.toInt_mod, Int.abs_eq_natAbs, Int.abs_eq_natAbs, Int.natAbs_tmod]
  exact_mod_cast Nat.mod_lt _ (Int.natAbs_pos.2 hr)

theorem sign_mod : (l % r).toInt = 0 ∨ (l % r).toInt.sign = l.toInt.sign := by
  rw [Int32.toInt_mod, Int.sign_tmod, ← Int.dvd_iff_tmod_eq_zero]
  by_cases hdvd : r.toInt ∣ l.toInt
  · exact .inl hdvd
  · exact .inr (if_neg hdvd)

end

namespace Instr

/-- The instruction replaces the operands on the stack, the topmost first, by a value. -/
def Gives (i : Instr) (operands : List Value) (v : Value) : Prop :=
  ∀ targets index (m : Machine) stack,
    Machine.exec targets index i { m with stack := operands ++ stack } =
      .running { m with stack := v :: stack }

/-- The instruction breaks a run off at the operands, because it would divide by zero. -/
def DividesByZero (i : Instr) (operands : List Value) : Prop :=
  ∀ targets index (m : Machine) stack,
    Machine.exec targets index i { m with stack := operands ++ stack } =
      .failed (.divisionByZero index) { m with stack := operands ++ stack }

/-- The instruction gives the one integer that an exact result wraps to. -/
def Computes (i : Instr) (operands : List Value) (exact : Int) : Prop :=
  ∃ v : Int32, i.Gives operands (.integer v) ∧ ∀ n, Wraps exact n ↔ n = v.toInt

section
variable {op : BinaryOp} {l r : Value} {v : Value}

theorem gives_binary (h : Value.binary op l r = .ok v) : (binary op).Gives [r, l] v := by
  intro targets index m stack
  simp [Machine.exec, Machine.binary, Machine.push, h]

theorem dividesByZero_binary (h : Value.binary op l r = .error .divisionByZero) :
    (binary op).DividesByZero [r, l] := by
  intro targets index m stack
  simp [Machine.exec, Machine.binary, Machine.push, Machine.operandError, h]

theorem Gives.not_dividesByZero {i : Instr} {operands : List Value} (h : i.Gives operands v) :
    ¬ i.DividesByZero operands := by
  intro hzero
  have hrunning := h [] 0 ⟨0, [], #[], .empty none, 0⟩ []
  rw [hzero] at hrunning
  cases hrunning

end
end Instr

/-- The integer instructions at two operands, the right one on top. -/
structure IntegerLaws (l r : Int32) : Prop where
  add : (Instr.binary .add).Computes [.integer r, .integer l] (l.toInt + r.toInt)
  sub : (Instr.binary .sub).Computes [.integer r, .integer l] (l.toInt - r.toInt)
  mul : (Instr.binary .mul).Computes [.integer r, .integer l] (l.toInt * r.toInt)
  neg : Instr.neg.Computes [.integer r] (-r.toInt)
  div_zero : (Instr.binary .div).DividesByZero [.integer r, .integer l] ↔ r = 0
  mod_zero : (Instr.binary .mod).DividesByZero [.integer r, .integer l] ↔ r = 0
  div_mod : r ≠ 0 → ∃ q m : Int32,
    (Instr.binary .div).Gives [.integer r, .integer l] (.integer q) ∧
    (Instr.binary .mod).Gives [.integer r, .integer l] (.integer m) ∧
    (∀ n, Wraps (truncated (l.toInt / r.toInt)) n ↔ n = q.toInt) ∧
    q.toInt * r.toInt + m.toInt ≡ l.toInt [ZMOD 2 ^ 32] ∧
    |m.toInt| < |r.toInt| ∧ (m.toInt = 0 ∨ m.toInt.sign = l.toInt.sign)

/-- Sums, differences, products and opposites are exact up to a multiple of `2 ^ 32`. A quotient is
truncated, its remainder has the sign of the dividend, and only a division by zero has neither. The
least integer divided by `-1` wraps to itself. -/
theorem integer_laws (l r : Int32) : IntegerLaws l r ∧
    (Instr.binary .div).Gives [.integer (-1), .integer Int32.minValue] (.integer Int32.minValue) ∧
    (Instr.binary .mod).Gives [.integer (-1), .integer Int32.minValue] (.integer 0) := by
  have hquotient : r ≠ 0 →
      (Instr.binary .div).Gives [.integer r, .integer l] (.integer (l / r)) := fun hr =>
    Instr.gives_binary (if_neg hr)
  have hremainder : r ≠ 0 →
      (Instr.binary .mod).Gives [.integer r, .integer l] (.integer (l % r)) := fun hr =>
    Instr.gives_binary (if_neg hr)
  refine ⟨⟨?_, ?_, ?_, ?_, ?_, ?_, ?_⟩, ?_, ?_⟩
  · exact ⟨l + r, Instr.gives_binary rfl, fun n => wraps_add⟩
  · exact ⟨l - r, Instr.gives_binary rfl, fun n => wraps_sub⟩
  · exact ⟨l * r, Instr.gives_binary rfl, fun n => wraps_mul⟩
  · exact ⟨-r, fun targets index m stack => rfl, fun n => wraps_neg⟩
  · refine ⟨fun hzero => ?_, fun hr => Instr.dividesByZero_binary (if_pos hr)⟩
    by_contra hr
    exact (hquotient hr).not_dividesByZero hzero
  · refine ⟨fun hzero => ?_, fun hr => Instr.dividesByZero_binary (if_pos hr)⟩
    by_contra hr
    exact (hremainder hr).not_dividesByZero hzero
  · intro hr
    have hne : r.toInt ≠ 0 := fun hzero => hr (Int32.toInt_inj.1 hzero)
    exact ⟨l / r, l % r, hquotient hr, hremainder hr, fun n => wraps_div, div_mul_add_mod l r,
      abs_mod_lt hne, sign_mod⟩
  · exact Instr.gives_binary rfl
  · exact Instr.gives_binary rfl

end MiniPascal
