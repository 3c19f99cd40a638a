import MiniPascal.Proofs.Decimal.Overflow

/-! The order of reals. Two reals compare as less, equal or greater, unless one of them is not a
number, beside which everything is unordered. -/
namespace MiniPascal
open Float.Model Float.Model.UnpackedFloat

section
variable {a b : UnpackedFloat}

theorem compare_sign_swap (s t : Sign) : compare t s = (compare s t).swap := by
  cases s <;> cases t <;> rfl

/-- Comparing in the other order gives the opposite, or nothing again. -/
theorem compare_swap (a b : UnpackedFloat) : b.compare a = (a.compare b).map Ordering.swap := by
  have hfinite : ∀ (e f : Int) (m n : Nat), (compare f e).then (compare n m) =
      ((compare e f).then (compare m n)).swap := by
    intro e f m n
    rw [Ordering.swap_then, Std.OrientedOrd.eq_swap (a := f), Std.OrientedOrd.eq_swap (a := n)]
  cases a with
  | notANumber => cases b <;> rfl
  | infinity s =>
    cases b with
    | infinity t => exact congrArg some (compare_sign_swap s t)
    | _ => cases s <;> rfl
  | zero s =>
    cases b with
    | infinity t => cases t <;> rfl
    | finite t => cases t <;> rfl
    | _ => rfl
  | finite s m e hm =>
    cases b with
    | infinity t => cases t <;> rfl
    | notANumber => cases s <;> rfl
    | zero t => cases s <;> rfl
    | finite t n f hn =>
      cases s <;> cases t
      case positive.positive => exact congrArg some (hfinite e f m n)
      case negative.negative =>
        exact congrArg (fun o => some (Ordering.swap o)) (hfinite e f m n)
      all_goals rfl

theorem isNaN_iff : a.isNaN = true ↔ a = .notANumber := by
  cases a with
  | notANumber => exact ⟨fun _ => rfl, fun _ => rfl⟩
  | _ =>
    constructor
    · intro h
      cases h
    · intro h
      cases h

theorem compare_notANumber (a : UnpackedFloat) : a.compare .notANumber = none := by
  cases a with
  | infinity s | finite s => cases s <;> rfl
  | _ => rfl

theorem exists_compare (ha : a ≠ .notANumber) (hb : b ≠ .notANumber) :
    ∃ o, a.compare b = some o := by
  cases a with
  | notANumber => exact absurd rfl ha
  | infinity s =>
    cases b with
    | notANumber => exact absurd rfl hb
    | _ => cases s <;> exact ⟨_, rfl⟩
  | zero s =>
    cases b with
    | notANumber => exact absurd rfl hb
    | zero t => exact ⟨_, rfl⟩
    | infinity t | finite t => cases t <;> exact ⟨_, rfl⟩
  | finite s =>
    cases b with
    | notANumber => exact absurd rfl hb
    | infinity t | zero t | finite t => cases s <;> cases t <;> exact ⟨_, rfl⟩

/-- Nothing is comparable to what is not a number, and everything else is comparable. -/
theorem compare_eq_none_iff : a.compare b = none ↔ a.isNaN = true ∨ b.isNaN = true := by
  rw [isNaN_iff, isNaN_iff]
  constructor
  · intro h
    by_cases ha : a = .notANumber
    · exact .inl ha
    · by_cases hb : b = .notANumber
      · exact .inr hb
      · obtain ⟨o, ho⟩ := exists_compare ha hb
        cases h.symm.trans ho
  · rintro (rfl | rfl)
    · rfl
    · exact compare_notANumber a

end

section
variable {x y : Float}

/-- How two reals compare; not at all, if one of them is not a number. -/
def realOrder (x y : Float) : Option Ordering := x.toModel.unpack.compare y.toModel.unpack

theorem decide_lt (x y : Float) : decide (x < y) = (realOrder x y == some .lt) := by
  have hlt : x < y ↔ (realOrder x y == some .lt) = true := decide_eq_true_iff
  rw [Bool.eq_iff_iff, decide_eq_true_iff, hlt]

theorem beq_eq (x y : Float) : (x == y) = (realOrder x y == some .eq) := rfl

theorem decide_gt (x y : Float) : decide (y < x) = (realOrder x y == some .gt) := by
  rw [decide_lt, realOrder, realOrder, compare_swap]
  cases x.toModel.unpack.compare y.toModel.unpack with
  | none => rfl
  | some o => cases o <;> rfl

theorem realOrder_eq_none_iff : realOrder x y = none ↔ x.isNaN = true ∨ y.isNaN = true :=
  compare_eq_none_iff

end
end MiniPascal
