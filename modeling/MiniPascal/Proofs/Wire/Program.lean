import MiniPascal.Program.Wire
import MiniPascal.Proofs.Json.Layout

/-! The JSON form of a program stands for that program. -/
namespace MiniPascal

namespace Json

theorem word?_toNat (n : UInt32) : word? (.int n.toNat) = some n := by
  have hlt : n.toNat < UInt32.size := n.toNat_lt
  simp only [word?, Int.toNat_natCast, hlt, and_true, Int.natCast_nonneg, if_true,
    UInt32.ofNat_toNat]

theorem integer?_toInt (v : Int32) : integer? (.int v.toInt) = some v := by
  have hlow : -0x80000000 ≤ v.toInt := v.le_toInt
  have hhigh : v.toInt < 0x80000000 := v.toInt_lt
  simp only [integer?, hlow, hhigh, and_self, if_true, Int32.ofInt_toInt]

end Json

theorem Ty.ofJson?_toJson (t : Ty) : Ty.ofJson? t.toJson = some t := by
  cases t <;> rfl

theorem BinaryOp.ofJson?_wireName (op : BinaryOp) :
    BinaryOp.ofJson? (.string op.wireName) = some op := by
  cases op <;> rfl

theorem Value.ofJson?_toJson (v : Value) : Value.ofJson? v.toJson = some v := by
  cases v with
  | integer v => simp [toJson, ofJson?, Json.tagged, Json.choice?, Json.integer?_toInt]
  | real v => rfl
  | string v => rfl
  | boolean v => rfl

namespace Instr

/-- An object with one key is an instruction with data, unless the data are null. -/
theorem ofJson?_tagged {data : Json} (name : String) (h : data ≠ .null) :
    ofJson? (.tagged name data) = ofTagged? name data := by
  cases data <;> first | contradiction | rfl

theorem ofJson?_toJson (i : Instr) : ofJson? i.toJson = some i := by
  cases i with
  | push v =>
    have hv : v.toJson ≠ .null := by cases v <;> simp [Value.toJson, Json.tagged]
    rw [toJson, ofJson?_tagged _ hv]
    simp [ofTagged?, Value.ofJson?_toJson]
  | binary op =>
    rw [toJson, ofJson?_tagged _ (by simp)]
    simp [ofTagged?, BinaryOp.ofJson?_wireName]
  | print t =>
    rw [toJson, ofJson?_tagged _ (by simp [Ty.toJson])]
    simp [ofTagged?, Ty.ofJson?_toJson]
  | load | store | label | jump | jumpIfFalse =>
    rw [toJson, ofJson?_tagged _ (by simp)]
    simp [ofTagged?, Json.word?_toNat]
  | neg | not | widen | concat | halt => rfl

end Instr

theorem mapM_ofJson? {α : Type} {toJson : α → Json} {ofJson? : Json → Option α}
    (h : ∀ x, ofJson? (toJson x) = some x) (xs : List α) :
    (xs.map toJson).mapM ofJson? = some xs := by
  induction xs with
  | nil => rfl
  | cons x xs ih => simp [h, ih]

namespace Program

/-- The JSON form of a program decodes to that program. -/
theorem ofJson?_toJson (p : Program) : ofJson? p.toJson = some p := by
  have hslots := mapM_ofJson? Ty.ofJson?_toJson p.slots.toList
  have hcode := mapM_ofJson? Instr.ofJson?_toJson p.code.toList
  have hfields : ofJson? p.toJson = ofParts? (.array (p.slots.toList.map Ty.toJson))
      (.array (p.code.toList.map Instr.toJson)) := rfl
  rw [hfields, ofParts?, hslots, hcode]
  rfl

end Program

/-- No real in a value is infinite, nor is it no number. -/
def Value.Finite : Value → Prop
  | real v => v.isFinite
  | _ => True

/-- Every real in the code is finite. -/
def Program.Finite (p : Program) : Prop := ∀ v, .push v ∈ p.code → v.Finite

theorem Json.finiteItems_iff {js : List Json} : FiniteItems js ↔ ∀ j ∈ js, Json.Finite j := by
  induction js with
  | nil => simp
  | cons j js ih => simp [ih]

theorem Ty.finite_toJson (t : Ty) : Json.Finite t.toJson := by
  simp [toJson]

theorem Value.finite_toJson {v : Value} (h : v.Finite) : Json.Finite v.toJson := by
  cases v with
  | real v => exact ⟨h, trivial⟩
  | _ => exact ⟨trivial, trivial⟩

theorem Instr.finite_toJson {i : Instr} (h : ∀ v, i = .push v → v.Finite) :
    Json.Finite i.toJson := by
  cases i with
  | push v => exact ⟨Value.finite_toJson (h v rfl), trivial⟩
  | print t => exact ⟨t.finite_toJson, trivial⟩
  | _ => simp [toJson, Json.tagged]

/-- The JSON form of a program without infinities and NaN has a text. -/
theorem Program.finite_toJson {p : Program} (h : p.Finite) : Json.Finite p.toJson := by
  have hslots : Json.FiniteItems (p.slots.toList.map Ty.toJson) := by
    rw [Json.finiteItems_iff]
    intro j hj
    obtain ⟨t, -, rfl⟩ := List.mem_map.1 hj
    exact t.finite_toJson
  have hcode : Json.FiniteItems (p.code.toList.map Instr.toJson) := by
    rw [Json.finiteItems_iff]
    intro j hj
    obtain ⟨i, hi, rfl⟩ := List.mem_map.1 hj
    apply Instr.finite_toJson
    rintro v rfl
    exact h v (Array.mem_toList_iff.1 hi)
  exact ⟨hslots, hcode, trivial⟩

end MiniPascal
