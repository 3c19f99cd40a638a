import MiniPascal.Proofs.Decimal.Value
import MiniPascal.Decimal.Layout

/-! Finite binary reals as mantissa and exponent, and their packed form. -/
namespace MiniPascal
open Float.Model Float.Model.UnpackedFloat

section Bits
variable (bits : Nat)

/-- The exponent field of a packed real. -/
def exponentField : Nat := bits >>> 52 % 2 ^ 11

/-- The mantissa field of a packed real. -/
def mantissaField : Nat := bits % 2 ^ 52

/-- The mantissa of a finite real, the leading bit that is not written included. -/
def mantissaOf : Nat :=
  if exponentField bits = 0 then mantissaField bits else 2 ^ 52 + mantissaField bits

/-- The power of two a finite real scales its mantissa with. -/
def powerOf : Int := (max (exponentField bits) 1 : Nat) - 1075

/-- The sign of a real. -/
def signOf : Sign := if 2 ^ 63 ≤ bits then .negative else .positive

end Bits

/-- A mantissa and an exponent as a finite real other than zero holds them. -/
structure Stored (m : Nat) (e : Int) : Prop where
  bits : m < 2 ^ 53
  full : 2 ^ 52 ≤ m ∨ e = -1074
  pos : 0 < m
  least : -1074 ≤ e
  most : e ≤ 971

theorem stored_of_field {bits : Nat} (h : exponentField bits ≠ 2047) (h0 : mantissaOf bits ≠ 0) :
    Stored (mantissaOf bits) (powerOf bits) := by
  have hm : mantissaField bits < 2 ^ 52 := Nat.mod_lt _ (by decide)
  have hq : exponentField bits < 2 ^ 11 := Nat.mod_lt _ (by decide)
  unfold mantissaOf powerOf at *
  constructor <;> split at h0 <;> simp_all <;> omega

theorem toBitVec_ofBitVec (v : BitVec 1) : (Sign.ofBitVec v).toBitVec = v := by
  revert v
  decide

theorem ofBitVec_toBitVec (s : Sign) : Sign.ofBitVec s.toBitVec = s := by
  cases s <;> rfl

theorem one_append_toNat (v : BitVec 52) : (1#1 ++ v).toNat = 2 ^ 52 + v.toNat := by
  rw [BitVec.toNat_append, ← Nat.shiftLeft_add_eq_or_of_lt v.isLt]
  simp [Nat.shiftLeft_eq]

theorem extractLsb_append (b : BitVec 64) :
    (b.extractLsb 63 63 ++ b.extractLsb 62 52 ++ b.extractLsb 51 0 : BitVec (1 + 11 + 52)) = b := by
  ext i hi
  grind

theorem extractLsb_append_sign (u : BitVec 1) (q : BitVec 11) (v : BitVec 52) :
    BitVec.extractLsb 63 63 (u ++ q ++ v : BitVec (1 + 11 + 52)) = u := by
  ext i hi
  grind

theorem unpackSign_packComponents (s : Sign) (q : BitVec 11) (v : BitVec 52) :
    unpackSign (packComponents Format.binary64 s q v) = s.toBitVec :=
  extractLsb_append_sign s.toBitVec q v

section Packed
variable (b : BitVec Format.binary64.numBits)

theorem unpackMantissa_toNat : (unpackMantissa b).toNat = mantissaField b.toNat := by
  simp [unpackMantissa, mantissaField]

theorem unpackExponent_toNat : (unpackExponent b).toNat = exponentField b.toNat := by
  simp [unpackExponent, exponentField]

theorem ofBitVec_unpackSign : Sign.ofBitVec (unpackSign b) = signOf b.toNat := by
  have hlt : b.toNat < 2 ^ 64 := b.isLt
  have h : (unpackSign b).toNat = b.toNat / 2 ^ 63 := by
    have hsign : unpackSign b = b.extractLsb 63 63 := rfl
    simp [hsign, Nat.shiftRight_eq_div_pow]
    omega
  have h0 : unpackSign b = 0#1 ↔ ¬ 2 ^ 63 ≤ b.toNat := by
    rw [← BitVec.toNat_inj, h]
    simp
  unfold Sign.ofBitVec signOf
  split <;> simp_all

/-- A packed real is put together from its parts. -/
theorem packComponents_unpack :
    packComponents Format.binary64 (Sign.ofBitVec (unpackSign b)) (unpackExponent b)
      (unpackMantissa b) = b := by
  rw [packComponents, toBitVec_ofBitVec]
  exact extractLsb_append b

theorem unpackExponent_eq_max : unpackExponent b = -1#11 ↔
    exponentField b.toNat = 2047 := by
  rw [← BitVec.toNat_inj, unpackExponent_toNat]
  rfl

theorem exponentField_of_isFinite (h : (unpack Format.binary64 b).isFinite) :
    exponentField b.toNat ≠ 2047 := by
  intro h2047
  unfold Float.Model.UnpackedFloat.unpack at h
  rw [if_pos ((unpackExponent_eq_max b).2 h2047)] at h
  split at h <;> contradiction

/-- The parts of a finite real, read off its packed form. -/
theorem unpack_eq (h : exponentField b.toNat ≠ 2047) :
    unpack Format.binary64 b =
      if h : mantissaOf b.toNat = 0 then .zero (signOf b.toNat)
      else .finite (signOf b.toNat) (mantissaOf b.toNat) (powerOf b.toNat)
        (Nat.pos_of_ne_zero h) := by
  have hm := unpackMantissa_toNat b
  have hq := unpackExponent_toNat b
  have hmin : unpackExponent b = 0#11 ↔ exponentField b.toNat = 0 := by
    rw [← BitVec.toNat_inj, hq]
    rfl
  have hzero : unpackMantissa b = 0#52 ↔
      mantissaField b.toNat = 0 := by
    rw [← BitVec.toNat_inj, hm]
    rfl
  have hfull : (1#1 ++ unpackMantissa b).toNat = 2 ^ 52 + mantissaField b.toNat := by
    rw [← hm]
    exact one_append_toNat _
  have hbias : (Format.binary64.exponentBias : Int) = 1023 := rfl
  unfold Float.Model.UnpackedFloat.unpack
  rw [if_neg (mt (unpackExponent_eq_max b).1 h)]
  have hsign := ofBitVec_unpackSign b
  by_cases h0 : exponentField b.toNat = 0
  · have hmantissa : mantissaOf b.toNat = mantissaField b.toNat := if_pos h0
    have hpower : powerOf b.toNat = -1074 := by simp [powerOf, h0]
    rw [if_pos (hmin.2 h0)]
    by_cases hnone : mantissaField b.toNat = 0
    · rw [dif_pos (hzero.2 hnone), dif_pos (hmantissa.trans hnone), hsign]
    · rw [dif_neg (mt hzero.1 hnone), dif_neg (by rwa [hmantissa]), UnpackedFloat.finite.injEq]
      refine ⟨hsign, hm.trans hmantissa.symm, ?_⟩
      rw [hpower, hq, h0, hbias]
      rfl
  · have hmantissa : mantissaOf b.toNat = 2 ^ 52 + mantissaField b.toNat := if_neg h0
    have hpower : powerOf b.toNat = exponentField b.toNat - 1075 := by
      have hmax : max (exponentField b.toNat) 1 = exponentField b.toNat := by omega
      rw [powerOf, hmax]
    rw [if_neg (mt hmin.1 h0), dif_neg (by omega), UnpackedFloat.finite.injEq]
    refine ⟨hsign, hfull.trans hmantissa.symm, ?_⟩
    rw [hpower, hq, hbias]
    rfl

end Packed

/-- The exponent field of a mantissa and an exponent that a real can hold. -/
def fieldOf (m : Nat) (e : Int) : Nat := if 2 ^ 52 ≤ m then (e + 1075).toNat else 0

/-- The fields a finite real is packed into. -/
theorem pack_finite {m : Nat} {e : Int} (h : Stored m e) (s : Sign) :
    UnpackedFloat.pack Format.binary64 (.finite s m e h.pos) =
      packComponents Format.binary64 s (BitVec.ofNat 11 (fieldOf m e)) (BitVec.ofNat 52 m) := by
  have hlog : m.log2 + 1 = 1 + 52 ↔ 2 ^ 52 ≤ m := by
    have hle := Nat.le_log2 h.pos.ne' (k := 52)
    have hlt := (Nat.log2_lt h.pos.ne').2 h.bits
    omega
  have hbias : e + (1023 : Nat) + (52 : Nat) = e + 1075 := by omega
  have hsmall : ¬ 2 ^ 11 ≤ (e + 1075).toNat + 1 := by
    have := h.most
    omega
  unfold Float.Model.UnpackedFloat.pack fieldOf
  simp only [show Format.binary64.exponentBias = 1023 from rfl,
    show Format.binary64.mantissaBits = 1 + 52 from rfl, hbias, if_neg hsmall, hlog]
  split <;> rfl

theorem isFinite_iff {x : Float} : x.isFinite = true ↔ x.isNaN = false ∧ x.isInf = false := by
  show x.toModel.unpack.isFinite = true ↔ x.toModel.unpack.isNaN = false ∧
    x.toModel.unpack.isInf = false
  cases x.toModel.unpack with
  | notANumber => exact ⟨(nomatch ·), fun h => nomatch h.1⟩
  | infinity s => exact ⟨(nomatch ·), fun h => nomatch h.2⟩
  | zero s | finite s => exact ⟨fun _ => ⟨rfl, rfl⟩, fun _ => rfl⟩

theorem unpack_pack_zero (s : Sign) : (Float.Model.pack (.zero s)).unpack = .zero s := by
  cases s <;> rfl

/-- Packing keeps a mantissa and an exponent that a real can hold. -/
theorem unpack_pack {m : Nat} {e : Int} (h : Stored m e) (s : Sign) :
    (Float.Model.pack (.finite s m e h.pos)).unpack = .finite s m e h.pos := by
  obtain ⟨hbits, hfull, hpos, hleast, hmost⟩ := h
  have hfield : fieldOf m e < 2047 := by
    unfold fieldOf
    split <;> omega
  generalize hb : packComponents Format.binary64 s (BitVec.ofNat 11 (fieldOf m e))
    (BitVec.ofNat 52 m) = b
  have hq : exponentField b.toNat = fieldOf m e := by
    rw [← unpackExponent_toNat, ← hb, unpackExponent_packComponents, BitVec.toNat_ofNat]
    exact Nat.mod_eq_of_lt (show fieldOf m e < 2 ^ 11 by omega)
  have hm : mantissaField b.toNat = m % 2 ^ 52 := by
    rw [← unpackMantissa_toNat, ← hb, unpackMantissa_packComponents, BitVec.toNat_ofNat]
  have hs : signOf b.toNat = s := by
    rw [← ofBitVec_unpackSign, ← hb, unpackSign_packComponents, ofBitVec_toBitVec]
  have hmantissa : mantissaOf b.toNat = m := by
    rw [mantissaOf, hq, hm]
    unfold fieldOf
    split <;> split at * <;> omega
  have hpower : powerOf b.toNat = e := by
    rw [powerOf, hq]
    unfold fieldOf
    split <;> omega
  show unpack Format.binary64 (UnpackedFloat.pack Format.binary64 _) = _
  rw [pack_finite ⟨hbits, hfull, hpos, hleast, hmost⟩, hb, unpack_eq b (by omega),
    dif_neg (by omega), UnpackedFloat.finite.injEq]
  exact ⟨hs, hmantissa, hpower⟩

theorem pack_unpack_bits (b : BitVec Format.binary64.numBits) (h : exponentField b.toNat ≠ 2047) :
    UnpackedFloat.pack Format.binary64 (unpack Format.binary64 b) = b := by
  have hexponent : BitVec.ofNat 11 (exponentField b.toNat) = unpackExponent b := by
    rw [← unpackExponent_toNat]
    exact BitVec.ofNat_toNat _ _
  have hmantissa : BitVec.ofNat 52 (mantissaField b.toNat) = unpackMantissa b := by
    rw [← unpackMantissa_toNat]
    exact BitVec.ofNat_toNat _ _
  have hm : mantissaField b.toNat < 2 ^ 52 := Nat.mod_lt _ (by decide)
  have hparts := packComponents_unpack b
  rw [ofBitVec_unpackSign, ← hexponent, ← hmantissa] at hparts
  rw [unpack_eq b h]
  by_cases h0 : mantissaOf b.toNat = 0
  · have : exponentField b.toNat = 0 ∧ mantissaField b.toNat = 0 := by
      unfold mantissaOf at h0
      split at h0 <;> omega
    rw [this.1, this.2] at hparts
    rw [dif_pos h0]
    exact hparts
  · have hfield : fieldOf (mantissaOf b.toNat) (powerOf b.toNat) = exponentField b.toNat := by
      unfold fieldOf mantissaOf powerOf
      split <;> split at * <;> omega
    have hlow : BitVec.ofNat 52 (mantissaOf b.toNat) = BitVec.ofNat 52 (mantissaField b.toNat) := by
      apply BitVec.eq_of_toNat_eq
      simp only [BitVec.toNat_ofNat, mantissaOf]
      split <;> omega
    rw [dif_neg h0, pack_finite (stored_of_field h h0), hfield, hlow]
    exact hparts

/-- A finite real is what its parts pack to. -/
theorem pack_unpack (x : Float) (h : x.isFinite) :
    Float.ofModel (pack x.toModel.unpack) = x := by
  obtain ⟨⟨⟨b⟩, hvalid⟩⟩ := x
  have hbits := pack_unpack_bits b (exponentField_of_isFinite b h)
  apply congrArg Float.ofModel
  rw [Float.Model.pack, Float.Model.mk.injEq]
  exact congrArg UInt64.ofBitVec hbits

end MiniPascal
