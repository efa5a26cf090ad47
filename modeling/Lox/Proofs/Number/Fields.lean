import Lox.Proofs.Number.Bits

/-!
# Fields of doubles

The bits of a double are its sign, its exponent and its mantissa; the last two make up its code. So
codes tell infinity and what is not a number from the finite doubles, changing the sign keeps the
code, and codes order the doubles without a sign.
-/

namespace Lox.Number

open Float.Model (Format)
open Float.Model.UnpackedFloat

/-! ## Fields -/

theorem toNat_packComponents (sign : Sign) (exponent : BitVec 11) (mantissa : BitVec 52) :
    (packComponents .binary64 sign exponent mantissa).toNat =
      sign.toBitVec.toNat * 2 ^ 63 + (exponent.toNat * 2 ^ 52 + mantissa.toNat) := by
  change (sign.toBitVec ++ exponent ++ mantissa).toNat = _
  rw [BitVec.toNat_append, BitVec.toNat_append, ← Nat.shiftLeft_add_eq_or_of_lt mantissa.isLt,
    ← Nat.shiftLeft_add_eq_or_of_lt exponent.isLt, Nat.shiftLeft_eq, Nat.shiftLeft_eq]
  ring

/-- The fields that the bits of a double consist of. -/
def HasFields (x : Float) (sign : Sign) (exponent : BitVec 11) (mantissa : BitVec 52) : Prop :=
  x.toBits.toBitVec = packComponents .binary64 sign exponent mantissa

theorem exists_hasFields (x : Float) :
    ∃ sign exponent mantissa, HasFields x sign exponent mantissa :=
  ⟨_, _, _,
    (@packComponents_unpackSign_unpackExponent_unpackMantissa .binary64 x.toBits.toBitVec).symm⟩

namespace HasFields

variable {x : Float} {sign : Sign} {exponent : BitVec 11} {mantissa : BitVec 52}

theorem toNat_toBits (h : HasFields x sign exponent mantissa) :
    x.toBits.toNat = sign.toBitVec.toNat * 2 ^ 63 + (exponent.toNat * 2 ^ 52 + mantissa.toNat) :=
  (congrArg BitVec.toNat h).trans (toNat_packComponents sign exponent mantissa)

theorem code_eq (h : HasFields x sign exponent mantissa) :
    code x = exponent.toNat * 2 ^ 52 + mantissa.toNat := by
  have hexponent := exponent.isLt
  have hmantissa := mantissa.isLt
  rw [code, h.toNat_toBits, Nat.one_shiftLeft]
  omega

theorem isNegative_eq (h : HasFields x sign exponent mantissa) :
    isNegative x = (sign == .negative) := by
  have hexponent := exponent.isLt
  have hmantissa := mantissa.isLt
  rw [isNegative, h.toNat_toBits, Nat.one_shiftLeft]
  cases sign with
  | negative =>
      rw [show Sign.negative.toBitVec.toNat = 1 from rfl]
      exact decide_eq_true (by omega)
  | positive =>
      rw [show Sign.positive.toBitVec.toNat = 0 from rfl]
      exact decide_eq_false (by omega)

theorem unpack_eq (h : HasFields x sign exponent mantissa) :
    x.toModel.unpack = unpack .binary64 (packComponents .binary64 sign exponent mantissa) :=
  congrArg (unpack .binary64) h

end HasFields

theorem toNat_pos {mantissa : BitVec 52} (h : mantissa ≠ 0#52) : 0 < mantissa.toNat :=
  Nat.pos_of_ne_zero fun hzero ↦ h (BitVec.eq_of_toNat_eq hzero)

/-- What the fields of a double mean. -/
theorem unpack_packComponents (sign : Sign) (exponent : BitVec 11) (mantissa : BitVec 52) :
    unpack .binary64 (packComponents .binary64 sign exponent mantissa) =
      if exponent = -1#11 then if mantissa = 0#52 then infinity sign else notANumber
      else if exponent = 0#11 then
        if h : mantissa = 0#52 then zero sign
        else finite sign mantissa.toNat (-1074) (toNat_pos h)
      else
        finite sign (2 ^ 52 + mantissa.toNat) (exponent.toNat - 1075)
          (Nat.add_pos_left (Nat.two_pow_pos 52) _) := by
  have hnormal : (1#1 ++ mantissa).toNat = 2 ^ 52 + mantissa.toNat := by
    rw [BitVec.toNat_append, ← Nat.shiftLeft_add_eq_or_of_lt mantissa.isLt]
    rfl
  simp only [unpack, unpackExponent_packComponents, unpackMantissa_packComponents,
    unpackSign_packComponents, Sign.ofBitVec_toBitVec]
  split
  · rfl
  · split
    next hzero =>
      subst hzero
      rfl
    next =>
      simp only [hnormal]
      rfl

section

variable {x y : Float}

/-- The code of a double says whether it is not a number, infinite or finite. -/
theorem unpack_class (x : Float) :
    (x.isNaN = true ↔ infinityCode < code x) ∧ (x.isInf = true ↔ code x = infinityCode) ∧
      (x.isFinite = true ↔ code x < infinityCode) := by
  obtain ⟨sign, exponent, mantissa, h⟩ := exists_hasFields x
  have hspecial : exponent = -1#11 ↔ exponent.toNat = 2047 := BitVec.toNat_inj.symm
  have hzero : mantissa = 0#52 ↔ mantissa.toNat = 0 := BitVec.toNat_inj.symm
  have hexponent := exponent.isLt
  have hmantissa := mantissa.isLt
  have hinfinity : infinityCode = 2047 * 2 ^ 52 := rfl
  rw [h.code_eq, Float.isNaN, Float.isInf, Float.isFinite, Float.Model.isNaN, Float.Model.isInf,
    Float.Model.isFinite, h.unpack_eq, unpack_packComponents]
  split
  · split <;> simp only [isNaN, isInf, isFinite] <;> grind
  · split
    · split <;> simp only [isNaN, isInf, isFinite] <;> grind
    · simp only [isNaN, isInf, isFinite]
      grind

theorem code_le_infinityCode (h : x.isNaN = false) : code x ≤ infinityCode := by
  rw [← not_lt, ← (unpack_class x).1, h]
  exact Bool.false_ne_true

/-! ## Signs -/

theorem neg_unpack (sign : Sign) (exponent : BitVec 11) (mantissa : BitVec 52) :
    (unpack .binary64 (packComponents .binary64 sign exponent mantissa)).neg =
      unpack .binary64 (packComponents .binary64 (-sign) exponent mantissa) := by
  rw [unpack_packComponents, unpack_packComponents]
  split
  · split <;> rfl
  · split
    · split <;> rfl
    · rfl

theorem abs_unpack (sign : Sign) (exponent : BitVec 11) (mantissa : BitVec 52) :
    (unpack .binary64 (packComponents .binary64 sign exponent mantissa)).abs =
      unpack .binary64 (packComponents .binary64 .positive exponent mantissa) := by
  rw [unpack_packComponents, unpack_packComponents]
  split
  · split <;> rfl
  · split
    · split <;> rfl
    · rfl

/-- Packing keeps the fields of a number. -/
theorem HasFields.pack_unpack {sign : Sign} {exponent : BitVec 11} {mantissa : BitVec 52}
    (h : HasFields x sign exponent mantissa) (hcode : code x ≤ infinityCode) (sign' : Sign) :
    pack .binary64 (unpack .binary64 (packComponents .binary64 sign' exponent mantissa)) =
      packComponents .binary64 sign' exponent mantissa := by
  have hmantissa := mantissa.isLt
  have hinfinity : infinityCode = 2047 * 2 ^ 52 := rfl
  have hnumber : ¬ isNaNBits (packComponents .binary64 sign' exponent mantissa) := by
    rw [isNaNBits, unpackExponent_packComponents, unpackMantissa_packComponents,
      decide_eq_true_eq]
    rintro ⟨hspecial, hzero⟩
    have hpos := toNat_pos hzero
    rw [h.code_eq, hinfinity, hspecial] at hcode
    simp at hcode
    omega
  exact (Float.Model.UnpackedFloat.pack_unpack _).trans (if_neg hnumber)

theorem HasFields.neg {sign : Sign} {exponent : BitVec 11} {mantissa : BitVec 52}
    (h : HasFields x sign exponent mantissa) (hcode : code x ≤ infinityCode) :
    HasFields (-x) (-sign) exponent mantissa := by
  refine (congrArg (fun u ↦ pack .binary64 u.neg) h.unpack_eq).trans ?_
  rw [neg_unpack, h.pack_unpack hcode]

theorem HasFields.abs {sign : Sign} {exponent : BitVec 11} {mantissa : BitVec 52}
    (h : HasFields x sign exponent mantissa) (hcode : code x ≤ infinityCode) :
    HasFields x.abs .positive exponent mantissa := by
  refine (congrArg (fun u ↦ pack .binary64 u.abs) h.unpack_eq).trans ?_
  rw [abs_unpack, h.pack_unpack hcode]

theorem abs_eq_ofCode (hcode : code x ≤ infinityCode) : x.abs = ofCode (code x) := by
  obtain ⟨sign, exponent, mantissa, h⟩ := exists_hasFields x
  apply eq_of_code_eq
  · rw [code_ofCode hcode, (h.abs hcode).code_eq, h.code_eq]
  · rw [isNegative_ofCode hcode, (h.abs hcode).isNegative_eq]
    rfl

theorem neg_ofCode (hcode : code x ≤ infinityCode) (hsign : isNegative x = true) :
    -ofCode (code x) = x := by
  have hunsigned := code_ofCode hcode
  obtain ⟨sign, exponent, mantissa, h⟩ := exists_hasFields (ofCode (code x))
  have hpositive := h.isNegative_eq
  rw [isNegative_ofCode hcode] at hpositive
  have hneg := h.neg (hunsigned.trans_le hcode)
  apply eq_of_code_eq
  · rw [hneg.code_eq, ← h.code_eq, hunsigned]
  · rw [hneg.isNegative_eq, hsign]
    cases sign with
    | positive => rfl
    | negative => cases hpositive

/-! ## Codes -/

/-- The sign of a double. -/
def sign (x : Float) : Sign := if isNegative x then .negative else .positive

theorem sign_eq_positive (h : isNegative x = false) : sign x = .positive := by
  rw [sign, h]
  rfl

theorem mantissa_pos {c : Nat} (h : c ≠ 0) : 0 < c - doublings c <<< 52 := by
  unfold doublings
  omega

/-- What the code of a double says about it. -/
theorem unpack_eq (hcode : code x ≤ infinityCode) :
    x.toModel.unpack =
      if code x = infinityCode then infinity (sign x)
      else if h : code x = 0 then zero (sign x)
      else
        finite (sign x) (code x - doublings (code x) <<< 52) (doublings (code x) - 1074)
          (mantissa_pos h) := by
  obtain ⟨s, exponent, mantissa, h⟩ := exists_hasFields x
  have hsign : sign x = s := by
    rw [sign, h.isNegative_eq]
    cases s <;> rfl
  have hexponent := exponent.isLt
  have hmantissa := mantissa.isLt
  have hinfinity : infinityCode = 2047 * 2 ^ 52 := rfl
  have hspecial : exponent = -1#11 ↔ exponent.toNat = 2047 := BitVec.toNat_inj.symm
  have hleast : exponent = 0#11 ↔ exponent.toNat = 0 := BitVec.toNat_inj.symm
  have hzero : mantissa = 0#52 ↔ mantissa.toNat = 0 := BitVec.toNat_inj.symm
  have hfields := h.code_eq
  rw [hsign, h.unpack_eq, unpack_packComponents]
  generalize code x = c at *
  by_cases hs : exponent.toNat = 2047
  · have hc : c = infinityCode := by omega
    rw [if_pos (hspecial.mpr hs), if_pos (hzero.mpr (by omega)), if_pos hc]
  have hc : c ≠ infinityCode := by omega
  rw [if_neg (hspecial.not.mpr hs), if_neg hc]
  by_cases hl : exponent.toNat = 0
  · rw [if_pos (hleast.mpr hl)]
    by_cases hz : mantissa.toNat = 0
    · have hc : c = 0 := by omega
      rw [dif_pos (hzero.mpr hz), dif_pos hc]
    · have hc : c ≠ 0 := by omega
      rw [dif_neg (hzero.not.mpr hz), dif_neg hc, finite.injEq, doublings]
      exact ⟨rfl, by omega, by omega⟩
  · have hc : c ≠ 0 := by omega
    rw [if_neg (hleast.not.mpr hl), dif_neg hc, finite.injEq, doublings]
    exact ⟨rfl, by omega, by omega⟩

/-! ## Order -/

/-- The power of two of a double counts for more than its mantissa. -/
theorem compare_finite {c c' : Nat} :
    (compare ((doublings c : ℤ) - 1074) (doublings c' - 1074)).then
        (compare (c - doublings c <<< 52) (c' - doublings c' <<< 52)) = compare c c' := by
  rcases Nat.lt_trichotomy c c' with h | rfl | h
  · rw [Nat.compare_eq_lt.mpr h, Ordering.then_eq_lt, Int.compare_eq_lt, Int.compare_eq_eq,
      Nat.compare_eq_lt]
    unfold doublings
    omega
  · simp
  · rw [Nat.compare_eq_gt.mpr h, Ordering.then_eq_gt, Int.compare_eq_gt, Int.compare_eq_eq,
      Nat.compare_eq_gt]
    unfold doublings
    omega

/-- Codes order the doubles without a sign. -/
theorem compare_unpack (hx : isNegative x = false) (hy : isNegative y = false)
    (hxcode : code x ≤ infinityCode) (hycode : code y ≤ infinityCode) :
    x.toModel.unpack.compare y.toModel.unpack = some (compare (code x) (code y)) := by
  rw [unpack_eq hxcode, unpack_eq hycode, sign_eq_positive hx, sign_eq_positive hy]
  rcases hxcode.lt_or_eq with hxlt | hxeq
  · rcases hycode.lt_or_eq with hylt | hyeq
    · rw [if_neg hxlt.ne, if_neg hylt.ne]
      by_cases hxz : code x = 0 <;> by_cases hyz : code y = 0
      · rw [dif_pos hxz, dif_pos hyz, hxz, hyz]
        rfl
      · rw [dif_pos hxz, dif_neg hyz, hxz, Nat.compare_eq_lt.mpr (Nat.pos_of_ne_zero hyz)]
        rfl
      · rw [dif_neg hxz, dif_pos hyz, hyz, Nat.compare_eq_gt.mpr (Nat.pos_of_ne_zero hxz)]
        rfl
      · rw [dif_neg hxz, dif_neg hyz]
        exact congrArg some compare_finite
    · rw [if_neg hxlt.ne, if_pos hyeq, hyeq, Nat.compare_eq_lt.mpr hxlt]
      split <;> rfl
  · rcases hycode.lt_or_eq with hylt | hyeq
    · rw [if_pos hxeq, if_neg hylt.ne, hxeq, Nat.compare_eq_gt.mpr hylt]
      split <;> rfl
    · rw [if_pos hxeq, if_pos hyeq, hxeq, hyeq, Nat.compare_eq_eq.mpr rfl]
      rfl

theorem le_iff_code_le (hx : isNegative x = false) (hy : isNegative y = false)
    (hxcode : code x ≤ infinityCode) (hycode : code y ≤ infinityCode) :
    x ≤ y ↔ code x ≤ code y := by
  have hcompare := compare_unpack hx hy hxcode hycode
  change decide (Float.Model.UnpackedFloat.le _ _ = true) = true ↔ _
  rw [decide_eq_true_iff, Float.Model.UnpackedFloat.le, hcompare]
  exact Nat.isLE_compare

theorem lt_iff_code_lt (hx : isNegative x = false) (hy : isNegative y = false)
    (hxcode : code x ≤ infinityCode) (hycode : code y ≤ infinityCode) :
    x < y ↔ code x < code y := by
  have hcompare := compare_unpack hx hy hxcode hycode
  change decide (Float.Model.UnpackedFloat.lt _ _ = true) = true ↔ _
  rw [decide_eq_true_iff, Float.Model.UnpackedFloat.lt, hcompare, beq_iff_eq, Option.some_inj]
  exact Nat.compare_eq_lt

theorem code_abs (hcode : code x ≤ infinityCode) : code x.abs = code x := by
  rw [abs_eq_ofCode hcode, code_ofCode hcode]

theorem isNegative_abs (hcode : code x ≤ infinityCode) : isNegative x.abs = false := by
  rw [abs_eq_ofCode hcode, isNegative_ofCode hcode]

theorem abs_eq_self (hcode : code x ≤ infinityCode) (hsign : isNegative x = false) : x.abs = x :=
  eq_of_code_eq (code_abs hcode) ((isNegative_abs hcode).trans hsign.symm)

theorem le_abs_iff (hx : isNegative x = false) (hxcode : code x ≤ infinityCode)
    (hycode : code y ≤ infinityCode) : x ≤ y.abs ↔ code x ≤ code y := by
  rw [le_iff_code_le hx (isNegative_abs hycode) hxcode ((code_abs hycode).trans_le hycode),
    code_abs hycode]

theorem abs_lt_iff (hx : isNegative x = false) (hxcode : code x ≤ infinityCode)
    (hycode : code y ≤ infinityCode) : y.abs < x ↔ code y < code x := by
  rw [lt_iff_code_lt (isNegative_abs hycode) hx ((code_abs hycode).trans_le hycode) hxcode,
    code_abs hycode]

end

end Lox.Number
