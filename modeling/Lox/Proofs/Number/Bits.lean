import Lox.Number.Binary64
import Mathlib

/-!
# Bits of doubles

A double is kept as its bits, of which only those of a value that is not a number are replaced. So a
code up to infinity is the code of its double, and a double is given by its code and its sign.
-/

namespace Lox.Number

open Float.Model (Format)
open Float.Model.UnpackedFloat

theorem toBits_ofBits {bits : UInt64}
    (h : @unpackExponent .binary64 bits.toBitVec = -1#11 →
      @unpackMantissa .binary64 bits.toBitVec = 0#52) :
    (Float.ofBits bits).toBits = bits := by
  have hnumber : ¬ @isNaNBits .binary64 bits.toBitVec := by
    simpa [isNaNBits] using h
  apply UInt64.toBitVec_inj.mp
  exact (pack_unpack _).trans (if_neg hnumber)

theorem toBits_ofCode {c : Nat} (h : c ≤ infinityCode) : (ofCode c).toBits = UInt64.ofNat c := by
  have hsmall : c % 2 ^ 64 = c := Nat.mod_eq_of_lt (Nat.lt_of_le_of_lt h (by decide))
  apply toBits_ofBits
  intro hexponent
  have hfield := congrArg BitVec.toNat hexponent
  change (c % 2 ^ 64) >>> 52 % 2 ^ 11 = 2047 at hfield
  apply BitVec.eq_of_toNat_eq
  change (c % 2 ^ 64) >>> 0 % 2 ^ 52 = 0
  have hbound : c ≤ 2047 <<< 52 := h
  omega

theorem toNat_toBits_ofCode {c : Nat} (h : c ≤ infinityCode) : (ofCode c).toBits.toNat = c := by
  rw [toBits_ofCode h]
  exact Nat.mod_eq_of_lt (Nat.lt_of_le_of_lt h (by decide))

theorem code_ofCode {c : Nat} (h : c ≤ infinityCode) : code (ofCode c) = c := by
  rw [code, toNat_toBits_ofCode h]
  exact Nat.mod_eq_of_lt (Nat.lt_of_le_of_lt h (by decide))

theorem isNegative_ofCode {c : Nat} (h : c ≤ infinityCode) : isNegative (ofCode c) = false := by
  rw [isNegative, toNat_toBits_ofCode h, decide_eq_false_iff_not, Nat.not_le]
  exact Nat.lt_of_le_of_lt h (by decide)

theorem isInf_infinity : (ofCode infinityCode).isInf = true := by decide +kernel

/-- A double is given by its code and its sign. -/
theorem eq_of_code_eq {x y : Float} (hcode : code x = code y)
    (hsign : isNegative x = isNegative y) : x = y := by
  apply Float.toBits_inj.mp
  apply UInt64.toNat_inj.mp
  have hx := x.toBits.toNat_lt
  have hy := y.toBits.toNat_lt
  rw [isNegative, isNegative, decide_eq_decide] at hsign
  rw [code, code, Nat.one_shiftLeft] at hcode
  omega

theorem toBits_eq_zero_iff {x : Float} (h : isNegative x = false) : x.toBits = 0 ↔ code x = 0 := by
  have hlt : x.toBits.toNat < 1 <<< 63 := by
    rwa [isNegative, decide_eq_false_iff_not, not_le] at h
  rw [code, Nat.mod_eq_of_lt hlt, ← UInt64.toNat_inj]
  rfl

end Lox.Number
