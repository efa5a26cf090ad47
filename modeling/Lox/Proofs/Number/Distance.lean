import Lox.Proofs.Number.Fields
import Lox.Proofs.Number.Rounding

/-!
# Distances to doubles

To round to a double is to be nearest to it, or as near to it as to another and its code is even.
Numbers from halfway between the largest double and `2 ^ 1024` on are read as infinity, and numbers
up to half of the least positive double are read as zero.
-/

namespace Lox.Number

/-! ## Magnitudes of doubles -/

theorem cast_unitsPerOne : (unitsPerOne : ℚ) = 2 ^ 1074 := by
  simp only [unitsPerOne, Nat.one_shiftLeft, Nat.cast_pow, Nat.cast_ofNat]

/-- The magnitude of a finite double is its mantissa times its power of two. -/
theorem magnitude_code {x : Float} {sign : Float.Model.UnpackedFloat.Sign} {mantissa : Nat}
    {exponent : Int} {hpos : 0 < mantissa}
    (h : x.toModel.unpack = .finite sign mantissa exponent hpos) :
    magnitude (code x) = mantissa * 2 ^ exponent := by
  have hcode : code x < infinityCode :=
    (unpack_class x).2.2.mp (congrArg Float.Model.UnpackedFloat.isFinite h)
  rw [unpack_eq hcode.le, if_neg hcode.ne] at h
  split at h
  · cases h
  obtain ⟨-, rfl, rfl⟩ := Float.Model.UnpackedFloat.finite.inj h
  rw [magnitude, units, Nat.shiftLeft_eq, show (1074 : ℤ) = (1074 : Nat) from rfl,
    zpow_sub₀ two_ne_zero, zpow_natCast, zpow_natCast, Nat.cast_mul, Nat.cast_pow, Nat.cast_two,
    cast_unitsPerOne, mul_div_assoc]

/-! ## Nearest magnitudes -/

section

variable {a b q : ℚ}

theorem abs_sub_lower_le_iff (h : a < b) : |q - a| ≤ |q - b| ↔ 2 * q ≤ a + b := by
  have hfactors : (q - b) ^ 2 - (q - a) ^ 2 = (b - a) * (a + b - 2 * q) := by ring
  rw [← sq_le_sq, ← sub_nonneg, hfactors, mul_nonneg_iff_of_pos_left (sub_pos.mpr h), sub_nonneg]

theorem abs_sub_upper_le_iff (h : a < b) : |q - b| ≤ |q - a| ↔ a + b ≤ 2 * q := by
  have hfactors : (q - a) ^ 2 - (q - b) ^ 2 = (b - a) * (2 * q - (a + b)) := by ring
  rw [← sq_le_sq, ← sub_nonneg, hfactors, mul_nonneg_iff_of_pos_left (sub_pos.mpr h), sub_nonneg]

end

/-- No magnitude is nearer to a number than the one with the given code, and if another is as near
the code is even. -/
structure IsNearest (q : ℚ) (code : Nat) : Prop where
  le : ∀ other, |q - magnitude code| ≤ |q - magnitude other|
  even : ∀ other, other ≠ code → |q - magnitude other| = |q - magnitude code| → code % 2 = 0

namespace IsNearest

variable {q : ℚ} {code : Nat}

theorem roundsTo (h : IsNearest q code) : RoundsTo q code := by
  constructor
  · have hnext := magnitude_strictMono (Nat.lt_succ_self code)
    have hle := (abs_sub_lower_le_iff hnext).mp (h.le (code + 1))
    rcases hle.lt_or_eq with hlt | heq
    · refine .inl ?_
      unfold midpoint
      linarith
    · have htie := (abs_sub_upper_le_iff hnext).mpr heq.ge
      refine .inr ⟨?_, h.even (code + 1) (Nat.succ_ne_self code) (htie.antisymm (h.le _))⟩
      unfold midpoint
      linarith
  · rintro lower rfl
    have hnext := magnitude_strictMono (Nat.lt_succ_self lower)
    have hle := (abs_sub_upper_le_iff hnext).mp (h.le lower)
    rcases hle.lt_or_eq with hlt | heq
    · refine .inl ?_
      unfold midpoint
      linarith
    · have htie := (abs_sub_lower_le_iff hnext).mpr heq.ge
      refine .inr ⟨?_, h.even lower (Nat.succ_ne_self lower).symm (htie.antisymm (h.le _))⟩
      unfold midpoint
      linarith

end IsNearest

namespace RoundsTo

variable {q : ℚ} {code other : Nat}

theorem below_of_lt (h : RoundsTo q code) (hlt : code < other) :
    2 * q < Number.magnitude code + Number.magnitude other ∨
      2 * q = Number.magnitude code + Number.magnitude other ∧ code % 2 = 0 := by
  have hnext := magnitude_strictMono.monotone (Nat.succ_le_of_lt hlt)
  have hbelow := h.below
  unfold midpoint at hbelow
  rcases hbelow with hstrict | ⟨htie, heven⟩
  · exact .inl (by linarith)
  · rcases hnext.lt_or_eq with hlt | heq
    · exact .inl (by linarith)
    · exact .inr ⟨by linarith, heven⟩

theorem above_of_lt (h : RoundsTo q code) (hlt : other < code) :
    Number.magnitude other + Number.magnitude code < 2 * q ∨
      Number.magnitude other + Number.magnitude code = 2 * q ∧ code % 2 = 0 := by
  obtain ⟨lower, rfl⟩ := Nat.exists_eq_add_one_of_ne_zero (Nat.ne_zero_of_lt hlt)
  have hbefore := magnitude_strictMono.monotone (Nat.le_of_lt_succ hlt)
  have habove := h.above lower rfl
  unfold midpoint at habove
  rcases habove with hstrict | ⟨htie, heven⟩
  · exact .inl (by linarith)
  · rcases hbefore.lt_or_eq with hlt | heq
    · exact .inl (by linarith)
    · exact .inr ⟨by linarith, heven⟩

theorem isNearest (h : RoundsTo q code) : IsNearest q code := by
  constructor
  · intro other
    rcases Nat.lt_trichotomy code other with hlt | rfl | hlt
    · refine (abs_sub_lower_le_iff (magnitude_strictMono hlt)).mpr ?_
      rcases h.below_of_lt hlt with hstrict | ⟨htie, -⟩
      · exact hstrict.le
      · exact htie.le
    · exact le_rfl
    · refine (abs_sub_upper_le_iff (magnitude_strictMono hlt)).mpr ?_
      rcases h.above_of_lt hlt with hstrict | ⟨htie, -⟩
      · exact hstrict.le
      · exact htie.le
  · intro other hne heq
    rcases Nat.lt_or_gt_of_ne hne with hlt | hlt
    · have htie := (abs_sub_lower_le_iff (magnitude_strictMono hlt)).mp heq.le
      rcases h.above_of_lt hlt with hstrict | ⟨-, heven⟩
      · linarith
      · exact heven
    · have htie := (abs_sub_upper_le_iff (magnitude_strictMono hlt)).mp heq.le
      rcases h.below_of_lt hlt with hstrict | ⟨-, heven⟩
      · linarith
      · exact heven

end RoundsTo

/-! ## The ends of the range -/

theorem midpoint_zero : midpoint 0 = 1 / 2 ^ 1075 := by
  rw [midpoint, magnitude, magnitude, units_zero, show units (0 + 1) = 1 from rfl,
    cast_unitsPerOne, Nat.cast_zero, zero_div, zero_add, Nat.cast_one, div_div, ← pow_succ]

theorem midpoint_largest : midpoint (infinityCode - 1) = 2 ^ 1024 - 2 ^ 970 := by
  have hunits : units (infinityCode - 1) + units (infinityCode - 1 + 1) +
      2 * 2 ^ 970 * unitsPerOne = 2 * 2 ^ 1024 * unitsPerOne := by
    decide +kernel
  have hcast := congrArg (Nat.cast : Nat → ℚ) hunits
  simp only [Nat.cast_add, Nat.cast_mul, Nat.cast_pow, Nat.cast_ofNat] at hcast
  have hone : (0 : ℚ) < unitsPerOne := by exact_mod_cast unitsPerOne_pos
  rw [midpoint, magnitude, magnitude, ← add_div, div_div, div_eq_iff (mul_pos hone two_pos).ne']
  generalize (2 : ℚ) ^ 1024 = above at *
  generalize (2 : ℚ) ^ 970 = step at *
  linarith

section

variable {num num' den den' : Nat}

/-- A greater or equal quotient never has a smaller code. -/
theorem nearest_mono (hden : 0 < den) (hden' : 0 < den') (h : (num : ℚ) / den ≤ num' / den') :
    nearest num den ≤ nearest num' den' := by
  have hle := (roundsTo_unbounded num hden).mono (roundsTo_unbounded num' hden') h
  rw [nearest_eq_min, nearest_eq_min]
  exact min_le_min_right _ hle

theorem nearest_eq_zero_iff (hden : 0 < den) :
    nearest num den = 0 ↔ (num : ℚ) / den ≤ 1 / 2 ^ 1075 := by
  rw [nearest_eq_iff num hden (by decide), ← midpoint_zero]
  constructor
  · exact RoundsTo.le_midpoint
  · intro hle
    rcases hle.lt_or_eq with hlt | heq
    · exact ⟨.inl hlt, nofun⟩
    · exact ⟨.inr ⟨heq, rfl⟩, nofun⟩

theorem nearest_eq_infinityCode_iff (hden : 0 < den) :
    nearest num den = infinityCode ↔ (2 ^ 1024 - 2 ^ 970 : ℚ) ≤ num / den := by
  have hrounds := roundsTo_unbounded num hden
  rw [nearest_eq_min, min_eq_right_iff, ← midpoint_largest]
  constructor
  · intro hle
    obtain ⟨lower, hlower⟩ := Nat.exists_eq_add_one_of_ne_zero
      (Nat.ne_zero_of_lt (Nat.lt_of_lt_of_le (by decide : 0 < infinityCode) hle))
    rw [hlower] at hrounds
    have hmid := midpoint_strictMono.monotone (by omega : infinityCode - 1 ≤ lower)
    exact hmid.trans hrounds.midpoint_le
  · intro hle
    by_contra hlt
    have hcode : unbounded num den ≤ infinityCode - 1 := by omega
    have hmid := midpoint_strictMono.monotone hcode
    -- The halfway point to infinity is no tie for the largest double, which has an odd code.
    rcases hrounds.below with hbelow | ⟨heq, heven⟩
    · linarith
    · have hsame : unbounded num den = infinityCode - 1 :=
        midpoint_strictMono.injective (hmid.antisymm (hle.trans_eq heq))
      rw [hsame] at heven
      exact absurd heven (by decide)

end

end Lox.Number
