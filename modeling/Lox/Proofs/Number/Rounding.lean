import Lox.Number.Nearest
import Mathlib.Algebra.Order.Field.Basic
import Mathlib.Data.Rat.Cast.Order
import Mathlib.Tactic.FieldSimp
import Mathlib.Tactic.Linarith
import Mathlib.Tactic.Positivity
import Mathlib.Tactic.Ring

/-!
# Rounding

What it means that a rational number rounds to a double: it lies between the midpoints on both sides
of the magnitude, and on one of them only if the code is even. A number rounds to one code at most,
and `nearest` finds it.
-/

namespace Lox.Number

/-! ## Magnitudes and midpoints -/

theorem unitsPerOne_pos : 0 < unitsPerOne := by decide

/-- The magnitude with the given code. Infinity counts as the double that would come next. -/
def magnitude (code : Nat) : ℚ := units code / unitsPerOne

/-- The number halfway between a magnitude and the next. -/
def midpoint (code : Nat) : ℚ := (magnitude code + magnitude (code + 1)) / 2

theorem magnitude_strictMono : StrictMono magnitude := by
  intro a b h
  have hunits : (units a : ℚ) < units b := by exact_mod_cast units_strictMono h
  have hpos : (0 : ℚ) < unitsPerOne := by exact_mod_cast unitsPerOne_pos
  exact div_lt_div_of_pos_right hunits hpos

theorem magnitude_lt_midpoint (code : Nat) : magnitude code < midpoint code := by
  have h := magnitude_strictMono (Nat.lt_succ_self code)
  unfold midpoint
  linarith

theorem midpoint_lt_magnitude (code : Nat) : midpoint code < magnitude (code + 1) := by
  have h := magnitude_strictMono (Nat.lt_succ_self code)
  unfold midpoint
  linarith

theorem midpoint_strictMono : StrictMono midpoint :=
  strictMono_nat_of_lt_succ fun code ↦
    (midpoint_lt_magnitude code).trans (magnitude_lt_midpoint (code + 1))

/-! ## Numbers that round to a code -/

/-- A number is nearest to the magnitude with the given code, or as near to it as to a neighbour and
the code is even. -/
structure RoundsTo (q : ℚ) (code : Nat) : Prop where
  below : q < midpoint code ∨ q = midpoint code ∧ code % 2 = 0
  above : ∀ lower, code = lower + 1 → midpoint lower < q ∨ q = midpoint lower ∧ code % 2 = 0

namespace RoundsTo

variable {q r : ℚ} {a b : Nat}

theorem le_midpoint (h : RoundsTo q a) : q ≤ midpoint a := by
  rcases h.below with hlt | ⟨heq, -⟩
  · exact hlt.le
  · exact heq.le

theorem midpoint_le (h : RoundsTo q (a + 1)) : midpoint a ≤ q := by
  rcases h.above a rfl with hlt | ⟨heq, -⟩
  · exact hlt.le
  · exact heq.ge

/-- Rounding keeps the order of numbers. -/
theorem mono (h : RoundsTo q a) (h' : RoundsTo r b) (hle : q ≤ r) : a ≤ b := by
  by_contra hlt
  obtain ⟨lower, rfl⟩ := Nat.exists_eq_add_of_lt (Nat.lt_of_not_le hlt)
  have hmid := midpoint_strictMono.monotone (Nat.le_add_right b lower)
  have hq := h.midpoint_le
  have hr := h'.le_midpoint
  -- Both lie on one midpoint, and its two sides are not both even.
  have hfirst := h.above (b + lower) rfl
  have hlast := h'.below
  have hsame : midpoint b = midpoint (b + lower) := by linarith
  have hzero := midpoint_strictMono.injective hsame
  rcases hfirst with hlt | ⟨-, heven⟩
  · linarith
  · rcases hlast with hlt | ⟨-, heven'⟩
    · linarith
    · omega

theorem unique (h : RoundsTo q a) (h' : RoundsTo q b) : a = b :=
  Nat.le_antisymm (h.mono h' le_rfl) (h'.mono h le_rfl)

/-- What lies between two numbers that round to a code rounds to it. -/
theorem between {s : ℚ} (h : RoundsTo q a) (h' : RoundsTo s a) (hqr : q ≤ r) (hrs : r ≤ s) :
    RoundsTo r a where
  below := by
    rcases h'.below with hlt | ⟨heq, heven⟩
    · exact .inl (hrs.trans_lt hlt)
    · exact (hrs.trans_eq heq).lt_or_eq.imp_right (⟨·, heven⟩)
  above := by
    intro lower hcode
    rcases h.above lower hcode with hlt | ⟨heq, heven⟩
    · exact .inl (hlt.trans_le hqr)
    · exact (heq.symm.trans_le hqr).lt_or_eq.imp_right (⟨·.symm, heven⟩)

theorem magnitude (code : Nat) : RoundsTo (magnitude code) code where
  below := .inl (magnitude_lt_midpoint code)
  above := by
    rintro lower rfl
    exact .inl (midpoint_lt_magnitude lower)

end RoundsTo

/-! ## Rounding a quotient -/

/-- The code of a mantissa at a spacing. A mantissa of `2 ^ 53` carries into the exponent. -/
theorem units_spaced {spacing mantissa : Nat} (hnormal : spacing = 0 ∨ 2 ^ 52 ≤ mantissa)
    (hbound : mantissa ≤ 2 ^ 53) : units (spacing <<< 52 + mantissa) = mantissa <<< spacing := by
  rcases Nat.lt_or_eq_of_le hbound with hlt | rfl
  · have hdoublings : doublings (spacing <<< 52 + mantissa) = spacing := by
      unfold doublings
      omega
    rw [units, hdoublings, Nat.add_sub_cancel_left]
  · have hdoublings : doublings (spacing <<< 52 + 2 ^ 53) = spacing + 1 := by
      unfold doublings
      omega
    have hmantissa : spacing <<< 52 + 2 ^ 53 - (spacing + 1) <<< 52 = 2 ^ 52 := by omega
    rw [units, hdoublings, hmantissa, Nat.shiftLeft_succ_inside]
    rfl

/-- The code nearest to a quotient when the codes go on past infinity. -/
def unbounded (num den : Nat) : Nat :=
  let scaled := num * unitsPerOne
  let spacing := (scaled / den).log2 - 52
  spacing <<< 52 + roundHalfEven scaled (den <<< spacing)

theorem nearest_eq_min (num den : Nat) :
    nearest num den = min (unbounded num den) infinityCode := rfl

/-- At the spacing that the leading bit gives, a quotient has at most 53 bits, and no fewer unless
the spacing is the least. -/
theorem quotient_bounds (n den : Nat) :
    let spacing := (n / den).log2 - 52
    n / (den <<< spacing) < 2 ^ 53 ∧ (spacing = 0 ∨ 2 ^ 52 ≤ n / (den <<< spacing)) := by
  intro spacing
  have hquotient : n / (den <<< spacing) = n / den / 2 ^ spacing := by
    rw [Nat.shiftLeft_eq, Nat.div_div_eq_div_mul]
  rw [hquotient]
  constructor
  · rw [Nat.div_lt_iff_lt_mul (Nat.two_pow_pos _), ← Nat.pow_add]
    calc n / den < 2 ^ ((n / den).log2 + 1) := Nat.lt_log2_self
      _ ≤ 2 ^ (53 + spacing) := Nat.pow_le_pow_right (by decide) (by omega)
  · by_cases hzero : spacing = 0
    · exact .inl hzero
    · have hne : n / den ≠ 0 := by
        intro heq
        simp [spacing, heq] at hzero
      refine .inr ((Nat.le_div_iff_mul_le (Nat.two_pow_pos _)).mpr ?_)
      rw [← Nat.pow_add]
      calc 2 ^ (52 + spacing) = 2 ^ (n / den).log2 := by congr 1; omega
        _ ≤ n / den := Nat.log2_self_le hne

/-- A quotient lies in the half above or below its floor that half-even rounding leads to. -/
theorem roundHalfEven_cases (n : Nat) {den : Nat} (hden : 0 < den) :
    let floor := n / den
    let q : ℚ := n / den
    floor ≤ q ∧ q < floor + 1 ∧
      (roundHalfEven n den = floor ∧ (q < floor + 1 / 2 ∨ q = floor + 1 / 2 ∧ floor % 2 = 0) ∨
        roundHalfEven n den = floor + 1 ∧
          (floor + 1 / 2 < q ∨ q = floor + 1 / 2 ∧ (floor + 1) % 2 = 0)) := by
  intro floor q
  have hpos : (0 : ℚ) < den := by exact_mod_cast hden
  have hlt : ((n % den : Nat) : ℚ) < den := by exact_mod_cast Nat.mod_lt n hden
  have hq : q = floor + (n % den : Nat) / (den : ℚ) := by
    have hsum : (n : ℚ) = den * floor + (n % den : Nat) := by
      exact_mod_cast (Nat.div_add_mod n den).symm
    simp only [q]
    rw [hsum]
    field_simp
  refine ⟨?_, ?_, ?_⟩
  · rw [hq]
    have : (0 : ℚ) ≤ (n % den : Nat) / (den : ℚ) := by positivity
    linarith
  · rw [hq]
    have := (div_lt_one hpos).mpr hlt
    linarith
  · rw [hq, roundHalfEven]
    split
    next h =>
      refine .inl ⟨rfl, ?_⟩
      rcases h with h | ⟨h, heven⟩
      · have : ((n % den : Nat) : ℚ) / den < 1 / 2 := by
          rw [div_lt_div_iff₀ hpos two_pos]
          norm_cast
          omega
        exact .inl (by linarith)
      · have : ((n % den : Nat) : ℚ) / den = 1 / 2 := by
          rw [div_eq_div_iff hpos.ne' two_ne_zero]
          norm_cast
          omega
        exact .inr ⟨by linarith, heven⟩
    next h =>
      refine .inr ⟨rfl, ?_⟩
      rcases Nat.lt_trichotomy (2 * (n % den)) den with h' | h' | h'
      · omega
      · have : ((n % den : Nat) : ℚ) / den = 1 / 2 := by
          rw [div_eq_div_iff hpos.ne' two_ne_zero]
          norm_cast
          omega
        exact .inr ⟨by linarith, by omega⟩
      · have : (1 : ℚ) / 2 < (n % den : Nat) / (den : ℚ) := by
          rw [div_lt_div_iff₀ two_pos hpos]
          norm_cast
          omega
        exact .inl (by linarith)

theorem magnitude_spaced {spacing mantissa : Nat} (hnormal : spacing = 0 ∨ 2 ^ 52 ≤ mantissa)
    (hbound : mantissa ≤ 2 ^ 53) :
    magnitude (spacing <<< 52 + mantissa) = mantissa * (2 ^ spacing / unitsPerOne : ℚ) := by
  rw [magnitude, units_spaced hnormal hbound, Nat.shiftLeft_eq]
  push_cast
  rw [mul_div_assoc]

theorem cast_div_eq (num : Nat) {den : Nat} (hden : 0 < den) (spacing : Nat) :
    (num : ℚ) / den =
      (num * unitsPerOne : Nat) / (den <<< spacing : Nat) * (2 ^ spacing / unitsPerOne) := by
  have hone : (unitsPerOne : ℚ) ≠ 0 := by exact_mod_cast unitsPerOne_pos.ne'
  have hden : (den : ℚ) ≠ 0 := by exact_mod_cast hden.ne'
  rw [Nat.shiftLeft_eq]
  push_cast
  field_simp

theorem roundsTo_unbounded (num : Nat) {den : Nat} (hden : 0 < den) :
    RoundsTo (num / den) (unbounded num den) := by
  obtain ⟨hbound, hnormal⟩ := quotient_bounds (num * unitsPerOne) den
  rw [unbounded, cast_div_eq num hden ((num * unitsPerOne / den).log2 - 52)]
  generalize (num * unitsPerOne / den).log2 - 52 = spacing at *
  have hspaced : 0 < den <<< spacing := by
    rw [Nat.shiftLeft_eq]
    positivity
  obtain ⟨hfloor, hceil, hround⟩ := roundHalfEven_cases (num * unitsPerOne) hspaced
  generalize num * unitsPerOne / (den <<< spacing) = floor at *
  generalize ((num * unitsPerOne : Nat) : ℚ) / (den <<< spacing : Nat) = q at *
  have hwidth : (0 : ℚ) < 2 ^ spacing / unitsPerOne :=
    div_pos (by positivity) (by exact_mod_cast unitsPerOne_pos)
  have hnext : spacing = 0 ∨ 2 ^ 52 ≤ floor + 1 := hnormal.imp_right Nat.le_succ_of_le
  have hlower := magnitude_spaced hnormal hbound.le
  have hupper := magnitude_spaced hnext (Nat.succ_le_of_lt hbound)
  generalize (2 ^ spacing / unitsPerOne : ℚ) = width at *
  have hmid : midpoint (spacing <<< 52 + floor) = (floor + 1 / 2) * width := by
    rw [midpoint, Nat.add_assoc, hlower, hupper]
    push_cast
    ring
  rcases hround with ⟨heq, hside⟩ | ⟨heq, hside⟩ <;> rw [heq]
  · constructor
    · rw [hmid]
      rcases hside with hlt | ⟨rfl, heven⟩
      · exact .inl (mul_lt_mul_of_pos_right hlt hwidth)
      · exact .inr ⟨rfl, by omega⟩
    · intro lower hcode
      have hmagnitude := midpoint_lt_magnitude lower
      rw [← hcode, hlower] at hmagnitude
      exact .inl (hmagnitude.trans_le (mul_le_mul_of_nonneg_right hfloor hwidth.le))
  · constructor
    · have hmagnitude := magnitude_lt_midpoint (spacing <<< 52 + (floor + 1))
      rw [hupper] at hmagnitude
      push_cast at hmagnitude
      exact .inl ((mul_lt_mul_of_pos_right hceil hwidth).trans hmagnitude)
    · intro lower hcode
      obtain rfl : lower = spacing <<< 52 + floor := by omega
      rw [hmid]
      rcases hside with hlt | ⟨rfl, heven⟩
      · exact .inl (mul_lt_mul_of_pos_right hlt hwidth)
      · exact .inr ⟨rfl, by omega⟩

/-- Below infinity `nearest` finds the one code that a quotient rounds to. -/
theorem nearest_eq_iff (num : Nat) {den code : Nat} (hden : 0 < den) (hcode : code < infinityCode) :
    nearest num den = code ↔ RoundsTo (num / den) code := by
  have hrounds := roundsTo_unbounded num hden
  rw [nearest_eq_min]
  constructor
  · intro h
    have heq : unbounded num den = code := by
      rcases Nat.le_total (unbounded num den) infinityCode with hle | hle
      · rwa [Nat.min_eq_left hle] at h
      · rw [Nat.min_eq_right hle] at h
        omega
    rwa [heq] at hrounds
  · intro h
    rw [hrounds.unique h, Nat.min_eq_left hcode.le]

theorem roundsTo_nearest {num den : Nat} (hden : 0 < den) (h : nearest num den < infinityCode) :
    RoundsTo (num / den) (nearest num den) :=
  (nearest_eq_iff num hden h).mp rfl

end Lox.Number
