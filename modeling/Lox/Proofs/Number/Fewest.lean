import Lox.Proofs.Number.Reduced

/-!
# The fewest digits

No decimal that rounds to a magnitude has fewer digits than the shortest one. With fewer digits it
would lie on a grid coarser than the one the shortest was found on, or the power of ten at which the
magnitude starts would: both on that grid, where a neighbour of the magnitude then reads back. The
order of magnitudes carries over to the exponents of their shortest decimals.
-/

namespace Lox.Number

/-! ## The coarsest grid -/

section

variable {found : Nat → Option Nat} {power above coefficient place : Nat}

/-- Something is found on no grid above the one that is taken. -/
theorem coarsest_spec (h : coarsest found power above = some (coefficient, place)) :
    power ≤ place ∧ place ≤ power + above ∧
      ∀ other, place < other → other ≤ power + above → found other = none := by
  induction above with
  | zero =>
      obtain ⟨_, -, heq⟩ := Option.map_eq_some_iff.mp h
      cases heq
      exact ⟨le_rfl, le_rfl, fun other hlt hle ↦ absurd hle hlt.not_ge⟩
  | succ above ih =>
      rw [coarsest] at h
      split at h
      next =>
        cases h
        exact ⟨Nat.le_add_right _ _, le_rfl, fun other hlt hle ↦ absurd hle hlt.not_ge⟩
      next hnone =>
        obtain ⟨hle, hle', habove⟩ := ih h
        refine ⟨hle, hle'.trans (Nat.le_succ _), fun other hlt hother ↦ ?_⟩
        rcases Nat.lt_or_eq_of_le hother with hother | rfl
        · exact habove other hlt (Nat.le_of_lt_succ hother)
        · exact hnone

end

variable {code : Nat}

/-- If any multiple of the spacing rounds to the magnitude, a neighbour of the magnitude does. -/
theorem neighbour_isSome_of_roundsTo (hcode : code < infinityCode) {j power : Nat}
    (h : RoundsTo (j * step power) code) : (neighbour code power).isSome := by
  obtain ⟨hcell, hcell'⟩ := magnitude_bounds code power
  have hstep := (step_pos power).le
  rw [neighbour, Option.isSome_iff_ne_none, ne_eq, choose_eq_none_iff, ← Bool.not_eq_true,
    ← Bool.not_eq_true, readsBack_iff hcode, readsBack_iff hcode]
  generalize counts code / tenPow power = lower at *
  rintro ⟨hlower, hupper⟩
  rcases Nat.lt_or_ge lower j with hlt | hle
  · have hj : ((lower + 1 : Nat) : ℚ) * step power ≤ j * step power :=
      mul_le_mul_of_nonneg_right (by exact_mod_cast Nat.succ_le_of_lt hlt) hstep
    refine hupper ((RoundsTo.magnitude code).between h ?_ hj)
    push_cast
    exact hcell'.le
  · have hj : (j : ℚ) * step power ≤ lower * step power :=
      mul_le_mul_of_nonneg_right (by exact_mod_cast hle) hstep
    exact hlower (h.between (RoundsTo.magnitude code) hj hcell)

theorem magnitude_zero : magnitude 0 = 0 := by
  rw [magnitude, units_zero, Nat.cast_zero, zero_div]

theorem roundsTo_zero_iff : RoundsTo 0 code ↔ code = 0 := by
  have hzero := RoundsTo.magnitude 0
  rw [magnitude_zero] at hzero
  exact ⟨fun h ↦ h.unique hzero, fun h ↦ h ▸ hzero⟩

theorem pow_mul_step (n power : Nat) : ((10 ^ n : Nat) : ℚ) * step power = step (n + power) := by
  rw [step_eq_zpow, step_eq_zpow, Nat.cast_pow, Nat.cast_ofNat, ← zpow_natCast,
    ← zpow_add₀ (by norm_num), Nat.cast_add, add_sub_assoc]

/-- The magnitude starts at the power of ten that the leading digit of its counts says. -/
theorem step_bounds (hpos : code ≠ 0) :
    step (decimalLog (counts code)) ≤ magnitude code ∧
      magnitude code < step (decimalLog (counts code) + 1) := by
  obtain ⟨below, rfl⟩ := Nat.exists_eq_succ_of_ne_zero hpos
  have hcounts : counts (below + 1) ≠ 0 := by
    intro h
    have hlog := sixteen_le_decimalLog below
    rw [h] at hlog
    exact absurd hlog (by decide)
  obtain ⟨hcell, hcell'⟩ := magnitude_bounds (below + 1) 0
  rw [show tenPow 0 = 1 from rfl, Nat.div_one] at hcell hcell'
  constructor
  · refine le_trans ?_ hcell
    rw [step_eq]
    exact mul_le_mul_of_nonneg_right (by exact_mod_cast tenPow_decimalLog_le hcounts)
      (step_pos 0).le
  · refine hcell'.trans_le ?_
    rw [step_eq (_ + 1)]
    exact mul_le_mul_of_nonneg_right (by exact_mod_cast lt_tenPow_decimalLog _) (step_pos 0).le

/-- How the shortest decimal is found: on no coarser grid does a number round to the magnitude. -/
structure IsFound (code coefficient power : Nat) : Prop where
  shortest_eq : shortest code = .ofCoefficient coefficient power
  ne_zero : coefficient ≠ 0
  power_le : power ≤ decimalLog (counts code)
  coefficient_le : coefficient ≤ 10 ^ (decimalLog (counts code) + 1 - power)
  coarsest : ∀ other j : Nat, other ≤ decimalLog (counts code) →
    RoundsTo (j * step other) code → other ≤ power

theorem exists_isFound (hpos : code ≠ 0) (hcode : code < infinityCode) :
    ∃ coefficient power, IsFound code coefficient power := by
  obtain ⟨coefficient, power, hfound, hrounds⟩ := exists_coarsest hpos hcode
  obtain ⟨hle, hle', hnone⟩ := coarsest_spec hfound
  have hlog : 16 ≤ decimalLog (counts code) := by
    obtain ⟨below, rfl⟩ := Nat.exists_eq_succ_of_ne_zero hpos
    exact sixteen_le_decimalLog below
  refine ⟨coefficient, power, ?_, ?_, by omega, ?_, fun other j hother hj ↦ ?_⟩
  · rw [shortest, hfound]
    rfl
  · rintro rfl
    rw [Nat.cast_zero, zero_mul, roundsTo_zero_iff] at hrounds
    exact hpos hrounds
  · have hneighbour := found_of_coarsest hfound
    rw [neighbour] at hneighbour
    have hcounts : counts code / tenPow power < 10 ^ (decimalLog (counts code) + 1 - power) := by
      rw [Nat.div_lt_iff_lt_mul (tenPow_pos power), tenPow, Nat.pow_eq, ← Nat.pow_add,
        Nat.sub_add_cancel (by omega)]
      exact lt_tenPow_decimalLog (counts code)
    rcases (reads_of_choose hneighbour).2 with heq | heq <;> omega
  · by_contra hlt
    have hsome := neighbour_isSome_of_roundsTo hcode hj
    rw [hnone other (Nat.lt_of_not_le hlt) (by omega)] at hsome
    cases hsome

/-! ## Digits -/

theorem isReduced_shortest (hpos : code ≠ 0) (hcode : code < infinityCode) :
    (shortest code).IsReduced := by
  obtain ⟨coefficient, power, h⟩ := exists_isFound hpos hcode
  rw [h.shortest_eq]
  exact Decimal.isReduced_ofCoefficient h.ne_zero power

namespace IsFound

variable {coefficient power : Nat}

theorem value_eq (h : IsFound code coefficient power) :
    (shortest code).value = coefficient * 10 ^ ((power : ℤ) - finest) := by
  rw [h.shortest_eq, Decimal.value_ofCoefficient, step_eq_zpow]

/-- A coefficient that carries to the next power of ten has one digit. -/
theorem length_le (h : IsFound code coefficient power) :
    (shortest code).digits.length ≤ decimalLog (counts code) + 1 - power := by
  have hreduced := Decimal.isReduced_ofCoefficient h.ne_zero power
  have hvalue := h.value_eq
  have hle := h.power_le
  rw [← h.shortest_eq] at hreduced
  rcases h.coefficient_le.lt_or_eq with hlt | heq
  · exact hreduced.length_le hvalue hlt
  · have hone : (shortest code).value =
        (1 : Nat) * 10 ^ (((decimalLog (counts code) + 1 - power : Nat) : ℤ) +
          ((power : ℤ) - finest)) := by
      rw [hvalue, heq, zpow_add₀ (by norm_num), zpow_natCast]
      push_cast
      rw [one_mul]
    have hshort := hreduced.length_le hone (by decide : 1 < 10 ^ 1)
    omega

end IsFound

/-- No decimal that rounds to the magnitude has fewer digits than the shortest. -/
theorem length_shortest_le (hpos : code ≠ 0) (hcode : code < infinityCode) {m n : Nat} {q : ℤ}
    (h : RoundsTo (m * 10 ^ q) code) (hm : m < 10 ^ n) :
    (shortest code).digits.length ≤ n := by
  obtain ⟨coefficient, power, hfound⟩ := exists_isFound hpos hcode
  have hlength := hfound.length_le
  have hcoarsest := hfound.coarsest
  have hstart := (step_bounds hpos).1
  have hn : n ≠ 0 := by
    rintro rfl
    obtain rfl : m = 0 := by omega
    rw [Nat.cast_zero, zero_mul, roundsTo_zero_iff] at h
    exact hpos h
  generalize decimalLog (counts code) = top at *
  by_contra hlt
  obtain ⟨grid, hgrid⟩ : ∃ grid, grid + n = top + 1 := ⟨top + 1 - n, by omega⟩
  suffices hsuff : ∃ j : Nat, RoundsTo (j * step grid) code by
    obtain ⟨j, hj⟩ := hsuff
    have hle := hcoarsest grid j (by omega) hj
    omega
  rcases le_or_gt ((grid : ℤ) - finest) q with hge | hlow
  · -- The decimal itself lies on the coarser grid.
    obtain ⟨k, hk⟩ := Int.le.dest hge
    refine ⟨m * 10 ^ k, ?_⟩
    rw [← hk, zpow_add₀ (by norm_num), zpow_natCast, ← step_eq_zpow, mul_comm (step grid),
      ← mul_assoc] at h
    exact_mod_cast h
  · -- The decimal is less than the power of ten at which the magnitude starts.
    have htop : ((10 ^ (n - 1) : Nat) : ℚ) * step grid = step top := by
      rw [pow_mul_step]
      congr 1
      omega
    have hm' : (m : ℚ) ≤ 10 ^ n := by exact_mod_cast hm.le
    refine ⟨10 ^ (n - 1), htop ▸ h.between (RoundsTo.magnitude code) ?_ hstart⟩
    calc (m : ℚ) * 10 ^ q ≤ 10 ^ n * 10 ^ ((grid : ℤ) - finest - 1) :=
          mul_le_mul hm' (zpow_le_zpow_right₀ (by norm_num) (by omega)) (by positivity)
            (by positivity)
      _ = step top := by
          rw [step_eq_zpow, ← zpow_natCast, ← zpow_add₀ (by norm_num)]
          congr 1
          omega

/-- The shortest decimal of a whole magnitude has no digit behind the units. -/
theorem length_shortest_le_of_whole (hpos : code ≠ 0) (hcode : code < infinityCode) {n : Nat}
    (hwhole : magnitude code = n) :
    (shortest code).digits.length ≤ (shortest code).exponent + 1 := by
  obtain ⟨coefficient, power, hfound⟩ := exists_isFound hpos hcode
  have hone : step finest = 1 := by
    rw [step_eq_zpow, sub_self, zpow_zero]
  have hn : 1 ≤ n := by
    have hlt := magnitude_strictMono (Nat.pos_of_ne_zero hpos)
    rw [magnitude_zero, hwhole] at hlt
    exact_mod_cast hlt
  have htop : finest ≤ decimalLog (counts code) := by
    have hend := (step_bounds hpos).2
    have hlt : (1 : ℚ) < step (decimalLog (counts code) + 1) :=
      (by exact_mod_cast hn : (1 : ℚ) ≤ n).trans_lt (hwhole ▸ hend)
    rw [step_eq_zpow, one_lt_zpow_iff_right₀ (by norm_num)] at hlt
    omega
  have hgrid : RoundsTo (n * step finest) code := by
    rw [hone, mul_one, ← hwhole]
    exact RoundsTo.magnitude code
  obtain ⟨k, rfl⟩ := Nat.exists_eq_add_of_le (hfound.coarsest finest n htop hgrid)
  have hvalue : (shortest code).value = (coefficient * 10 ^ k : Nat) * 10 ^ (0 : ℤ) := by
    rw [hfound.value_eq]
    push_cast
    rw [add_sub_cancel_left, zpow_natCast, mul_one]
  have hle := ((isReduced_shortest hpos hcode).le_of_value_eq hvalue).1
  omega

/-! ## Exponents -/

/-- The exponents of shortest decimals keep the order of codes, at every power of ten that is the
shortest decimal of a code. -/
theorem exponent_lt_iff (hpos : code ≠ 0) (hcode : code < infinityCode) {threshold : Nat} {k : ℤ}
    (hrounds : RoundsTo (10 ^ k) threshold) (hexponent : (shortest threshold).exponent = k) :
    (shortest code).exponent < k ↔ code < threshold := by
  obtain ⟨hlow, hhigh⟩ := (isReduced_shortest hpos hcode).value_bounds
  have hvalue := (shortest_spec hpos hcode).1
  constructor
  · intro hlt
    have hle : (shortest code).value ≤ 10 ^ k :=
      hhigh.le.trans (zpow_le_zpow_right₀ (by norm_num) (by omega))
    refine Nat.lt_of_le_of_ne (hvalue.mono hrounds hle) ?_
    rintro rfl
    omega
  · intro hlt
    by_contra hge
    have hle : (10 : ℚ) ^ k ≤ (shortest code).value :=
      (zpow_le_zpow_right₀ (by norm_num) (not_lt.mp hge)).trans hlow
    exact absurd (hrounds.mono hvalue hle) hlt.not_ge

end Lox.Number
