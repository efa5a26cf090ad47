import Lox.Number.Shortest
import Lox.Proofs.Number.Rounding

/-!
# Reading the shortest decimal back

The decimal that `shortest` finds rounds to the magnitude it was found for. A neighbour of the
magnitude on a grid fails to do so only if a midpoint separates them; both fail only on a grid that
is wider than the midpoints are apart, and the grid of seventeen digits is finer than that.
-/

namespace Lox.Number

/-! ## Choices -/

section

variable {found : Nat → Option Nat} {reads : Nat → Bool} {half : Bool}
  {lower coefficient power above : Nat}

theorem reads_of_choose (h : choose reads half lower = some coefficient) :
    reads coefficient = true ∧ (coefficient = lower ∨ coefficient = lower + 1) := by
  rw [choose] at h
  split at h
  next hlower hupper =>
    cases half <;> cases h
    · exact ⟨hupper, .inr rfl⟩
    · exact ⟨hlower, .inl rfl⟩
  next hlower _ =>
    cases h
    exact ⟨hlower, .inl rfl⟩
  next _ hupper =>
    cases h
    exact ⟨hupper, .inr rfl⟩
  next => cases h

theorem choose_eq_none_iff :
    choose reads half lower = none ↔ reads lower = false ∧ reads (lower + 1) = false := by
  rw [choose]
  cases reads lower <;> cases reads (lower + 1) <;> simp

/-- What is found at last is found on its grid. -/
theorem found_of_coarsest (h : coarsest found power above = some (coefficient, lower)) :
    found lower = some coefficient := by
  induction above with
  | zero =>
      obtain ⟨_, hfound, heq⟩ := Option.map_eq_some_iff.mp h
      cases heq
      exact hfound
  | succ above ih =>
      rw [coarsest] at h
      split at h
      next hfound =>
        cases h
        exact hfound
      next => exact ih h

theorem coarsest_isSome (h : (found power).isSome) (above : Nat) :
    (coarsest found power above).isSome := by
  induction above with
  | zero => rwa [coarsest, Option.isSome_map]
  | succ above ih =>
      rw [coarsest]
      split
      · rfl
      · exact ih

end

/-! ## Grids -/

/-- The spacing of the multiples of `10 ^ power` grid counts. -/
def step (power : Nat) : ℚ := tenPow power / countsPerOne

theorem countsPerOne_pos : 0 < countsPerOne := tenPow_pos finest

theorem step_pos (power : Nat) : 0 < step power :=
  div_pos (by exact_mod_cast tenPow_pos power) (by exact_mod_cast countsPerOne_pos)

theorem readsBack_iff {code : Nat} (hcode : code < infinityCode) (coefficient power : Nat) :
    readsBack code coefficient power = true ↔ RoundsTo (coefficient * step power) code := by
  rw [readsBack, beq_iff_eq, nearest_eq_iff _ countsPerOne_pos hcode, step]
  push_cast
  rw [mul_div_assoc]

/-- A magnitude lies in the grid cell above the whole part of its counts. -/
theorem magnitude_bounds (code power : Nat) :
    (counts code / tenPow power : Nat) * step power ≤ magnitude code ∧
      magnitude code < ((counts code / tenPow power : Nat) + 1) * step power := by
  have hcell : 0 < unitsPerOne * tenPow power := Nat.mul_pos unitsPerOne_pos (tenPow_pos power)
  have hlower := Nat.div_mul_le_self (units code * countsPerOne) (unitsPerOne * tenPow power)
  have hupper := Nat.lt_mul_div_succ (units code * countsPerOne) hcell
  have hcounts : counts code / tenPow power =
      units code * countsPerOne / (unitsPerOne * tenPow power) := by
    rw [counts, Nat.div_div_eq_div_mul]
  rw [← hcounts] at hlower hupper
  have hone : (0 : ℚ) < unitsPerOne := by exact_mod_cast unitsPerOne_pos
  have hcount : (0 : ℚ) < countsPerOne := by exact_mod_cast countsPerOne_pos
  generalize counts code / tenPow power = lower at *
  rw [step, magnitude, ← mul_div_assoc, ← mul_div_assoc]
  constructor
  · rw [div_le_div_iff₀ hcount hone]
    exact_mod_cast (by linarith : lower * tenPow power * unitsPerOne ≤ units code * countsPerOne)
  · rw [div_lt_div_iff₀ hone hcount]
    exact_mod_cast
      (by linarith : units code * countsPerOne < (lower + 1) * tenPow power * unitsPerOne)

variable {code power coefficient : Nat}

/-- On a grid that is narrower than the midpoints on both sides are apart, a neighbour of the
magnitude reads back. -/
theorem neighbour_isSome (hcode : code + 1 < infinityCode)
    (hstep : step power < midpoint (code + 1) - midpoint code) :
    (neighbour (code + 1) power).isSome := by
  obtain ⟨hcell, hcell'⟩ := magnitude_bounds (code + 1) power
  have hbelow := midpoint_lt_magnitude code
  have habove := magnitude_lt_midpoint (code + 1)
  rw [neighbour, Option.isSome_iff_ne_none, ne_eq, choose_eq_none_iff, ← Bool.not_eq_true,
    ← Bool.not_eq_true, readsBack_iff hcode, readsBack_iff hcode]
  generalize counts (code + 1) / tenPow power = lower at *
  rintro ⟨hlower, hupper⟩
  have hlower' : lower * step power ≤ midpoint code := by
    by_contra hlt
    exact hlower ⟨.inl (hcell.trans_lt habove), by rintro _ ⟨⟩; exact .inl (not_le.mp hlt)⟩
  have hupper' : midpoint (code + 1) ≤ (lower + 1 : Nat) * step power := by
    by_contra hlt
    refine hupper ⟨.inl (not_le.mp hlt), ?_⟩
    rintro _ ⟨⟩
    push_cast
    exact .inl (hbelow.trans hcell')
  push_cast at hupper'
  linarith

/-! ## Seventeen digits -/

/-- A magnitude is less than `10 ^ 16` times half the distance of its neighbours. -/
theorem units_lt_neighbours (code : Nat) :
    2 * units (code + 1) + 10 ^ 16 * units code < 10 ^ 16 * units (code + 2) := by
  have hupper : units (code + 2) = units (code + 1) + 1 <<< doublings (code + 1) :=
    units_succ (code + 1)
  have hlower := units_succ code
  have hhere : units (code + 1) =
      (code + 1 - doublings (code + 1) <<< 52) * 2 ^ doublings (code + 1) := by
    rw [units, Nat.shiftLeft_eq]
  rw [Nat.one_shiftLeft] at hupper hlower
  suffices h : 2 * units (code + 1) < 10 ^ 16 * (2 ^ doublings code + 2 ^ doublings (code + 1)) by
    omega
  rcases doublings_succ code with h | ⟨h, hcode⟩ <;> rw [h] at hhere ⊢ <;> rw [hhere]
  · have hbound : code + 1 - doublings code <<< 52 < 2 ^ 53 := by
      rw [← h, doublings]
      omega
    have hpos := Nat.two_pow_pos (doublings code)
    nlinarith
  · -- Above a power of two the spacing below is only half as wide.
    have hmantissa : code + 1 - (doublings code + 1) <<< 52 = 2 ^ 52 := by omega
    have hpos := Nat.two_pow_pos (doublings code)
    rw [hmantissa, Nat.pow_succ]
    omega

theorem magnitude_lt_midpoints (code : Nat) :
    magnitude (code + 1) < 10 ^ 16 * (midpoint (code + 1) - midpoint code) := by
  have hunits : (2 * units (code + 1) + 10 ^ 16 * units code : ℚ) < 10 ^ 16 * units (code + 2) := by
    exact_mod_cast units_lt_neighbours code
  have hpos : (0 : ℚ) < unitsPerOne := by exact_mod_cast unitsPerOne_pos
  have hscaled := div_lt_div_of_pos_right hunits hpos
  rw [add_div, mul_div_assoc, mul_div_assoc, mul_div_assoc] at hscaled
  unfold midpoint magnitude
  linarith

/-- Positive magnitudes have at least seventeen digits before the point, in grid counts. -/
theorem sixteen_le_decimalLog (code : Nat) : 16 ≤ decimalLog (counts (code + 1)) := by
  have hfinest : tenPow 17 * unitsPerOne ≤ countsPerOne := by decide +kernel
  have hunits : 0 < units (code + 1) := by
    have h := units_strictMono (Nat.succ_pos code)
    rwa [units_zero] at h
  have hcounts : tenPow 17 ≤ counts (code + 1) := by
    rw [counts, Nat.le_div_iff_mul_le unitsPerOne_pos]
    exact hfinest.trans (Nat.le_mul_of_pos_left _ hunits)
  have hlog := hcounts.trans_lt (lt_tenPow_decimalLog (counts (code + 1)))
  by_contra hlt
  exact absurd (tenPow_le_tenPow (by omega : decimalLog (counts (code + 1)) + 1 ≤ 17)) hlog.not_ge

theorem step_eq (power : Nat) : step power = tenPow power * step 0 := by
  rw [step, step, show tenPow 0 = 1 from rfl, Nat.cast_one, mul_one_div]

theorem counts_mul_step_le (code : Nat) : counts code * step 0 ≤ magnitude code := by
  have h := (magnitude_bounds code 0).1
  rwa [show tenPow 0 = 1 from rfl, Nat.div_one] at h

/-- The grid of seventeen digits is narrower than the midpoints are apart. -/
theorem step_lt_midpoints (code : Nat) :
    step (decimalLog (counts (code + 1)) - 16) < midpoint (code + 1) - midpoint code := by
  have hlog := sixteen_le_decimalLog code
  have hcounts : counts (code + 1) ≠ 0 := by
    intro h
    rw [h] at hlog
    exact absurd hlog (by decide)
  have hscale : 10 ^ 16 * step (decimalLog (counts (code + 1)) - 16) =
      tenPow (decimalLog (counts (code + 1))) * step 0 := by
    have hpow : 10 ^ 16 * tenPow (decimalLog (counts (code + 1)) - 16) =
        tenPow (decimalLog (counts (code + 1))) := by
      rw [tenPow, tenPow, Nat.pow_eq, Nat.pow_eq, ← Nat.pow_add, Nat.add_sub_cancel' hlog]
    rw [step_eq, ← hpow, ← mul_assoc]
    push_cast
    rfl
  have hle : (tenPow (decimalLog (counts (code + 1))) : ℚ) * step 0 ≤ counts (code + 1) * step 0 :=
    mul_le_mul_of_nonneg_right (by exact_mod_cast tenPow_decimalLog_le hcounts) (step_pos 0).le
  have hmagnitude := counts_mul_step_le (code + 1)
  have hmidpoints := magnitude_lt_midpoints code
  linarith

/-- Seventeen digits suffice, and what is found reads back. -/
theorem exists_coarsest {code : Nat} (hpos : code ≠ 0) (hcode : code < infinityCode) :
    ∃ coefficient power,
      coarsest (neighbour code) (decimalLog (counts code) - 16) 16 = some (coefficient, power) ∧
        RoundsTo (coefficient * step power) code := by
  obtain ⟨below, rfl⟩ := Nat.exists_eq_succ_of_ne_zero hpos
  have hfinest := neighbour_isSome hcode (step_lt_midpoints below)
  obtain ⟨⟨coefficient, power⟩, hfound⟩ := Option.isSome_iff_exists.mp (coarsest_isSome hfinest 16)
  have hneighbour := found_of_coarsest hfound
  rw [neighbour] at hneighbour
  have hreads := (reads_of_choose hneighbour).1
  exact ⟨coefficient, power, hfound, (readsBack_iff hcode coefficient power).mp hreads⟩

end Lox.Number
