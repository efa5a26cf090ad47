/-!
# Codes of binary64 magnitudes

The low sixty-three bits of a double are its code. Codes order the magnitudes, every finite
magnitude is a whole number of least subnormals, and `units` says how many. Rounding to a double and
printing one are therefore exact arithmetic on natural numbers.
-/

namespace Lox.Number

/-- The code of infinity, one above the code of the largest finite double. -/
def infinityCode : Nat := 2047 <<< 52

/-- The number of least subnormals in one. -/
def unitsPerOne : Nat := 1 <<< 1074

/-- How often the spacing of the doubles has doubled below `code`. -/
def doublings (code : Nat) : Nat := (code >>> 52) - 1

/-- The magnitude with the given code, in least subnormals. Infinity counts as the double that
would come next. -/
def units (code : Nat) : Nat := (code - doublings code <<< 52) <<< doublings code

@[simp] theorem units_zero : units 0 = 0 := by simp [units]

theorem doublings_shift_le (code : Nat) : doublings code <<< 52 ≤ code := by
  unfold doublings
  omega

theorem doublings_succ (code : Nat) :
    doublings (code + 1) = doublings code ∨
      doublings (code + 1) = doublings code + 1 ∧ code + 1 = (doublings code + 2) <<< 52 := by
  unfold doublings
  omega

/-- Neighbouring magnitudes differ by the spacing at the lower one. -/
theorem units_succ (code : Nat) : units (code + 1) = units code + 1 <<< doublings code := by
  have hle := doublings_shift_le code
  rcases doublings_succ code with h | ⟨h, hcode⟩
  · have hnext : code + 1 - doublings code <<< 52 = code - doublings code <<< 52 + 1 := by omega
    simp only [units, h, hnext]
    rw [Nat.shiftLeft_eq _ (doublings code), Nat.add_mul, ← Nat.shiftLeft_eq, ← Nat.shiftLeft_eq]
  · have hnext : code + 1 - (doublings code + 1) <<< 52 = 1 <<< 52 := by omega
    have hhere : code - doublings code <<< 52 = 2 * (1 <<< 52) - 1 := by omega
    have hone : 2 * (1 <<< 52) - 1 + 1 = 2 * (1 <<< 52) := by decide
    simp only [units, h, hnext, hhere]
    rw [Nat.shiftLeft_eq (2 * (1 <<< 52) - 1), Nat.shiftLeft_eq 1 (doublings code),
      ← Nat.add_mul, hone, ← Nat.shiftLeft_eq, Nat.shiftLeft_succ_inside, Nat.mul_comm]

theorem units_strictMono {a b : Nat} (h : a < b) : units a < units b := by
  induction h with
  | refl =>
      rw [units_succ, Nat.one_shiftLeft]
      exact Nat.lt_add_of_pos_right (Nat.two_pow_pos _)
  | step _ ih =>
      rw [units_succ]
      exact Nat.lt_add_right _ ih

/-! ## Doubles -/

/-- The magnitude bits of a double. -/
def code (x : Float) : Nat := x.toBits.toNat % (1 <<< 63)

/-- Whether the sign bit is set, as it is for minus zero. -/
def isNegative (x : Float) : Bool := 1 <<< 63 ≤ x.toBits.toNat

/-- The double without sign that has the given code. -/
def ofCode (code : Nat) : Float := Float.ofBits (UInt64.ofNat code)

end Lox.Number
