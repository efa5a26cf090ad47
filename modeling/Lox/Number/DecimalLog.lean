/-!
# The leading power of ten

`decimalLog` finds the power of ten that the first decimal digit of a number counts. As `10 ^ 3` is
a little less than `2 ^ 10`, three tenths of the binary logarithm are a close estimate from below.
-/

namespace Lox.Number

def tenPow (k : Nat) : Nat := Nat.pow 10 k

/-- Raises `k` while the next power of ten is at most `n`. -/
def raise (n k : Nat) : Nat → Nat
  | 0 => k
  | more + 1 => if tenPow (k + 1) ≤ n then raise n (k + 1) more else k

def decimalLog (n : Nat) : Nat := raise n (n.log2 * 3 / 10) n.log2

theorem tenPow_pos (k : Nat) : 0 < tenPow k := Nat.pow_pos (by decide)

theorem tenPow_le_tenPow {j k : Nat} (h : j ≤ k) : tenPow j ≤ tenPow k :=
  Nat.pow_le_pow_right (by decide) h

theorem tenPow_tenths_le (b : Nat) : tenPow (b * 3 / 10) ≤ 1 <<< b := by
  have h : (10 ^ (b * 3 / 10)) ^ 10 ≤ (2 ^ b) ^ 10 := by
    calc (10 ^ (b * 3 / 10)) ^ 10 = 10 ^ (b * 3 / 10 * 10) := by rw [Nat.pow_mul]
      _ ≤ 10 ^ (3 * b) := Nat.pow_le_pow_right (by decide) (by omega)
      _ = 1000 ^ b := by rw [Nat.pow_mul]
      _ ≤ 1024 ^ b := Nat.pow_le_pow_left (by decide) b
      _ = (2 ^ b) ^ 10 := by rw [← Nat.pow_mul, Nat.mul_comm b 10, Nat.pow_mul]
  rw [Nat.one_shiftLeft]
  exact (Nat.pow_le_pow_iff_left (by decide)).mp h

theorem tenPow_raise_le {n : Nat} (more : Nat) {k : Nat} (h : tenPow k ≤ n) :
    tenPow (raise n k more) ≤ n := by
  induction more generalizing k with
  | zero => exact h
  | succ more ih =>
      unfold raise
      split
      next hnext => exact ih hnext
      next => exact h

theorem lt_tenPow_raise {n : Nat} (more : Nat) {k : Nat} (h : n < tenPow (k + more + 1)) :
    n < tenPow (raise n k more + 1) := by
  induction more generalizing k with
  | zero => exact h
  | succ more ih =>
      unfold raise
      split
      next => exact ih (by rwa [show k + 1 + more + 1 = k + (more + 1) + 1 by omega])
      next hnext => exact Nat.lt_of_not_le hnext

theorem tenPow_decimalLog_le {n : Nat} (h : n ≠ 0) : tenPow (decimalLog n) ≤ n := by
  refine tenPow_raise_le _ (Nat.le_trans (tenPow_tenths_le _) ?_)
  rw [Nat.one_shiftLeft]
  exact Nat.log2_self_le h

theorem lt_tenPow_decimalLog (n : Nat) : n < tenPow (decimalLog n + 1) := by
  apply lt_tenPow_raise
  calc n < 2 ^ (n.log2 + 1) := Nat.lt_log2_self
    _ ≤ 10 ^ (n.log2 + 1) := Nat.pow_le_pow_left (by decide) _
    _ ≤ tenPow (n.log2 * 3 / 10 + n.log2 + 1) := tenPow_le_tenPow (by omega)

end Lox.Number
