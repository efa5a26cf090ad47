import Lox.Proofs.Number.Numeral

/-!
# Reduced decimals

A decimal without zeros in front of its digits or behind them. Its exponent is the power of ten of
its value, and no decimal with the same value has fewer digits.
-/

namespace Lox.Number

/-! ## Digits -/

section

variable {c : Char} {digits : List Char}

theorem ofDigits_cons (c : Char) (digits : List Char) :
    ofDigits (c :: digits) = ofDigits [c] * 10 ^ digits.length + ofDigits digits :=
  ofDigits_append [c] digits

theorem ofDigits_digit (h : c.isDigit) : c.toNat = ofDigits [c] + 48 ∧ ofDigits [c] < 10 := by
  obtain ⟨hlow, hhigh⟩ := Char.isDigit_iff_toNat.mp h
  have hvalue : ofDigits [c] = 10 * 0 + (c.toNat - 48) := rfl
  change 48 ≤ c.toNat at hlow
  change c.toNat ≤ 57 at hhigh
  omega

theorem ofDigits_digit_pos (h : c.isDigit) (hc : c ≠ '0') : 0 < ofDigits [c] := by
  apply Nat.pos_of_ne_zero
  intro hzero
  have hnat := (ofDigits_digit h).1
  rw [hzero] at hnat
  exact hc (Char.toNat_inj.mp hnat)

theorem ofDigits_lt (h : ∀ c ∈ digits, c.isDigit) : ofDigits digits < 10 ^ digits.length := by
  induction digits with
  | nil => exact Nat.one_pos
  | cons c digits ih =>
      obtain ⟨hc, hdigits⟩ := List.forall_mem_cons.mp h
      have hlead := (ofDigits_digit hc).2
      have hrest := ih hdigits
      rw [ofDigits_cons, List.length_cons, Nat.pow_succ]
      nlinarith

theorem le_ofDigits (hc : c.isDigit) (hne : c ≠ '0') :
    10 ^ digits.length ≤ ofDigits (c :: digits) := by
  rw [ofDigits_cons]
  exact Nat.le_add_right_of_le (Nat.le_mul_of_pos_left _ (ofDigits_digit_pos hc hne))

/-- Only a last zero makes a multiple of ten. -/
theorem not_dvd_ofDigits (hc : c.isDigit) (hne : c ≠ '0') : ¬ 10 ∣ ofDigits (digits ++ [c]) := by
  have hpos := ofDigits_digit_pos hc hne
  have hlt := (ofDigits_digit hc).2
  rw [ofDigits_append, List.length_singleton]
  omega

/-- The digits of a positive number do not start with a zero. -/
theorem head_toDigits_ne {n : Nat} (h : n ≠ 0) : (Nat.toDigits 10 n).head? ≠ some '0' := by
  intro hhead
  obtain ⟨rest, hdigits⟩ := List.head?_eq_some_iff.mp hhead
  have hvalue : ofDigits (Nat.toDigits 10 n) = n := Nat.ofDigitChars_ten_toDigits
  rw [hdigits, ofDigits_cons, show ofDigits ['0'] = 0 from rfl, Nat.zero_mul, Nat.zero_add]
    at hvalue
  have hrest : ∀ c ∈ rest, c.isDigit := fun c hc ↦
    Nat.isDigit_of_mem_toDigits (b := 10) (n := n) (by decide) (by decide)
      (hdigits ▸ List.mem_cons_of_mem _ hc)
  have hlt := ofDigits_lt hrest
  rw [hvalue] at hlt
  rcases Nat.eq_zero_or_pos rest.length with hzero | hpos
  · rw [hzero] at hlt
    omega
  · have hlength := (Nat.length_toDigits_le_iff (by decide) hpos).mpr hlt
    rw [hdigits, List.length_cons] at hlength
    omega

end

/-! ## Decimals -/

namespace Decimal

/-- Digits with no zero in front and none behind. -/
structure IsReduced (decimal : Decimal) : Prop where
  digits : ∀ c ∈ decimal.digits, c.isDigit
  ne_nil : decimal.digits ≠ []
  head : decimal.digits.head? ≠ some '0'
  getLast : decimal.digits.getLast? ≠ some '0'

namespace IsReduced

variable {decimal : Decimal}

theorem bounds (h : decimal.IsReduced) :
    10 ^ (decimal.digits.length - 1) ≤ ofDigits decimal.digits ∧
      ofDigits decimal.digits < 10 ^ decimal.digits.length := by
  refine ⟨?_, ofDigits_lt h.digits⟩
  obtain ⟨c, rest, hcons⟩ := List.exists_cons_of_ne_nil h.ne_nil
  have hhead := h.head
  have hdigit := h.digits c (hcons ▸ List.mem_cons_self)
  rw [hcons] at hhead ⊢
  exact le_ofDigits hdigit fun heq ↦ hhead (congrArg some heq)

theorem not_dvd (h : decimal.IsReduced) : ¬ 10 ∣ ofDigits decimal.digits := by
  obtain ⟨front, c, hsnoc⟩ := (List.eq_nil_or_concat decimal.digits).resolve_left h.ne_nil
  have hlast := h.getLast
  have hdigits := h.digits
  rw [List.concat_eq_append] at hsnoc
  rw [hsnoc] at hlast hdigits ⊢
  refine not_dvd_ofDigits (hdigits c List.mem_concat_self) fun heq ↦ hlast ?_
  rw [heq, List.getLast?_concat]

/-- The exponent is the power of ten of the value. -/
theorem value_bounds (h : decimal.IsReduced) :
    10 ^ decimal.exponent ≤ decimal.value ∧ decimal.value < 10 ^ (decimal.exponent + 1) := by
  obtain ⟨hlow, hhigh⟩ := h.bounds
  have hlength := List.length_pos_iff.mpr h.ne_nil
  have hscale : (0 : ℚ) < 10 ^ (decimal.exponent + 1 - decimal.digits.length) := by positivity
  have hlow' : (10 : ℚ) ^ (decimal.digits.length - 1) ≤ ofDigits decimal.digits := by
    exact_mod_cast hlow
  have hhigh' : (ofDigits decimal.digits : ℚ) < 10 ^ decimal.digits.length := by
    exact_mod_cast hhigh
  rw [value]
  constructor
  · calc (10 : ℚ) ^ decimal.exponent =
        10 ^ (decimal.digits.length - 1) *
          10 ^ (decimal.exponent + 1 - decimal.digits.length) := by
          rw [← zpow_natCast, ← zpow_add₀ (by norm_num)]
          congr 1
          omega
      _ ≤ _ := mul_le_mul_of_nonneg_right hlow' hscale.le
  · calc _ < 10 ^ decimal.digits.length *
          (10 : ℚ) ^ (decimal.exponent + 1 - decimal.digits.length) :=
        mul_lt_mul_of_pos_right hhigh' hscale
      _ = 10 ^ (decimal.exponent + 1) := by
          rw [← zpow_natCast, ← zpow_add₀ (by norm_num)]
          congr 1
          omega

/-- Where the value is a multiple of a power of ten, the last digit counts no less. -/
theorem le_of_value_eq (h : decimal.IsReduced) {m : Nat} {q : ℤ}
    (hvalue : decimal.value = m * 10 ^ q) :
    q ≤ decimal.exponent + 1 - decimal.digits.length ∧ ofDigits decimal.digits ≤ m := by
  have hdvd := h.not_dvd
  rw [value] at hvalue
  generalize decimal.exponent + 1 - decimal.digits.length = a at *
  generalize ofDigits decimal.digits = n at *
  rcases lt_or_ge a q with hlt | hge
  · obtain ⟨k, hk⟩ := Int.le.dest hlt
    have hq : q = a + (k + 1 : Nat) := by omega
    have hten : (10 : ℚ) ^ a ≠ 0 := by positivity
    rw [hq, zpow_add₀ (by norm_num), zpow_natCast, mul_comm ((10 : ℚ) ^ a), ← mul_assoc] at hvalue
    have hnat : n = m * 10 ^ (k + 1) := by exact_mod_cast mul_right_cancel₀ hten hvalue
    exact absurd (hnat ▸ Dvd.dvd.mul_left (dvd_pow_self 10 (Nat.succ_ne_zero k)) m) hdvd
  · refine ⟨hge, ?_⟩
    obtain ⟨k, hk⟩ := Int.le.dest hge
    have hten : (10 : ℚ) ^ q ≠ 0 := by positivity
    rw [← hk, zpow_add₀ (by norm_num), zpow_natCast, mul_comm ((10 : ℚ) ^ q), ← mul_assoc] at hvalue
    have hnat : n * 10 ^ k = m := by exact_mod_cast mul_right_cancel₀ hten hvalue
    exact hnat ▸ Nat.le_mul_of_pos_right n (by positivity)

/-- No decimal with the same value has fewer digits. -/
theorem length_le (h : decimal.IsReduced) {m n : Nat} {q : ℤ}
    (hvalue : decimal.value = m * 10 ^ q) (hm : m < 10 ^ n) : decimal.digits.length ≤ n := by
  have hlow := h.bounds.1
  have hle := (h.le_of_value_eq hvalue).2
  have hpow := (Nat.pow_lt_pow_iff_right (by decide)).mp ((hlow.trans hle).trans_lt hm)
  omega

end IsReduced

theorem isReduced_ofCoefficient {coefficient : Nat} (h : coefficient ≠ 0) (power : Nat) :
    (ofCoefficient coefficient power).IsReduced := by
  obtain ⟨zeros, hall⟩ := exists_trailing_zeros (Nat.toDigits 10 coefficient)
  have hdigits : ∀ c ∈ Nat.toDigits 10 coefficient, c.isDigit := fun c hc ↦
    Nat.isDigit_of_mem_toDigits (by decide) (by decide) hc
  have hhead := head_toDigits_ne h
  have hlast := List.head?_dropWhile_not (· == '0') (Nat.toDigits 10 coefficient).reverse
  have hvalue : ofDigits (Nat.toDigits 10 coefficient) = coefficient :=
    Nat.ofDigitChars_ten_toDigits
  rw [← List.getLast?_reverse] at hlast
  change IsReduced ⟨((Nat.toDigits 10 coefficient).reverse.dropWhile (· == '0')).reverse, _⟩
  generalize ((Nat.toDigits 10 coefficient).reverse.dropWhile (· == '0')).reverse = kept at *
  rw [hall] at hdigits hhead hvalue
  have hne : kept ≠ [] := by
    rintro rfl
    rw [List.nil_append, ofDigits_replicate_zero] at hvalue
    exact h hvalue.symm
  refine ⟨(List.forall_mem_append.mp hdigits).1, hne, ?_, ?_⟩
  · rwa [List.head?_append_of_ne_nil _ hne] at hhead
  · intro hzero
    rw [hzero] at hlast
    cases hlast

end Decimal

end Lox.Number
