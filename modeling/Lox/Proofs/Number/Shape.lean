import Lox.Proofs.Number.Reduced

/-!
# Shapes of numerals

How decimal numerals are spelled, and how many significant digits one has: those from the first that
is not zero to the last that is not. That many digits suffice to say the value of the numeral.
-/

namespace Lox.Number

/-- At least one digit and nothing else. -/
structure IsDigits (text : List Char) : Prop where
  ne_nil : text ≠ []
  digits : ∀ c ∈ text, c.isDigit

/-- Digits, with a point and digits behind them or without. -/
inductive IsPositional : List Char → Prop
  | whole {digits : List Char} (h : IsDigits digits) : IsPositional digits
  | point {digits places : List Char} (h : IsDigits digits) (hplaces : IsDigits places) :
      IsPositional (digits ++ '.' :: places)

/-- A digit, with a point and digits behind it or without. -/
inductive IsMantissa : List Char → Prop
  | whole {digit : Char} (h : digit.isDigit) : IsMantissa [digit]
  | point {digit : Char} {places : List Char} (h : digit.isDigit) (hplaces : IsDigits places) :
      IsMantissa (digit :: '.' :: places)

/-- A mantissa and an exponent that has a sign and at least two digits. -/
inductive IsScientific : List Char → Prop
  | mk {mantissa exponent : List Char} {mark : Char} (h : IsMantissa mantissa)
      (hmark : mark = '+' ∨ mark = '-') (hexponent : IsDigits exponent)
      (hwidth : 2 ≤ exponent.length) : IsScientific (mantissa ++ 'e' :: mark :: exponent)

/-- Digits, behind a sign or without one. -/
inductive IsExponent : List Char → Prop
  | unsigned {digits : List Char} (h : IsDigits digits) : IsExponent digits
  | signed {mark : Char} {digits : List Char} (hmark : mark = '+' ∨ mark = '-')
      (h : IsDigits digits) : IsExponent (mark :: digits)

/-- A decimal numeral without a sign, whatever its layout. -/
inductive IsDecimal : List Char → Prop
  | positional {text : List Char} (h : IsPositional text) : IsDecimal text
  | scientific {mantissa exponent : List Char} (h : IsPositional mantissa)
      (hexponent : IsExponent exponent) : IsDecimal (mantissa ++ 'e' :: exponent)

/-- The digits of a numeral in front of its exponent. -/
def digitsOf (text : List Char) : List Char := (text.takeWhile (· != 'e')).filter Char.isDigit

/-- Digits without the zeros in front and behind. -/
def stripped (digits : List Char) : List Char :=
  ((digits.dropWhile (· == '0')).reverse.dropWhile (· == '0')).reverse

/-- The number of significant digits of a numeral. -/
def significant (text : List Char) : Nat := (stripped (digitsOf text)).length

variable {text digits places : List Char}

/-! ## Shapes -/

theorem isDigit_of_mem_zeros {n : Nat} : ∀ c ∈ List.replicate n '0', c.isDigit := by
  intro c hc
  rw [List.eq_of_mem_replicate hc]
  rfl

theorem IsDigits.zeros_append (h : IsDigits digits) (n : Nat) :
    IsDigits (List.replicate n '0' ++ digits) where
  ne_nil := List.append_ne_nil_of_right_ne_nil _ h.ne_nil
  digits := List.forall_mem_append.mpr ⟨isDigit_of_mem_zeros, h.digits⟩

theorem IsDigits.append_zeros (h : IsDigits digits) (n : Nat) :
    IsDigits (digits ++ List.replicate n '0') where
  ne_nil := List.append_ne_nil_of_left_ne_nil h.ne_nil _
  digits := List.forall_mem_append.mpr ⟨h.digits, isDigit_of_mem_zeros⟩

theorem isDigits_toDigits (n : Nat) : IsDigits (Nat.toDigits 10 n) where
  ne_nil := List.ne_nil_of_length_pos Nat.length_toDigits_pos
  digits _ hc := Nat.isDigit_of_mem_toDigits (by decide) (by decide) hc

theorem isDigits_zero : IsDigits ['0'] := isDigits_toDigits 0

theorem IsMantissa.isPositional (h : IsMantissa text) : IsPositional text := by
  cases h with
  | whole h => exact .whole ⟨List.cons_ne_nil _ _, by simpa using h⟩
  | @point digit places h hplaces =>
      have hlead : IsDigits [digit] := ⟨List.cons_ne_nil _ _, by simpa using h⟩
      exact .point hlead hplaces

theorem IsScientific.isDecimal (h : IsScientific text) : IsDecimal text := by
  cases h with
  | mk h hmark hexponent _ => exact .scientific h.isPositional (.signed hmark hexponent)

theorem IsPositional.not_mem (h : IsPositional text) : 'e' ∉ text := by
  cases h with
  | whole h => exact not_mem_of_digits h.digits rfl
  | point h hplaces =>
      rw [List.mem_append, List.mem_cons, not_or, not_or]
      exact ⟨not_mem_of_digits h.digits rfl, by decide, not_mem_of_digits hplaces.digits rfl⟩

/-- The two layouts are told apart by the exponent. -/
theorem IsScientific.not_isPositional (h : IsScientific text) : ¬ IsPositional text := by
  intro hpositional
  cases h with
  | mk h => exact hpositional.not_mem (List.mem_append_right _ List.mem_cons_self)

/-! ## Digits of numerals -/

theorem digitsOf_of_not_mem (h : 'e' ∉ text) : digitsOf text = text.filter Char.isDigit := by
  rw [digitsOf, List.takeWhile_eq_self_iff.mpr (bne_of_not_mem h)]

theorem digitsOf_append (h : 'e' ∉ text) (exponent : List Char) :
    digitsOf (text ++ 'e' :: exponent) = digitsOf text := by
  rw [digitsOf_of_not_mem h, digitsOf, List.takeWhile_append_of_pos (bne_of_not_mem h)]
  simp

theorem digitsOf_digits (h : ∀ c ∈ digits, c.isDigit) : digitsOf digits = digits := by
  rw [digitsOf_of_not_mem (not_mem_of_digits h rfl), List.filter_eq_self.mpr h]

theorem digitsOf_point (h : ∀ c ∈ digits, c.isDigit) (hplaces : ∀ c ∈ places, c.isDigit) :
    digitsOf (digits ++ '.' :: places) = digits ++ places := by
  have hnone : 'e' ∉ digits ++ '.' :: places := by
    rw [List.mem_append, List.mem_cons, not_or, not_or]
    exact ⟨not_mem_of_digits h rfl, by decide, not_mem_of_digits hplaces rfl⟩
  rw [digitsOf_of_not_mem hnone, List.filter_append, List.filter_eq_self.mpr h,
    List.filter_cons_of_neg (by decide), List.filter_eq_self.mpr hplaces]

/-- The value of a numeral is that of its digits, at some power of ten. -/
theorem IsPositional.exists_mantissaValue (h : IsPositional text) :
    (∀ c ∈ digitsOf text, c.isDigit) ∧
      ∃ places : Nat, mantissaValue text = ofDigits (digitsOf text) * 10 ^ (-places : ℤ) := by
  cases h with
  | whole h =>
      rw [digitsOf_digits h.digits, mantissaValue_digits h.digits]
      exact ⟨h.digits, 0, by rw [Nat.cast_zero, neg_zero, zpow_zero, mul_one]⟩
  | @point digits places h hplaces =>
      rw [digitsOf_point h.digits hplaces.digits, mantissaValue_point h.digits]
      refine ⟨List.forall_mem_append.mpr ⟨h.digits, hplaces.digits⟩, places.length, ?_⟩
      rw [zpow_neg, zpow_natCast, div_eq_mul_inv]

theorem IsDecimal.exists_numeralValue (h : IsDecimal text) :
    (∀ c ∈ digitsOf text, c.isDigit) ∧
      ∃ power : ℤ, numeralValue text = ofDigits (digitsOf text) * 10 ^ power := by
  cases h with
  | positional h =>
      obtain ⟨hdigits, places, hvalue⟩ := h.exists_mantissaValue
      rw [numeralValue_eq_mantissaValue h.not_mem, hvalue]
      exact ⟨hdigits, _, rfl⟩
  | @scientific mantissa exponent h _ =>
      obtain ⟨hdigits, places, hvalue⟩ := h.exists_mantissaValue
      rw [numeralValue_scientific h.not_mem, digitsOf_append h.not_mem, hvalue, mul_assoc,
        ← zpow_add₀ (by norm_num)]
      exact ⟨hdigits, _, rfl⟩

/-! ## Significant digits -/

theorem exists_stripped (digits : List Char) :
    ∃ front back,
      digits = List.replicate front '0' ++ (stripped digits ++ List.replicate back '0') := by
  obtain ⟨back, hback⟩ := Decimal.exists_trailing_zeros (digits.dropWhile (· == '0'))
  obtain ⟨front, hfront⟩ : ∃ front, digits.takeWhile (· == '0') = List.replicate front '0' := by
    refine ⟨_, List.eq_replicate_iff.mpr ⟨rfl, fun c hc ↦ ?_⟩⟩
    simpa using List.mem_takeWhile_imp hc
  refine ⟨front, back, ?_⟩
  rw [stripped, ← hback, ← hfront, List.takeWhile_append_dropWhile]

/-- Zeros in front of a reduced decimal and behind it are not significant. -/
theorem stripped_zeros {decimal : Decimal} (h : decimal.IsReduced) (front back : Nat) :
    stripped (List.replicate front '0' ++ (decimal.digits ++ List.replicate back '0')) =
      decimal.digits := by
  have hzeros (n : Nat) : ∀ c ∈ List.replicate n '0', (c == '0') = true := by
    intro c hc
    rw [List.eq_of_mem_replicate hc]
    rfl
  obtain ⟨c, rest, hcons⟩ := List.exists_cons_of_ne_nil h.ne_nil
  obtain ⟨start, d, hsnoc⟩ := (List.eq_nil_or_concat decimal.digits).resolve_left h.ne_nil
  rw [List.concat_eq_append] at hsnoc
  have hc : (c == '0') = false := by
    have hhead := h.head
    rw [hcons] at hhead
    exact beq_false_of_ne fun heq ↦ hhead (congrArg some heq)
  have hd : (d == '0') = false := by
    have hlast := h.getLast
    rw [hsnoc, List.getLast?_concat] at hlast
    exact beq_false_of_ne fun heq ↦ hlast (congrArg some heq)
  have hfront : (decimal.digits ++ List.replicate back '0').dropWhile (· == '0') =
      decimal.digits ++ List.replicate back '0' := by
    rw [hcons, List.cons_append, List.dropWhile_cons_of_neg (by simp [hc])]
  have hback : decimal.digits.reverse.dropWhile (· == '0') = decimal.digits.reverse := by
    rw [hsnoc, List.reverse_append, List.reverse_singleton, List.singleton_append,
      List.dropWhile_cons_of_neg (by simp [hd])]
  rw [stripped, List.dropWhile_append_of_pos (hzeros front), hfront, List.reverse_append,
    List.reverse_replicate, List.dropWhile_append_of_pos (hzeros back), hback, List.reverse_reverse]

/-- The significant digits of a numeral say its value. -/
theorem IsDecimal.exists_significant (h : IsDecimal text) :
    ∃ (m : Nat) (power : ℤ), numeralValue text = m * 10 ^ power ∧ m < 10 ^ significant text := by
  obtain ⟨hdigits, power, hvalue⟩ := h.exists_numeralValue
  obtain ⟨front, back, hall⟩ := exists_stripped (digitsOf text)
  have hstripped : ∀ c ∈ stripped (digitsOf text), c.isDigit := by
    intro c hc
    apply hdigits
    rw [hall]
    exact List.mem_append_right _ (List.mem_append_left _ hc)
  have hof : ofDigits (digitsOf text) = ofDigits (stripped (digitsOf text)) * 10 ^ back := by
    rw [hall, ofDigits_zeros_append, ofDigits_append_zeros, ← hall]
  refine ⟨ofDigits (stripped (digitsOf text)), back + power, ?_, ofDigits_lt hstripped⟩
  rw [hvalue, hof, zpow_add₀ (by norm_num), zpow_natCast]
  push_cast
  rw [mul_assoc]

end Lox.Number
