import Lox.Proofs.Number.Bits
import Lox.Proofs.Number.ReadingBack
import Lox.Value
import Mathlib.Data.List.TakeWhile

/-!
# Numerals

The number that a decimal stands for, and the number that a numeral says. Printed magnitudes are
numerals that say their shortest decimal, and that decimal rounds to the magnitude, so different
magnitudes are printed differently.
-/

namespace Lox.Number

/-! ## Digits -/

theorem ofDigits_append (front back : List Char) :
    ofDigits (front ++ back) = ofDigits front * 10 ^ back.length + ofDigits back := by
  rw [ofDigits, Nat.ofDigitChars_append, Nat.ofDigitChars_eq_ofDigitChars_zero, Nat.mul_comm]
  rfl

theorem ofDigits_replicate_zero (n : Nat) : ofDigits (List.replicate n '0') = 0 := by
  rw [ofDigits, Nat.ofDigitChars_replicate_zero, Nat.mul_zero]

theorem ofDigits_zeros_append (n : Nat) (digits : List Char) :
    ofDigits (List.replicate n '0' ++ digits) = ofDigits digits := by
  rw [ofDigits_append, ofDigits_replicate_zero, Nat.zero_mul, Nat.zero_add]

theorem ofDigits_append_zeros (digits : List Char) (n : Nat) :
    ofDigits (digits ++ List.replicate n '0') = ofDigits digits * 10 ^ n := by
  rw [ofDigits_append, ofDigits_replicate_zero, List.length_replicate, Nat.add_zero]

/-! ## Decimals -/

theorem step_eq_zpow (power : Nat) : step power = 10 ^ ((power : ℤ) - finest) := by
  rw [step, countsPerOne, tenPow, tenPow, Nat.pow_eq, Nat.pow_eq, zpow_sub₀ (by norm_num),
    zpow_natCast, zpow_natCast]
  push_cast
  rfl

namespace Decimal

/-- The number that a decimal stands for. -/
def value (decimal : Decimal) : ℚ :=
  ofDigits decimal.digits * 10 ^ (decimal.exponent + 1 - decimal.digits.length)

/-- Digits without their trailing zeros, and how many these are. -/
theorem exists_trailing_zeros (digits : List Char) :
    ∃ zeros, digits =
      (digits.reverse.dropWhile (· == '0')).reverse ++ List.replicate zeros '0' := by
  refine ⟨(digits.reverse.takeWhile (· == '0')).length, ?_⟩
  have hzeros : (digits.reverse.takeWhile (· == '0')).reverse =
      List.replicate (digits.reverse.takeWhile (· == '0')).length '0' := by
    apply List.eq_replicate_iff.mpr
    refine ⟨List.length_reverse, fun c hc ↦ ?_⟩
    simpa using List.all_eq_true.mp List.all_takeWhile c (List.mem_reverse.mp hc)
  rw [← hzeros, ← List.reverse_append, List.takeWhile_append_dropWhile, List.reverse_reverse]

theorem value_ofCoefficient (coefficient power : Nat) :
    (ofCoefficient coefficient power).value = coefficient * step power := by
  obtain ⟨zeros, hall⟩ := exists_trailing_zeros (Nat.toDigits 10 coefficient)
  have hcoefficient : ofDigits (Nat.toDigits 10 coefficient) = coefficient :=
    Nat.ofDigitChars_ten_toDigits
  have hlength := congrArg List.length hall
  rw [value, ofCoefficient]
  generalize ((Nat.toDigits 10 coefficient).reverse.dropWhile (· == '0')).reverse = kept at *
  rw [List.length_append, List.length_replicate] at hlength
  rw [hall, ofDigits_append_zeros] at hcoefficient
  have hexponent : ((Nat.toDigits 10 coefficient).length : ℤ) - 1 + power - finest + 1 -
      kept.length = zeros + (power - finest) := by
    omega
  rw [hexponent, zpow_add₀ (by norm_num), zpow_natCast, ← step_eq_zpow, ← hcoefficient]
  push_cast
  rw [mul_assoc]

end Decimal

/-- Digits that say something, in a decimal that rounds to the code. -/
theorem shortest_spec {code : Nat} (hpos : code ≠ 0) (hcode : code < infinityCode) :
    RoundsTo (shortest code).value code ∧ (shortest code).digits ≠ [] ∧
      ∀ c ∈ (shortest code).digits, c.isDigit := by
  obtain ⟨coefficient, power, hfound, hrounds⟩ := exists_coarsest hpos hcode
  have hshortest : shortest code = .ofCoefficient coefficient power := by
    rw [shortest, hfound]
    rfl
  rw [hshortest, Decimal.value_ofCoefficient]
  refine ⟨hrounds, ?_, fun c hc ↦ ?_⟩
  · intro hnil
    have hvalue := Decimal.value_ofCoefficient coefficient power
    have hzero : RoundsTo 0 0 := by simpa [magnitude] using RoundsTo.magnitude 0
    rw [Decimal.value, hnil] at hvalue
    rw [← hvalue] at hrounds
    simp [ofDigits] at hrounds
    exact hpos (hrounds.unique hzero)
  · obtain ⟨zeros, hall⟩ := Decimal.exists_trailing_zeros (Nat.toDigits 10 coefficient)
    have hmem : c ∈ Nat.toDigits 10 coefficient := by
      rw [hall]
      exact List.mem_append_left _ hc
    exact Nat.isDigit_of_mem_toDigits (by decide) (by decide) hmem

/-! ## Numerals -/

/-- The number that the digits of an exponent say, behind a sign or without one. -/
def exponentValue : List Char → ℤ
  | '-' :: digits => -ofDigits digits
  | '+' :: digits => ofDigits digits
  | digits => ofDigits digits

/-- The number that digits say, with a point among them or without one. -/
def mantissaValue (text : List Char) : ℚ :=
  let fraction := (text.dropWhile (· != '.')).drop 1
  ofDigits (text.takeWhile (· != '.') ++ fraction) / 10 ^ fraction.length

/-- The number that a numeral without a sign says. -/
def numeralValue (text : List Char) : ℚ :=
  mantissaValue (text.takeWhile (· != 'e')) *
    10 ^ exponentValue ((text.dropWhile (· != 'e')).drop 1)

section

variable {digits whole text exponent : List Char}

theorem bne_of_not_mem {mark : Char} (h : mark ∉ text) : ∀ c ∈ text, (c != mark) = true := by
  intro c hc
  rw [bne_iff_ne]
  rintro rfl
  exact h hc

/-- Digits are not marks. -/
theorem not_mem_of_digits (h : ∀ c ∈ digits, c.isDigit) {mark : Char}
    (hmark : mark.isDigit = false) : mark ∉ digits := by
  intro hmem
  rw [h mark hmem] at hmark
  cases hmark

theorem mantissaValue_digits (h : ∀ c ∈ digits, c.isDigit) :
    mantissaValue digits = ofDigits digits := by
  have hpoint := bne_of_not_mem (not_mem_of_digits h (rfl : '.'.isDigit = false))
  rw [mantissaValue, List.takeWhile_eq_self_iff.mpr hpoint, List.dropWhile_eq_nil_iff.mpr hpoint]
  simp

theorem mantissaValue_point (h : ∀ c ∈ whole, c.isDigit) (fraction : List Char) :
    mantissaValue (whole ++ '.' :: fraction) =
      ofDigits (whole ++ fraction) / 10 ^ fraction.length := by
  have hpoint := bne_of_not_mem (not_mem_of_digits h (rfl : '.'.isDigit = false))
  rw [mantissaValue, List.takeWhile_append_of_pos hpoint, List.dropWhile_append_of_pos hpoint]
  simp

theorem numeralValue_eq_mantissaValue (h : 'e' ∉ text) :
    numeralValue text = mantissaValue text := by
  have hmark := bne_of_not_mem h
  rw [numeralValue, List.takeWhile_eq_self_iff.mpr hmark, List.dropWhile_eq_nil_iff.mpr hmark]
  simp [exponentValue, ofDigits]

theorem numeralValue_scientific (h : 'e' ∉ text) :
    numeralValue (text ++ 'e' :: exponent) = mantissaValue text * 10 ^ exponentValue exponent := by
  have hmark := bne_of_not_mem h
  rw [numeralValue, List.takeWhile_append_of_pos hmark, List.dropWhile_append_of_pos hmark]
  simp

end

/-! ## Printed magnitudes -/

namespace Layout

variable {layout : Layout} {decimal : Decimal}

theorem mantissaValue_mantissa {digits : List Char} (h : ∀ c ∈ digits, c.isDigit) :
    mantissaValue (mantissa digits) = ofDigits digits / 10 ^ (digits.length - 1) := by
  rw [mantissa]
  split
  next hshort =>
    rw [mantissaValue_digits h, Nat.sub_eq_zero_of_le hshort, pow_zero, div_one]
  next =>
    rw [mantissaValue_point fun c hc ↦ h c (List.mem_of_mem_take hc), List.take_append_drop,
      List.length_drop]

theorem not_mem_of_split {digits : List Char} (h : 'e' ∉ digits) (width : Nat) :
    'e' ∉ digits.take width ++ '.' :: digits.drop width := by
  intro hmem
  rcases List.mem_append.mp hmem with hmem | hmem
  · exact h (List.mem_of_mem_take hmem)
  · exact h (List.mem_of_mem_drop (List.mem_of_ne_of_mem (by decide) hmem))

theorem ofDigits_padded (width : Nat) (digits : List Char) :
    ofDigits (padded width digits) = ofDigits digits :=
  ofDigits_zeros_append _ _

/-- All digits behind the point. -/
theorem numeralValue_below (h : ∀ c ∈ decimal.digits, c.isDigit) {below : Nat}
    (hexponent : decimal.exponent = .negSucc below) :
    numeralValue ('0' :: '.' :: (List.replicate below '0' ++ decimal.digits)) = decimal.value := by
  have hnone : 'e' ∉ decimal.digits := not_mem_of_digits h rfl
  have hwhole : ∀ c ∈ ['0'], c.isDigit := by simp
  have hvalue := mantissaValue_point hwhole (List.replicate below '0' ++ decimal.digits)
  have hdigits : ofDigits (['0'] ++ (List.replicate below '0' ++ decimal.digits)) =
      ofDigits decimal.digits := by
    rw [ofDigits_append, ofDigits_zeros_append, show ofDigits ['0'] = 0 from rfl, Nat.zero_mul,
      Nat.zero_add]
  have hpower : decimal.exponent + 1 - decimal.digits.length =
      -((below + decimal.digits.length : Nat) : ℤ) := by
    rw [hexponent]
    omega
  rw [numeralValue_eq_mantissaValue (by simp [hnone])]
  refine hvalue.trans ?_
  rw [Decimal.value, hdigits, hpower, zpow_neg, zpow_natCast, div_eq_mul_inv, List.length_append,
    List.length_replicate]

/-- All digits in front of the point, which is not written. -/
theorem numeralValue_above (h : ∀ c ∈ decimal.digits, c.isDigit) {width : Nat}
    (hexponent : decimal.exponent + 1 = width) (hshort : decimal.digits.length ≤ width) :
    numeralValue (decimal.digits ++ List.replicate (width - decimal.digits.length) '0') =
      decimal.value := by
  have hall : ∀ c ∈ decimal.digits ++ List.replicate (width - decimal.digits.length) '0',
      c.isDigit := by
    rw [List.forall_mem_append]
    refine ⟨h, fun c hc ↦ ?_⟩
    rw [List.eq_of_mem_replicate hc]
    rfl
  have hpower : decimal.exponent + 1 - decimal.digits.length =
      ((width - decimal.digits.length : Nat) : ℤ) := by
    omega
  rw [numeralValue_eq_mantissaValue (not_mem_of_digits hall rfl), mantissaValue_digits hall,
    ofDigits_append_zeros, Decimal.value, hpower, zpow_natCast]
  push_cast
  rfl

/-- The point stands among the digits. -/
theorem numeralValue_among (h : ∀ c ∈ decimal.digits, c.isDigit) {width : Nat}
    (hexponent : decimal.exponent + 1 = width) (hlong : width < decimal.digits.length) :
    numeralValue (decimal.digits.take width ++ '.' :: decimal.digits.drop width) =
      decimal.value := by
  have hwhole : ∀ c ∈ decimal.digits.take width, c.isDigit :=
    fun c hc ↦ h c (List.mem_of_mem_take hc)
  have hpower : decimal.exponent + 1 - decimal.digits.length =
      -((decimal.digits.length - width : Nat) : ℤ) := by
    omega
  rw [numeralValue_eq_mantissaValue (not_mem_of_split (not_mem_of_digits h rfl) width),
    mantissaValue_point hwhole, List.take_append_drop, List.length_drop, Decimal.value, hpower,
    zpow_neg, zpow_natCast, div_eq_mul_inv]

theorem numeralValue_positional (hmark : layout.wholeMark = "")
    (h : ∀ c ∈ decimal.digits, c.isDigit) :
    numeralValue (layout.positional decimal) = decimal.value := by
  rw [positional]
  split
  next below hexponent => exact numeralValue_below h hexponent
  next above hexponent =>
    have hwidth : decimal.exponent + 1 = (above + 1 : Nat) := by
      rw [hexponent]
      rfl
    dsimp only
    split
    next hshort =>
      rw [hmark, String.toList_empty, List.append_nil]
      exact numeralValue_above h hwidth hshort
    next hlong => exact numeralValue_among h hwidth (Nat.lt_of_not_le hlong)

/-- An exponent with its sign is read back. -/
theorem exponentValue_signed (exponent : ℤ) (width : Nat) :
    exponentValue ((if exponent < 0 then ['-'] else ['+']) ++
      padded width (Nat.toDigits 10 exponent.natAbs)) = exponent := by
  have hdigits : ofDigits (padded width (Nat.toDigits 10 exponent.natAbs)) = exponent.natAbs :=
    (ofDigits_padded _ _).trans Nat.ofDigitChars_ten_toDigits
  split
  next hneg =>
    refine (congrArg (fun n : Nat ↦ -(n : ℤ)) hdigits).trans ?_
    omega
  next hnonneg =>
    refine (congrArg (fun n : Nat ↦ (n : ℤ)) hdigits).trans ?_
    omega

theorem numeralValue_scientific (hmark : layout.plusMark = "+") (hne : decimal.digits ≠ [])
    (h : ∀ c ∈ decimal.digits, c.isDigit) :
    numeralValue (layout.scientific decimal) = decimal.value := by
  have hnone : 'e' ∉ mantissa decimal.digits := by
    rw [mantissa]
    split
    · exact not_mem_of_digits h rfl
    · exact not_mem_of_split (not_mem_of_digits h rfl) 1
  have hexponent := exponentValue_signed decimal.exponent layout.exponentWidth
  have hlength := List.length_pos_iff.mpr hne
  have hpower : decimal.exponent + 1 - decimal.digits.length =
      -((decimal.digits.length - 1 : Nat) : ℤ) + decimal.exponent := by
    omega
  have hplus : "+".toList = ['+'] := rfl
  rw [scientific, exponentPart, Number.numeralValue_scientific hnone, hmark, hplus, hexponent,
    mantissaValue_mantissa h, Decimal.value, hpower, zpow_add₀ (by norm_num), zpow_neg,
    zpow_natCast, div_eq_mul_inv, mul_assoc]

/-! ## Characters of a numeral -/

/-- Characters that numerals are made of. -/
def isNumeral (c : Char) : Bool := c.isDigit || c ∈ ['.', 'e', '+', '-']

theorem isNumeral_of_digit {c : Char} (h : c.isDigit) : isNumeral c := by
  rw [isNumeral, h, Bool.true_or]

theorem all_isNumeral_replicate (n : Nat) : (List.replicate n '0').all isNumeral := by
  simp [isNumeral]

theorem all_isNumeral_split {digits : List Char} (h : digits.all isNumeral) (width : Nat) :
    (digits.take width ++ '.' :: digits.drop width).all isNumeral := by
  have hsplit : (digits.take width ++ digits.drop width).all isNumeral := by
    rwa [List.take_append_drop]
  rw [List.all_append, Bool.and_eq_true] at hsplit
  rw [List.all_append, List.all_cons, hsplit.1, hsplit.2]
  rfl

theorem all_isNumeral_positional (hmark : layout.wholeMark = "")
    (h : decimal.digits.all isNumeral) : (layout.positional decimal).all isNumeral := by
  rw [positional]
  split
  · rw [List.all_cons, List.all_cons, List.all_append, all_isNumeral_replicate, h]
    rfl
  · dsimp only
    split
    · rw [List.all_append, List.all_append, h, all_isNumeral_replicate, hmark]
      rfl
    · exact all_isNumeral_split h _

theorem all_isNumeral_scientific (hmark : layout.plusMark = "+")
    (h : decimal.digits.all isNumeral) : (layout.scientific decimal).all isNumeral := by
  have hmantissa : (mantissa decimal.digits).all isNumeral := by
    rw [mantissa]
    split
    · exact h
    · exact all_isNumeral_split h 1
  have hexponent : (Nat.toDigits 10 decimal.exponent.natAbs).all isNumeral :=
    List.all_eq_true.mpr fun c hc ↦
      isNumeral_of_digit (Nat.isDigit_of_mem_toDigits (by decide) (by decide) hc)
  rw [scientific, exponentPart, hmark, padded, List.all_append, hmantissa, List.all_cons,
    List.all_append, List.all_append, all_isNumeral_replicate, hexponent]
  split <;> rfl

theorem head_positional (layout : Layout) {c : Char} {rest : List Char}
    (hdigits : decimal.digits = c :: rest) :
    ∃ d tail, layout.positional decimal = d :: tail ∧ (d = '0' ∨ d = c) := by
  rw [positional, hdigits]
  split
  · exact ⟨_, _, rfl, .inl rfl⟩
  · dsimp only
    split
    · exact ⟨_, _, rfl, .inr rfl⟩
    · exact ⟨_, _, rfl, .inr rfl⟩

theorem head_scientific (layout : Layout) {c : Char} {rest : List Char}
    (hdigits : decimal.digits = c :: rest) :
    ∃ tail, layout.scientific decimal = c :: tail := by
  rw [scientific, mantissa, hdigits]
  split <;> exact ⟨_, rfl⟩

end Layout

/-! ## Written numbers -/

/-- The sign in front of a number. -/
def signMark (x : Float) : List Char := if isNegative x then ['-'] else []

theorem signMark_of_unsigned {x : Float} (h : isNegative x = false) : signMark x = [] :=
  if_neg (Bool.not_eq_true _ ▸ h)

theorem Layout.write_eq (layout : Layout) {x : Float} (hcode : code x ≤ infinityCode) :
    layout.write x = String.ofList (signMark x ++ layout.magnitude (code x)) :=
  if_neg (Nat.not_lt.mpr hcode)

end Lox.Number

namespace Lox.Value

open Lox.Number Lox.Number.Layout

/-- A printed magnitude is a numeral that starts with a digit and rounds to the magnitude. -/
theorem magnitude_spec {code : Nat} (hcode : code < infinityCode) :
    RoundsTo (numeralValue (numberLayout.magnitude code)) code ∧
      (numberLayout.magnitude code).all isNumeral ∧
      ∃ c rest, numberLayout.magnitude code = c :: rest ∧ c.isDigit := by
  rw [Layout.magnitude, if_neg (Nat.not_le.mpr hcode)]
  split
  next hzero =>
    subst hzero
    have hvalue : numeralValue ['0'] = Number.magnitude 0 := by
      have hdigits : ∀ c ∈ ['0'], c.isDigit := by simp
      rw [numeralValue_eq_mantissaValue (not_mem_of_digits hdigits rfl),
        mantissaValue_digits hdigits,
        Number.magnitude, units_zero, show ofDigits ['0'] = 0 from rfl, Nat.cast_zero, zero_div]
    refine ⟨?_, rfl, '0', [], rfl, rfl⟩
    exact (congrArg (RoundsTo · 0) hvalue).mpr (RoundsTo.magnitude 0)
  next hpos =>
    obtain ⟨hrounds, hne, hdigits⟩ := shortest_spec hpos hcode
    have hall : (shortest code).digits.all isNumeral :=
      List.all_eq_true.mpr fun c hc ↦ isNumeral_of_digit (hdigits c hc)
    obtain ⟨c, rest, hcons⟩ := List.exists_cons_of_ne_nil hne
    have hfirst : c.isDigit := hdigits c (hcons ▸ List.mem_cons_self)
    dsimp only
    split
    · rw [numeralValue_positional rfl hdigits]
      obtain ⟨d, tail, htext, hhead⟩ := head_positional numberLayout hcons
      refine ⟨hrounds, all_isNumeral_positional rfl hall, d, tail, htext, ?_⟩
      rcases hhead with rfl | rfl
      · rfl
      · exact hfirst
    · rw [Layout.numeralValue_scientific rfl hne hdigits]
      obtain ⟨tail, htext⟩ := head_scientific numberLayout hcons
      exact ⟨hrounds, all_isNumeral_scientific rfl hall, c, tail, htext, hfirst⟩

theorem magnitude_injective {a b : Nat} (ha : a ≤ infinityCode) (hb : b ≤ infinityCode)
    (h : numberLayout.magnitude a = numberLayout.magnitude b) : a = b := by
  have hinf : numberLayout.magnitude infinityCode = ['i', 'n', 'f'] := rfl
  have hnumeral {c : Nat} (hc : c < infinityCode) :
      numberLayout.magnitude c ≠ numberLayout.magnitude infinityCode := by
    intro heq
    have hall := (magnitude_spec hc).2.1
    rw [heq, hinf] at hall
    exact absurd hall (by decide)
  rcases ha.lt_or_eq with ha | rfl <;> rcases hb.lt_or_eq with hb | rfl
  · have hround := (magnitude_spec ha).1
    rw [h] at hround
    exact hround.unique (magnitude_spec hb).1
  · exact absurd h (hnumeral ha)
  · exact absurd h.symm (hnumeral hb)
  · rfl

variable {x y : Float}

theorem text_number (hx : code x < infinityCode) (hsign : isNegative x = false) :
    (number x).text = String.ofList (numberLayout.magnitude (code x)) := by
  rw [text, write_eq _ hx.le, signMark_of_unsigned hsign, List.nil_append]

/-- A magnitude does not start with a sign. -/
theorem head_magnitude (hcode : code x ≤ infinityCode) :
    ∃ c rest, numberLayout.magnitude (code x) = c :: rest ∧ c ≠ '-' := by
  rcases hcode.lt_or_eq with hlt | heq
  · obtain ⟨c, rest, hcons, hdigit⟩ := (magnitude_spec hlt).2.2
    refine ⟨c, rest, hcons, ?_⟩
    rintro rfl
    exact absurd hdigit (by decide)
  · rw [heq]
    exact ⟨'i', ['n', 'f'], rfl, by decide⟩

/-- Numbers that are printed alike are the same, unless they are none. -/
theorem eq_of_text_eq (hx : code x ≤ infinityCode) (hy : code y ≤ infinityCode)
    (h : (number x).text = (number y).text) : x = y := by
  rw [text, text, write_eq _ hx, write_eq _ hy, String.ofList_inj, signMark, signMark] at h
  obtain ⟨c, rest, hcons, hc⟩ := head_magnitude hx
  obtain ⟨d, rest', hcons', hd⟩ := head_magnitude hy
  have hsign : isNegative x = isNegative y ∧
      numberLayout.magnitude (code x) = numberLayout.magnitude (code y) := by
    rw [hcons, hcons'] at h ⊢
    generalize isNegative x = a at *
    generalize isNegative y = b at *
    cases a <;> cases b
    · exact ⟨rfl, h⟩
    · exact absurd (List.cons.inj h).1 hc
    · exact absurd (List.cons.inj h).1.symm hd
    · exact ⟨rfl, (List.cons.inj h).2⟩
  exact eq_of_code_eq (magnitude_injective hx hy hsign.2) hsign.1

end Lox.Value
