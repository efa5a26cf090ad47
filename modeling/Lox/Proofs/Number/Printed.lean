import Lox.Proofs.Number.Distance
import Lox.Proofs.Number.Fewest
import Lox.Proofs.Number.Shape

/-!
# Printed numbers

The numerals that layouts make of a reduced decimal have its value and its digits. So the text that
`print` shows for a finite double is a numeral to which no double is nearer, and no such numeral has
fewer significant digits. The exponent of the shortest digits and the double itself say alike
whether the text has an exponent.
-/

namespace Lox.Number.Layout

variable {layout : Layout} {decimal : Decimal}

/-! ## Positional layout -/

/-- Where the point stands: in front of the digits, nowhere, or among them. -/
theorem positional_cases (layout : Layout) (decimal : Decimal) :
    (∃ zeros, decimal.exponent < 0 ∧
      layout.positional decimal = ['0'] ++ '.' :: (List.replicate zeros '0' ++ decimal.digits)) ∨
    (∃ zeros, decimal.digits.length ≤ decimal.exponent + 1 ∧
      layout.positional decimal =
        decimal.digits ++ List.replicate zeros '0' ++ layout.wholeMark.toList) ∨
    ∃ whole places, decimal.exponent + 1 < decimal.digits.length ∧ whole ≠ [] ∧ places ≠ [] ∧
      decimal.digits = whole ++ places ∧ layout.positional decimal = whole ++ '.' :: places := by
  rw [positional]
  split
  next below hexponent =>
    refine .inl ⟨below, ?_, rfl⟩
    rw [hexponent]
    exact Int.negSucc_lt_zero below
  next above hexponent =>
    have hwidth : decimal.exponent + 1 = (above + 1 : Nat) := by
      rw [hexponent]
      rfl
    dsimp only
    split
    next hshort => exact .inr (.inl ⟨_, by omega, rfl⟩)
    next hlong =>
      refine .inr (.inr ⟨_, _, by omega, ?_, ?_, (List.take_append_drop _ _).symm, rfl⟩)
      · exact List.ne_nil_of_length_pos (by rw [List.length_take]; omega)
      · exact List.ne_nil_of_length_pos (by rw [List.length_drop]; omega)

/-- What a layout without mark for whole numbers makes of a decimal: a numeral with its digits and
zeros around them, and behind the point at most the digits of a fraction. -/
theorem positional_spec (hmark : layout.wholeMark = "") (h : decimal.IsReduced) :
    let text := layout.positional decimal
    IsPositional text ∧ significant text = decimal.digits.length ∧
      ('.' ∈ text → text.getLast? ≠ some '0') ∧
      (decimal.digits.length ≤ decimal.exponent + 1 → '.' ∉ text) := by
  intro text
  have hall : IsDigits decimal.digits := ⟨h.ne_nil, h.digits⟩
  have hlength := List.length_pos_iff.mpr h.ne_nil
  rcases positional_cases layout decimal with
    ⟨zeros, hexponent, heq⟩ | ⟨zeros, hexponent, heq⟩ |
    ⟨whole, places, hexponent, hw, hp, hsplit, heq⟩
  · have hplaces := hall.zeros_append zeros
    have hstripped := stripped_zeros h (zeros + 1) 0
    rw [List.replicate_zero, List.append_nil] at hstripped
    simp only [text, heq]
    refine ⟨.point isDigits_zero hplaces, ?_, fun _ ↦ ?_, by omega⟩
    · rw [significant, digitsOf_point isDigits_zero.digits hplaces.digits]
      exact congrArg List.length hstripped
    · rw [List.getLast?_append_of_ne_nil _ (List.cons_ne_nil _ _), List.getLast?_cons_of_ne_nil
        hplaces.ne_nil, List.getLast?_append_of_ne_nil _ h.ne_nil]
      exact h.getLast
  · have hdigits := hall.append_zeros zeros
    have hstripped := stripped_zeros h 0 zeros
    have hpoint : '.' ∉ decimal.digits ++ List.replicate zeros '0' :=
      not_mem_of_digits hdigits.digits rfl
    simp only [text, heq, hmark, String.toList_empty, List.append_nil]
    refine ⟨.whole hdigits, ?_, fun hmem ↦ absurd hmem hpoint, fun _ ↦ hpoint⟩
    rw [significant, digitsOf_digits hdigits.digits]
    exact congrArg List.length hstripped
  · have hparts := h.digits
    have hlast := h.getLast
    have hstripped := stripped_zeros h 0 0
    rw [hsplit, List.forall_mem_append] at hparts
    rw [hsplit, List.getLast?_append_of_ne_nil _ hp] at hlast
    simp only [text, heq]
    refine ⟨.point ⟨hw, hparts.1⟩ ⟨hp, hparts.2⟩, ?_, fun _ ↦ ?_, by omega⟩
    · rw [significant, digitsOf_point hparts.1 hparts.2, ← hsplit]
      simpa using congrArg List.length hstripped
    · rwa [List.getLast?_append_of_ne_nil _ (List.cons_ne_nil _ _),
        List.getLast?_cons_of_ne_nil hp]

/-! ## Layout with an exponent -/

theorem isMantissa_mantissa {digits : List Char} (h : IsDigits digits) :
    IsMantissa (mantissa digits) ∧ digitsOf (mantissa digits) = digits := by
  obtain ⟨c, rest, rfl⟩ := List.exists_cons_of_ne_nil h.ne_nil
  obtain ⟨hc, hrest⟩ := List.forall_mem_cons.mp h.digits
  rw [mantissa]
  split
  next hshort =>
    obtain rfl : rest = [] := List.eq_nil_of_length_eq_zero (by simpa using hshort)
    exact ⟨.whole hc, digitsOf_digits h.digits⟩
  next hlong =>
    have hne : rest ≠ [] := by
      rintro rfl
      exact hlong le_rfl
    have hlead : ∀ d ∈ [c], d.isDigit := by simpa using hc
    exact ⟨.point hc ⟨hne, hrest⟩, digitsOf_point hlead hrest⟩

theorem isDigits_padded (width n : Nat) :
    IsDigits (padded width (Nat.toDigits 10 n)) ∧
      width ≤ (padded width (Nat.toDigits 10 n)).length := by
  refine ⟨(isDigits_toDigits n).zeros_append _, ?_⟩
  rw [padded, List.length_append, List.length_replicate]
  omega

theorem scientific_spec (hmark : layout.plusMark = "+") (hwidth : 2 ≤ layout.exponentWidth)
    (h : decimal.IsReduced) :
    IsScientific (layout.scientific decimal) ∧
      significant (layout.scientific decimal) = decimal.digits.length := by
  obtain ⟨hmantissa, hdigits⟩ := isMantissa_mantissa ⟨h.ne_nil, h.digits⟩
  obtain ⟨hexponent, hlength⟩ := isDigits_padded layout.exponentWidth decimal.exponent.natAbs
  have hstripped := stripped_zeros h 0 0
  have hsign : ∃ mark, (mark = '+' ∨ mark = '-') ∧
      (if decimal.exponent < 0 then ['-'] else layout.plusMark.toList) = [mark] := by
    split
    · exact ⟨'-', .inr rfl, rfl⟩
    · exact ⟨'+', .inl rfl, by rw [hmark]; rfl⟩
  obtain ⟨mark, hsigns, heq⟩ := hsign
  simp only [scientific, exponentPart, heq, List.singleton_append]
  refine ⟨.mk hmantissa hsigns hexponent (hwidth.trans hlength), ?_⟩
  rw [significant, digitsOf_append hmantissa.isPositional.not_mem, hdigits]
  simpa using congrArg List.length hstripped

end Lox.Number.Layout

namespace Lox.Value

open Lox.Number Lox.Number.Layout

/-! ## Magnitudes -/

section

variable {code : Nat}

/-- The double at `0.0001`, whose shortest digits say that number. -/
theorem least_positional : RoundsTo (10 ^ (-4 : ℤ)) (nearest 1 10000) ∧
    (shortest (nearest 1 10000)).exponent = -4 := by
  refine ⟨?_, by decide +kernel⟩
  have hcode : nearest 1 10000 < infinityCode := by decide +kernel
  have hrounds := roundsTo_nearest (by decide) hcode
  norm_num at hrounds ⊢
  exact hrounds

/-- The double at `10 ^ 16`, whose shortest digits say that number. -/
theorem least_above : RoundsTo (10 ^ (16 : ℤ)) (nearest 10000000000000000 1) ∧
    (shortest (nearest 10000000000000000 1)).exponent = 16 := by
  refine ⟨?_, by decide +kernel⟩
  have hcode : nearest 10000000000000000 1 < infinityCode := by decide +kernel
  have hrounds := roundsTo_nearest Nat.one_pos hcode
  norm_num at hrounds ⊢
  exact hrounds

/-- The exponent of the shortest digits and the double itself decide alike. -/
theorem isPositional_eq (hpos : code ≠ 0) (hcode : code < infinityCode) :
    numberLayout.isPositional code (shortest code).exponent =
      Literal.numberLayout.isPositional code (shortest code).exponent := by
  have hlow := exponent_lt_iff hpos hcode least_positional.1 least_positional.2
  have hhigh := exponent_lt_iff hpos hcode least_above.1 least_above.2
  have hlow' : -4 ≤ (shortest code).exponent ↔ nearest 1 10000 ≤ code :=
    not_lt.symm.trans ((not_congr hlow).trans not_lt)
  simp only [numberLayout, Literal.numberLayout, hlow', hhigh]

/-- Whether a magnitude is printed without exponent. -/
def InRange (code : Nat) : Prop := nearest 1 10000 ≤ code ∧ code < nearest 10000000000000000 1

theorem isPositional_iff (hpos : code ≠ 0) (hcode : code < infinityCode) :
    numberLayout.isPositional code (shortest code).exponent = true ↔ InRange code := by
  rw [isPositional_eq hpos hcode]
  simp only [Literal.numberLayout, Bool.and_eq_true, decide_eq_true_eq, InRange]

theorem magnitude_of_inRange (hpos : code ≠ 0) (hcode : code < infinityCode) (h : InRange code) :
    numberLayout.magnitude code = numberLayout.positional (shortest code) := by
  rw [Layout.magnitude, if_neg hcode.not_ge, if_neg hpos]
  exact if_pos ((isPositional_iff hpos hcode).mpr h)

theorem magnitude_of_not_inRange (hpos : code ≠ 0) (hcode : code < infinityCode)
    (h : ¬ InRange code) :
    numberLayout.magnitude code = numberLayout.scientific (shortest code) := by
  rw [Layout.magnitude, if_neg hcode.not_ge, if_neg hpos]
  exact if_neg fun hpositional ↦ h ((isPositional_iff hpos hcode).mp hpositional)

/-- What is printed for a magnitude without exponent. -/
theorem magnitude_positional_spec (hcode : code < infinityCode) (h : code = 0 ∨ InRange code) :
    let text := numberLayout.magnitude code
    IsPositional text ∧ ('.' ∈ text → text.getLast? ≠ some '0') ∧
      ((∃ n : Nat, Number.magnitude code = n) → '.' ∉ text) := by
  intro text
  by_cases hpos : code = 0
  · subst hpos
    exact ⟨.whole isDigits_zero, by decide, fun _ ↦ by decide⟩
  · obtain ⟨hshape, -, hlast, hwhole⟩ :=
      positional_spec (rfl : numberLayout.wholeMark = "") (isReduced_shortest hpos hcode)
    simp only [text, magnitude_of_inRange hpos hcode (h.resolve_left hpos)]
    refine ⟨hshape, hlast, ?_⟩
    rintro ⟨n, hn⟩
    exact hwhole (length_shortest_le_of_whole hpos hcode hn)

theorem magnitude_isScientific_iff (hcode : code < infinityCode) :
    IsScientific (numberLayout.magnitude code) ↔ code ≠ 0 ∧ ¬ InRange code := by
  constructor
  · intro h
    rw [← not_or]
    intro hpositional
    exact h.not_isPositional (magnitude_positional_spec hcode hpositional).1
  · rintro ⟨hpos, hrange⟩
    rw [magnitude_of_not_inRange hpos hcode hrange]
    exact (scientific_spec rfl le_rfl (isReduced_shortest hpos hcode)).1

theorem magnitude_isDecimal (hcode : code < infinityCode) :
    IsDecimal (numberLayout.magnitude code) := by
  by_cases h : code = 0 ∨ InRange code
  · exact .positional (magnitude_positional_spec hcode h).1
  · exact ((magnitude_isScientific_iff hcode).mpr (not_or.mp h)).isDecimal

/-- No numeral for the magnitude has fewer significant digits than the printed one. -/
theorem significant_magnitude_le (hcode : code < infinityCode) {other : List Char}
    (hother : IsDecimal other) (hrounds : RoundsTo (numeralValue other) code) :
    significant (numberLayout.magnitude code) ≤ significant other := by
  by_cases hpos : code = 0
  · subst hpos
    exact Nat.zero_le _
  · have hreduced := isReduced_shortest hpos hcode
    have hlength : significant (numberLayout.magnitude code) = (shortest code).digits.length := by
      by_cases h : InRange code
      · rw [magnitude_of_inRange hpos hcode h]
        exact (positional_spec rfl hreduced).2.1
      · rw [magnitude_of_not_inRange hpos hcode h]
        exact (scientific_spec rfl le_rfl hreduced).2
    obtain ⟨m, power, hvalue, hm⟩ := hother.exists_significant
    rw [hvalue] at hrounds
    rw [hlength]
    exact length_shortest_le hpos hcode hrounds hm

end

/-! ## Numbers -/

section

variable {x y : Float}

/-- The bounds of the range without exponent, as doubles. -/
theorem bounds_spec :
    (code 0.0001 = nearest 1 10000 ∧ isNegative 0.0001 = false) ∧
      code 1e16 = nearest 10000000000000000 1 ∧ isNegative 1e16 = false := by
  decide +kernel

theorem inRange_iff (hcode : code x ≤ infinityCode) :
    InRange (code x) ↔ 0.0001 ≤ x.abs ∧ x.abs < 1e16 := by
  obtain ⟨⟨hlow, hlowsign⟩, hhigh, hhighsign⟩ := bounds_spec
  rw [le_abs_iff hlowsign (hlow ▸ nearest_le_infinityCode _ _) hcode,
    abs_lt_iff hhighsign (hhigh ▸ nearest_le_infinityCode _ _) hcode, hlow, hhigh, InRange]

theorem not_inRange_iff (hcode : code x ≤ infinityCode) :
    ¬ InRange (code x) ↔ x.abs < 0.0001 ∨ 1e16 ≤ x.abs := by
  obtain ⟨⟨hlow, hlowsign⟩, hhigh, hhighsign⟩ := bounds_spec
  rw [abs_lt_iff hlowsign (hlow ▸ nearest_le_infinityCode _ _) hcode,
    le_abs_iff hhighsign (hhigh ▸ nearest_le_infinityCode _ _) hcode, hlow, hhigh, InRange,
    not_and_or, not_le, not_lt]

/-- What is printed for the magnitude of a finite double: a numeral that rounds to it, with as few
significant digits as any such numeral. It has an exponent just outside the range from `0.0001` up
to `10 ^ 16`, zero apart; inside, whole numbers have no point and fractions no zero behind them. -/
structure IsPrinted (x : Float) (text : List Char) : Prop where
  isDecimal : IsDecimal text
  isNearest : IsNearest (numeralValue text) (code x)
  fewest : ∀ other, IsDecimal other → IsNearest (numeralValue other) (code x) →
    significant text ≤ significant other
  isScientific_iff : IsScientific text ↔ code x ≠ 0 ∧ (x.abs < 0.0001 ∨ 1e16 ≤ x.abs)
  isPositional : ¬ IsScientific text → IsPositional text
  whole : ¬ IsScientific text → (∃ n : Nat, Number.magnitude (code x) = n) → '.' ∉ text
  fraction : ¬ IsScientific text → '.' ∈ text → text.getLast? ≠ some '0'

theorem isPrinted_magnitude (hcode : code x < infinityCode) :
    IsPrinted x (numberLayout.magnitude (code x)) := by
  have hscientific := magnitude_isScientific_iff hcode
  have hpositional (hnot : ¬ IsScientific (numberLayout.magnitude (code x))) := by
    rw [hscientific, not_and, not_not] at hnot
    exact magnitude_positional_spec hcode (or_iff_not_imp_left.mpr hnot)
  exact {
    isDecimal := magnitude_isDecimal hcode
    isNearest := (magnitude_spec hcode).1.isNearest
    fewest := fun other hother hnearest ↦ significant_magnitude_le hcode hother hnearest.roundsTo
    isScientific_iff := hscientific.trans (and_congr_right' (not_inRange_iff hcode.le))
    isPositional := fun hnot ↦ (hpositional hnot).1
    whole := fun hnot ↦ (hpositional hnot).2.2
    fraction := fun hnot ↦ (hpositional hnot).2.1 }

/-- What is printed for a number. Numbers that are printed alike have the same bits. -/
theorem text_number_spec (x : Float) :
    (x.isNaN = true → (number x).text = "nan") ∧
    (x.isInf = true → (number x).text = if isNegative x then "-inf" else "inf") ∧
    (x.isFinite = true →
      ∃ text, (number x).text = String.ofList (signMark x ++ text) ∧ IsPrinted x text) ∧
    ∀ y : Float, x.isNaN = false → y.isNaN = false → (number x).text = (number y).text →
      x.toBits = y.toBits := by
  obtain ⟨hnan, hinf, hfinite⟩ := unpack_class x
  refine ⟨fun h ↦ if_pos (hnan.mp h), fun h ↦ ?_, fun h ↦ ?_, fun y hx hy htext ↦ ?_⟩
  · rw [text, write_eq _ (hinf.mp h).le, hinf.mp h, signMark]
    cases isNegative x <;> rfl
  · exact ⟨_, write_eq _ (hfinite.mp h).le, isPrinted_magnitude (hfinite.mp h)⟩
  · rw [eq_of_text_eq (code_le_infinityCode hx) (code_le_infinityCode hy) htext]

example : (number 1e16).text = "1e+16" := by decide +kernel

end

end Lox.Value
