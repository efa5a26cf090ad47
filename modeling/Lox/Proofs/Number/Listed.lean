import Lox.Proofs.Number.Literals
import Lox.Proofs.Number.Printed

/-!
# Listed and printed numbers

The list of tokens and `print` show a number by the same digits. Both write an exponent or neither
does; the listing adds a fraction to whole numbers and leaves out the plus sign and the padding of
exponents.
-/

namespace Lox

open Number Number.Layout

namespace Number.Layout

variable {decimal : Decimal}

/-- A layout marks the positional numerals that have no point. -/
theorem positional_eq_append (layout : Layout) {bare : Layout} (hbare : bare.wholeMark = "")
    (h : ∀ c ∈ decimal.digits, c.isDigit) :
    layout.positional decimal =
      if '.' ∈ bare.positional decimal then bare.positional decimal
      else bare.positional decimal ++ layout.wholeMark.toList := by
  rw [positional, positional]
  split
  next => rw [if_pos (by simp)]
  next above _ =>
    dsimp only
    split
    next =>
      have hall : ∀ c ∈ decimal.digits ++ List.replicate (above + 1 - decimal.digits.length) '0',
          c.isDigit :=
        List.forall_mem_append.mpr ⟨h, isDigit_of_mem_zeros⟩
      rw [hbare, String.toList_empty, List.append_nil, if_neg (not_mem_of_digits hall rfl)]
    next => rw [if_pos (by simp)]

theorem padded_eq {width : Nat} {digits : List Char} (h : width ≤ digits.length) :
    padded width digits = digits := by
  rw [padded, Nat.sub_eq_zero_of_le h, List.replicate_zero, List.nil_append]

end Number.Layout

/-- The numeral that is printed for a number, and the one that is listed for it. -/
inductive ListedAs : List Char → List Char → Prop
  | infinite : ListedAs ['i', 'n', 'f'] ['i', 'n', 'f']
  | point {text : List Char} (h : IsPositional text) (hpoint : '.' ∈ text) : ListedAs text text
  | whole {text : List Char} (h : IsPositional text) (hpoint : '.' ∉ text) :
      ListedAs text (text ++ ['.', '0'])
  | above {mantissa digits : List Char} (h : IsMantissa mantissa) (hdigits : IsDigits digits)
      (hhead : digits.head? ≠ some '0') :
      ListedAs (mantissa ++ 'e' :: '+' :: padded 2 digits) (mantissa ++ 'e' :: digits)
  | below {mantissa digits : List Char} (h : IsMantissa mantissa) (hdigits : IsDigits digits)
      (hhead : digits.head? ≠ some '0') :
      ListedAs (mantissa ++ 'e' :: '-' :: padded 2 digits) (mantissa ++ 'e' :: '-' :: digits)

variable {code : Nat}

theorem listed_positional (hpos : code ≠ 0) (hcode : code < infinityCode)
    (h : Value.InRange code) :
    ListedAs (Value.numberLayout.magnitude code) (Literal.numberLayout.magnitude code) := by
  have hreduced := isReduced_shortest hpos hcode
  have hbare : Value.numberLayout.wholeMark = "" := rfl
  have hshape := (positional_spec hbare hreduced).1
  have hlisted : Literal.numberLayout.magnitude code =
      Literal.numberLayout.positional (shortest code) := by
    rw [Layout.magnitude, if_neg hcode.not_ge, if_neg hpos]
    rw [← Value.isPositional_iff hpos hcode, Value.isPositional_eq hpos hcode] at h
    dsimp only
    rw [if_pos h]
  have hmark : Literal.numberLayout.wholeMark.toList = ['.', '0'] := rfl
  rw [Value.magnitude_of_inRange hpos hcode h, hlisted,
    positional_eq_append Literal.numberLayout hbare hreduced.digits, hmark]
  split
  next hpoint => exact .point hshape hpoint
  next hpoint => exact .whole hshape hpoint

theorem listed_scientific (hpos : code ≠ 0) (hcode : code < infinityCode)
    (h : ¬ Value.InRange code) :
    ListedAs (Value.numberLayout.magnitude code) (Literal.numberLayout.magnitude code) := by
  have hreduced := isReduced_shortest hpos hcode
  have hmantissa := (isMantissa_mantissa ⟨hreduced.ne_nil, hreduced.digits⟩).1
  have hdigits := isDigits_toDigits (shortest code).exponent.natAbs
  have hlisted : Literal.numberLayout.magnitude code =
      Literal.numberLayout.scientific (shortest code) := by
    rw [Layout.magnitude, if_neg hcode.not_ge, if_neg hpos]
    rw [← Value.isPositional_iff hpos hcode, Value.isPositional_eq hpos hcode] at h
    dsimp only
    rw [if_neg h]
  have hzero : (shortest code).exponent.natAbs ≠ 0 := by
    intro hzero
    rw [← Value.isPositional_iff hpos hcode, Int.natAbs_eq_zero.mp hzero] at h
    exact h rfl
  have hhead := head_toDigits_ne hzero
  have hone : padded 1 (Nat.toDigits 10 (shortest code).exponent.natAbs) =
      Nat.toDigits 10 (shortest code).exponent.natAbs :=
    padded_eq (List.length_pos_iff.mpr hdigits.ne_nil)
  have hplus : Literal.numberLayout.plusMark.toList = [] := rfl
  have hplus' : Value.numberLayout.plusMark.toList = ['+'] := rfl
  have hwidth : Literal.numberLayout.exponentWidth = 1 := rfl
  have hwidth' : Value.numberLayout.exponentWidth = 2 := rfl
  rw [Value.magnitude_of_not_inRange hpos hcode h, hlisted]
  simp only [scientific, exponentPart, hplus, hplus', hwidth, hwidth', hone]
  by_cases hneg : (shortest code).exponent < 0
  · rw [if_pos hneg, if_pos hneg, List.singleton_append, List.singleton_append]
    exact .below hmantissa hdigits hhead
  · rw [if_neg hneg, if_neg hneg, List.singleton_append, List.nil_append]
    exact .above hmantissa hdigits hhead

theorem listed_magnitude (hcode : code ≤ infinityCode) :
    ListedAs (Value.numberLayout.magnitude code) (Literal.numberLayout.magnitude code) := by
  rcases hcode.lt_or_eq with hlt | rfl
  · by_cases hpos : code = 0
    · have hprinted : Value.numberLayout.magnitude 0 = ['0'] := rfl
      have hlisted : Literal.numberLayout.magnitude 0 = ['0'] ++ ['.', '0'] := rfl
      rw [hpos, hprinted, hlisted]
      exact .whole (.whole isDigits_zero) (by decide)
    · by_cases h : Value.InRange code
      · exact listed_positional hpos hlt h
      · exact listed_scientific hpos hlt h
  · have hprinted : Value.numberLayout.magnitude infinityCode = ['i', 'n', 'f'] := rfl
    have hlisted : Literal.numberLayout.magnitude infinityCode = ['i', 'n', 'f'] := rfl
    rw [hprinted, hlisted]
    exact .infinite

/-- A number token is listed with the numeral that `print` shows, but for its layout. -/
theorem number_token_listing {source : String} {token : Token}
    (hmem : token ∈ (Scan.ofSource source).tokens) (hkind : token.kind = .number) :
    ∃ x printed listed, token.literal = some (.number x) ∧
      token.listing = "NUMBER " ++ token.lexeme ++ " " ++ (Literal.number x).text ∧
      (Literal.number x).text = String.ofList listed ∧
      (Value.number x).text = String.ofList printed ∧ ListedAs printed listed := by
  obtain ⟨whole, places, hnumeral⟩ := exists_hasNumeral hmem hkind
  have hcode := code_ofDecimal_le whole places
  have hsign := isNegative_ofDecimal whole places
  have hname : Kind.number.name ++ " " = "NUMBER " := rfl
  have hwrite (layout : Layout) : layout.write (ofDecimal whole places) =
      String.ofList (layout.magnitude (code (ofDecimal whole places))) := by
    rw [write_eq _ hcode, signMark_of_unsigned hsign, List.nil_append]
  refine ⟨ofDecimal whole places, _, _, hnumeral.literal, ?_, hwrite Literal.numberLayout,
    hwrite Value.numberLayout, listed_magnitude hcode⟩
  rw [Token.listing, hkind, hnumeral.literal, hname]

/-- A whole number, which is listed with a fraction. -/
theorem number_token_listing_whole :
    (Scan.ofSource "12").tokens =
      [⟨.number, "12", some (.number (ofDecimal ['1', '2'] [])), 1⟩, .endOfInput 1] ∧
    ∃ printed listed,
      (Literal.number (ofDecimal ['1', '2'] [])).text = String.ofList listed ∧
      (Value.number (ofDecimal ['1', '2'] [])).text = String.ofList printed ∧
      ListedAs printed listed := by
  have htokens : (Scan.ofSource "12").tokens =
      [⟨.number, "12", some (.number (ofDecimal ['1', '2'] [])), 1⟩, .endOfInput 1] := by
    with_unfolding_all rfl
  have hmem : (⟨.number, "12", some (.number (ofDecimal ['1', '2'] [])), 1⟩ : Token) ∈
      (Scan.ofSource "12").tokens := by
    rw [htokens]
    exact List.mem_cons_self
  obtain ⟨x, printed, listed, hliteral, -, hlisted, hprinted, hagree⟩ :=
    number_token_listing hmem rfl
  obtain rfl := Literal.number.inj (Option.some.inj hliteral)
  exact ⟨htokens, printed, listed, hlisted, hprinted, hagree⟩

end Lox
