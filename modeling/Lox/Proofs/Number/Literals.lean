import Lox.Proofs.Number.Distance
import Lox.Proofs.Number.Shape
import Lox.Proofs.Session.Diagnostics

/-!
# Number literals

The lexeme of a number token is a positional numeral of any length, and its literal is the double
that the value of the numeral rounds to. So literals keep the order of values, and zeros in front of
a numeral or behind its point do not count.
-/

namespace Lox.Number

open Piece (numeral)

variable {whole places : List Char}

/-- Reads digits with a point and digits behind them or without, and nothing else. -/
def read? (text : List Char) : Option Float :=
  let whole := text.takeWhile Char.isDigit
  match whole, text.dropWhile Char.isDigit with
  | [], _ => none
  | _, [] => some (ofDecimal whole [])
  | _, '.' :: places =>
      if places ≠ [] ∧ places.all Char.isDigit then some (ofDecimal whole places) else none
  | _, _ => none

theorem numeral_nil (whole : List Char) : numeral whole [] = whole := rfl

theorem numeral_of_ne_nil (h : places ≠ []) : numeral whole places = whole ++ '.' :: places := by
  rw [numeral, if_neg (by rwa [List.isEmpty_iff])]

theorem isPositional_numeral (h : IsDigits whole) (hplaces : ∀ c ∈ places, c.isDigit) :
    IsPositional (numeral whole places) := by
  by_cases hnil : places = []
  · subst hnil
    exact .whole h
  · rw [numeral_of_ne_nil hnil]
    exact .point h ⟨hnil, hplaces⟩

theorem IsPositional.exists_numeral {text : List Char} (h : IsPositional text) :
    ∃ whole places, IsDigits whole ∧ (∀ c ∈ places, c.isDigit) ∧ text = numeral whole places := by
  cases h with
  | whole h => exact ⟨_, [], h, nofun, rfl⟩
  | point h hplaces =>
      exact ⟨_, _, h, hplaces.digits, (numeral_of_ne_nil hplaces.ne_nil).symm⟩

theorem read?_numeral (h : IsDigits whole) (hplaces : ∀ c ∈ places, c.isDigit) :
    read? (numeral whole places) = some (ofDecimal whole places) := by
  obtain ⟨c, rest, rfl⟩ := List.exists_cons_of_ne_nil h.ne_nil
  by_cases hnil : places = []
  · subst hnil
    rw [numeral_nil, read?, List.takeWhile_eq_self_iff.mpr h.digits,
      List.dropWhile_eq_nil_iff.mpr h.digits]
  · have hall : places.all Char.isDigit = true := List.all_eq_true.mpr hplaces
    rw [numeral_of_ne_nil hnil, read?, List.takeWhile_append_of_pos h.digits,
      List.dropWhile_append_of_pos h.digits, List.takeWhile_cons_of_neg (by decide),
      List.dropWhile_cons_of_neg (by decide), List.append_nil]
    exact if_pos ⟨hnil, hall⟩

theorem numeralValue_numeral (h : IsDigits whole) (hplaces : ∀ c ∈ places, c.isDigit) :
    numeralValue (numeral whole places) =
      ofDigits (whole ++ places) / (tenPow places.length : Nat) := by
  have hpow : ((tenPow places.length : Nat) : ℚ) = 10 ^ places.length := by
    rw [tenPow, Nat.pow_eq, Nat.cast_pow, Nat.cast_ofNat]
  rw [numeralValue_eq_mantissaValue (isPositional_numeral h hplaces).not_mem, hpow]
  by_cases hnil : places = []
  · subst hnil
    rw [numeral_nil, mantissaValue_digits h.digits, List.append_nil, List.length_nil, pow_zero,
      div_one]
  · rw [numeral_of_ne_nil hnil, mantissaValue_point h.digits]

/-- Zeros around a numeral do not change its value. -/
theorem numeralValue_zeros (h : IsDigits whole) (hplaces : ∀ c ∈ places, c.isDigit)
    (front back : Nat) :
    numeralValue (numeral (List.replicate front '0' ++ whole) (places ++ List.replicate back '0')) =
      numeralValue (numeral whole places) := by
  have hplaces' : ∀ c ∈ places ++ List.replicate back '0', c.isDigit :=
    List.forall_mem_append.mpr ⟨hplaces, isDigit_of_mem_zeros⟩
  rw [numeralValue_numeral (h.zeros_append front) hplaces', numeralValue_numeral h hplaces,
    List.append_assoc, ofDigits_zeros_append, ← List.append_assoc, ofDigits_append_zeros,
    List.length_append, List.length_replicate, tenPow, tenPow, Nat.pow_eq, Nat.pow_eq, Nat.pow_add]
  push_cast
  exact mul_div_mul_right _ _ (by positivity)

/-! ## The double that is read -/

theorem code_ofDecimal (whole places : List Char) :
    code (ofDecimal whole places) = nearest (ofDigits (whole ++ places)) (tenPow places.length) :=
  code_ofCode (nearest_le_infinityCode _ _)

theorem code_ofDecimal_le (whole places : List Char) :
    code (ofDecimal whole places) ≤ infinityCode :=
  (code_ofDecimal whole places).trans_le (nearest_le_infinityCode _ _)

theorem isNegative_ofDecimal (whole places : List Char) :
    isNegative (ofDecimal whole places) = false :=
  isNegative_ofCode (nearest_le_infinityCode _ _)

/-- What is read from a numeral with the given value: the nearest double without a sign, if it is
finite, infinity from halfway above the largest double on, and zero up to half the least one. -/
structure IsReadAs (value : ℚ) (x : Float) : Prop where
  not_nan : x.isNaN = false
  unsigned : isNegative x = false
  isNearest : x.isInf = false → IsNearest value (code x)
  infinite_iff : x.isInf = true ↔ (2 ^ 1024 - 2 ^ 970 : ℚ) ≤ value
  zero_iff : x.toBits = 0 ↔ value ≤ 1 / 2 ^ 1075

theorem isReadAs_ofDecimal (h : IsDigits whole) (hplaces : ∀ c ∈ places, c.isDigit) :
    IsReadAs (numeralValue (numeral whole places)) (ofDecimal whole places) := by
  have hcode := code_ofDecimal whole places
  have hle := code_ofDecimal_le whole places
  have hden := tenPow_pos places.length
  obtain ⟨hnan, hinf, -⟩ := unpack_class (ofDecimal whole places)
  rw [numeralValue_numeral h hplaces]
  refine ⟨?_, isNegative_ofDecimal _ _, fun hfinite ↦ ?_, ?_, ?_⟩
  · rw [← Bool.not_eq_true, hnan]
    exact hle.not_gt
  · rw [← Bool.not_eq_true, hinf] at hfinite
    rw [hcode]
    exact (roundsTo_nearest hden (hcode ▸ hle.lt_of_ne hfinite)).isNearest
  · rw [hinf, hcode, nearest_eq_infinityCode_iff hden]
  · rw [toBits_eq_zero_iff (isNegative_ofDecimal _ _), hcode, nearest_eq_zero_iff hden]

section

variable {whole' places' : List Char}

theorem code_ofDecimal_mono (h : IsDigits whole) (hplaces : ∀ c ∈ places, c.isDigit)
    (h' : IsDigits whole') (hplaces' : ∀ c ∈ places', c.isDigit)
    (hle : numeralValue (numeral whole places) ≤ numeralValue (numeral whole' places')) :
    code (ofDecimal whole places) ≤ code (ofDecimal whole' places') := by
  rw [numeralValue_numeral h hplaces, numeralValue_numeral h' hplaces'] at hle
  rw [code_ofDecimal, code_ofDecimal]
  exact nearest_mono (tenPow_pos _) (tenPow_pos _) hle

/-- Numerals are read in the order of their values. -/
theorem ofDecimal_le (h : IsDigits whole) (hplaces : ∀ c ∈ places, c.isDigit)
    (h' : IsDigits whole') (hplaces' : ∀ c ∈ places', c.isDigit)
    (hle : numeralValue (numeral whole places) ≤ numeralValue (numeral whole' places')) :
    ofDecimal whole places ≤ ofDecimal whole' places' :=
  (le_iff_code_le (isNegative_ofDecimal _ _) (isNegative_ofDecimal _ _) (code_ofDecimal_le _ _)
    (code_ofDecimal_le _ _)).mpr (code_ofDecimal_mono h hplaces h' hplaces' hle)

/-- Numerals with the same value are read alike. -/
theorem ofDecimal_eq (h : IsDigits whole) (hplaces : ∀ c ∈ places, c.isDigit)
    (h' : IsDigits whole') (hplaces' : ∀ c ∈ places', c.isDigit)
    (heq : numeralValue (numeral whole places) = numeralValue (numeral whole' places')) :
    ofDecimal whole places = ofDecimal whole' places' := by
  apply eq_of_code_eq
  · exact (code_ofDecimal_mono h hplaces h' hplaces' heq.le).antisymm
      (code_ofDecimal_mono h' hplaces' h hplaces heq.ge)
  · rw [isNegative_ofDecimal, isNegative_ofDecimal]

end

end Lox.Number

namespace Lox

open Number
open Piece (numeral)

/-! ## Number tokens -/

theorem Kind.ofWord_ne_number (word : String) : Kind.ofWord word ≠ .number := by
  rw [Kind.ofWord]
  intro h
  split at h <;> cases h

/-- A token of a source other than the last one gives a lexeme. -/
theorem exists_piece_of_mem {source : String} {token : Token}
    (hmem : token ∈ (Scan.ofSource source).tokens) (hkind : token.kind ≠ .eof) :
    ∃ piece : Piece, piece.IsLexeme ∧ ∃ line, piece.token? line = some token := by
  rw [Scan.ofSource, Scan.tokens_ofText, List.mem_append, List.mem_singleton] at hmem
  rcases hmem with hmem | rfl
  · exact exists_lexeme_of_mem hmem
  · exact absurd rfl hkind

/-- The numeral that a number token was cut from. -/
structure Token.HasNumeral (token : Token) (whole places : List Char) : Prop where
  isDigits : IsDigits whole
  digits : ∀ c ∈ places, c.isDigit
  lexeme : token.lexeme.toList = numeral whole places
  literal : token.literal = some (.number (ofDecimal whole places))

theorem exists_hasNumeral {source : String} {token : Token}
    (hmem : token ∈ (Scan.ofSource source).tokens) (hkind : token.kind = .number) :
    ∃ whole places, token.HasNumeral whole places := by
  have hend : token.kind ≠ .eof := by
    rw [hkind]
    nofun
  obtain ⟨piece, hlexeme, line, htoken⟩ := exists_piece_of_mem hmem hend
  cases hlexeme with
  | blank | comment => cases htoken
  | symbol hsymbol =>
      cases htoken
      have hsymbols : ∀ entry ∈ Piece.symbols, entry.2 ≠ .number := by decide
      exact absurd hkind (hsymbols _ hsymbol)
  | string =>
      cases htoken
      cases hkind
  | @whole digits hne hdigits =>
      cases htoken
      exact ⟨digits, [], ⟨hne, hdigits⟩, by simp, String.toList_ofList, rfl⟩
  | @decimal digits places hne hdigits hneplaces hplaces =>
      cases htoken
      refine ⟨digits, places, ⟨hne, hdigits⟩, hplaces, ?_, rfl⟩
      rw [numeral_of_ne_nil hneplaces]
      exact String.toList_ofList
  | word =>
      cases htoken
      exact absurd hkind (Kind.ofWord_ne_number _)

/-- The literal of a number token is read from its lexeme, which is a positional numeral of any
length. Zeros in front of it and behind its point do not change the literal, and a greater value
never has a smaller literal. -/
theorem number_token_spec {source : String} {token : Token}
    (hmem : token ∈ (Scan.ofSource source).tokens) (hkind : token.kind = .number) :
    ∃ x, token.literal = some (.number x) ∧
      IsPositional token.lexeme.toList ∧ read? token.lexeme.toList = some x ∧
      IsReadAs (numeralValue token.lexeme.toList) x ∧
      ∀ (source' : String), ∀ token' ∈ (Scan.ofSource source').tokens, token'.kind = .number →
        ∃ x', token'.literal = some (.number x') ∧
          (numeralValue token.lexeme.toList ≤ numeralValue token'.lexeme.toList → x ≤ x') ∧
          ∀ whole places front back, IsDigits whole → (∀ c ∈ places, c.isDigit) →
            token.lexeme.toList = numeral whole places →
            token'.lexeme.toList =
              numeral (List.replicate front '0' ++ whole) (places ++ List.replicate back '0') →
            x = x' := by
  obtain ⟨whole, places, hnumeral⟩ := exists_hasNumeral hmem hkind
  obtain ⟨hwhole, hplaces, hlexeme, hliteral⟩ := hnumeral
  rw [hlexeme]
  refine ⟨_, hliteral, isPositional_numeral hwhole hplaces, read?_numeral hwhole hplaces,
    isReadAs_ofDecimal hwhole hplaces, fun source' token' hmem' hkind' ↦ ?_⟩
  obtain ⟨whole', places', hnumeral'⟩ := exists_hasNumeral hmem' hkind'
  obtain ⟨hwhole', hplaces', hlexeme', hliteral'⟩ := hnumeral'
  rw [hlexeme']
  refine ⟨_, hliteral', ofDecimal_le hwhole hplaces hwhole' hplaces', ?_⟩
  intro digits fraction front back hdigits hfraction heq heq'
  apply ofDecimal_eq hwhole hplaces hwhole' hplaces'
  rw [heq, heq', numeralValue_zeros hdigits hfraction]

/-- A numeral with zeros in front and behind. -/
theorem number_token_spec_padded :
    (Scan.ofSource "07.50").tokens =
      [⟨.number, "07.50", some (.number (ofDecimal ['0', '7'] ['5', '0'])), 1⟩, .endOfInput 1] ∧
    IsReadAs (numeralValue ['0', '7', '.', '5', '0']) (ofDecimal ['0', '7'] ['5', '0']) := by
  have htokens : (Scan.ofSource "07.50").tokens =
      [⟨.number, "07.50", some (.number (ofDecimal ['0', '7'] ['5', '0'])), 1⟩, .endOfInput 1] := by
    with_unfolding_all rfl
  have hmem : (⟨.number, "07.50", some (.number (ofDecimal ['0', '7'] ['5', '0'])), 1⟩ : Token) ∈
      (Scan.ofSource "07.50").tokens := by
    rw [htokens]
    exact List.mem_cons_self
  obtain ⟨x, hliteral, -, -, hread, -⟩ := number_token_spec hmem rfl
  obtain rfl := Literal.number.inj (Option.some.inj hliteral)
  exact ⟨htokens, hread⟩

end Lox
