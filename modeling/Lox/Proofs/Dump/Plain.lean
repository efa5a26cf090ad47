import Lox.Proofs.Dump.Form
import Lox.Proofs.Number.Numeral
import Lox.Proofs.Session.Diagnostics
import Lox.Proofs.Source.Division

/-!
# Plain tokens and values

Tokens as they are scanned, but for strings and infinite numbers. The lexeme of such a token says
its kind and its value, and it is a bare word, as is the text of a value that is no string.
-/

namespace Lox

open Form (IsBare)

namespace Piece

theorem lexeme_of_token? {piece : Piece} {line : Nat} {token : Token}
    (h : piece.token? line = some token) : token.lexeme.toList = piece.text := by
  rw [token?] at h
  split at h <;> cases h <;> exact String.toList_ofList

theorem token?_reline {piece : Piece} {line : Nat} {token : Token}
    (h : piece.token? line = some token) (f : Nat → Nat) :
    piece.token? (f line) = some (token.reline f) := by
  rw [token?] at h ⊢
  split at h <;> cases h <;> rfl

end Piece

/-! ## Tokens -/

namespace Token

/-- A token that scanning gives, and neither a string nor an infinite number. -/
structure IsPlain (token : Token) : Prop where
  scanned : ∃ piece : Piece, piece.IsLexeme ∧ ∃ line, piece.token? line = some token
  not_string : token.kind ≠ .string
  finite : ∀ x, token.literal = some (.number x) →
    Number.code x < Number.infinityCode ∧ Number.isNegative x = false

/-- The kinds of operators that trees have. -/
def operators : List Kind :=
  [.bang, .minus, .plus, .slash, .star, .bangEqual, .equalEqual, .greater, .greaterEqual, .less,
    .lessEqual]

/-- The lexemes of these operators. -/
def operatorTexts : List (List Char) :=
  [['!'], ['-'], ['+'], ['/'], ['*'], ['!', '='], ['=', '='], ['>'], ['>', '='], ['<'],
    ['<', '=']]

variable {token other : Token}

/-- The lexeme says all but the line. -/
theorem IsPlain.reline_eq (h : token.IsPlain) (hother : other.IsPlain)
    (heq : token.lexeme = other.lexeme) :
    token.reline (fun _ ↦ 0) = other.reline fun _ ↦ 0 := by
  obtain ⟨piece, hpiece, line, htoken⟩ := h.scanned
  obtain ⟨piece', hpiece', line', htoken'⟩ := hother.scanned
  have htext : piece.text = piece'.text := by
    rw [← Piece.lexeme_of_token? htoken, ← Piece.lexeme_of_token? htoken', heq]
  obtain rfl := hpiece.eq_of_text_eq hpiece' htext
  have hreline := Piece.token?_reline htoken fun _ ↦ 0
  rw [Piece.token?_reline htoken' fun _ ↦ 0] at hreline
  exact (Option.some.inj hreline).symm

/-- A plain token is a symbol, a number or a word. -/
theorem IsPlain.cases (h : token.IsPlain) :
    (token.lexeme.toList, token.kind) ∈ Piece.symbols ∧ token.literal = none ∨
      (token.kind = .number ∧ ∃ x, token.literal = some (.number x)) ∨
      token.kind = .ofWord token.lexeme ∧ token.literal = none ∧
        ∃ c rest, token.lexeme.toList = c :: rest ∧ Piece.startsWord c ∧
          ∀ x ∈ rest, Piece.continuesWord x := by
  obtain ⟨piece, hpiece, line, htoken⟩ := h.scanned
  have hlexeme := Piece.lexeme_of_token? htoken
  cases hpiece with
  | blank | comment => cases htoken
  | symbol hmem =>
      cases htoken
      refine .inl ⟨?_, rfl⟩
      rw [hlexeme]
      exact hmem
  | string =>
      cases htoken
      exact absurd rfl h.not_string
  | whole | decimal =>
      cases htoken
      exact .inr (.inl ⟨rfl, _, rfl⟩)
  | @word c rest hfirst hrest =>
      cases htoken
      exact .inr (.inr ⟨rfl, rfl, c, rest, hlexeme, Piece.startsWord_iff.mpr hfirst,
        fun x hx ↦ Piece.continuesWord_iff.mpr (hrest x hx)⟩)

theorem IsPlain.lexeme_of_operator (h : token.IsPlain) (hkind : token.kind ∈ operators) :
    token.lexeme.toList ∈ operatorTexts := by
  rcases h.cases with ⟨hmem, -⟩ | ⟨hnumber, -⟩ | ⟨hword, -⟩
  · have hsymbols : ∀ entry ∈ Piece.symbols, entry.2 ∈ operators → entry.1 ∈ operatorTexts := by
      decide
    exact hsymbols _ hmem hkind
  · rw [hnumber] at hkind
    exact absurd hkind (by decide)
  · rw [hword, Kind.ofWord] at hkind
    split at hkind
    · simp [operators] at hkind
    · exact absurd hkind (by decide)

/-- A name starts like a word and is not a keyword. -/
theorem IsPlain.lexeme_of_name (h : token.IsPlain) (hkind : token.kind = .identifier) :
    (∃ c rest, token.lexeme.toList = c :: rest ∧ Piece.startsWord c ∧
      ∀ x ∈ rest, Piece.continuesWord x) ∧
      ∀ word : Keyword, token.lexeme ≠ word.text := by
  rcases h.cases with ⟨hmem, -⟩ | ⟨hnumber, -⟩ | ⟨hword, -, hchars⟩
  · have hsymbols : ∀ entry ∈ Piece.symbols, entry.2 ≠ .identifier := by decide
    exact absurd hkind (hsymbols _ hmem)
  · rw [hnumber] at hkind
    cases hkind
  · refine ⟨hchars, fun word heq ↦ ?_⟩
    rw [hword, heq, Piece.ofWord_eq_keyword] at hkind
    cases hkind

theorem IsPlain.lexeme_of_keyword (h : token.IsPlain) {word : Keyword}
    (hkind : token.kind = .keyword word) : token.lexeme = word.text := by
  rcases h.cases with ⟨hmem, -⟩ | ⟨hnumber, -⟩ | ⟨hword, -⟩
  · have hsymbols : ∀ entry ∈ Piece.symbols, ∀ word, entry.2 ≠ .keyword word := by
      simp [Piece.symbols]
    exact absurd hkind (hsymbols _ hmem word)
  · rw [hnumber] at hkind
    cases hkind
  · rw [hword, Kind.ofWord] at hkind
    split at hkind
    next found hfound =>
      cases hkind
      exact (Keyword.ofText?_eq_some_iff.mp hfound).symm
    next => cases hkind

theorem IsPlain.exists_number (h : token.IsPlain) {value : Literal}
    (hvalue : token.literal = some value) :
    ∃ x, value = .number x ∧ Number.code x < Number.infinityCode ∧
      Number.isNegative x = false := by
  rcases h.cases with ⟨-, hnone⟩ | ⟨-, x, hnumber⟩ | ⟨-, hnone, -⟩
  · rw [hnone] at hvalue
    cases hvalue
  · rw [hnumber] at hvalue
    cases hvalue
    exact ⟨x, rfl, h.finite x hnumber⟩
  · rw [hnone] at hvalue
    cases hvalue

theorem not_separator_of_continuesWord {c : Char} (h : Piece.continuesWord c) :
    Form.isSeparator c = false := by
  by_contra hseparator
  rw [Bool.not_eq_false, Form.isSeparator_iff] at hseparator
  rcases hseparator with rfl | rfl | rfl <;> exact absurd h (by decide)

theorem IsPlain.isBare_name (h : token.IsPlain) (hkind : token.kind = .identifier) :
    IsBare token.lexeme.toList := by
  obtain ⟨⟨c, rest, hlexeme, hfirst, hrest⟩, -⟩ := h.lexeme_of_name hkind
  rw [hlexeme]
  refine ⟨List.cons_ne_nil _ _, fun x hx ↦ not_separator_of_continuesWord ?_⟩
  rcases List.mem_cons.mp hx with rfl | hx
  · rw [Piece.continuesWord, hfirst, Bool.true_or]
  · exact hrest x hx

theorem IsPlain.isBare_operator (h : token.IsPlain) (hkind : token.kind ∈ operators) :
    IsBare token.lexeme.toList := by
  have hmem := h.lexeme_of_operator hkind
  generalize token.lexeme.toList = text at hmem
  simp only [operatorTexts, List.mem_cons, List.not_mem_nil, or_false] at hmem
  rcases hmem with rfl | rfl | rfl | rfl | rfl | rfl | rfl | rfl | rfl | rfl | rfl <;>
    exact ⟨List.cons_ne_nil _ _, by simp [Form.isSeparator]⟩

/-- Operators are no heads of their own. -/
theorem IsPlain.operator_ne (h : token.IsPlain) (hkind : token.kind ∈ operators) :
    token.lexeme.toList ≠ ['g', 'r', 'o', 'u', 'p'] ∧ token.lexeme.toList ≠ ['='] := by
  have hmem := h.lexeme_of_operator hkind
  constructor <;> intro heq <;> rw [heq] at hmem <;> exact absurd hmem (by decide)

end Token

/-! ## Values -/

namespace Value

/-- Values that number literals and the words for values stand for. -/
inductive IsPlain : Value → Prop
  | nil : IsPlain nil
  | boolean (b : Bool) : IsPlain (boolean b)
  | number {x : Float} (hfinite : Number.code x < Number.infinityCode)
      (hsign : Number.isNegative x = false) : IsPlain (number x)

variable {value other : Value}

/-- Numbers without a sign are shown as numerals that start with a digit. -/
theorem text_numeral {x : Float} (hfinite : Number.code x < Number.infinityCode)
    (hsign : Number.isNegative x = false) :
    ∃ c rest, (Value.number x).text.toList = c :: rest ∧ c.isDigit ∧
      (c :: rest).all Number.Layout.isNumeral := by
  obtain ⟨-, hall, c, rest, htext, hdigit⟩ := magnitude_spec hfinite
  rw [htext] at hall
  refine ⟨c, rest, ?_, hdigit, hall⟩
  rw [text_number hfinite hsign, String.toList_ofList, htext]

/-- The text of a plain value is a keyword or a numeral. -/
theorem IsPlain.text_eq_or (h : value.IsPlain) :
    (∃ word : Keyword, value.text = word.text) ∨
      ∃ c rest, value.text.toList = c :: rest ∧ c.isDigit ∧
        (c :: rest).all Number.Layout.isNumeral := by
  cases h with
  | nil => exact .inl ⟨.nilWord, rfl⟩
  | boolean b =>
      cases b
      · exact .inl ⟨.falseWord, rfl⟩
      · exact .inl ⟨.trueWord, rfl⟩
  | number hfinite hsign => exact .inr (text_numeral hfinite hsign)

theorem isBare_keyword (word : Keyword) : IsBare word.text.toList := by
  cases word <;> exact ⟨by simp [Keyword.text], by simp [Keyword.text, Form.isSeparator]⟩

theorem not_separator_of_isNumeral {c : Char} (h : Number.Layout.isNumeral c) :
    Form.isSeparator c = false := by
  by_contra hseparator
  rw [Bool.not_eq_false, Form.isSeparator_iff] at hseparator
  rcases hseparator with rfl | rfl | rfl <;> exact absurd h (by decide)

theorem IsPlain.isBare_text (h : value.IsPlain) : IsBare value.text.toList := by
  rcases h.text_eq_or with ⟨word, htext⟩ | ⟨c, rest, htext, -, hall⟩
  · rw [htext]
    exact isBare_keyword word
  · rw [htext]
    exact ⟨List.cons_ne_nil _ _, fun x hx ↦
      not_separator_of_isNumeral (List.all_eq_true.mp hall x hx)⟩

theorem not_digit_of_keyword (word : Keyword) {c : Char} {rest : List Char}
    (h : word.text.toList = c :: rest) : c.isDigit = false := by
  have hhead : ∀ c ∈ word.text.toList.head?, c.isDigit = false := by
    cases word <;> simp [Keyword.text]
  exact hhead c (by rw [h]; rfl)

/-- No name is the text of a plain value. -/
theorem IsPlain.text_ne_name {token : Token} (h : value.IsPlain) (htoken : token.IsPlain)
    (hkind : token.kind = .identifier) : value.text.toList ≠ token.lexeme.toList := by
  obtain ⟨⟨d, tail, hlexeme, hfirst, -⟩, hword⟩ := htoken.lexeme_of_name hkind
  intro heq
  rcases h.text_eq_or with ⟨word, htext⟩ | ⟨c, rest, htext, hdigit, -⟩
  · exact hword word (String.toList_inj.mp (heq.symm.trans (congrArg String.toList htext)))
  · rw [htext, hlexeme] at heq
    cases heq
    rw [Piece.not_digit_of_startsWord hfirst] at hdigit
    cases hdigit

theorem text_ne_keyword {x : Float} (hfinite : Number.code x < Number.infinityCode)
    (hsign : Number.isNegative x = false) (word : Keyword) :
    (Value.number x).text ≠ word.text := by
  obtain ⟨c, rest, htext, hdigit, -⟩ := text_numeral hfinite hsign
  intro hword
  rw [hword] at htext
  rw [not_digit_of_keyword word htext] at hdigit
  cases hdigit

theorem IsPlain.eq_of_text_eq (h : value.IsPlain) (hother : other.IsPlain)
    (heq : value.text = other.text) : value = other := by
  cases h with
  | nil =>
      cases hother with
      | nil => rfl
      | boolean b => cases b <;> exact absurd heq (by decide)
      | number hfinite hsign =>
          exact absurd heq.symm (text_ne_keyword hfinite hsign .nilWord)
  | boolean b =>
      cases hother with
      | nil => cases b <;> exact absurd heq (by decide)
      | boolean b' =>
          match b, b' with
          | true, true | false, false => rfl
          | true, false | false, true => exact absurd heq (by decide)
      | number hfinite hsign =>
          have hne := text_ne_keyword hfinite hsign
          cases b
          · exact absurd heq.symm (hne .falseWord)
          · exact absurd heq.symm (hne .trueWord)
  | number hfinite hsign =>
      have hne := text_ne_keyword hfinite hsign
      cases hother with
      | nil => exact absurd heq (hne .nilWord)
      | boolean b =>
          cases b
          · exact absurd heq (hne .falseWord)
          · exact absurd heq (hne .trueWord)
      | number hfinite' hsign' =>
          rw [eq_of_text_eq hfinite.le hfinite'.le heq]

end Value

end Lox
