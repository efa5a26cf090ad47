import Lox.Token.Kind

/-!
# Pieces of source text

Source text is cut from left to right into pieces, each the longest run of characters that forms
one. Nothing is lost: the texts of the pieces join to the source.
-/

namespace Lox

inductive Piece.Role where
  | blank
  | comment
  | symbol (kind : Kind)
  | word
  /-- Digits, and the digits after a decimal point. -/
  | number (whole fraction : List Char)
  | string (contents : List Char)
  /-- A string without its closing quote. -/
  | unterminated
  | unexpected

structure Piece where
  role : Piece.Role
  text : List Char

namespace Piece

def isBlank (c : Char) : Bool := c == ' ' || c == '\t' || c == '\r' || c == '\n'

/-- Names start with an ASCII letter or an underscore. -/
def startsWord (c : Char) : Bool := c.isAlpha || c == '_'

def continuesWord (c : Char) : Bool := startsWord c || c.isDigit

/-- Symbols of one character. -/
def single : Char → Option Kind
  | '(' => some .leftParen
  | ')' => some .rightParen
  | '{' => some .leftBrace
  | '}' => some .rightBrace
  | ',' => some .comma
  | '.' => some .dot
  | '-' => some .minus
  | '+' => some .plus
  | ';' => some .semicolon
  | '/' => some .slash
  | '*' => some .star
  | '!' => some .bang
  | '=' => some .equal
  | '>' => some .greater
  | '<' => some .less
  | _ => none

/-- Symbols of a character and an equals sign. -/
def withEqual : Char → Option Kind
  | '!' => some .bangEqual
  | '=' => some .equalEqual
  | '>' => some .greaterEqual
  | '<' => some .lessEqual
  | _ => none

/-- The fraction that follows the digits of a number, and what is left. A point without a digit
behind it belongs to no number. -/
def fraction : List Char → List Char × List Char
  | '.' :: d :: rest =>
      if d.isDigit then (d :: rest.takeWhile Char.isDigit, rest.dropWhile Char.isDigit)
      else ([], '.' :: d :: rest)
  | rest => ([], rest)

def numeral (whole fraction : List Char) : List Char :=
  if fraction.isEmpty then whole else whole ++ '.' :: fraction

def cutNumber (c : Char) (rest : List Char) : Piece × List Char :=
  let whole := c :: rest.takeWhile Char.isDigit
  let tail := fraction (rest.dropWhile Char.isDigit)
  (⟨.number whole tail.1, numeral whole tail.1⟩, tail.2)

def cutWord (c : Char) (rest : List Char) : Piece × List Char :=
  (⟨.word, c :: rest.takeWhile continuesWord⟩, rest.dropWhile continuesWord)

/-- A comment goes on to the end of its line. -/
def cutComment (rest : List Char) : Piece × List Char :=
  (⟨.comment, '/' :: '/' :: rest.takeWhile (· != '\n')⟩, rest.dropWhile (· != '\n'))

/-- A string goes on to the next quote; it may span lines. -/
def cutString (rest : List Char) : Piece × List Char :=
  let contents := rest.takeWhile (· != '"')
  match rest.dropWhile (· != '"') with
  | [] => (⟨.unterminated, '"' :: contents⟩, [])
  | quote :: after => (⟨.string contents, '"' :: (contents ++ [quote])⟩, after)

def cutSymbol (c : Char) (rest : List Char) : Piece × List Char :=
  match withEqual c, rest with
  | some kind, '=' :: after => (⟨.symbol kind, [c, '=']⟩, after)
  | _, _ =>
      match single c with
      | some kind => (⟨.symbol kind, [c]⟩, rest)
      | none => (⟨.unexpected, [c]⟩, rest)

/-- The first piece of `c :: rest`, and what is left. -/
def cut (c : Char) (rest : List Char) : Piece × List Char :=
  if isBlank c then (⟨.blank, [c]⟩, rest)
  else if c.isDigit then cutNumber c rest
  else if startsWord c then cutWord c rest
  else if c == '"' then cutString rest
  else
    match c, rest with
    | '/', '/' :: after => cutComment after
    | _, _ => cutSymbol c rest

/-! ## Nothing is lost -/

theorem numeral_append_fraction (whole rest : List Char) :
    numeral whole (fraction rest).1 ++ (fraction rest).2 = whole ++ rest := by
  unfold fraction
  split
  · split
    · simp [numeral]
    · simp [numeral]
  · simp [numeral]

theorem cutNumber_text (c : Char) (rest : List Char) :
    (cutNumber c rest).1.text ++ (cutNumber c rest).2 = c :: rest := by
  simp [cutNumber, numeral_append_fraction]

theorem cutWord_text (c : Char) (rest : List Char) :
    (cutWord c rest).1.text ++ (cutWord c rest).2 = c :: rest := by
  simp [cutWord]

theorem cutComment_text (rest : List Char) :
    (cutComment rest).1.text ++ (cutComment rest).2 = '/' :: '/' :: rest := by
  simp [cutComment]

theorem cutString_text (rest : List Char) :
    (cutString rest).1.text ++ (cutString rest).2 = '"' :: rest := by
  have hsplit := List.takeWhile_append_dropWhile (p := (· != '"')) (l := rest)
  unfold cutString
  dsimp only
  split
  next h => simpa [h] using hsplit
  next h => simpa [h] using hsplit

theorem cutSymbol_text (c : Char) (rest : List Char) :
    (cutSymbol c rest).1.text ++ (cutSymbol c rest).2 = c :: rest := by
  unfold cutSymbol
  split
  · simp
  · split <;> simp

/-- A piece and what is left make up the text that was cut. -/
theorem cut_text (c : Char) (rest : List Char) :
    (cut c rest).1.text ++ (cut c rest).2 = c :: rest := by
  unfold cut
  split
  · simp
  split
  · exact cutNumber_text c rest
  split
  · exact cutWord_text c rest
  split
  next h => simpa [eq_of_beq h] using cutString_text rest
  · split
    · exact cutComment_text _
    · exact cutSymbol_text c rest

theorem fraction_length_le (rest : List Char) : (fraction rest).2.length ≤ rest.length := by
  have h := congrArg List.length (numeral_append_fraction [] rest)
  simp at h
  omega

theorem dropWhile_length_le (p : Char → Bool) (rest : List Char) :
    (rest.dropWhile p).length ≤ rest.length :=
  (List.dropWhile_suffix p).length_le

theorem cutString_length_le (rest : List Char) : (cutString rest).2.length ≤ rest.length := by
  have hle := dropWhile_length_le (· != '"') rest
  unfold cutString
  dsimp only
  split
  next h => exact Nat.zero_le _
  next h =>
    rw [h] at hle
    exact Nat.le_of_succ_le hle

theorem cutSymbol_length_le (c : Char) (rest : List Char) :
    (cutSymbol c rest).2.length ≤ rest.length := by
  unfold cutSymbol
  split
  · exact Nat.le_succ _
  · split <;> exact Nat.le_refl _

/-- What is left is shorter than what was cut. -/
theorem cut_length_le (c : Char) (rest : List Char) : (cut c rest).2.length ≤ rest.length := by
  unfold cut
  split
  · exact Nat.le_refl _
  split
  · exact Nat.le_trans (fraction_length_le _) (dropWhile_length_le _ _)
  split
  · exact dropWhile_length_le _ _
  split
  · exact cutString_length_le rest
  · split
    · exact Nat.le_succ_of_le (dropWhile_length_le _ _)
    · exact cutSymbol_length_le c rest

/-! ## Cutting a whole text -/

/-- The pieces of a text, in front of which stand the given ones, last first. -/
def cutAll (earlier : List Piece) : List Char → List Piece
  | [] => earlier.reverse
  | c :: rest => cutAll ((cut c rest).1 :: earlier) (cut c rest).2
termination_by text => text.length
decreasing_by
  simp only [List.length_cons]
  exact Nat.lt_succ_of_le (cut_length_le c rest)

def ofText (text : List Char) : List Piece := cutAll [] text

theorem cutAll_eq (earlier : List Piece) (text : List Char) :
    cutAll earlier text = earlier.reverse ++ ofText text := by
  suffices h : ∀ n, ∀ text : List Char, text.length ≤ n → ∀ earlier,
      cutAll earlier text = earlier.reverse ++ cutAll [] text from
    h _ _ (Nat.le_refl _) _
  intro n
  induction n with
  | zero =>
      intro text h earlier
      have : text = [] := List.eq_nil_of_length_eq_zero (Nat.le_zero.mp h)
      subst this
      simp [cutAll]
  | succ n ih =>
      intro text h earlier
      cases text with
      | nil => simp [cutAll]
      | cons c rest =>
          have hle : (cut c rest).2.length ≤ n := by
            have := cut_length_le c rest
            simp at h
            omega
          rw [cutAll, cutAll, ih _ hle, ih _ hle [_]]
          simp

@[simp] theorem ofText_nil : ofText [] = [] := by simp [ofText, cutAll]

theorem ofText_cons (c : Char) (rest : List Char) :
    ofText (c :: rest) = (cut c rest).1 :: ofText (cut c rest).2 := by
  rw [ofText, cutAll, cutAll_eq]
  simp

/-- The texts of the pieces join to the source. -/
theorem flatMap_text_ofText (text : List Char) : (ofText text).flatMap Piece.text = text := by
  suffices h : ∀ n, ∀ text : List Char, text.length ≤ n →
      (ofText text).flatMap Piece.text = text from h _ _ (Nat.le_refl _)
  intro n
  induction n with
  | zero =>
      intro text h
      have : text = [] := List.eq_nil_of_length_eq_zero (Nat.le_zero.mp h)
      subst this
      simp
  | succ n ih =>
      intro text h
      cases text with
      | nil => simp
      | cons c rest =>
          have hle : (cut c rest).2.length ≤ n := by
            have := cut_length_le c rest
            simp at h
            omega
          rw [ofText_cons, List.flatMap_cons, ih _ hle, cut_text]

end Piece

end Lox
