import Lox.Proofs.Source.Lines

/-!
# Joining sources

A line break behind a source ends its last piece, unless that is a string without its closing
quote. So the pieces of two sources on different lines are those of the one and those of the other,
and only the line numbers of the second are larger.
-/

namespace Lox

/-! ## Runs of characters -/

theorem takeWhile_append_cons {p : Char → Bool} {x : Char} (h : p x = false)
    (front rest : List Char) : (front ++ x :: rest).takeWhile p = front.takeWhile p := by
  induction front with
  | nil => simp [h]
  | cons c front ih => by_cases hc : p c <;> simp [hc, ih]

theorem dropWhile_append_cons {p : Char → Bool} {x : Char} (h : p x = false)
    (front rest : List Char) :
    (front ++ x :: rest).dropWhile p = front.dropWhile p ++ x :: rest := by
  induction front with
  | nil => simp [h]
  | cons c front ih => by_cases hc : p c <;> simp [hc, ih]

namespace Piece

/-! ## Cutting in front of a blank -/

variable {x : Char}

theorem not_digit_of_blank (h : isBlank x) : x.isDigit = false := by
  simp only [isBlank, Bool.or_eq_true, beq_iff_eq] at h
  rcases h with ((rfl | rfl) | rfl) | rfl <;> decide

theorem not_continuesWord_of_blank (h : isBlank x) : continuesWord x = false := by
  simp only [isBlank, Bool.or_eq_true, beq_iff_eq] at h
  rcases h with ((rfl | rfl) | rfl) | rfl <;> decide

theorem ne_of_blank {c : Char} (h : isBlank x) (hc : isBlank c = false) : x ≠ c := by
  rintro rfl
  simp [h] at hc

theorem fraction_append (h : isBlank x) (front rest : List Char) :
    fraction (front ++ x :: rest) = ((fraction front).1, (fraction front).2 ++ x :: rest) := by
  match front with
  | [] =>
      have hdot : x ≠ '.' := ne_of_blank h (by decide)
      simp [fraction, hdot]
  | [c] =>
      by_cases hc : c = '.'
      · simp [fraction, hc, not_digit_of_blank h]
      · simp [fraction, hc]
  | c :: d :: front =>
      by_cases hc : c = '.'
      · subst hc
        by_cases hd : d.isDigit
        · simp [fraction, hd, takeWhile_append_cons (not_digit_of_blank h),
            dropWhile_append_cons (not_digit_of_blank h)]
        · simp [fraction, hd]
      · simp [fraction, hc]

theorem cutString_append (front rest : List Char) (h : (cutString front).1.role ≠ .unterminated) :
    cutString (front ++ rest) = ((cutString front).1, (cutString front).2 ++ rest) := by
  unfold cutString at *
  cases hdrop : front.dropWhile (· != '"') with
  | nil => exact absurd (by simp [hdrop]) h
  | cons quote after =>
      have hlength := congrArg List.length
        (List.takeWhile_append_dropWhile (p := (· != '"')) (l := front))
      rw [hdrop, List.length_append, List.length_cons] at hlength
      have htake : (front ++ rest).takeWhile (· != '"') = front.takeWhile (· != '"') := by
        rw [List.takeWhile_append, if_neg (by omega)]
      simp only [htake, List.dropWhile_append, hdrop, List.isEmpty_cons, Bool.false_eq_true,
        ↓reduceIte, List.cons_append]

theorem cutSymbol_append (h : isBlank x) (c : Char) (front rest : List Char) :
    cutSymbol c (front ++ x :: rest) =
      ((cutSymbol c front).1, (cutSymbol c front).2 ++ x :: rest) := by
  have hequal : x ≠ '=' := ne_of_blank h (by decide)
  cases front with
  | nil => cases hw : withEqual c <;> cases hs : single c <;> simp [cutSymbol, hw, hs, hequal]
  | cons d front =>
      by_cases hd : d = '='
      · subst hd
        cases hw : withEqual c <;> cases hs : single c <;> simp [cutSymbol, hw, hs]
      · cases hw : withEqual c <;> cases hs : single c <;> simp [cutSymbol, hw, hs, hd]

/-- A blank ends the piece in front of it, save in a string and in a comment. -/
theorem cut_append (h : isBlank x) (c : Char) (front rest : List Char)
    (hstring : (cut c front).1.role ≠ .unterminated)
    (hcomment : (cut c front).1.role = .comment → x = '\n') :
    cut c (front ++ x :: rest) = ((cut c front).1, (cut c front).2 ++ x :: rest) := by
  by_cases hblank : isBlank c
  · simp [cut, hblank]
  by_cases hdigit : c.isDigit
  · simp [cut, hblank, hdigit, cutNumber, takeWhile_append_cons (not_digit_of_blank h),
      dropWhile_append_cons (not_digit_of_blank h), fraction_append h]
  by_cases hword : startsWord c
  · simp [cut, hblank, hdigit, hword, cutWord, takeWhile_append_cons (not_continuesWord_of_blank h),
      dropWhile_append_cons (not_continuesWord_of_blank h)]
  by_cases hquote : c = '"'
  · subst hquote
    exact cutString_append front (x :: rest) hstring
  simp only [cut, hblank, hdigit, hword, beq_iff_eq, hquote, ↓reduceIte, Bool.false_eq_true]
    at hcomment ⊢
  by_cases hslash : c = '/'
  · subst hslash
    cases front with
    | nil =>
        have hx : x ≠ '/' := ne_of_blank h (by decide)
        simpa [hx] using cutSymbol_append h '/' [] rest
    | cons d front =>
        by_cases hd : d = '/'
        · subst hd
          obtain rfl : x = '\n' := hcomment rfl
          simp [cutComment, takeWhile_append_cons, dropWhile_append_cons]
        · simpa [hd] using cutSymbol_append h '/' (d :: front) rest
  · simpa [hslash] using cutSymbol_append h c front rest

/-- The pieces of two texts on different lines. -/
theorem ofText_append_newline (front rest : List Char)
    (h : ∀ piece ∈ ofText front, piece.role ≠ .unterminated) :
    ofText (front ++ '\n' :: rest) = ofText front ++ ⟨.blank, ['\n']⟩ :: ofText rest := by
  induction front using text_induction with
  | nil =>
      rw [List.nil_append, ofText_cons, ofText_nil]
      rfl
  | cut c front ih =>
      rw [ofText_cons] at h
      have hcut := cut_append (x := '\n') rfl c front rest (h _ List.mem_cons_self) fun _ ↦ rfl
      have hrest := ih fun piece hpiece ↦ h piece (List.mem_cons_of_mem _ hpiece)
      rw [List.cons_append, ofText_cons, ofText_cons, hcut, List.cons_append, hrest]

theorem tokensFrom_append_newline (front rest : List Char)
    (h : ∀ piece ∈ ofText front, piece.role ≠ .unterminated) :
    tokensFrom 1 (ofText (front ++ '\n' :: rest)) =
      tokensFrom 1 (ofText front) ++
        (tokensFrom 1 (ofText rest)).map (Token.reline (· + (front.count '\n' + 1))) := by
  have hblank (line : Nat) : tokensFrom line (⟨.blank, ['\n']⟩ :: ofText rest) =
      tokensFrom (line + 1) (ofText rest) := rfl
  rw [ofText_append_newline front rest h, tokensFrom_append, hblank, newlinesOfAll_ofText,
    Nat.add_assoc, tokensFrom_add]

theorem errorsFrom_append_newline (front rest : List Char)
    (h : ∀ piece ∈ ofText front, piece.role ≠ .unterminated) :
    errorsFrom 1 (ofText (front ++ '\n' :: rest)) =
      errorsFrom 1 (ofText front) ++
        (errorsFrom 1 (ofText rest)).map (ScanError.reline (· + (front.count '\n' + 1))) := by
  have hblank (line : Nat) : errorsFrom line (⟨.blank, ['\n']⟩ :: ofText rest) =
      errorsFrom (line + 1) (ofText rest) := rfl
  rw [ofText_append_newline front rest h, errorsFrom_append, hblank, newlinesOfAll_ofText,
    Nat.add_assoc, errorsFrom_add]

end Piece

end Lox
