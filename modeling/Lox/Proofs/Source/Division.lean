import Lox.Proofs.Source.Lexeme

/-!
# Division into longest lexemes

A text divides from the left into pieces, each the longest lexeme in front of what is left. Where
no lexeme stands in front, an open string takes all that is left and any other character stands
alone. Scanning finds the only division of a source, and gives what its pieces denote.
-/

namespace Lox

namespace Piece

theorem IsLexeme.text_ne_nil {piece : Piece} (h : piece.IsLexeme) : piece.text ≠ [] := by
  cases h with
  | symbol hmem =>
      rcases mem_symbols_iff.mp hmem with ⟨c, rfl, -⟩ | ⟨c, rfl, -⟩ <;> exact List.cons_ne_nil _ _
  | whole hne => exact hne
  | decimal => simp
  | blank | comment | string | word => exact List.cons_ne_nil _ _

/-- No text lies in two classes. -/
theorem IsLexeme.eq_of_text_eq {piece other : Piece} (h : piece.IsLexeme) (hother : other.IsLexeme)
    (htext : piece.text = other.text) : piece = other := by
  obtain ⟨c, rest, hcons⟩ := List.exists_cons_of_ne_nil h.text_ne_nil
  have hcut := h.cut_text hcons
  rw [hother.cut_text (htext ▸ hcons)] at hcut
  exact (congrArg Prod.fst hcut).symm

/-! ## Divisions -/

/-- A piece is the longest lexeme in front of a text. -/
structure Longest (piece : Piece) (text : List Char) : Prop where
  isLexeme : piece.IsLexeme
  leads : piece.text <+: text
  length_le : ∀ other : Piece, other.IsLexeme → other.text <+: text →
    other.text.length ≤ piece.text.length

/-- No lexeme stands in front of a text. -/
def Stuck (text : List Char) : Prop := ∀ piece : Piece, piece.IsLexeme → ¬ piece.text <+: text

/-- The division of a text from the left. -/
inductive Division : List Char → List Piece → Prop
  | nil : Division [] []
  | lexeme {piece : Piece} {rest : List Char} {pieces : List Piece}
      (h : piece.Longest (piece.text ++ rest)) (hrest : Division rest pieces) :
      Division (piece.text ++ rest) (piece :: pieces)
  | unterminated {rest : List Char} (h : Stuck ('"' :: rest)) :
      Division ('"' :: rest) [⟨.unterminated, '"' :: rest⟩]
  | unexpected {c : Char} {rest : List Char} {pieces : List Piece} (hc : c ≠ '"')
      (h : Stuck (c :: rest)) (hrest : Division rest pieces) :
      Division (c :: rest) (⟨.unexpected, [c]⟩ :: pieces)

theorem Longest.not_stuck {piece : Piece} {text : List Char} (h : piece.Longest text) :
    ¬ Stuck text :=
  fun hstuck ↦ hstuck piece h.isLexeme h.leads

theorem Longest.eq {piece other : Piece} {text : List Char} (h : piece.Longest text)
    (hother : other.Longest text) : piece = other := by
  have hle := hother.length_le piece h.isLexeme h.leads
  have hge := h.length_le other hother.isLexeme hother.leads
  have htext : piece.text = other.text :=
    (List.prefix_of_prefix_length_le h.leads hother.leads hle).eq_of_length (Nat.le_antisymm hle hge)
  exact h.isLexeme.eq_of_text_eq hother.isLexeme htext

theorem Division.eq {text : List Char} {pieces others : List Piece} (h : Division text pieces)
    (hothers : Division text others) : others = pieces := by
  induction h generalizing others with
  | nil =>
      generalize htext : ([] : List Char) = text at hothers
      cases hothers with
      | nil => rfl
      | lexeme hlongest =>
          exact absurd (List.append_eq_nil_iff.mp htext.symm).1 hlongest.isLexeme.text_ne_nil
      | unterminated | unexpected => cases htext
  | @lexeme piece rest pieces hlongest hrest ih =>
      generalize htext : piece.text ++ rest = text at hlongest hothers
      cases hothers with
      | nil =>
          exact absurd (List.append_eq_nil_iff.mp htext).1 hlongest.isLexeme.text_ne_nil
      | lexeme hother hafter =>
          obtain rfl := hlongest.eq hother
          obtain rfl := List.append_cancel_left htext
          rw [ih hafter]
      | unterminated hstuck => exact absurd hstuck hlongest.not_stuck
      | unexpected hc hstuck => exact absurd hstuck hlongest.not_stuck
  | @unterminated rest hstuck =>
      generalize htext : '"' :: rest = text at hstuck hothers
      cases hothers with
      | nil => cases htext
      | lexeme hlongest => exact absurd hstuck hlongest.not_stuck
      | unterminated =>
          obtain rfl := (List.cons.inj htext).2
          rfl
      | unexpected hc => exact absurd (List.cons.inj htext).1.symm hc
  | @unexpected c rest pieces hc hstuck hrest ih =>
      generalize htext : c :: rest = text at hstuck hothers
      cases hothers with
      | nil => cases htext
      | lexeme hlongest => exact absurd hstuck hlongest.not_stuck
      | unterminated => exact absurd (List.cons.inj htext).1 hc
      | unexpected _ _ hafter =>
          obtain ⟨rfl, rfl⟩ := List.cons.inj htext
          rw [ih hafter]

theorem cut_longest {c : Char} {rest : List Char} (h : (cut c rest).1.IsLexeme) :
    (cut c rest).1.Longest (c :: rest) := by
  refine ⟨h, ⟨(cut c rest).2, cut_text c rest⟩, ?_⟩
  rintro other hother ⟨after, hafter⟩
  exact (hother.cut_extends hafter.symm).text.length_le

theorem stuck_of_fault {c : Char} {rest : List Char} (h : (cut c rest).1.fault? ≠ none) :
    Stuck (c :: rest) := by
  rintro piece hpiece ⟨after, hafter⟩
  exact h (hpiece.cut_extends hafter.symm).fault

theorem ofText_division (text : List Char) : Division text (ofText text) := by
  induction text using text_induction with
  | nil =>
      rw [ofText_nil]
      exact .nil
  | cut c rest ih =>
      rw [ofText_cons]
      rcases cut_isLexeme_or c rest with h | ⟨rfl, hcut⟩ | ⟨hc, hcut⟩
      · have hlongest := cut_longest h
        rw [← cut_text c rest] at hlongest ⊢
        exact .lexeme hlongest ih
      · have hstuck : Stuck ('"' :: rest) := stuck_of_fault (by simp [hcut, fault?])
        rw [hcut, ofText_nil]
        exact .unterminated hstuck
      · have hstuck : Stuck (c :: rest) := stuck_of_fault (by simp [hcut, fault?])
        rw [hcut] at ih ⊢
        exact .unexpected hc hstuck ih

/-! ## What pieces denote -/

/-- The kind and the value of the token that a piece gives. -/
inductive Denotes : Piece → Kind → Option Literal → Prop
  | symbol (kind : Kind) (text : List Char) : Denotes ⟨.symbol kind, text⟩ kind none
  | keyword (word : Keyword) : Denotes ⟨.word, word.text.toList⟩ (.keyword word) none
  | name {text : List Char} (h : ∀ word : Keyword, text ≠ word.text.toList) :
      Denotes ⟨.word, text⟩ .identifier none
  | number (whole fraction text : List Char) :
      Denotes ⟨.number whole fraction, text⟩ .number
        (some (.number (Number.ofDecimal whole fraction)))
  | string (contents text : List Char) :
      Denotes ⟨.string contents, text⟩ .string (some (.string (String.ofList contents)))

/-- The tokens and errors of pieces, the first of which starts on the given line. A token stands
on the line on which its text ends. -/
inductive Gives : Nat → List Piece → List Token → List ScanError → Prop
  | nil (line : Nat) : Gives line [] [] []
  | silent {line : Nat} {piece : Piece} {pieces : List Piece} {tokens : List Token}
      {errors : List ScanError} (h : piece.role = .blank ∨ piece.role = .comment)
      (hrest : Gives (line + piece.text.count '\n') pieces tokens errors) :
      Gives line (piece :: pieces) tokens errors
  | token {line : Nat} {piece : Piece} {pieces : List Piece} {tokens : List Token}
      {errors : List ScanError} {kind : Kind} {literal : Option Literal}
      (h : piece.Denotes kind literal)
      (hrest : Gives (line + piece.text.count '\n') pieces tokens errors) :
      Gives line (piece :: pieces)
        (⟨kind, String.ofList piece.text, literal, line + piece.text.count '\n'⟩ :: tokens) errors
  | error {line : Nat} {piece : Piece} {pieces : List Piece} {tokens : List Token}
      {errors : List ScanError} {error : ScanError}
      (h : piece.role = .unterminated ∧ error.fault.message = "Unterminated string." ∨
        piece.role = .unexpected ∧ error.fault.message = "Unexpected character.")
      (hline : error.line = line)
      (hrest : Gives (line + piece.text.count '\n') pieces tokens errors) :
      Gives line (piece :: pieces) tokens (error :: errors)

theorem ofWord_eq_keyword (word : Keyword) : Kind.ofWord word.text = .keyword word := by
  rw [Kind.ofWord, Keyword.ofText?_eq_some_iff.mpr rfl]

theorem ofWord_eq_identifier {text : List Char}
    (h : ∀ word : Keyword, text ≠ word.text.toList) :
    Kind.ofWord (String.ofList text) = .identifier := by
  rw [Kind.ofWord]
  split
  next word hword =>
    have hne := h word
    rw [Keyword.ofText?_eq_some_iff.mp hword, String.toList_ofList] at hne
    exact absurd rfl hne
  · rfl

theorem Denotes.token?_eq {piece : Piece} {kind : Kind} {literal : Option Literal}
    (h : piece.Denotes kind literal) (line : Nat) :
    piece.token? line = some ⟨kind, String.ofList piece.text, literal, line⟩ := by
  cases h with
  | symbol | number | string => rfl
  | keyword word => simp [token?, lexeme, Token.plain, ofWord_eq_keyword]
  | name h => simp [token?, lexeme, Token.plain, ofWord_eq_identifier h]

theorem Denotes.fault?_eq {piece : Piece} {kind : Kind} {literal : Option Literal}
    (h : piece.Denotes kind literal) : piece.fault? = none := by
  cases h <;> rfl

theorem exists_denotes_of_word (text : List Char) :
    ∃ kind literal, Denotes ⟨.word, text⟩ kind literal := by
  by_cases h : ∃ word : Keyword, text = word.text.toList
  · obtain ⟨word, rfl⟩ := h
    exact ⟨_, _, .keyword word⟩
  · exact ⟨_, _, .name fun word hword ↦ h ⟨word, hword⟩⟩

/-- Pieces give what scanning collects from them. -/
theorem gives_ofFrom (pieces : List Piece) (line : Nat) :
    Gives line pieces (tokensFrom line pieces) (errorsFrom line pieces) := by
  induction pieces generalizing line with
  | nil => exact .nil line
  | cons piece pieces ih =>
      have hrest := ih (line + piece.newlines)
      have htoken {kind : Kind} {literal : Option Literal} (h : piece.Denotes kind literal) :
          Gives line (piece :: pieces) (tokensFrom line (piece :: pieces))
            (errorsFrom line (piece :: pieces)) := by
        rw [tokensFrom, errorsFrom, h.token?_eq, h.fault?_eq]
        exact .token h hrest
      obtain ⟨role, text⟩ := piece
      cases role with
      | blank => exact .silent (.inl rfl) hrest
      | comment => exact .silent (.inr rfl) hrest
      | symbol kind => exact htoken (.symbol kind text)
      | word =>
          obtain ⟨kind, literal, h⟩ := exists_denotes_of_word text
          exact htoken h
      | number whole fraction => exact htoken (.number whole fraction text)
      | string contents => exact htoken (.string contents text)
      | unterminated => exact .error (.inl ⟨rfl, rfl⟩) rfl hrest
      | unexpected => exact .error (.inr ⟨rfl, rfl⟩) rfl hrest

theorem Gives.eq {line : Nat} {pieces : List Piece} {tokens : List Token}
    {errors : List ScanError} (h : Gives line pieces tokens errors) :
    tokens = tokensFrom line pieces ∧ errors = errorsFrom line pieces := by
  induction h with
  | nil => exact ⟨rfl, rfl⟩
  | @silent line piece pieces tokens errors hrole hrest ih =>
      obtain ⟨rfl, rfl⟩ := ih
      rcases hrole with hrole | hrole <;>
        simp [tokensFrom, errorsFrom, token?, fault?, hrole, newlines]
  | @token line piece pieces tokens errors kind literal hdenotes hrest ih =>
      obtain ⟨rfl, rfl⟩ := ih
      simp [tokensFrom, errorsFrom, hdenotes.token?_eq, hdenotes.fault?_eq, newlines]
  | @error line piece pieces tokens errors error hmessage hline hrest ih =>
      obtain ⟨rfl, rfl⟩ := ih
      obtain ⟨errorLine, fault⟩ := error
      subst hline
      rcases hmessage with ⟨hrole, hmessage⟩ | ⟨hrole, hmessage⟩ <;> cases fault <;>
        simp_all [ScanFault.message, tokensFrom, errorsFrom, token?, fault?, newlines]

end Piece

/-- A source has one division into longest lexemes, which loses nothing, and scanning it gives
exactly the tokens and errors of the pieces. -/
theorem Scan.longest_match (source : String) :
    ∃ pieces tokens errors,
      Scan.ofSource source =
        ⟨tokens ++ [.endOfInput (1 + source.toList.count '\n')], errors⟩ ∧
      Piece.Division source.toList pieces ∧
      (∀ others, Piece.Division source.toList others → others = pieces) ∧
      pieces.flatMap Piece.text = source.toList ∧
      Piece.Gives 1 pieces tokens errors ∧
      ∀ otherTokens otherErrors, Piece.Gives 1 pieces otherTokens otherErrors →
        otherTokens = tokens ∧ otherErrors = errors := by
  have hdivision := Piece.ofText_division source.toList
  have hscan : Scan.ofSource source =
      ⟨Piece.tokensFrom 1 (Piece.ofText source.toList) ++
        [.endOfInput (1 + source.toList.count '\n')],
        Piece.errorsFrom 1 (Piece.ofText source.toList)⟩ := by
    rw [← Scan.tokens_ofText, ← Scan.errors_ofText]
    rfl
  refine ⟨_, _, _, hscan, hdivision, fun _ hothers ↦ hdivision.eq hothers, ?_, ?_, ?_⟩
  · exact Piece.flatMap_text_ofText _
  · exact Piece.gives_ofFrom _ 1
  · exact fun _ _ hother ↦ hother.eq

end Lox
