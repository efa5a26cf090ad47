import Mathlib.Data.List.Forall2
import Lox.Proofs.Source.Spacing

/-!
# Line numbers

A line number is one more than the number of line breaks in front of a place in the source. Tokens
stand on the line on which their text ends, errors on the line on which theirs starts. Hence line
numbers never decrease, and a line break between two sources only shifts those of the second.
-/

namespace Lox

/-- The line that the character behind a text stands on. -/
def lineBehind (text : List Char) : Nat := 1 + text.count '\n'

theorem lineBehind_le_of_prefix {text longer : List Char} (h : text <+: longer) :
    lineBehind text ≤ lineBehind longer :=
  Nat.add_le_add_left (h.sublist.count_le '\n') 1

open scoped List

namespace Piece

/-- A piece, and all that stands in front of it in the source. -/
structure Place where
  front : List Char
  piece : Piece

namespace Place

/-- The source up to the end of the piece. -/
def through (place : Place) : List Char := place.front ++ place.piece.text

theorem front_prefix_through (place : Place) : place.front <+: place.through :=
  List.prefix_append _ _

theorem lineBehind_through (place : Place) :
    lineBehind place.through = lineBehind place.front + place.piece.newlines := by
  rw [through, lineBehind, lineBehind, List.count_append, newlines, Nat.add_assoc]

end Place

/-- Pieces in a row behind the given text. -/
def placesFrom (front : List Char) : List Piece → List Place
  | [] => []
  | piece :: rest => ⟨front, piece⟩ :: placesFrom (front ++ piece.text) rest

theorem prefix_of_mem_placesFrom {front : List Char} {pieces : List Piece} {place : Place}
    (h : place ∈ placesFrom front pieces) :
    front <+: place.front ∧ place.through <+: front ++ pieces.flatMap text := by
  induction pieces generalizing front with
  | nil => cases h
  | cons piece rest ih =>
      rw [List.flatMap_cons, ← List.append_assoc]
      rcases List.mem_cons.mp h with rfl | hrest
      · exact ⟨List.prefix_rfl, List.prefix_append _ _⟩
      · obtain ⟨hfront, hthrough⟩ := ih hrest
        exact ⟨(List.prefix_append _ _).trans hfront, hthrough⟩

/-- Pieces stand one behind the other. -/
theorem placesFrom_pairwise (front : List Char) (pieces : List Piece) :
    (placesFrom front pieces).Pairwise fun place later ↦ place.through <+: later.front := by
  induction pieces generalizing front with
  | nil => exact .nil
  | cons piece rest ih =>
      exact .cons (fun later hlater ↦ (prefix_of_mem_placesFrom hlater).1) (ih _)

/-- From place to place the lines do not decrease, wherever in its piece each of them is counted. -/
theorem lines_of_places {spot : Place → List Char}
    (hspot : ∀ place, place.front <+: spot place ∧ spot place <+: place.through)
    {pieces : List Piece} {places : List Place} (h : places <+ placesFrom [] pieces) :
    (places.map fun place ↦ lineBehind (spot place)).Pairwise (· ≤ ·) ∧
      ∀ line ∈ places.map fun place ↦ lineBehind (spot place),
        line ≤ lineBehind (pieces.flatMap text) := by
  constructor
  · have hplaces := (placesFrom_pairwise [] pieces).sublist h
    apply List.pairwise_map.mpr
    refine hplaces.imp ?_
    intro place later hlater
    exact lineBehind_le_of_prefix (((hspot place).2.trans hlater).trans (hspot later).1)
  · simp only [List.forall_mem_map]
    intro place hplace
    have hthrough := (prefix_of_mem_placesFrom (h.subset hplace)).2
    exact lineBehind_le_of_prefix ((hspot place).2.trans hthrough)

/-! ## Tokens -/

theorem exists_denotes_of_givesToken {piece : Piece} (h : piece.givesToken) :
    ∃ kind literal, piece.Denotes kind literal := by
  obtain ⟨role, text⟩ := piece
  cases role with
  | symbol kind => exact ⟨_, _, .symbol kind text⟩
  | word => exact exists_denotes_of_word text
  | number whole fraction => exact ⟨_, _, .number whole fraction text⟩
  | string contents => exact ⟨_, _, .string contents text⟩
  | blank | comment | unterminated | unexpected => exact absurd h Bool.false_ne_true

theorem token?_eq_none_of_not_givesToken {piece : Piece} (h : piece.givesToken = false)
    (line : Nat) : piece.token? line = none := by
  have hlexeme := map_lexeme_token? piece line
  rw [h] at hlexeme
  exact Option.map_eq_none_iff.mp hlexeme

/-- What a piece denotes, on the line on which it ends. -/
structure Place.GivesToken (place : Place) (token : Token) : Prop where
  denotes : place.piece.Denotes token.kind token.literal
  lexeme : token.lexeme.toList = place.piece.text
  line : token.line = lineBehind place.through

theorem tokensFrom_places (front : List Char) (pieces : List Piece) :
    List.Forall₂ Place.GivesToken
      ((placesFrom front pieces).filter fun place ↦ place.piece.givesToken)
      (tokensFrom (lineBehind front) pieces) := by
  induction pieces generalizing front with
  | nil => exact .nil
  | cons piece rest ih =>
      have hrest := ih (front ++ piece.text)
      have hline : lineBehind (front ++ piece.text) = lineBehind front + piece.newlines :=
        Place.lineBehind_through ⟨front, piece⟩
      rw [hline] at hrest
      rw [placesFrom, tokensFrom]
      cases hgives : piece.givesToken with
      | true =>
          obtain ⟨kind, literal, hdenotes⟩ := exists_denotes_of_givesToken hgives
          rw [List.filter_cons_of_pos (by simpa using hgives), hdenotes.token?_eq]
          exact .cons ⟨hdenotes, String.toList_ofList, hline.symm⟩ hrest
      | false =>
          rw [List.filter_cons_of_neg (by simp [hgives]),
            token?_eq_none_of_not_givesToken hgives]
          exact hrest

theorem map_line_of_givesToken {places : List Place} {tokens : List Token}
    (h : List.Forall₂ Place.GivesToken places tokens) :
    tokens.map Token.line = places.map fun place ↦ lineBehind place.through := by
  induction h with
  | nil => rfl
  | cons hplace _ ih => rw [List.map_cons, List.map_cons, hplace.line, ih]

/-! ## Errors -/

/-- A string that no quote closes takes all that is left of a source, and any other character that
starts no lexeme stands alone. -/
inductive Place.GivesError (source : List Char) : Place → ScanError → Prop
  | unterminated {front rest : List Char} {error : ScanError}
      (hmessage : error.fault.message = "Unterminated string.")
      (hline : error.line = lineBehind front) (hsource : front ++ '"' :: rest = source) :
      GivesError source ⟨front, ⟨.unterminated, '"' :: rest⟩⟩ error
  | unexpected {front : List Char} {c : Char} {error : ScanError}
      (hmessage : error.fault.message = "Unexpected character.")
      (hline : error.line = lineBehind front) (hsource : front ++ [c] <+: source) :
      GivesError source ⟨front, ⟨.unexpected, [c]⟩⟩ error

theorem map_line_of_givesError {source : List Char} {places : List Place}
    {errors : List ScanError} (h : List.Forall₂ (Place.GivesError source) places errors) :
    errors.map ScanError.line = places.map fun place ↦ lineBehind place.front := by
  induction h with
  | nil => rfl
  | cons hplace _ ih =>
      rw [List.map_cons, List.map_cons, ih]
      cases hplace with
      | unterminated _ hline | unexpected _ hline => rw [hline]

theorem IsLexeme.fault?_eq_none {piece : Piece} (h : piece.IsLexeme) : piece.fault? = none := by
  cases h <;> rfl

theorem Division.errorsFrom_places {text : List Char} {pieces : List Piece}
    (h : Division text pieces) (front : List Char) :
    List.Forall₂ (Place.GivesError (front ++ text))
      ((placesFrom front pieces).filter fun place ↦ place.piece.fault?.isSome)
      (errorsFrom (lineBehind front) pieces) := by
  induction h generalizing front with
  | nil => exact .nil
  | @lexeme piece rest pieces hlongest hrest ih =>
      have hnone := hlongest.isLexeme.fault?_eq_none
      have hline := Place.lineBehind_through ⟨front, piece⟩
      rw [placesFrom, errorsFrom, hnone, List.filter_cons_of_neg (by simp [hnone]), ← hline,
        ← List.append_assoc]
      exact ih _
  | @unterminated rest hstuck =>
      exact .cons (.unterminated rfl rfl rfl) .nil
  | @unexpected c rest pieces hc hstuck hrest ih =>
      have hline := Place.lineBehind_through ⟨front, ⟨.unexpected, [c]⟩⟩
      have hsource : front ++ c :: rest = front ++ [c] ++ rest := by simp
      rw [placesFrom, errorsFrom, List.filter_cons_of_pos rfl, ← hline, hsource]
      exact .cons (.unexpected rfl rfl (List.prefix_append _ _)) (ih _)

/-- Nothing stands behind a string that no quote closes. -/
theorem Division.dropLast_errorsFrom {text : List Char} {pieces : List Piece}
    (h : Division text pieces) (line : Nat) :
    ∀ error ∈ (errorsFrom line pieces).dropLast, error.fault.message ≠ "Unterminated string." := by
  induction h generalizing line with
  | nil => simp [errorsFrom]
  | lexeme hlongest hrest ih =>
      rw [errorsFrom, hlongest.isLexeme.fault?_eq_none]
      exact ih _
  | unterminated => simp [errorsFrom, fault?]
  | @unexpected c rest pieces hc hstuck hrest ih =>
      have hrest := ih (line + newlines ⟨.unexpected, [c]⟩)
      rw [errorsFrom]
      simp only [fault?, Option.map_some, Option.toList_some, List.singleton_append]
      cases herrors : errorsFrom (line + newlines ⟨.unexpected, [c]⟩) pieces with
      | nil => simp
      | cons error errors =>
          rw [herrors] at hrest
          rw [List.dropLast_cons_cons]
          exact List.forall_mem_cons.mpr ⟨by simp [ScanFault.message], hrest⟩

end Piece

namespace Scan

theorem ofSource_eq (source : String) :
    ofSource source =
      { tokens := Piece.tokensFrom 1 (Piece.ofText source.toList) ++
          [.endOfInput (1 + source.toList.count '\n')]
        errors := Piece.errorsFrom 1 (Piece.ofText source.toList) } := by
  rw [← tokens_ofText, ← errors_ofText]
  rfl

/-- The line of a token is one more than the number of line breaks in front of the end of its text,
and that of an error one more than the number in front of the place that is wrong. So lines never
decrease, and none is behind that of the end of input. -/
theorem lines_eq_count (source : String) :
    ∃ pieces tokens, Piece.Division source.toList pieces ∧
      (∀ others, Piece.Division source.toList others → others = pieces) ∧
      (∀ place ∈ Piece.placesFrom [] pieces, place.through <+: source.toList) ∧
      (ofSource source).tokens = tokens ++ [.endOfInput (1 + source.toList.count '\n')] ∧
      List.Forall₂ Piece.Place.GivesToken
        ((Piece.placesFrom [] pieces).filter fun place ↦ place.piece.givesToken) tokens ∧
      List.Forall₂ (Piece.Place.GivesError source.toList)
        ((Piece.placesFrom [] pieces).filter fun place ↦ place.piece.fault?.isSome)
        (ofSource source).errors ∧
      (∀ error ∈ (ofSource source).errors.dropLast, error.fault.message ≠ "Unterminated string.") ∧
      ((ofSource source).tokens.map Token.line).Pairwise (· ≤ ·) ∧
      ((ofSource source).errors.map ScanError.line).Pairwise (· ≤ ·) ∧
      (∀ token ∈ (ofSource source).tokens, token.line ≤ 1 + source.toList.count '\n') ∧
      ∀ error ∈ (ofSource source).errors, error.line ≤ 1 + source.toList.count '\n' := by
  have hdivision := Piece.ofText_division source.toList
  have hplaces : ∀ place ∈ Piece.placesFrom [] (Piece.ofText source.toList),
      place.through <+: source.toList := by
    intro place hplace
    simpa [Piece.flatMap_text_ofText] using (Piece.prefix_of_mem_placesFrom hplace).2
  have htokens := Piece.tokensFrom_places [] (Piece.ofText source.toList)
  have herrors := hdivision.errorsFrom_places []
  obtain ⟨htokenOrder, htokenLe⟩ := Piece.lines_of_places
    (fun place ↦ ⟨place.front_prefix_through, List.prefix_rfl⟩)
    (List.filter_sublist (p := fun place : Piece.Place ↦ place.piece.givesToken)
      (l := Piece.placesFrom [] (Piece.ofText source.toList)))
  obtain ⟨herrorOrder, herrorLe⟩ := Piece.lines_of_places
    (fun place ↦ ⟨List.prefix_rfl, place.front_prefix_through⟩)
    (List.filter_sublist (p := fun place : Piece.Place ↦ place.piece.fault?.isSome)
      (l := Piece.placesFrom [] (Piece.ofText source.toList)))
  rw [← Piece.map_line_of_givesToken htokens, Piece.flatMap_text_ofText] at htokenLe
  rw [← Piece.map_line_of_givesToken htokens] at htokenOrder
  rw [← Piece.map_line_of_givesError herrors, Piece.flatMap_text_ofText] at herrorLe
  rw [← Piece.map_line_of_givesError herrors] at herrorOrder
  refine ⟨_, Piece.tokensFrom 1 (Piece.ofText source.toList), hdivision,
    fun _ hothers ↦ hdivision.eq hothers, hplaces, ?_⟩
  rw [ofSource_eq]
  refine ⟨rfl, htokens, herrors, hdivision.dropLast_errorsFrom 1, ?_, herrorOrder, ?_, ?_⟩
  · rw [List.map_append]
    refine List.pairwise_append.mpr ⟨htokenOrder, List.pairwise_singleton _ _, ?_⟩
    intro line hline ending hending
    rw [List.mem_singleton.mp hending]
    exact htokenLe line hline
  · refine List.forall_mem_append.mpr ⟨List.forall_mem_map.mp htokenLe, ?_⟩
    exact List.forall_mem_singleton.mpr (Nat.le_refl _)
  · exact List.forall_mem_map.mp herrorLe

/-! ## Sources on different lines -/

theorem role_ne_unterminated {line : Nat} {pieces : List Piece}
    (h : ∀ error ∈ Piece.errorsFrom line pieces, error.fault.message ≠ "Unterminated string.") :
    ∀ piece ∈ pieces, piece.role ≠ .unterminated := by
  induction pieces generalizing line with
  | nil => exact List.forall_mem_nil _
  | cons piece rest ih =>
      obtain ⟨hpiece, hrest⟩ := List.forall_mem_append.mp h
      refine List.forall_mem_cons.mpr ⟨?_, ih hrest⟩
      intro hrole
      exact hpiece ⟨line, .unterminatedString⟩ (by simp [Piece.fault?, hrole]) rfl

/-- A line break ends every piece but an open string. So the tokens and errors of two sources on
different lines are those of the first without its end of input, and those of the second further
down. -/
theorem ofSource_append_newline {first : String}
    (h : ∀ error ∈ (ofSource first).errors, error.fault.message ≠ "Unterminated string.")
    (second : String) :
    let below (line : Nat) := line + (1 + first.toList.count '\n')
    ofSource (first ++ "\n" ++ second) =
      { tokens := (ofSource first).tokens.dropLast ++
          (ofSource second).tokens.map (Token.reline below)
        errors := (ofSource first).errors ++
          (ofSource second).errors.map (ScanError.reline below) } := by
  intro below
  have htext : (first ++ "\n" ++ second).toList = first.toList ++ '\n' :: second.toList := by simp
  have hbelow : (· + (first.toList.count '\n' + 1)) = below := by
    funext line
    rw [Nat.add_comm _ 1]
  have hends : ∀ piece ∈ Piece.ofText first.toList, piece.role ≠ .unterminated := by
    rw [ofSource_eq] at h
    exact role_ne_unterminated h
  have hend : Token.endOfInput (1 + (first.toList ++ '\n' :: second.toList).count '\n') =
      (Token.endOfInput (1 + second.toList.count '\n')).reline below := by
    have hcount : 1 + (first.toList ++ '\n' :: second.toList).count '\n' =
        below (1 + second.toList.count '\n') := by
      simp only [below, List.count_append, List.count_cons_self]
      omega
    rw [hcount]
    rfl
  rw [ofSource_eq, ofSource_eq, ofSource_eq, htext, hend,
    Piece.tokensFrom_append_newline _ _ hends, Piece.errorsFrom_append_newline _ _ hends, hbelow,
    List.dropLast_concat, List.map_append, List.append_assoc]
  rfl

/-- A half operator in front of the line break, and an open string behind it. -/
theorem ofSource_append_newline_operators :
    (∀ error ∈ (ofSource "@!").errors, error.fault.message ≠ "Unterminated string.") ∧
      (ofSource ("@!" ++ "\n" ++ "=\"")).tokens.map (fun token ↦ (token.kind, token.line)) =
        [(.bang, 1), (.equal, 2), (.eof, 2)] ∧
      (ofSource ("@!" ++ "\n" ++ "=\"")).errors.map (fun error ↦ (error.fault, error.line)) =
        [(.unexpectedCharacter, 1), (.unterminatedString, 2)] := by
  have h : ∀ error ∈ (ofSource "@!").errors, error.fault.message ≠ "Unterminated string." := by
    decide +kernel
  refine ⟨h, ?_⟩
  rw [ofSource_append_newline h]
  decide +kernel

end Scan

end Lox
