import Lox.Proofs.Source.Division

/-!
# Lexemes with other spacing

Blanks and complete comments between lexemes give no tokens. As long as a blank stands behind each
lexeme but the last, the lexemes that are scanned from such a text are just those in it.
-/

namespace Lox

namespace Piece

/-- Blanks, and comments with the line breaks that end them. -/
inductive Spacing : List Char → Prop
  | nil : Spacing []
  | blank {c : Char} {rest : List Char} (h : c = ' ' ∨ c = '\t' ∨ c = '\r' ∨ c = '\n')
      (hrest : Spacing rest) : Spacing (c :: rest)
  | comment {line rest : List Char} (h : '\n' ∉ line) (hrest : Spacing rest) :
      Spacing ('/' :: '/' :: (line ++ '\n' :: rest))

def StartsBlank (text : List Char) : Prop :=
  ∃ c rest, text = c :: rest ∧ (c = ' ' ∨ c = '\t' ∨ c = '\r' ∨ c = '\n')

/-- What may stand behind each of some lexemes. -/
inductive Separates : List String → Prop
  | nil : Separates []
  | last {gap : String} (h : Spacing gap.toList) (hstart : gap = "" ∨ StartsBlank gap.toList) :
      Separates [gap]
  | cons {gap : String} {gaps : List String} (h : Spacing gap.toList)
      (hstart : StartsBlank gap.toList) (hrest : Separates gaps) : Separates (gap :: gaps)

/-- Each lexeme with its gap behind it. -/
def interleave : List String → List String → String
  | lexeme :: lexemes, gap :: gaps => lexeme ++ gap ++ interleave lexemes gaps
  | _, _ => ""

/-! ## Pieces that give nothing -/

def isSilent (piece : Piece) : Bool :=
  match piece.role with
  | .blank | .comment => true
  | _ => false

/-- The pieces that are neither blanks nor comments. -/
def loud (pieces : List Piece) : List Piece := pieces.filter (!·.isSilent)

def givesToken (piece : Piece) : Bool := !piece.isSilent && piece.fault?.isNone

theorem loud_cons_of_silent {piece : Piece} (h : piece.isSilent) (pieces : List Piece) :
    loud (piece :: pieces) = loud pieces := by
  simp [loud, h]

theorem fault?_eq_none_of_silent {piece : Piece} (h : piece.isSilent) : piece.fault? = none := by
  obtain ⟨role, text⟩ := piece
  cases role with
  | blank | comment => rfl
  | _ => simp [isSilent] at h

theorem map_lexeme_token? (piece : Piece) (line : Nat) :
    (piece.token? line).map Token.lexeme =
      if piece.givesToken then some piece.lexeme else none := by
  obtain ⟨role, text⟩ := piece
  cases role <;> rfl

theorem tokensFrom_map_lexeme (line : Nat) (pieces : List Piece) :
    (tokensFrom line pieces).map Token.lexeme = (pieces.filter givesToken).map lexeme := by
  induction pieces generalizing line with
  | nil => rfl
  | cons piece pieces ih =>
      have hpiece := map_lexeme_token? piece (line + piece.newlines)
      rw [tokensFrom, List.map_append, ih]
      cases hgives : piece.givesToken with
      | true =>
          rw [if_pos hgives, Option.map_eq_some_iff] at hpiece
          obtain ⟨token, htoken, hlexeme⟩ := hpiece
          simp [htoken, hlexeme, hgives]
      | false =>
          have hnone : piece.token? (line + piece.newlines) = none := by
            simpa [hgives] using hpiece
          simp [hnone, hgives]

theorem tokensFrom_map_reline (line : Nat) (pieces : List Piece) :
    (tokensFrom line pieces).map (Token.reline fun _ ↦ 0) = pieces.filterMap (token? · 0) := by
  induction pieces generalizing line with
  | nil => rfl
  | cons piece pieces ih =>
      have hpiece : (piece.token? (line + piece.newlines)).map (Token.reline fun _ ↦ 0) =
          piece.token? 0 := by
        unfold token?
        split <;> rfl
      rw [tokensFrom, List.map_append, ih, List.filterMap_cons, ← hpiece]
      cases piece.token? (line + piece.newlines) <;> rfl

theorem filterMap_token?_loud (pieces : List Piece) :
    (loud pieces).filterMap (token? · 0) = pieces.filterMap (token? · 0) := by
  rw [loud, List.filterMap_filter]
  congr 1
  funext ⟨role, text⟩
  cases role <;> rfl

theorem filterMap_token?_givesToken (pieces : List Piece) :
    (pieces.filter givesToken).filterMap (token? · 0) = pieces.filterMap (token? · 0) := by
  rw [List.filterMap_filter]
  congr 1
  funext ⟨role, text⟩
  cases role <;> rfl

/-- Lines apart, tokens come only from the pieces that are neither silent nor faulty. -/
theorem tokensFrom_unlined_of_loud {pieces others : List Piece}
    (h : loud pieces = others.filter givesToken) (line : Nat) :
    (tokensFrom line pieces).map (Token.reline fun _ ↦ 0) =
      (tokensFrom line others).map (Token.reline fun _ ↦ 0) := by
  rw [tokensFrom_map_reline, tokensFrom_map_reline, ← filterMap_token?_loud, h,
    filterMap_token?_givesToken]

theorem fault?_eq_none_of_loud {pieces : List Piece}
    (h : ∀ piece ∈ loud pieces, piece.fault? = none) : ∀ piece ∈ pieces, piece.fault? = none := by
  intro piece hpiece
  cases hsilent : piece.isSilent with
  | true => exact fault?_eq_none_of_silent hsilent
  | false => exact h piece (List.mem_filter.mpr ⟨hpiece, by simp [hsilent]⟩)

theorem errorsFrom_eq_nil {line : Nat} {pieces : List Piece}
    (h : ∀ piece ∈ pieces, piece.fault? = none) : errorsFrom line pieces = [] := by
  induction pieces generalizing line with
  | nil => rfl
  | cons piece pieces ih =>
      obtain ⟨hpiece, hpieces⟩ := List.forall_mem_cons.mp h
      rw [errorsFrom, hpiece, ih hpieces]
      rfl

/-! ## Spacing is silent -/

theorem Spacing.loud_ofText {gap : List Char} (h : Spacing gap) (rest : List Char) :
    loud (ofText (gap ++ rest)) = loud (ofText rest) := by
  induction h with
  | nil => rfl
  | blank hc hgap ih =>
      rw [List.cons_append, ofText_cons, cut_of_blank (isBlank_iff.mpr hc),
        loud_cons_of_silent rfl, ih]
  | @comment line gap hline hgap ih =>
      have hcut : cutComment (line ++ '\n' :: (gap ++ rest)) =
          (⟨.comment, '/' :: '/' :: line⟩, '\n' :: (gap ++ rest)) := by
        have hline : ∀ x ∈ line, (x != '\n') = true :=
          fun x hx ↦ bne_iff_ne.mpr (ne_of_mem_of_not_mem hx hline)
        simp [cutComment, List.takeWhile_append_of_pos hline, List.dropWhile_append_of_pos hline]
      have htext : '/' :: '/' :: (line ++ '\n' :: gap) ++ rest =
          '/' :: '/' :: (line ++ '\n' :: (gap ++ rest)) := by simp
      rw [htext, ofText_cons, cut_slashes, hcut, loud_cons_of_silent rfl, ofText_cons,
        cut_of_blank rfl, loud_cons_of_silent rfl, ih]

/-! ## Lexemes stay apart -/

theorem givesToken_iff {piece : Piece} :
    piece.givesToken ↔ piece.isSilent = false ∧ piece.fault? = none := by
  simp [givesToken]

theorem IsLexeme.ofText_text {piece : Piece} (h : piece.IsLexeme) : ofText piece.text = [piece] := by
  obtain ⟨c, rest, hcons⟩ := List.exists_cons_of_ne_nil h.text_ne_nil
  rw [hcons, ofText_cons, h.cut_text hcons, ofText_nil]

/-- A lexeme in front of a blank is cut off in front of it. -/
theorem IsLexeme.ofText_append {piece : Piece} (h : piece.IsLexeme) (hgives : piece.givesToken)
    {x : Char} (hx : isBlank x) (rest : List Char) :
    ofText (piece.text ++ x :: rest) = piece :: ofText (x :: rest) := by
  obtain ⟨hsilent, hfault⟩ := givesToken_iff.mp hgives
  obtain ⟨c, front, hcons⟩ := List.exists_cons_of_ne_nil h.text_ne_nil
  have hcut := h.cut_text hcons
  have hstring : piece.role ≠ .unterminated := by
    intro hrole
    simp [fault?, hrole] at hfault
  have hcomment : piece.role ≠ .comment := by
    intro hrole
    simp [isSilent, hrole] at hsilent
  rw [hcons, List.cons_append, ofText_cons, cut_append hx c front rest (by rwa [hcut])
    (by rw [hcut]; exact (absurd · hcomment)), hcut, List.nil_append]

/-- The loud pieces of lexemes with gaps between them are those lexemes. -/
theorem loud_ofText_interleave {pieces : List Piece} {gaps : List String}
    (hpieces : ∀ piece ∈ pieces, piece.IsLexeme ∧ piece.givesToken) (hgaps : Separates gaps)
    (hlength : gaps.length = pieces.length) :
    loud (ofText (interleave (pieces.map lexeme) gaps).toList) = pieces := by
  induction hgaps generalizing pieces with
  | nil =>
      obtain rfl := List.eq_nil_of_length_eq_zero hlength.symm
      simp [interleave, loud]
  | @last gap hgap hstart =>
      obtain ⟨piece, rfl⟩ := List.length_eq_one_iff.mp hlength.symm
      obtain ⟨hlexeme, hgives⟩ := hpieces piece List.mem_cons_self
      have hloud : piece.isSilent = false := (givesToken_iff.mp hgives).1
      have htext : (interleave ([piece].map lexeme) [gap]).toList = piece.text ++ gap.toList := by
        simp [interleave, lexeme]
      rw [htext]
      rcases hstart with rfl | ⟨x, rest, hcons, hx⟩
      · simp [hlexeme.ofText_text, loud, hloud]
      · have hsilent := hgap.loud_ofText []
        rw [List.append_nil, hcons, ofText_nil] at hsilent
        rw [hcons, hlexeme.ofText_append hgives (isBlank_iff.mpr hx), loud,
          List.filter_cons_of_pos (by simp [hloud])]
        exact congrArg (piece :: ·) hsilent
  | @cons gap gaps hgap hstart hrest ih =>
      obtain ⟨piece, pieces, rfl⟩ := List.exists_cons_of_length_eq_add_one hlength.symm
      obtain ⟨⟨hlexeme, hgives⟩, hpieces⟩ := List.forall_mem_cons.mp hpieces
      obtain ⟨x, rest, hcons, hx⟩ := hstart
      have hloud : piece.isSilent = false := (givesToken_iff.mp hgives).1
      have htext : (interleave ((piece :: pieces).map lexeme) (gap :: gaps)).toList =
          piece.text ++ (gap.toList ++ (interleave (pieces.map lexeme) gaps).toList) := by
        simp [interleave, lexeme]
      have hafter := hgap.loud_ofText (interleave (pieces.map lexeme) gaps).toList
      rw [ih hpieces (Nat.succ.inj hlength), hcons, List.cons_append] at hafter
      rw [htext, hcons, List.cons_append, hlexeme.ofText_append hgives (isBlank_iff.mpr hx), loud,
        List.filter_cons_of_pos (by simp [hloud])]
      exact congrArg (piece :: ·) hafter

end Piece

/-! ## Sources -/

/-- The texts of the tokens of a source in front of the end of input. -/
def lexemesOf (source : String) : List String :=
  ((Scan.ofSource source).tokens.filter fun token ↦ !token.isEnd).map Token.lexeme

namespace Scan

theorem lexemesOf_eq (source : String) :
    lexemesOf source = ((Piece.ofText source.toList).filter Piece.givesToken).map Piece.lexeme := by
  have hwords : (Piece.tokensFrom 1 (Piece.ofText source.toList)).filter (fun token ↦ !token.isEnd) =
      Piece.tokensFrom 1 (Piece.ofText source.toList) := by
    apply List.filter_eq_self.mpr
    intro token htoken
    have hkind := Piece.tokensFrom_kind_ne_eof 1 (Piece.ofText_role_ne_eof _) token htoken
    simpa [Token.isEnd] using hkind
  have hend : (Token.endOfInput (1 + source.toList.count '\n')).isEnd = true := rfl
  rw [lexemesOf, ofSource, tokens_ofText, List.filter_append, hwords]
  simp [hend, Piece.tokensFrom_map_lexeme]

/-- Scanning the lexemes of a source with other spacing gives no error, and the same tokens except
for their lines. -/
theorem ofSource_interleave {source first : String} {gaps : List String}
    (hfirst : Piece.Spacing first.toList) (hgaps : Piece.Separates gaps)
    (hlength : gaps.length = (lexemesOf source).length) :
    let scan := ofSource (first ++ Piece.interleave (lexemesOf source) gaps)
    scan.errors = [] ∧
      scan.tokens.map (Token.reline fun _ ↦ 0) =
        (ofSource source).tokens.map (Token.reline fun _ ↦ 0) := by
  intro scan
  have hgives : ∀ piece ∈ (Piece.ofText source.toList).filter Piece.givesToken,
      piece.fault? = none ∧ piece.IsLexeme ∧ piece.givesToken := by
    intro piece hpiece
    obtain ⟨hmem, hgives⟩ := List.mem_filter.mp hpiece
    have hfault := (Piece.givesToken_iff.mp hgives).2
    exact ⟨hfault, Piece.isLexeme_of_mem hmem hfault, hgives⟩
  have hloud : Piece.loud (Piece.ofText (first ++ Piece.interleave (lexemesOf source) gaps).toList) =
      (Piece.ofText source.toList).filter Piece.givesToken := by
    rw [lexemesOf_eq, List.length_map] at hlength
    rw [String.toList_append, hfirst.loud_ofText, lexemesOf_eq]
    exact Piece.loud_ofText_interleave (fun piece hpiece ↦ (hgives piece hpiece).2) hgaps hlength
  constructor
  · have hfault := Piece.fault?_eq_none_of_loud fun piece hpiece ↦ (hgives piece (hloud ▸ hpiece)).1
    exact (errors_ofText _).trans (Piece.errorsFrom_eq_nil hfault)
  · have hwords := Piece.tokensFrom_unlined_of_loud hloud 1
    rw [show scan.tokens = _ from tokens_ofText _, ofSource, tokens_ofText, List.map_append,
      List.map_append, hwords]
    rfl

end Scan

end Lox
