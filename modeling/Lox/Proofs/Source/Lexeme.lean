import Mathlib.Data.List.TakeWhile
import Lox.Proofs.Source.Joining

/-!
# Lexical classes

The texts that form a piece, class by class. Cutting a text that starts with such a text gives a
piece that goes at least as far, and cutting gives nothing else but the two kinds of faulty pieces.
-/

namespace Lox

namespace Piece

/-- The symbols of one and of two characters. -/
def symbols : List (List Char × Kind) :=
  [(['('], .leftParen), ([')'], .rightParen), (['{'], .leftBrace), (['}'], .rightBrace),
    ([','], .comma), (['.'], .dot), (['-'], .minus), (['+'], .plus), ([';'], .semicolon),
    (['/'], .slash), (['*'], .star), (['!'], .bang), (['!', '='], .bangEqual), (['='], .equal),
    (['=', '='], .equalEqual), (['>'], .greater), (['>', '='], .greaterEqual), (['<'], .less),
    (['<', '='], .lessEqual)]

/-- The pieces whose text lies in a lexical class. -/
inductive IsLexeme : Piece → Prop
  | blank {c : Char} (h : c = ' ' ∨ c = '\t' ∨ c = '\r' ∨ c = '\n') : IsLexeme ⟨.blank, [c]⟩
  | comment {line : List Char} (h : '\n' ∉ line) : IsLexeme ⟨.comment, '/' :: '/' :: line⟩
  | symbol {text : List Char} {kind : Kind} (h : (text, kind) ∈ symbols) :
      IsLexeme ⟨.symbol kind, text⟩
  | string {contents : List Char} (h : '"' ∉ contents) :
      IsLexeme ⟨.string contents, '"' :: (contents ++ ['"'])⟩
  | whole {digits : List Char} (hne : digits ≠ []) (h : ∀ d ∈ digits, d.isDigit) :
      IsLexeme ⟨.number digits [], digits⟩
  | decimal {digits places : List Char} (hne : digits ≠ []) (h : ∀ d ∈ digits, d.isDigit)
      (hplaces : places ≠ []) (hdigits : ∀ d ∈ places, d.isDigit) :
      IsLexeme ⟨.number digits places, digits ++ '.' :: places⟩
  | word {c : Char} {rest : List Char} (h : c.isAlpha ∨ c = '_')
      (hrest : ∀ x ∈ rest, x.isAlpha ∨ x.isDigit ∨ x = '_') : IsLexeme ⟨.word, c :: rest⟩

/-! ## First characters -/

variable {c : Char}

theorem isBlank_iff : isBlank c ↔ c = ' ' ∨ c = '\t' ∨ c = '\r' ∨ c = '\n' := by
  simp [isBlank, or_assoc]

theorem startsWord_iff : startsWord c ↔ c.isAlpha ∨ c = '_' := by
  simp [startsWord]

theorem continuesWord_iff : continuesWord c ↔ c.isAlpha ∨ c.isDigit ∨ c = '_' := by
  simp only [continuesWord, Bool.or_eq_true, startsWord_iff]
  rw [or_right_comm, or_assoc]

theorem not_digit_of_startsWord (h : startsWord c) : c.isDigit = false := by
  rcases startsWord_iff.mp h with h | rfl
  · unfold Char.isAlpha Char.isUpper Char.isLower at h
    unfold Char.isDigit
    grind
  · decide

theorem not_startsWord_of_blank (h : isBlank c) : startsWord c = false := by
  have hcontinues := not_continuesWord_of_blank h
  rw [continuesWord, Bool.or_eq_false_iff] at hcontinues
  exact hcontinues.1

theorem cut_of_blank (h : isBlank c) (rest : List Char) : cut c rest = (⟨.blank, [c]⟩, rest) := by
  simp [cut, h]

theorem cut_of_digit (h : c.isDigit) (rest : List Char) : cut c rest = cutNumber c rest := by
  have hblank : ¬ isBlank c := by
    intro hblank
    simp [not_digit_of_blank hblank] at h
  simp [cut, hblank, h]

theorem cut_of_startsWord (h : startsWord c) (rest : List Char) : cut c rest = cutWord c rest := by
  have hblank : ¬ isBlank c := by
    intro hblank
    simp [not_startsWord_of_blank hblank] at h
  simp [cut, hblank, not_digit_of_startsWord h, h]

theorem cut_slashes (rest : List Char) : cut '/' ('/' :: rest) = cutComment rest := rfl

theorem cut_of_single {kind : Kind} (h : single c = some kind) (rest : List Char)
    (hslash : c = '/' → ∀ after, rest ≠ '/' :: after) : cut c rest = cutSymbol c rest := by
  have hcut : (isBlank c || c.isDigit || startsWord c || c == '"') = false := by
    unfold single at h
    split at h <;> first | rfl | simp at h
  simp only [Bool.or_eq_false_iff] at hcut
  obtain ⟨⟨⟨hblank, hdigit⟩, hword⟩, hquote⟩ := hcut
  simp only [cut, hblank, hdigit, hword, hquote, Bool.false_eq_true, ↓reduceIte]
  split
  next after => exact absurd rfl (hslash rfl after)
  · rfl

theorem mem_symbols_iff {text : List Char} {kind : Kind} :
    (text, kind) ∈ symbols ↔
      (∃ c, text = [c] ∧ single c = some kind) ∨ ∃ c, text = [c, '='] ∧ withEqual c = some kind := by
  constructor
  · intro h
    have hall : ∀ entry ∈ symbols, (∃ c, entry.1 = [c] ∧ single c = some entry.2) ∨
        ∃ c, entry.1 = [c, '='] ∧ withEqual c = some entry.2 := by
      simp [symbols, single, withEqual]
    exact hall _ h
  · rintro (⟨c, rfl, h⟩ | ⟨c, rfl, h⟩)
    · unfold single at h
      split at h <;> cases h <;> simp [symbols]
    · unfold withEqual at h
      split at h <;> cases h <;> simp [symbols]

theorem single_isSome_of_withEqual {kind : Kind} (h : withEqual c = some kind) :
    ∃ first, single c = some first := by
  unfold withEqual at h
  split at h <;> first | exact ⟨_, rfl⟩ | cases h

/-! ## What is cut is a lexeme or faulty -/

theorem fraction_fst_digits (rest : List Char) : ∀ d ∈ (fraction rest).1, d.isDigit := by
  unfold fraction
  split
  next d after =>
    split
    next hd =>
      intro x hx
      rcases List.mem_cons.mp hx with rfl | hx
      · exact hd
      · exact List.mem_takeWhile_imp hx
    · simp
  · simp

theorem cutNumber_isLexeme (h : c.isDigit) (rest : List Char) :
    (cutNumber c rest).1.IsLexeme := by
  have hwhole : ∀ d ∈ c :: rest.takeWhile Char.isDigit, d.isDigit := by
    intro d hd
    rcases List.mem_cons.mp hd with rfl | hd
    · exact h
    · exact List.mem_takeWhile_imp hd
  have hplaces := fraction_fst_digits (rest.dropWhile Char.isDigit)
  rw [cutNumber]
  dsimp only
  rw [numeral]
  generalize (fraction (rest.dropWhile Char.isDigit)).1 = places at hplaces
  cases places with
  | nil => exact .whole (List.cons_ne_nil _ _) hwhole
  | cons d places => exact .decimal (List.cons_ne_nil _ _) hwhole (List.cons_ne_nil _ _) hplaces

theorem cutWord_isLexeme (h : startsWord c) (rest : List Char) : (cutWord c rest).1.IsLexeme :=
  .word (startsWord_iff.mp h) fun _ hx ↦ continuesWord_iff.mp (List.mem_takeWhile_imp hx)

theorem cutComment_isLexeme (rest : List Char) : (cutComment rest).1.IsLexeme := by
  apply IsLexeme.comment
  intro hmem
  have hnewline := List.mem_takeWhile_imp hmem
  simp at hnewline

/-- Only a text without a closing quote is cut whole. -/
theorem cutString_isLexeme_or (rest : List Char) :
    (cutString rest).1.IsLexeme ∨ cutString rest = (⟨.unterminated, '"' :: rest⟩, []) := by
  have hsplit := List.takeWhile_append_dropWhile (p := (· != '"')) (l := rest)
  unfold cutString
  dsimp only
  split
  next hdrop =>
    rw [hdrop, List.append_nil] at hsplit
    exact .inr (by rw [hsplit])
  next quote after hdrop =>
    have hquote := List.head?_dropWhile_not (· != '"') rest
    rw [hdrop] at hquote
    obtain rfl : quote = '"' := by simpa using hquote
    apply Or.inl
    apply IsLexeme.string
    intro hmem
    have hinside := List.mem_takeWhile_imp hmem
    simp at hinside

theorem cutSymbol_isLexeme_or (c : Char) (rest : List Char) :
    (cutSymbol c rest).1.IsLexeme ∨
      single c = none ∧ cutSymbol c rest = (⟨.unexpected, [c]⟩, rest) := by
  unfold cutSymbol
  split
  next kind after hkind =>
    exact .inl (.symbol (mem_symbols_iff.mpr (.inr ⟨c, rfl, hkind⟩)))
  · split
    next kind hkind => exact .inl (.symbol (mem_symbols_iff.mpr (.inl ⟨c, rfl, hkind⟩)))
    next hnone => exact .inr ⟨hnone, rfl⟩

/-- A piece is a lexeme, or a string that is not closed, or a character that starts no lexeme. -/
theorem cut_isLexeme_or (c : Char) (rest : List Char) :
    (cut c rest).1.IsLexeme ∨
      c = '"' ∧ cut c rest = (⟨.unterminated, c :: rest⟩, []) ∨
        c ≠ '"' ∧ cut c rest = (⟨.unexpected, [c]⟩, rest) := by
  by_cases hblank : isBlank c
  · rw [cut_of_blank hblank]
    exact .inl (.blank (isBlank_iff.mp hblank))
  by_cases hdigit : c.isDigit
  · rw [cut_of_digit hdigit]
    exact .inl (cutNumber_isLexeme hdigit rest)
  by_cases hword : startsWord c
  · rw [cut_of_startsWord hword]
    exact .inl (cutWord_isLexeme hword rest)
  by_cases hquote : c = '"'
  · subst hquote
    exact (cutString_isLexeme_or rest).imp_right fun h ↦ .inl ⟨rfl, h⟩
  simp only [cut, hblank, hdigit, hword, beq_iff_eq, hquote, ↓reduceIte, Bool.false_eq_true]
  split
  · exact .inl (cutComment_isLexeme _)
  · exact (cutSymbol_isLexeme_or c rest).imp_right fun h ↦ .inr ⟨hquote, h.2⟩

theorem isLexeme_of_mem {text : List Char} {piece : Piece} (h : piece ∈ ofText text)
    (hfault : piece.fault? = none) : piece.IsLexeme := by
  induction text using text_induction with
  | nil => simp at h
  | cut c rest ih =>
      rw [ofText_cons] at h
      rcases List.mem_cons.mp h with rfl | h
      · rcases cut_isLexeme_or c rest with hlexeme | ⟨-, hcut⟩ | ⟨-, hcut⟩
        · exact hlexeme
        · simp [hcut, fault?] at hfault
        · simp [hcut, fault?] at hfault
      · exact ih h

/-! ## A lexeme in front -/

/-- A piece that goes on behind the text of another one, which it is if nothing follows. -/
structure Extends (piece longer : Piece) (after : List Char) : Prop where
  text : piece.text <+: longer.text
  role : after = [] → longer.role = piece.role
  fault : longer.fault? = none

variable {after : List Char}

theorem cutNumber_extends_whole {digits : List Char} (h : ∀ d ∈ digits, d.isDigit) :
    Extends ⟨.number (c :: digits) [], c :: digits⟩ (cutNumber c (digits ++ after)).1 after := by
  have htake : (digits ++ after).takeWhile Char.isDigit = digits ++ after.takeWhile Char.isDigit :=
    List.takeWhile_append_of_pos h
  have hdrop : (digits ++ after).dropWhile Char.isDigit = after.dropWhile Char.isDigit :=
    List.dropWhile_append_of_pos h
  rw [cutNumber, htake, hdrop]
  refine ⟨?_, ?_, rfl⟩
  · dsimp only
    rw [numeral]
    split <;> simp [List.prefix_append]
  · rintro rfl
    simp [fraction]

theorem cutNumber_extends_decimal {digits places : List Char} (h : ∀ d ∈ digits, d.isDigit)
    (hne : places ≠ []) (hplaces : ∀ d ∈ places, d.isDigit) :
    Extends ⟨.number (c :: digits) places, (c :: digits) ++ '.' :: places⟩
      (cutNumber c (digits ++ '.' :: (places ++ after))).1 after := by
  obtain ⟨d, places, rfl⟩ := List.exists_cons_of_ne_nil hne
  obtain ⟨hd, hplaces⟩ := List.forall_mem_cons.mp hplaces
  have hlast : (places ++ after).takeWhile Char.isDigit = places ++ after.takeWhile Char.isDigit :=
    List.takeWhile_append_of_pos hplaces
  rw [cutNumber, List.takeWhile_append_of_pos h, List.dropWhile_append_of_pos h]
  refine ⟨?_, ?_, rfl⟩
  · simp [fraction, numeral, hd, hlast, List.prefix_append]
  · rintro rfl
    rw [List.append_nil] at hlast
    simp [fraction, hd, hlast]

theorem cutWord_extends {rest : List Char} (h : ∀ x ∈ rest, continuesWord x) :
    Extends ⟨.word, c :: rest⟩ (cutWord c (rest ++ after)).1 after := by
  rw [cutWord, List.takeWhile_append_of_pos h]
  exact ⟨by simp [List.prefix_append], fun _ ↦ rfl, rfl⟩

theorem cutComment_extends {line : List Char} (h : '\n' ∉ line) :
    Extends ⟨.comment, '/' :: '/' :: line⟩ (cutComment (line ++ after)).1 after := by
  have hline : ∀ x ∈ line, (x != '\n') = true :=
    fun x hx ↦ bne_iff_ne.mpr (ne_of_mem_of_not_mem hx h)
  rw [cutComment, List.takeWhile_append_of_pos hline]
  exact ⟨by simp [List.prefix_append], fun _ ↦ rfl, rfl⟩

theorem cutString_extends {contents : List Char} (h : '"' ∉ contents) :
    Extends ⟨.string contents, '"' :: (contents ++ ['"'])⟩
      (cutString (contents ++ '"' :: after)).1 after := by
  have hcontents : ∀ x ∈ contents, (x != '"') = true :=
    fun x hx ↦ bne_iff_ne.mpr (ne_of_mem_of_not_mem hx h)
  have htake : (contents ++ '"' :: after).takeWhile (· != '"') = contents := by
    simp [List.takeWhile_append_of_pos hcontents]
  have hdrop : (contents ++ '"' :: after).dropWhile (· != '"') = '"' :: after := by
    simp [List.dropWhile_append_of_pos hcontents]
  simp only [cutString, htake, hdrop]
  exact ⟨List.prefix_rfl, fun _ ↦ rfl, rfl⟩

theorem cut_extends_single {kind : Kind} (h : single c = some kind) (after : List Char) :
    Extends ⟨.symbol kind, [c]⟩ (cut c after).1 after := by
  by_cases hslash : c = '/' ∧ ∃ line, after = '/' :: line
  · obtain ⟨rfl, line, rfl⟩ := hslash
    rw [cut_slashes]
    exact ⟨by simp [cutComment], by simp, rfl⟩
  · rw [cut_of_single h after fun hc line hline ↦ hslash ⟨hc, line, hline⟩]
    unfold cutSymbol
    split
    · exact ⟨by simp, by simp, rfl⟩
    · simp only [h]
      exact ⟨List.prefix_rfl, fun _ ↦ rfl, rfl⟩

theorem cut_extends_withEqual {kind : Kind} (h : withEqual c = some kind) (after : List Char) :
    Extends ⟨.symbol kind, [c, '=']⟩ (cut c ('=' :: after)).1 after := by
  obtain ⟨first, hfirst⟩ := single_isSome_of_withEqual h
  rw [cut_of_single hfirst ('=' :: after) (by simp)]
  simp only [cutSymbol, h]
  exact ⟨List.prefix_rfl, fun _ ↦ rfl, rfl⟩

/-- What is cut from a text goes at least as far as any lexeme in front of it. -/
theorem IsLexeme.cut_extends {piece : Piece} (h : piece.IsLexeme) {rest : List Char}
    (htext : c :: rest = piece.text ++ after) : Extends piece (cut c rest).1 after := by
  cases h with
  | blank hc =>
      obtain ⟨rfl, rfl⟩ := List.cons.inj htext
      rw [cut_of_blank (isBlank_iff.mpr hc)]
      exact ⟨List.prefix_rfl, fun _ ↦ rfl, rfl⟩
  | comment hline =>
      obtain ⟨rfl, rfl⟩ := List.cons.inj htext
      exact cutComment_extends hline
  | symbol hmem =>
      rcases mem_symbols_iff.mp hmem with ⟨first, rfl, hkind⟩ | ⟨first, rfl, hkind⟩
      · obtain ⟨rfl, rfl⟩ := List.cons.inj htext
        exact cut_extends_single hkind rest
      · obtain ⟨rfl, rfl⟩ := List.cons.inj htext
        exact cut_extends_withEqual hkind after
  | string hcontents =>
      rw [List.cons_append, List.append_assoc] at htext
      obtain ⟨rfl, rfl⟩ := List.cons.inj htext
      exact cutString_extends hcontents
  | whole hne hdigits =>
      obtain ⟨d, digits, rfl⟩ := List.exists_cons_of_ne_nil hne
      obtain ⟨rfl, rfl⟩ := List.cons.inj htext
      obtain ⟨hd, hdigits⟩ := List.forall_mem_cons.mp hdigits
      rw [cut_of_digit hd]
      exact cutNumber_extends_whole hdigits
  | decimal hne hdigits hneplaces hplaces =>
      obtain ⟨d, digits, rfl⟩ := List.exists_cons_of_ne_nil hne
      rw [List.append_assoc, List.cons_append] at htext
      obtain ⟨rfl, rfl⟩ := List.cons.inj htext
      obtain ⟨hd, hdigits⟩ := List.forall_mem_cons.mp hdigits
      rw [cut_of_digit hd]
      exact cutNumber_extends_decimal hdigits hneplaces hplaces
  | word hc hrest =>
      obtain ⟨rfl, rfl⟩ := List.cons.inj htext
      rw [cut_of_startsWord (startsWord_iff.mpr hc)]
      exact cutWord_extends fun x hx ↦ continuesWord_iff.mpr (hrest x hx)

/-- A lexeme is cut from its own text. -/
theorem IsLexeme.cut_text {piece : Piece} (h : piece.IsLexeme) {rest : List Char}
    (htext : piece.text = c :: rest) : cut c rest = (piece, []) := by
  have hwhole : c :: rest = piece.text ++ [] := by rw [htext, List.append_nil]
  have hextends := h.cut_extends hwhole
  have hsplit : (cut c rest).1.text ++ (cut c rest).2 = piece.text := by
    rw [Piece.cut_text, htext]
  obtain ⟨more, hmore⟩ := hextends.text
  rw [← hmore, List.append_assoc, List.append_right_eq_self] at hsplit
  obtain ⟨rfl, hleft⟩ := List.append_eq_nil_iff.mp hsplit
  rw [List.append_nil] at hmore
  have hpiece : (cut c rest).1 = piece := congrArg₂ Piece.mk (hextends.role rfl) hmore.symm
  exact Prod.ext hpiece hleft

end Piece

end Lox
