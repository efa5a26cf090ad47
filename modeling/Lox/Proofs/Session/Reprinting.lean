import Lox.Proofs.Number.Literals
import Lox.Proofs.Number.Printed

/-!
# Printed numbers as source text

The text of a number that is printed without an exponent is scanned as that number, behind a minus
sign if it has one. So a program that prints such a text prints it as it stands.
-/

namespace Lox

open Number Number.Layout
open Piece (numeral)

variable {x : Float} {whole places after : List Char}

/-! ## Ordinary numbers -/

/-- Zeros, and the finite numbers with a magnitude from `0.0001` up to `10 ^ 16`. -/
def IsOrdinary (x : Float) : Prop :=
  code x = 0 ∨ x.isFinite = true ∧ 0.0001 ≤ x.abs ∧ x.abs < 1e16

theorem IsOrdinary.code_lt (h : IsOrdinary x) : code x < infinityCode := by
  rcases h with hzero | ⟨hfinite, -⟩
  · rw [hzero]
    decide
  · exact (unpack_class x).2.2.mp hfinite

/-- The text of an ordinary number is a sign and a numeral that is read as its magnitude. -/
theorem IsOrdinary.exists_numeral (h : IsOrdinary x) :
    ∃ whole places, IsDigits whole ∧ (∀ c ∈ places, c.isDigit) ∧
      (Value.number x).text = String.ofList (signMark x ++ numeral whole places) ∧
      ofDecimal whole places = x.abs := by
  have hcode := h.code_lt
  have hrange : code x = 0 ∨ Value.InRange (code x) :=
    h.imp_right fun hrange ↦ (Value.inRange_iff hcode.le).mpr hrange.2
  obtain ⟨whole, places, hwhole, hplaces, htext⟩ :=
    (Value.magnitude_positional_spec hcode hrange).1.exists_numeral
  have hrounds := (Value.magnitude_spec hcode).1
  rw [htext, numeralValue_numeral hwhole hplaces] at hrounds
  refine ⟨whole, places, hwhole, hplaces, htext ▸ write_eq _ hcode.le, ?_⟩
  rw [abs_eq_ofCode hcode.le]
  exact congrArg ofCode ((nearest_eq_iff _ (tenPow_pos _) hcode).mpr hrounds)

/-- A printed number stays on its line. -/
theorem count_newline_text (hcode : code x < infinityCode) :
    (Value.number x).text.toList.count '\n' = 0 := by
  rw [Value.text, write_eq _ hcode.le, String.toList_ofList, List.count_eq_zero, List.mem_append, not_or]
  constructor
  · rw [signMark]
    split <;> decide
  · intro hmem
    have hnumeral := List.all_eq_true.mp (Value.magnitude_spec hcode).2.1 _ hmem
    exact absurd hnumeral (by decide)

/-! ## Scanning -/

namespace Piece

/-- A text that does not go on with a numeral in front of it. -/
def EndsNumeral (after : List Char) : Prop :=
  ∀ c ∈ after.head?, c.isDigit = false ∧ c ≠ '.'

theorem takeWhile_of_endsNumeral (h : EndsNumeral after) :
    after.takeWhile Char.isDigit = [] ∧ after.dropWhile Char.isDigit = after ∧
      fraction after = ([], after) := by
  cases after with
  | nil => exact ⟨rfl, rfl, rfl⟩
  | cons c rest =>
      obtain ⟨hdigit, hpoint⟩ := h c rfl
      have hfraction : fraction (c :: rest) = ([], c :: rest) := by
        rw [fraction]
        rintro d tail ⟨⟩
        exact hpoint rfl
      simp [hdigit, hfraction]

/-- A numeral is cut off where it ends. -/
theorem ofText_numeral_append (hwhole : IsDigits whole) (hplaces : ∀ c ∈ places, c.isDigit)
    (h : EndsNumeral after) :
    ofText (numeral whole places ++ after) =
      ⟨.number whole places, numeral whole places⟩ :: ofText after := by
  obtain ⟨htake, hdrop, hfraction⟩ := takeWhile_of_endsNumeral h
  obtain ⟨c, rest, rfl⟩ := List.exists_cons_of_ne_nil hwhole.ne_nil
  obtain ⟨hc, hrest⟩ := List.forall_mem_cons.mp hwhole.digits
  suffices hcut : ∃ tail, numeral (c :: rest) places ++ after = c :: tail ∧
      cutNumber c tail = (⟨.number (c :: rest) places, numeral (c :: rest) places⟩, after) by
    obtain ⟨tail, htail, hcut⟩ := hcut
    rw [htail, ofText_cons, cut_of_digit hc, hcut]
  by_cases hnil : places = []
  · subst hnil
    refine ⟨rest ++ after, rfl, ?_⟩
    rw [cutNumber, List.takeWhile_append_of_pos hrest, List.dropWhile_append_of_pos hrest, htake,
      hdrop, hfraction, List.append_nil]
  · obtain ⟨d, tail, rfl⟩ := List.exists_cons_of_ne_nil hnil
    obtain ⟨hd, htail⟩ := List.forall_mem_cons.mp hplaces
    refine ⟨rest ++ '.' :: d :: (tail ++ after), by simp [numeral], ?_⟩
    have hpoint : Char.isDigit '.' = false := rfl
    have hplaces' : fraction ('.' :: d :: (tail ++ after)) = (d :: tail, after) := by
      rw [fraction, if_pos hd, List.takeWhile_append_of_pos htail,
        List.dropWhile_append_of_pos htail, htake, hdrop, List.append_nil]
    rw [cutNumber, List.takeWhile_append_of_pos hrest, List.dropWhile_append_of_pos hrest,
      List.takeWhile_cons_of_neg (by simp [hpoint]), List.dropWhile_cons_of_neg (by simp [hpoint]),
      hplaces', List.append_nil]

theorem newlines_numeral (hwhole : IsDigits whole) (hplaces : ∀ c ∈ places, c.isDigit) :
    newlines ⟨.number whole places, numeral whole places⟩ = 0 := by
  rw [newlines, List.count_eq_zero]
  intro hmem
  have hnewline : '\n' ∉ whole := not_mem_of_digits hwhole.digits rfl
  have hnewline' : '\n' ∉ places := not_mem_of_digits hplaces rfl
  rw [numeral] at hmem
  split at hmem <;> simp_all

/-- The pieces of a sign. -/
def ofSign (x : Float) : List Piece := if isNegative x then [⟨.symbol .minus, ['-']⟩] else []

theorem ofText_signMark_append (x : Float) (rest : List Char) :
    ofText (signMark x ++ rest) = ofSign x ++ ofText rest := by
  rw [signMark, ofSign]
  split
  · have hcut : cut '-' rest = (⟨.symbol .minus, ['-']⟩, rest) := rfl
    rw [List.singleton_append, ofText_cons, hcut, List.singleton_append]
  · rfl

end Piece

/-! ## Tokens of printed numbers -/

/-- The tokens that spell a number: a minus sign if it has one, and its magnitude. -/
def spelling (x : Float) (lexeme : String) : List Token :=
  (if isNegative x then [.plain .minus "-" 1] else []) ++
    [⟨.number, lexeme, some (.number x.abs), 1⟩]

theorem tokensFrom_ofSign_append (x : Float) (pieces : List Piece) :
    Piece.tokensFrom 1 (Piece.ofSign x ++ pieces) =
      (if isNegative x then [.plain .minus "-" 1] else []) ++ Piece.tokensFrom 1 pieces ∧
    Piece.errorsFrom 1 (Piece.ofSign x ++ pieces) = Piece.errorsFrom 1 pieces := by
  rw [Piece.ofSign]
  split <;> exact ⟨rfl, rfl⟩

/-- The text of an ordinary number gives the tokens that spell it, in front of any text that does
not go on with its numeral. -/
theorem IsOrdinary.exists_spelling (h : IsOrdinary x) :
    ∃ lexeme, (Value.number x).text = (if isNegative x then "-" else "") ++ lexeme ∧
      ∀ after, Piece.EndsNumeral after →
        let pieces := Piece.ofText ((Value.number x).text.toList ++ after)
        Piece.tokensFrom 1 pieces =
          spelling x lexeme ++ Piece.tokensFrom 1 (Piece.ofText after) ∧
        Piece.errorsFrom 1 pieces = Piece.errorsFrom 1 (Piece.ofText after) := by
  obtain ⟨whole, places, hwhole, hplaces, htext, hread⟩ := h.exists_numeral
  have hnewlines := Piece.newlines_numeral hwhole hplaces
  refine ⟨String.ofList (numeral whole places), ?_, fun after hafter ↦ ?_⟩
  · rw [htext, String.ofList_append, signMark]
    split <;> rfl
  · intro pieces
    have hpieces : pieces = Piece.ofSign x ++
        (⟨.number whole places, numeral whole places⟩ :: Piece.ofText after) := by
      simp only [pieces]
      rw [htext, String.toList_ofList, List.append_assoc, Piece.ofText_signMark_append,
        Piece.ofText_numeral_append hwhole hplaces hafter]
    obtain ⟨htokens, herrors⟩ := tokensFrom_ofSign_append x
      (⟨.number whole places, numeral whole places⟩ :: Piece.ofText after)
    rw [hpieces, htokens, herrors, Piece.tokensFrom, Piece.errorsFrom, hnewlines, spelling, ← hread,
      List.append_assoc]
    exact ⟨rfl, rfl⟩

/-! ## Printing printed numbers -/

/-- What spells a number is an expression with that value. -/
theorem exists_phrase (hcode : code x ≤ infinityCode) (lexeme : String) :
    ∃ phrase : Phrase 0, phrase.tokens = spelling x lexeme ∧
      ∀ scopes, phrase.expr.eval scopes = (scopes, .ok (.number x)) := by
  have hdenotes : (⟨.number, lexeme, some (.number x.abs), 1⟩ : Token).Denotes
      (.literal (.number x.abs)) := .constant (.number x.abs) (.inl rfl) rfl
  rw [spelling]
  cases hsign : isNegative x with
  | true =>
      refine ⟨.tighter (.tighter (.tighter (.tighter (.tighter
        (.unary ⟨.plain .minus "-" 1, .inr rfl⟩ (.tighter (.atom _ hdenotes))))))), rfl,
        fun scopes ↦ ?_⟩
      have hneg : -x.abs = x := by
        rw [abs_eq_ofCode hcode, neg_ofCode hcode hsign]
      exact congrArg (fun y ↦ (scopes, Except.ok (Value.number y))) hneg
  | false =>
      refine ⟨.tighter (.tighter (.tighter (.tighter (.tighter (.tighter (.atom _ hdenotes)))))),
        rfl, fun scopes ↦ ?_⟩
      exact congrArg (fun y ↦ (scopes, Except.ok (Value.number y))) (abs_eq_self hcode hsign)

/-- The keyword in front of a text on the first line gives one token. -/
theorem tokensFrom_print (text : List Char) :
    Piece.tokensFrom 1 (Piece.ofText ("print ".toList ++ text)) =
      .plain (.keyword .printWord) "print" 1 :: Piece.tokensFrom 1 (Piece.ofText text) ∧
    Piece.errorsFrom 1 (Piece.ofText ("print ".toList ++ text)) =
      Piece.errorsFrom 1 (Piece.ofText text) := by
  have hword : Piece.cut 'p' ('r' :: 'i' :: 'n' :: 't' :: ' ' :: text) =
      (⟨.word, ['p', 'r', 'i', 'n', 't']⟩, ' ' :: text) := rfl
  have hblank : Piece.cut ' ' text = (⟨.blank, [' ']⟩, text) := rfl
  have hpieces : Piece.ofText ("print ".toList ++ text) =
      ⟨.word, ['p', 'r', 'i', 'n', 't']⟩ :: ⟨.blank, [' ']⟩ :: Piece.ofText text := by
    change Piece.ofText ('p' :: 'r' :: 'i' :: 'n' :: 't' :: ' ' :: text) = _
    rw [Piece.ofText_cons, hword, Piece.ofText_cons, hblank]
  rw [hpieces]
  exact ⟨rfl, rfl⟩

/-- A source that prints the text of an ordinary number. -/
theorem programOf_print (h : IsOrdinary x) :
    ∃ e : Expr, (∀ scopes, e.eval scopes = (scopes, .ok (.number x))) ∧
      programOf ("print " ++ (Value.number x).text ++ ";") =
        .ok [.print (.plain (.keyword .printWord) "print" 1) e] := by
  obtain ⟨lexeme, -, hspelling⟩ := h.exists_spelling
  obtain ⟨phrase, hphrase, heval⟩ := exists_phrase h.code_lt.le lexeme
  obtain ⟨htokens, herrors⟩ := hspelling [';'] (by simp [Piece.EndsNumeral])
  obtain ⟨hword, hword'⟩ := tokensFrom_print ((Value.number x).text.toList ++ [';'])
  have hsource : ("print " ++ (Value.number x).text ++ ";").toList =
      "print ".toList ++ ((Value.number x).text.toList ++ [';']) := by
    rw [String.toList_append, String.toList_append, List.append_assoc]
    rfl
  have hsemicolon : Piece.ofText [';'] = [⟨.symbol .semicolon, [';']⟩] := by
    have hcut : Piece.cut ';' [] = (⟨.symbol .semicolon, [';']⟩, []) := rfl
    rw [Piece.ofText_cons, hcut, Piece.ofText_nil]
  refine ⟨phrase.expr, heval, programOf_eq_ok_iff_derivation.mpr ⟨?_,
    [.print ⟨.plain (.keyword .printWord) "print" 1, rfl⟩ phrase ⟨.plain .semicolon ";" 1, rfl⟩],
    ?_, rfl⟩⟩
  · rw [Scan.ofSource, Scan.errors_ofText, hsource, hword', herrors, hsemicolon]
    rfl
  · have hend : Piece.tokensFrom 1 [⟨.symbol .semicolon, [';']⟩] = [.plain .semicolon ";" 1] := rfl
    rw [wordsOf, hsource, hword, htokens, hsemicolon, ← hphrase, hend]
    simp [Declaration.tokensOfAll, Declaration.tokens]

/-- The text of an ordinary number is scanned as that number, and a source that prints this text
prints it as it stands. -/
theorem number_text_reprints (h : IsOrdinary x) :
    (∃ lexeme, (Value.number x).text = (if isNegative x then "-" else "") ++ lexeme ∧
      Scan.ofSource (Value.number x).text =
        ⟨(if isNegative x then [.plain .minus "-" 1] else []) ++
          [⟨.number, lexeme, some (.number x.abs), 1⟩, .endOfInput 1], []⟩) ∧
    ∀ (scopes : Scopes) (lines : List String),
      Session.run ⟨scopes, .lines lines⟩ ("print " ++ (Value.number x).text ++ ";") =
        (⟨scopes, .lines ((Value.number x).text :: lines)⟩, none) := by
  constructor
  · obtain ⟨lexeme, htext, hspelling⟩ := h.exists_spelling
    obtain ⟨htokens, herrors⟩ := hspelling [] nofun
    rw [List.append_nil, Piece.ofText_nil] at htokens herrors
    have hscanned : (Scan.ofSource (Value.number x).text).tokens =
        spelling x lexeme ++ [.endOfInput 1] := by
      rw [Scan.ofSource, Scan.tokens_ofText, htokens, count_newline_text h.code_lt,
        Piece.tokensFrom, List.append_nil]
    have hsound : (Scan.ofSource (Value.number x).text).errors = [] := by
      rw [Scan.ofSource, Scan.errors_ofText, herrors, Piece.errorsFrom]
    rw [spelling, List.append_assoc] at hscanned
    exact ⟨lexeme, htext, congrArg₂ Scan.mk hscanned hsound⟩
  · intro scopes lines
    obtain ⟨e, heval, hprogram⟩ := programOf_print h
    rw [Session.run_of_ok hprogram]
    simp only [Stmt.execAll, Stmt.exec, heval, Sink.write]
    rfl

/-- A negative fraction. -/
theorem number_text_reprints_fraction :
    IsOrdinary (-0.1) ∧
      Session.run ⟨Scopes.empty, .lines []⟩ "print -0.1;" =
        (⟨Scopes.empty, .lines ["-0.1"]⟩, none) := by
  have hordinary : IsOrdinary (-0.1) := .inr (by decide +kernel)
  have htext : (Value.number (-0.1)).text = "-0.1" := by decide +kernel
  have hrun := (number_text_reprints hordinary).2 Scopes.empty []
  rw [htext] at hrun
  exact ⟨hordinary, hrun⟩

end Lox
