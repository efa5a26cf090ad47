import Lox.Proofs.Grammar.Places
import Lox.Proofs.Session.Errors
import Lox.Proofs.Source.Lexeme

/-!
# Diagnostics of a failure

A failure is shown as its diagnostics, one behind the other with a line break between them. Each of
them takes one line, except that a syntax error at a string shows the string as it stands in the
source, with its line breaks.
-/

namespace Lox

/-! ## Lines -/

theorem not_mem_of_mem_splitOn {c : Char} {text line : List Char} (h : line ∈ text.splitOn c) :
    c ∉ line := by
  induction text generalizing line with
  | nil =>
      rw [List.splitOn_nil, List.mem_singleton] at h
      simp [h]
  | cons first text ih =>
      rw [List.splitOn_cons_eq_if_modifyHead] at h
      split at h
      next =>
        rcases List.mem_cons.mp h with rfl | hlater
        · exact List.not_mem_nil
        · exact ih hlater
      next hfirst =>
        obtain ⟨front, rest, hsplit⟩ := List.exists_cons_of_ne_nil (List.splitOn_ne_nil c text)
        rw [hsplit, List.modifyHead_cons] at h
        rw [hsplit] at ih
        rcases List.mem_cons.mp h with rfl | hlater
        · have hfront := ih List.mem_cons_self
          have hne : c ≠ first := fun heq ↦ hfirst (by simp [heq])
          exact List.not_mem_cons_of_ne_of_not_mem hne hfront
        · exact ih (List.mem_cons_of_mem front hlater)

/-- The lines of a text, the empty text being one line. -/
def linesOf (text : String) : List String := (text.toList.splitOn '\n').map String.ofList

def OneLine (text : String) : Prop := '\n' ∉ text.toList

instance (text : String) : Decidable (OneLine text) := inferInstanceAs (Decidable (_ ∉ _))

theorem oneLine_append {front rest : String} :
    OneLine (front ++ rest) ↔ OneLine front ∧ OneLine rest := by
  rw [OneLine, String.toList_append, List.mem_append, not_or]
  rfl

theorem oneLine_repr (n : Nat) : OneLine (Nat.repr n) := by
  rw [OneLine, Nat.repr, String.toList_ofList]
  intro hmem
  exact absurd (Nat.isDigit_of_mem_toDigits (by decide) (by decide) hmem) (by decide)

/-- Joined texts are the lines of the join exactly if each of them is one line. -/
theorem linesOf_intercalate_iff {texts : List String} (h : texts ≠ []) :
    linesOf ("\n".intercalate texts) = texts ↔ ∀ text ∈ texts, OneLine text := by
  constructor
  · intro hlines text htext
    rw [← hlines, linesOf] at htext
    obtain ⟨line, hline, rfl⟩ := List.mem_map.mp htext
    rw [OneLine, String.toList_ofList]
    exact not_mem_of_mem_splitOn hline
  · intro htexts
    have hsplit := List.splitOn_intercalate '\n' (List.forall_mem_map.mpr htexts) (by simpa using h)
    rw [linesOf, String.toList_intercalate, show "\n".toList = ['\n'] from rfl, hsplit]
    simp [Function.comp_def]

/-! ## Diagnostics -/

def ScanError.diagnostic (error : ScanError) : String :=
  "[line " ++ Nat.repr error.line ++ "] Error: " ++ error.fault.message

def SyntaxError.diagnostic (error : SyntaxError) : String :=
  if error.token.kind = .eof then
    "[line " ++ Nat.repr error.token.line ++ "] Error at end: " ++ error.fault.message
  else
    "[line " ++ Nat.repr error.token.line ++ "] Error at '" ++ error.token.lexeme ++ "': " ++
      error.fault.message

def RuntimeError.diagnostic (error : RuntimeError) : String :=
  "[line " ++ Nat.repr error.token.line ++ "] Error: " ++ error.fault.message

def Failure.diagnostics : Failure → List String
  | scan errors => errors.map ScanError.diagnostic
  | parse errors => errors.map SyntaxError.diagnostic
  | runtime error => [error.diagnostic]

theorem Report.text_onLine (line : Nat) (message : String) :
    (onLine line message).text = "[line " ++ Nat.repr line ++ "] Error: " ++ message := by
  have hmark : "] Error: " = "] Error" ++ ("" ++ ": ") := by decide +kernel
  rw [hmark]
  simp only [text, onLine, Place.text, String.append_assoc, -String.reduceAppend]

theorem SyntaxError.text_report (error : SyntaxError) : error.report.text = error.diagnostic := by
  rw [diagnostic]
  split
  next hend =>
    have hmark : "] Error at end: " = "] Error" ++ (" at end" ++ ": ") := by decide +kernel
    have hplace : Report.Place.ofToken error.token = .atEnd := by
      simp [Report.Place.ofToken, Token.isEnd, hend]
    rw [hmark]
    simp only [report, Report.onToken, Report.text, hplace, Report.Place.text,
      String.append_assoc, -String.reduceAppend]
  next hend =>
    have hopen : "] Error at '" = "] Error" ++ " at '" := by decide +kernel
    have hclose : "': " = "'" ++ ": " := by decide +kernel
    have hplace : Report.Place.ofToken error.token = .atLexeme error.token.lexeme := by
      simp [Report.Place.ofToken, Token.isEnd, hend]
    rw [hopen, hclose]
    simp only [report, Report.onToken, Report.text, hplace, Report.Place.text,
      String.append_assoc, -String.reduceAppend]

theorem Failure.text_eq (failure : Failure) :
    failure.text = "\n".intercalate failure.diagnostics := by
  rw [text, Report.textOfAll]
  cases failure with
  | scan errors =>
      rw [reports, diagnostics, List.map_map]
      congr 1
      exact List.map_congr_left fun error _ ↦ Report.text_onLine error.line error.fault.message
  | parse errors =>
      rw [reports, diagnostics, List.map_map]
      congr 1
      exact List.map_congr_left fun error _ ↦ error.text_report
  | runtime error =>
      rw [reports, diagnostics, List.map_singleton, RuntimeError.report, Report.text_onLine]
      rfl

/-! ## Which diagnostics take one line -/

namespace Piece

theorem exists_token?_of_mem {line : Nat} {pieces : List Piece} {token : Token}
    (h : token ∈ tokensFrom line pieces) :
    ∃ piece ∈ pieces, ∃ last, piece.token? last = some token := by
  induction pieces generalizing line with
  | nil => simp [tokensFrom] at h
  | cons piece rest ih =>
      rcases List.mem_append.mp h with hfirst | hlater
      · exact ⟨piece, List.mem_cons_self, _, Option.mem_toList.mp hfirst⟩
      · obtain ⟨other, hmem, hother⟩ := ih hlater
        exact ⟨other, List.mem_cons_of_mem piece hmem, hother⟩

/-- Only the lexemes of strings have line breaks. -/
theorem IsLexeme.oneLine {piece : Piece} (h : piece.IsLexeme) {line : Nat} {token : Token}
    (htoken : piece.token? line = some token) (hkind : token.kind ≠ .string) :
    OneLine token.lexeme := by
  rw [OneLine]
  cases h with
  | blank | comment => cases htoken
  | @symbol text kind hmem =>
      have hsymbols : ∀ entry ∈ symbols, '\n' ∉ entry.1 := by decide
      cases htoken
      rw [Token.plain, lexeme, String.toList_ofList]
      exact hsymbols _ hmem
  | string =>
      cases htoken
      exact absurd rfl hkind
  | whole hne hdigits =>
      cases htoken
      rw [lexeme, String.toList_ofList]
      intro hmem
      exact absurd (hdigits _ hmem) (by decide)
  | @decimal digits places hne hdigits hplaces hplacesDigits =>
      cases htoken
      rw [lexeme, String.toList_ofList]
      intro hmem
      rcases List.mem_append.mp hmem with hmem | hmem
      · exact absurd (hdigits _ hmem) (by decide)
      · rcases List.mem_cons.mp hmem with heq | hmem
        · exact absurd heq (by decide)
        · exact absurd (hplacesDigits _ hmem) (by decide)
  | @word c rest hfirst hrest =>
      cases htoken
      rw [Token.plain, lexeme, String.toList_ofList]
      intro hmem
      rcases List.mem_cons.mp hmem with rfl | hmem
      · exact absurd hfirst (by decide)
      · exact absurd (hrest _ hmem) (by decide)

end Piece

theorem exists_lexeme_of_mem {source : String} {token : Token} (h : token ∈ wordsOf source) :
    ∃ piece : Piece, piece.IsLexeme ∧ ∃ line, piece.token? line = some token := by
  obtain ⟨piece, hpiece, line, htoken⟩ := Piece.exists_token?_of_mem h
  have hfault : piece.fault? = none := by
    rw [Piece.token?] at htoken
    rw [Piece.fault?]
    split at htoken <;> simp_all
  exact ⟨piece, Piece.isLexeme_of_mem hpiece hfault, line, htoken⟩

theorem oneLine_lexeme {source : String} {token : Token} (h : token ∈ wordsOf source)
    (hkind : token.kind ≠ .string) : OneLine token.lexeme := by
  obtain ⟨piece, hlexeme, line, htoken⟩ := exists_lexeme_of_mem h
  exact hlexeme.oneLine htoken hkind

theorem ScanError.oneLine_diagnostic (error : ScanError) : OneLine error.diagnostic := by
  have hmessage : OneLine error.fault.message := by
    cases error.fault <;> decide +kernel
  rw [diagnostic, oneLine_append, oneLine_append, oneLine_append]
  exact ⟨⟨⟨by decide +kernel, oneLine_repr _⟩, by decide +kernel⟩, hmessage⟩

theorem RuntimeFault.ArisesAt.oneLine_message {token : Token} {fault : RuntimeFault}
    (h : fault.ArisesAt token) (hlexeme : token.kind ≠ .string → OneLine token.lexeme) :
    OneLine fault.message := by
  cases h with
  | undefined hkind =>
      have hname : OneLine ("Undefined variable '" ++ token.lexeme ++ "'.") := by
        rw [oneLine_append, oneLine_append]
        exact ⟨⟨by decide +kernel, hlexeme (by simp [hkind])⟩, by decide +kernel⟩
      exact hname
  | operandNotNumber | operandsNotAddable | operandsNotNumbers => decide +kernel

theorem RuntimeError.oneLine_diagnostic {source : String} {error : RuntimeError}
    (h : error.PointsInto (wordsOf source)) : OneLine error.diagnostic := by
  have hmessage : OneLine error.fault.message := h.2.oneLine_message (oneLine_lexeme h.1)
  rw [diagnostic, oneLine_append, oneLine_append, oneLine_append]
  exact ⟨⟨⟨by decide +kernel, oneLine_repr _⟩, by decide +kernel⟩, hmessage⟩

theorem SyntaxError.oneLine_diagnostic_iff {error : SyntaxError} :
    OneLine error.diagnostic ↔ (error.token.kind ≠ .eof → OneLine error.token.lexeme) := by
  have hmessage : OneLine error.fault.message := by
    cases error.fault <;> decide +kernel
  have hopen : OneLine ("[line " ++ Nat.repr error.token.line) :=
    oneLine_append.mpr ⟨by decide +kernel, oneLine_repr _⟩
  rw [diagnostic]
  split
  next hend =>
    -- The end of input is shown without its lexeme.
    rw [oneLine_append, oneLine_append]
    exact iff_of_true ⟨⟨hopen, by decide +kernel⟩, hmessage⟩ fun hne ↦ absurd hend hne
  next hend =>
    have hmark : OneLine "] Error at '" ∧ OneLine "': " := by decide +kernel
    rw [oneLine_append, oneLine_append, oneLine_append, oneLine_append]
    simp [hopen, hmark.1, hmark.2, hmessage, hend]

/-! ## Failures of runs -/

section

variable {source : String} {failure : Failure}

theorem diagnostics_ne_nil (h : programOf source = .error failure) : failure.diagnostics ≠ [] := by
  rw [programOf] at h
  dsimp only at h
  split at h
  next =>
    split at h
    · cases h
    next herrors =>
      cases h
      simpa [Failure.diagnostics] using herrors
  next herrors =>
    cases h
    simpa [Failure.diagnostics] using herrors

theorem syntaxErrors_mem {errors : List SyntaxError}
    (h : programOf source = .error (.parse errors)) :
    ∀ error ∈ errors, error.token ∈ wordsOf source ∨ error.token.kind = .eof := by
  rw [programOf] at h
  dsimp only at h
  split at h
  next =>
    split at h <;> cases h
    rw [Scan.ofSource, Scan.tokens_ofText]
    intro error herror
    have hmem := Parsed.errors_mem (wordsOf_kind_ne_eof source) rfl [] error herror
    rcases List.mem_append.mp hmem with hword | hend
    · exact .inl hword
    · rw [List.mem_singleton.mp hend]
      exact .inr rfl
  next => cases h

theorem programOf_of_run {session : Session} (h : (session.run source).2 = some failure)
    (hstatic : ∀ error, failure ≠ .runtime error) : programOf source = .error failure := by
  cases hprogram : programOf source with
  | error cause =>
      rw [Session.run, hprogram] at h
      cases h
      rfl
  | ok program =>
      rw [Session.run_of_ok hprogram] at h
      obtain ⟨error, -, rfl⟩ := Option.map_eq_some_iff.mp h
      exact absurd rfl (hstatic error)

end

/-- Every diagnostic of a failed run is one line, but for syntax errors at strings. -/
theorem oneLine_diagnostics_iff {session : Session} {source : String} {failure : Failure}
    (hsink : session.sink.isBuffer) (h : (session.run source).2 = some failure) :
    (∀ text ∈ failure.diagnostics, OneLine text) ↔
      ∀ errors, failure = .parse errors → ∀ error ∈ errors, error.token.kind = .string →
        OneLine error.token.lexeme := by
  cases failure with
  | scan errors =>
      refine iff_of_true ?_ fun _ heq ↦ nomatch heq
      exact List.forall_mem_map.mpr fun error _ ↦ error.oneLine_diagnostic
  | parse errors =>
      have hmem := syntaxErrors_mem (programOf_of_run h fun _ heq ↦ nomatch heq)
      rw [Failure.diagnostics, List.forall_mem_map]
      constructor
      · rintro hall _ ⟨⟩ error herror hkind
        exact SyntaxError.oneLine_diagnostic_iff.mp (hall error herror) (by simp [hkind])
      · intro hall error herror
        refine SyntaxError.oneLine_diagnostic_iff.mpr ?_
        intro hend
        by_cases hkind : error.token.kind = .string
        · exact hall errors rfl error herror hkind
        · exact oneLine_lexeme ((hmem error herror).resolve_right hend) hkind
  | runtime error =>
      have hline := RuntimeError.oneLine_diagnostic (Session.run_pointsInto hsink h)
      refine iff_of_true ?_ fun _ heq ↦ nomatch heq
      exact List.forall_mem_singleton.mpr hline

/-- Where all lines are kept, a failure is shown as its diagnostics, at least one, with line
breaks between them. They are the lines of what is shown exactly if no syntax error stands at a
string with a line break in it. -/
theorem Session.run_failure_lines {session : Session} {source : String} {failure : Failure}
    (hsink : session.sink.isBuffer) (h : (session.run source).2 = some failure) :
    failure.diagnostics ≠ [] ∧
      failure.text = "\n".intercalate failure.diagnostics ∧
      (linesOf failure.text = failure.diagnostics ↔
        ∀ errors, failure = .parse errors → ∀ error ∈ errors, error.token.kind = .string →
          OneLine error.token.lexeme) := by
  have hne : failure.diagnostics ≠ [] := by
    cases failure with
    | scan | parse => exact diagnostics_ne_nil (programOf_of_run h fun _ heq ↦ nomatch heq)
    | runtime error => exact List.cons_ne_nil _ _
  refine ⟨hne, failure.text_eq, ?_⟩
  rw [failure.text_eq, linesOf_intercalate_iff hne]
  exact oneLine_diagnostics_iff hsink h

/-- Two errors, the second of them at a string on one line. -/
theorem Session.run_failure_lines_string :
    fresh.sink.isBuffer ∧
      ∃ failure, (fresh.run "1 = 2;\nnil \"a\";").2 = some failure ∧
        linesOf failure.text = failure.diagnostics ∧
        failure.diagnostics = ["[line 1] Error at '=': Invalid assignment target.",
          "[line 2] Error at '\"a\"': Expect ';' after expression."] := by
  obtain ⟨failure, hfailure⟩ : ∃ failure, (fresh.run "1 = 2;\nnil \"a\";").2 = some failure :=
    Option.isSome_iff_exists.mp (by decide +kernel)
  have hmap : (fresh.run "1 = 2;\nnil \"a\";").2.map Failure.diagnostics =
      some ["[line 1] Error at '=': Invalid assignment target.",
        "[line 2] Error at '\"a\"': Expect ';' after expression."] := by
    decide +kernel
  rw [hfailure] at hmap
  have hdiagnostics := Option.some.inj hmap
  have htext := (run_failure_lines rfl hfailure).2.1
  refine ⟨rfl, failure, hfailure, ?_, hdiagnostics⟩
  rw [htext, hdiagnostics]
  decide +kernel

/-- A string with a line break in it where a semicolon is missing: one diagnostic on two lines. -/
theorem Session.run_failure_lines_broken :
    ¬ ∀ (session : Session) (source : String) (failure : Failure), session.sink.isBuffer →
      (session.run source).2 = some failure → linesOf failure.text = failure.diagnostics := by
  intro hall
  obtain ⟨failure, hfailure⟩ : ∃ failure, (fresh.run "nil \"a\nb\";").2 = some failure :=
    Option.isSome_iff_exists.mp (by decide +kernel)
  have hmap : (fresh.run "nil \"a\nb\";").2.map (fun failure ↦
      ((linesOf failure.text).length, failure.diagnostics.length)) = some (2, 1) := by
    decide +kernel
  rw [hfailure] at hmap
  obtain ⟨hlines, hdiagnostics⟩ := Prod.mk.inj (Option.some.inj hmap)
  rw [hall fresh _ failure rfl hfailure, hdiagnostics] at hlines
  exact absurd hlines (by decide)

end Lox
