import Lox.Command.Outcome
import Lox.Proofs.Session.Errors

/-!
# Modes of the command

What the command shows of a script by running it, by listing its tokens and by dumping its tree. All
three find the same errors in a script, report them alike and exit alike on them.
-/

namespace Lox

/-- Lines as they are written, each with its end. -/
def textOfLines (lines : List String) : String := String.join (lines.map (· ++ "\n"))

@[simp] theorem textOfLines_nil : textOfLines [] = "" := rfl

/-! ## Replies -/

/-- The lines that answer a source, and the failure behind them. -/
structure Reply where
  lines : List String
  failure : Option Failure

namespace Reply

def status (reply : Reply) : Nat :=
  match reply.failure with
  | none => 0
  | some (.scan _) | some (.parse _) => 65
  | some (.runtime _) => 70

/-- What a reply adds to standard error. -/
def complaint (reply : Reply) : String :=
  match reply.failure with
  | none => ""
  | some failure => failure.text ++ "\n"

end Reply

namespace Session

/-- The lines that running a source adds to those a session has. -/
def printed (session : Session) (source : String) : List String :=
  (session.run source).1.sink.written.drop session.sink.written.length

def reply (session : Session) (source : String) : Mode → Reply
  | .run => { lines := session.printed source, failure := (session.run source).2 }
  | .tokens =>
      let scan := Scan.ofSource source
      { lines := scan.tokens.map Token.listing
        failure := if scan.errors = [] then none else some (.scan scan.errors) }
  | .tree =>
      let scan := Scan.ofSource source
      let parsed := Parsed.ofTokens scan.tokens
      if scan.errors = [] then
        { lines := parsed.program.map Stmt.dump
          failure := if parsed.errors = [] then none else some (.parse parsed.errors) }
      else { lines := [], failure := some (.scan scan.errors) }

/-- The session behind a source. Only running changes it. -/
def after (session : Session) (source : String) : Mode → Session
  | .run => (session.run source).1
  | .tokens | .tree => session

end Session

theorem Sink.writeAll_lines (reversed lines : List String) :
    (Sink.lines reversed).writeAll lines = (.lines (lines.reverse ++ reversed), none) := by
  induction lines generalizing reversed with
  | nil => rfl
  | cons line lines ih =>
      have hrest := ih (line :: reversed)
      rw [List.reverse_cons, List.append_assoc]
      exact hrest

theorem Session.exists_display_eq {session : Session} (h : session.sink = .empty)
    (lines : List String) (failure : Option Failure) :
    ∃ next : Session, next.clearOutput = session.clearOutput ∧ next.sink.written = lines ∧
      session.display lines failure = (next, failure.map .program) := by
  refine ⟨{ session with sink := .lines lines.reverse }, ?_, ?_, ?_⟩
  · rw [clearOutput, clearOutput, h]
    rfl
  · rw [Sink.written, List.reverse_reverse]
  · rw [display, h, Sink.empty, Sink.writeAll_lines, List.append_nil]

/-- On a sink that is empty and takes all lines, a source is answered by its reply. -/
theorem Session.exists_treat_eq {session : Session} (h : session.sink = .empty) (mode : Mode)
    (source : String) :
    ∃ next : Session, next.clearOutput = (session.after source mode).clearOutput ∧
      next.sink.written = (session.reply source mode).lines ∧
      session.treat mode source = (next, (session.reply source mode).failure.map .program) := by
  cases mode with
  | run =>
      refine ⟨(session.run source).1, rfl, ?_, rfl⟩
      rw [reply, printed, h]
      rfl
  | tokens =>
      simp only [treat, listTokens, reply, after, List.isEmpty_iff]
      exact exists_display_eq h _ _
  | tree =>
      simp only [treat, dumpTree, reply, after, List.isEmpty_iff]
      split
      · exact exists_display_eq h _ _
      · exact ⟨session, rfl, by rw [h]; rfl, rfl⟩

theorem Outcome.ofScript_eq_reply (mode : Mode) (path source : String) :
    Outcome.ofScript .empty mode path (.ok source) =
      { status := (Session.fresh.reply source mode).status
        stdout := textOfLines (Session.fresh.reply source mode).lines
        stderr := (Session.fresh.reply source mode).complaint } := by
  obtain ⟨next, -, hwritten, htreat⟩ :=
    Session.exists_treat_eq (rfl : Session.fresh.sink = .empty) mode source
  have hstart : ({ scopes := .empty, sink := .empty } : Session) = Session.fresh := rfl
  rw [ofScript, hstart, htreat, ← hwritten, Reply.status, Reply.complaint]
  rcases (Session.fresh.reply source mode).failure with _ | _ | _ | _ <;> rfl

/-! ## Three cases of a source -/

namespace Session

variable (session : Session) {source : String}

theorem reply_run_of_error {failure : Failure} (h : programOf source = .error failure) :
    session.reply source .run = { lines := [], failure := some failure } := by
  have hrun : session.run source = (session, some failure) := by rw [run, h]
  rw [reply, printed, hrun, List.drop_length]

/-- A source with scan errors is answered by them in every mode, behind its tokens if they are
listed. -/
theorem reply_of_scan_errors (h : (Scan.ofSource source).errors ≠ []) :
    let failure := Failure.scan (Scan.ofSource source).errors
    session.reply source .run = { lines := [], failure := some failure } ∧
      session.reply source .tokens =
        { lines := (Scan.ofSource source).tokens.map Token.listing, failure := some failure } ∧
      session.reply source .tree = { lines := [], failure := some failure } := by
  have hprogram : programOf source = .error (.scan (Scan.ofSource source).errors) := by
    simp [programOf, h]
  refine ⟨reply_run_of_error session hprogram, ?_, ?_⟩ <;> simp [reply, h]

/-- Syntax errors are not seen where the tokens are listed, and stand behind the tree. -/
theorem reply_of_syntax_errors (h : (Scan.ofSource source).errors = [])
    (hparse : (Parsed.ofTokens (Scan.ofSource source).tokens).errors ≠ []) :
    let parsed := Parsed.ofTokens (Scan.ofSource source).tokens
    session.reply source .run = { lines := [], failure := some (.parse parsed.errors) } ∧
      session.reply source .tokens =
        { lines := (Scan.ofSource source).tokens.map Token.listing, failure := none } ∧
      session.reply source .tree =
        { lines := parsed.program.map Stmt.dump, failure := some (.parse parsed.errors) } := by
  have hprogram : programOf source =
      .error (.parse (Parsed.ofTokens (Scan.ofSource source).tokens).errors) := by
    simp [programOf, h, hparse]
  refine ⟨reply_run_of_error session hprogram, ?_, ?_⟩ <;> simp [reply, h, hparse]

theorem reply_of_sound (h : (Scan.ofSource source).errors = [])
    (hparse : (Parsed.ofTokens (Scan.ofSource source).tokens).errors = []) :
    let parsed := Parsed.ofTokens (Scan.ofSource source).tokens
    session.run source =
        ((session.execute parsed.program).1, (session.execute parsed.program).2.map .runtime) ∧
      session.reply source .tokens =
        { lines := (Scan.ofSource source).tokens.map Token.listing, failure := none } ∧
      session.reply source .tree = { lines := parsed.program.map Stmt.dump, failure := none } := by
  have hprogram : programOf source =
      .ok (Parsed.ofTokens (Scan.ofSource source).tokens).program := by
    simp [programOf, h, hparse]
  refine ⟨?_, ?_, ?_⟩
  · rw [run, hprogram]
  · simp [reply, h]
  · simp [reply, h, hparse]

end Session

/-- On a working standard output all modes find the same errors in a script. Running and dumping
exit with 65 on the same scripts and report the same; listing does so on scan errors only. A script
without such errors is dumped as the program that running executes, which exits with 70 at a runtime
error and with 0 without one. -/
theorem Outcome.modes_agree (path source : String) :
    let outcome := fun mode ↦ Outcome.ofScript .empty mode path (.ok source)
    let scan := Scan.ofSource source
    let parsed := Parsed.ofTokens scan.tokens
    let fresh := Session.fresh
    ((outcome .run).status = 65 ↔ (outcome .tree).status = 65) ∧
      ((outcome .run).status = 65 →
        (outcome .run).stderr = (outcome .tree).stderr ∧ (outcome .run).stdout = "") ∧
      ((outcome .tokens).status = 65 ↔ scan.errors ≠ []) ∧
      ((outcome .tokens).status = 65 → ∀ mode, (outcome mode).stderr = (outcome .tokens).stderr) ∧
      ((outcome .tokens).status ≠ 65 →
        (outcome .tokens).status = 0 ∧ (outcome .tokens).stderr = "") ∧
      ((outcome .run).status = 70 ↔ ∃ error, (fresh.run source).2 = some (.runtime error)) ∧
      ((outcome .run).status = 65 ∨ (outcome .run).status = 70 ∨ (outcome .run).status = 0) ∧
      ((outcome .run).status ≠ 65 →
        fresh.run source =
            ((fresh.execute parsed.program).1, (fresh.execute parsed.program).2.map .runtime) ∧
          outcome .tree =
            { status := 0, stdout := textOfLines (parsed.program.map Stmt.dump), stderr := "" }) ∧
      ((outcome .tokens).stdout = textOfLines (scan.tokens.map Token.listing) ∧
        ∃ words ending, scan.tokens = words ++ [ending] ∧ ending.kind = .eof ∧
          ∀ word ∈ words, word.kind ≠ .eof) ∧
      (outcome .tree).stdout =
        if scan.errors = [] then textOfLines (parsed.program.map Stmt.dump) else "" := by
  have hlast : ∃ words ending, (Scan.ofSource source).tokens = words ++ [ending] ∧
      ending.kind = .eof ∧ ∀ word ∈ words, word.kind ≠ .eof :=
    ⟨wordsOf source, _, Scan.tokens_ofText _, rfl, wordsOf_kind_ne_eof source⟩
  dsimp only
  simp only [ofScript_eq_reply]
  by_cases hscan : (Scan.ofSource source).errors = []
  · by_cases hparse : (Parsed.ofTokens (Scan.ofSource source).tokens).errors = []
    · obtain ⟨hrun, htokens, htree⟩ := Session.fresh.reply_of_sound hscan hparse
      have hfailure : (Session.fresh.reply source .run).failure =
          (Session.fresh.execute _).2.map .runtime := congrArg Prod.snd hrun
      rw [htokens, htree]
      simp only [Reply.status, Reply.complaint, hfailure, hrun]
      -- Only the run can still fail, at a step.
      cases (Session.fresh.execute _).2 <;> simp [hscan, hlast]
    · obtain ⟨hrun, htokens, htree⟩ := Session.fresh.reply_of_syntax_errors hscan hparse
      have hfailure : (Session.fresh.run source).2 = some (.parse _) := congrArg Reply.failure hrun
      rw [hrun, htokens, htree, hfailure]
      simp [Reply.status, Reply.complaint, hscan, hlast]
  · obtain ⟨hrun, htokens, htree⟩ := Session.fresh.reply_of_scan_errors hscan
    have hfailure : (Session.fresh.run source).2 = some (.scan _) := congrArg Reply.failure hrun
    have hcomplaint : ∀ mode, (Session.fresh.reply source mode).complaint =
        (Failure.scan (Scan.ofSource source).errors).text ++ "\n" := by
      intro mode
      cases mode with
      | run => rw [hrun]; rfl
      | tokens => rw [htokens]; rfl
      | tree => rw [htree]; rfl
    simp only [hcomplaint]
    rw [hrun, htokens, htree, hfailure]
    simp [Reply.status, hscan, hlast]

end Lox
