import Lox.Proofs.Command.Prompt
import Lox.Proofs.Session.Diagnostics

/-!
# Refused output

A standard output that refuses every line is noticed at the first line and nowhere else. A program
that would print stops there with a runtime error at its print; what only displays stops with a
failure of its own.
-/

namespace Lox

theorem Sink.writeAll_broken (reason : String) {lines : List String} (h : lines ≠ []) :
    (Sink.broken reason).writeAll lines = (.broken reason, some reason) := by
  obtain ⟨line, rest, rfl⟩ := List.exists_cons_of_ne_nil h
  rfl

namespace Session

variable {session : Session} {source reason : String} {program : List Stmt} {keyword : Token}
  {last : Machine}

/-- A source runs alike on any sink when no print of its program is reached with a value. -/
theorem run_withSink
    (h : ∀ program, programOf source = .ok program →
      ∀ keyword last, ¬ session.FirstPrint program keyword last)
    (sink : Sink) :
    (session.withSink sink).run source =
      ((session.run source).1.withSink sink, (session.run source).2) := by
  rw [run, run]
  cases hprogram : programOf source with
  | error failure => rfl
  | ok program => simp only [execute_withSink (h program hprogram)]

theorem FirstPrint.run_broken (h : session.FirstPrint program keyword last)
    (hprogram : programOf source = .ok program) (reason : String) :
    (session.withSink (.broken reason)).run source =
      (last.finish.withSink (.broken reason), some (.runtime ⟨keyword, .output reason⟩)) := by
  rw [run, hprogram]
  simp only [h.execute_broken, Option.map_some]

theorem display_broken {lines : List String} (h : lines ≠ []) (failure : Option Failure) :
    (session.withSink (.broken reason)).display lines failure =
      (session.withSink (.broken reason), some (.output reason)) := by
  have hwrite : (session.withSink (.broken reason)).sink.writeAll lines =
      (.broken reason, some reason) :=
    Sink.writeAll_broken reason h
  rw [display, hwrite]
  rfl

theorem listTokens_broken :
    (session.withSink (.broken reason)).listTokens source =
      (session.withSink (.broken reason), some (.output reason)) := by
  -- There is always a token for the end.
  have htokens : (Scan.ofSource source).tokens.map Token.listing ≠ [] := by
    rw [Scan.ofSource, Scan.tokens_ofText]
    simp
  exact display_broken htokens _

theorem dumpTree_broken (hscan : (Scan.ofSource source).errors = [])
    (hprogram : (Parsed.ofTokens (Scan.ofSource source).tokens).program ≠ []) :
    (session.withSink (.broken reason)).dumpTree source =
      (session.withSink (.broken reason), some (.output reason)) := by
  rw [dumpTree, hscan]
  exact display_broken (by simpa using hprogram) _

/-- What a tree without statements and what scan errors are answered by does not meet the sink. -/
theorem dumpTree_withSink
    (h : (Scan.ofSource source).errors ≠ [] ∨
      (Parsed.ofTokens (Scan.ofSource source).tokens).program = [])
    (sink : Sink) :
    (session.withSink sink).dumpTree source =
      ((session.dumpTree source).1.withSink sink, (session.dumpTree source).2) := by
  by_cases hscan : (Scan.ofSource source).errors = []
  · simp only [dumpTree, hscan, h.resolve_left (not_not_intro hscan)]
    rfl
  · simp only [dumpTree, List.isEmpty_iff, if_neg hscan]

end Session

theorem CommandFailure.status_mem (failure : CommandFailure) : failure.status ∈ [65, 70, 74] := by
  cases failure with
  | output reason => exact List.mem_of_getLast? rfl
  | program failure =>
      rw [status]
      split <;> simp

namespace Outcome

variable {session : Session} {failure : Option CommandFailure} {stdout : Sink} {mode : Mode}
  {path source : String}

theorem ofScript_eq (h : (Session.fresh.withSink stdout).treat mode source = (session, failure)) :
    Outcome.ofScript stdout mode path (.ok source) =
      { status := (failure.map CommandFailure.status).getD 0
        stdout := session.sink.text
        stderr := (failure.map fun failure ↦ failure.text ++ "\n").getD "" } := by
  have hstart : ({ scopes := .empty, sink := stdout } : Session) = Session.fresh.withSink stdout :=
    rfl
  rw [ofScript, hstart, h]

/-- On a broken sink nothing but the lines can differ where treating does not meet the sink. -/
theorem ofScript_broken_eq {reason : String}
    (h : (Session.fresh.withSink (.broken reason)).treat mode source =
      ((Session.fresh.treat mode source).1.withSink (.broken reason),
        (Session.fresh.treat mode source).2)) :
    Outcome.ofScript (.broken reason) mode path (.ok source) =
      { Outcome.ofScript .empty mode path (.ok source) with stdout := "" } := by
  have hworking : (Session.fresh.withSink .empty).treat mode source =
    ((Session.fresh.treat mode source).1, (Session.fresh.treat mode source).2) := rfl
  rw [ofScript_eq h, ofScript_eq hworking]
  rfl

theorem ofScript_of_firstPrint {program : List Stmt} {keyword : Token} {last : Machine}
    (h : Session.fresh.FirstPrint program keyword last) (hprogram : programOf source = .ok program)
    (reason path : String) :
    Outcome.ofScript (.broken reason) .run path (.ok source) =
      { status := 70
        stdout := ""
        stderr := "[line " ++ Nat.repr keyword.line ++ "] Error: Failed to write output: " ++
          reason ++ ".\n" } := by
  have htreat : (Session.fresh.withSink (.broken reason)).treat .run source =
      (last.finish.withSink (.broken reason),
        some (.program (.runtime ⟨keyword, .output reason⟩))) := by
    rw [Session.treat, h.run_broken hprogram]
    rfl
  have hmark : "] Error: Failed to write output: " = "] Error: " ++ "Failed to write output: " := by
    decide +kernel
  have hend : ".\n" = "." ++ "\n" := by decide +kernel
  have htext : (CommandFailure.program (.runtime ⟨keyword, .output reason⟩)).text =
      "[line " ++ Nat.repr keyword.line ++ "] Error: " ++
        ("Failed to write output: " ++ reason ++ ".") := by
    have hfailure := Failure.text_eq (.runtime ⟨keyword, .output reason⟩)
    rw [Failure.diagnostics, String.intercalate_singleton] at hfailure
    exact hfailure
  rw [ofScript_eq htreat, Option.map_some, Option.map_some, Option.getD_some, Option.getD_some,
    htext, hmark, hend]
  simp only [String.append_assoc, -String.reduceAppend]
  rfl

theorem ofScript_status_mem (stdout : Sink) (mode : Mode) (path source : String) :
    (Outcome.ofScript stdout mode path (.ok source)).status ∈ [0, 65, 70, 74] := by
  rcases h : (Session.fresh.withSink stdout).treat mode source with ⟨session, _ | failure⟩
  · rw [ofScript_eq h]
    exact List.mem_cons_self
  · rw [ofScript_eq h]
    exact List.mem_cons_of_mem _ failure.status_mem

end Outcome

/-- A prompt that cannot be shown ends the dialogue before any line is read. -/
theorem Dialogue.run_broken (reason : String) (mode : Mode) (lines : List (Except String String)) :
    (Dialogue.start (.broken reason)).run mode lines =
      { status := 74, stdout := "", stderr := "Failed to write output: " ++ reason ++ "\n" } := by
  rw [Dialogue.run]
  rfl

/-- A standard output that refuses every line fails at the first line and nowhere else. A program
runs as on a working one unless a print is reached with a value: at the first such print it ends
with a runtime error, and nothing behind has an effect. Tokens are never listed, a tree is dumped
only if it has no statement, and the prompt reads no line. -/
theorem Outcome.broken_output (reason path source : String) :
    let broken := fun mode ↦ Outcome.ofScript (.broken reason) mode path (.ok source)
    let working := fun mode ↦ Outcome.ofScript .empty mode path (.ok source)
    let fresh := Session.fresh
    let errors := (Scan.ofSource source).errors
    let parsed := Parsed.ofTokens (Scan.ofSource source).tokens
    let refused : Outcome :=
      { status := 74, stdout := "", stderr := "Failed to write output: " ++ reason ++ "\n" }
    ((∀ program, programOf source = .ok program →
        ∀ keyword last, ¬ fresh.FirstPrint program keyword last) →
      broken .run = { working .run with stdout := "" }) ∧
    (∀ program keyword last, programOf source = .ok program →
      fresh.FirstPrint program keyword last →
      broken .run =
          { status := 70
            stdout := ""
            stderr := "[line " ++ Nat.repr keyword.line ++ "] Error: Failed to write output: " ++
              reason ++ ".\n" } ∧
        ((fresh.withSink (.broken reason)).run source).1.scopes = last.finish.scopes) ∧
    broken .tokens = refused ∧
    (errors ≠ [] → broken .tree =
      { status := 65, stdout := "", stderr := (Failure.scan errors).text ++ "\n" }) ∧
    (errors = [] → parsed.program ≠ [] → broken .tree = refused) ∧
    (errors = [] → parsed.program = [] → broken .tree = { working .tree with stdout := "" }) ∧
    (∀ read stdin, ∀ mode : Mode,
      Outcome.ofInvocation { read, stdin, stdout := .broken reason } (.work mode none) =
        refused) ∧
    ∀ mode, (broken mode).status ∈ [0, 65, 70, 74] := by
  have htokens : (Session.fresh.withSink (.broken reason)).treat .tokens source =
      (Session.fresh.withSink (.broken reason), some (.output reason)) :=
    Session.listTokens_broken
  refine ⟨fun hnone ↦ ?_, fun program keyword last hprogram hfirst ↦ ⟨?_, ?_⟩, ?_, fun hscan ↦ ?_,
    fun hscan hprogram ↦ ?_, fun _ hprogram ↦ ?_, fun read stdin mode ↦ ?_,
    fun mode ↦ ofScript_status_mem _ _ _ _⟩
  · apply ofScript_broken_eq
    simp only [Session.treat, Session.run_withSink hnone (.broken reason)]
  · exact ofScript_of_firstPrint hfirst hprogram reason path
  · rw [hfirst.run_broken hprogram reason]
    rfl
  · exact ofScript_eq htokens
  · have htree : (Session.fresh.withSink (.broken reason)).treat .tree source =
        ((Session.fresh.treat .tree source).1.withSink (.broken reason),
          (Session.fresh.treat .tree source).2) :=
      Session.dumpTree_withSink (.inl hscan) _
    dsimp only
    rw [ofScript_broken_eq htree, ofScript_eq_reply, (Session.fresh.reply_of_scan_errors hscan).2.2]
    rfl
  · have htree : (Session.fresh.withSink (.broken reason)).treat .tree source =
        (Session.fresh.withSink (.broken reason), some (.output reason)) :=
      Session.dumpTree_broken hscan hprogram
    exact ofScript_eq htree
  · have htree : (Session.fresh.withSink (.broken reason)).treat .tree source =
        ((Session.fresh.treat .tree source).1.withSink (.broken reason),
          (Session.fresh.treat .tree source).2) :=
      Session.dumpTree_withSink (.inr hprogram) _
    exact ofScript_broken_eq htree
  · exact Dialogue.run_broken reason mode _

/-- A print on the second line, behind a statement that prints nothing. -/
theorem Outcome.broken_output_second_line :
    let keyword := Token.plain (.keyword .printWord) "print" 2
    let last : Machine := { Session.fresh.begin with operands := [.nil] }
    let program := [Stmt.expression (.literal .nil), .print keyword (.literal .nil)]
    programOf "nil;\nprint nil;" = .ok program ∧
      Session.fresh.FirstPrint program keyword last ∧
      (Outcome.ofScript (.broken "Broken pipe (os error 32)") .run "hello.lox"
        (.ok "nil;\nprint nil;")).stderr =
        "[line 2] Error: Failed to write output: Broken pipe (os error 32).\n" := by
  intro keyword last program
  have hprogram : programOf "nil;\nprint nil;" = .ok program := by with_unfolding_all rfl
  have hpush : Session.fresh.begin.Ready (.push .nil) := Machine.ready_of_arity (by decide) rfl
  have hdrop : last.Ready .drop := Machine.ready_of_arity (by decide) rfl
  have hfirst : Session.fresh.FirstPrint program keyword last :=
    ⟨[.push .nil, .drop, .push .nil], [], rfl, by decide,
      .cons hpush rfl (.cons hdrop rfl (.cons hpush rfl (.nil last)))⟩
  obtain ⟨-, hrun, -⟩ := broken_output "Broken pipe (os error 32)" "hello.lox" "nil;\nprint nil;"
  have houtcome := (hrun program keyword last hprogram hfirst).1
  refine ⟨hprogram, hfirst, (congrArg Outcome.stderr houtcome).trans ?_⟩
  decide +kernel

end Lox
