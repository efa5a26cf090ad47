import Lox.Proofs.Command.Lines
import Lox.Proofs.Command.Modes
import Lox.Proofs.Execution.Printing

/-!
# The prompt

Typed lines are answered one by one, each in the session that the lines before it left, up to the
end of input or to a line that is no text. A line that fails is reported and ends nothing.
-/

namespace Lox

/-! ## Replies to lines in a row -/

namespace Session

/-- The replies to lines that are answered one after the other in one session. -/
def replies (session : Session) (mode : Mode) : List String → List Reply
  | [] => []
  | line :: rest => session.reply line mode :: (session.after line mode).replies mode rest

variable {session : Session}

theorem run_behind (earlier : List String) (session : Session) (source : String) :
    (session.behind earlier).run source =
      ((session.run source).1.behind earlier, (session.run source).2) := by
  rw [run, run]
  cases programOf source with
  | error failure => rfl
  | ok program => simp only [execute_eq, Stmt.execAll_behind]

theorem run_isBuffer (h : session.sink.isBuffer) (source : String) :
    (session.run source).1.sink.isBuffer := by
  cases hprogram : programOf source with
  | error failure => rwa [run, hprogram]
  | ok program =>
      obtain ⟨-, p, -, rfl⟩ := programOf_eq_ok_iff_derivation.mp hprogram
      rw [run_of_ok hprogram]
      exact (Declaration.execAll_endsSoundly p h).isBuffer

theorem after_behind (earlier : List String) (session : Session) (source : String) (mode : Mode) :
    (session.behind earlier).after source mode = (session.after source mode).behind earlier := by
  cases mode with
  | run => exact congrArg Prod.fst (run_behind earlier session source)
  | tokens | tree => rfl

/-- A reply does not depend on the lines that a session has. -/
theorem reply_behind (h : session.sink = .empty) (earlier : List String) (source : String)
    (mode : Mode) : (session.behind earlier).reply source mode = session.reply source mode := by
  cases mode with
  | tokens | tree => rfl
  | run =>
      have hstart : session.sink.isBuffer := by rw [h]; rfl
      have hbuffer := run_isBuffer hstart source
      rw [reply, reply, printed, printed, run_behind, behind, behind, h]
      cases hsink : (session.run source).1.sink with
      | lines reversed => simp [Sink.behind, Sink.written, Sink.empty]
      | broken | closing => rw [hsink] at hbuffer; cases hbuffer

/-- A session that keeps its lines is one without lines, and its lines from before. -/
theorem exists_eq_behind (h : session.sink.isBuffer) :
    ∃ earlier, session = session.clearOutput.behind earlier := by
  obtain ⟨scopes, reversed | _ | _⟩ := session
  · exact ⟨reversed, rfl⟩
  · cases h
  · cases h

theorem clearOutput_sink (h : session.sink.isBuffer) : session.clearOutput.sink = .empty := by
  obtain ⟨scopes, _ | _ | _⟩ := session
  · rfl
  · cases h
  · cases h

theorem after_isBuffer (h : session.sink.isBuffer) (source : String) (mode : Mode) :
    (session.after source mode).sink.isBuffer := by
  cases mode with
  | run => exact run_isBuffer h source
  | tokens | tree => exact h

theorem reply_clearOutput (h : session.sink.isBuffer) (source : String) (mode : Mode) :
    session.clearOutput.reply source mode = session.reply source mode := by
  obtain ⟨earlier, heq⟩ := exists_eq_behind h
  conv => rhs; rw [heq]
  rw [reply_behind (clearOutput_sink h)]

theorem after_clearOutput (h : session.sink.isBuffer) (source : String) (mode : Mode) :
    (session.clearOutput.after source mode).clearOutput =
      (session.after source mode).clearOutput := by
  obtain ⟨earlier, heq⟩ := exists_eq_behind h
  have hcleared : session.clearOutput.sink.isBuffer := by rw [clearOutput_sink h]; rfl
  have hbuffer := after_isBuffer hcleared source mode
  conv => rhs; rw [heq, after_behind]
  generalize session.clearOutput.after source mode = next at hbuffer
  obtain ⟨scopes, _ | _ | _⟩ := next
  · rfl
  · cases hbuffer
  · cases hbuffer

/-- Replies do not depend on the lines that a session has. -/
theorem replies_clearOutput (h : session.sink.isBuffer) (mode : Mode) (sources : List String) :
    session.clearOutput.replies mode sources = session.replies mode sources := by
  induction sources generalizing session with
  | nil => rfl
  | cons source rest ih =>
      have hcleared : session.clearOutput.sink.isBuffer := by rw [clearOutput_sink h]; rfl
      have hrest := ih (after_isBuffer hcleared source mode)
      rw [after_clearOutput h, ih (after_isBuffer h source mode)] at hrest
      rw [replies, replies, reply_clearOutput h, hrest]

end Session

/-! ## A dialogue -/

/-- A prompt in front of each reply. -/
def shownText (replies : List Reply) : String :=
  String.join (replies.map fun reply ↦ promptText ++ textOfLines reply.lines)

def complaintText (replies : List Reply) : String := String.join (replies.map Reply.complaint)

@[simp] theorem shownText_cons (reply : Reply) (replies : List Reply) :
    shownText (reply :: replies) =
      promptText ++ textOfLines reply.lines ++ shownText replies := by
  simp [shownText, String.join_cons]

@[simp] theorem complaintText_cons (reply : Reply) (replies : List Reply) :
    complaintText (reply :: replies) = reply.complaint ++ complaintText replies := by
  simp [complaintText, String.join_cons]

namespace Dialogue

variable {d : Dialogue}

theorem prompt_of_empty (h : d.session.sink = .empty) :
    d.prompt = .ok { d with stdout := d.stdout ++ promptText } := by
  rw [prompt, h]
  rfl

theorem answer_of_empty (h : d.session.sink = .empty) (mode : Mode) (line : String) :
    d.answer mode line = .ok
      { session := (d.session.after line mode).clearOutput
        stdout := d.stdout ++ textOfLines (d.session.reply line mode).lines
        stderr := d.stderr ++ (d.session.reply line mode).complaint } := by
  obtain ⟨next, hcleared, hwritten, htreat⟩ := Session.exists_treat_eq h mode line
  rw [answer, htreat, Reply.complaint, ← hwritten, ← hcleared]
  cases (d.session.reply line mode).failure with
  | none => simp [Sink.text, textOfLines]
  | some failure => simp [complain, Sink.text, textOfLines, String.append_assoc]

/-- A line that is text is answered behind its prompt, whether or not it fails. -/
theorem run_ok (h : d.session.sink = .empty) (mode : Mode) (line : String)
    (later : List (Except String String)) :
    d.run mode (.ok line :: later) =
      ({ session := (d.session.after line mode).clearOutput
         stdout := d.stdout ++ promptText ++ textOfLines (d.session.reply line mode).lines
         stderr := d.stderr ++ (d.session.reply line mode).complaint } : Dialogue).run mode later := by
  rw [run, prompt_of_empty h]
  simp only [answer_of_empty (d := { d with stdout := d.stdout ++ promptText }) h]

/-- Lines are answered in order, whatever stands behind them. -/
theorem exists_run_eq (h : d.session.sink = .empty) (mode : Mode) (heard : List String)
    (later : List (Except String String)) :
    ∃ session : Session, session.sink = .empty ∧
      d.run mode (heard.map .ok ++ later) =
        ({ session
           stdout := d.stdout ++ shownText (d.session.replies mode heard)
           stderr := d.stderr ++ complaintText (d.session.replies mode heard) } : Dialogue).run
          mode later := by
  induction heard generalizing d with
  | nil => exact ⟨d.session, h, by simp [Session.replies, shownText, complaintText]⟩
  | cons line rest ih =>
      have hstart : d.session.sink.isBuffer := by rw [h]; rfl
      have hbuffer := Session.after_isBuffer hstart line mode
      rw [List.map_cons, List.cons_append, run_ok h, Session.replies, shownText_cons,
        complaintText_cons, ← Session.replies_clearOutput hbuffer]
      simp only [← String.append_assoc]
      exact ih (Session.clearOutput_sink hbuffer)

theorem run_nil (h : d.session.sink = .empty) (mode : Mode) :
    d.run mode [] = { status := 0, stdout := d.stdout ++ "> \n", stderr := d.stderr } := by
  rw [run, prompt_of_empty h]
  simp only [close, stop, String.append_assoc]
  rfl

theorem run_error (h : d.session.sink = .empty) (mode : Mode) (reason : String)
    (later : List (Except String String)) :
    d.run mode (.error reason :: later) =
      { status := 74
        stdout := d.stdout ++ "> "
        stderr := d.stderr ++ "Failed to read input: " ++ reason ++ "\n" } := by
  rw [run, prompt_of_empty h]
  simp only [giveUp, complain, stop, String.append_assoc]
  rfl

end Dialogue

/-! ## Lines that are text -/

namespace Input

/-- The lines of an input, where they are text. -/
def texts (bytes : ByteArray) : List (Option String) :=
  (linesBetween bytes.toList).map fun line ↦ String.fromUTF8? ⟨line.toArray⟩

def isText (bytes : ByteArray) : Bool := (texts bytes).all Option.isSome

/-- The lines in front of the first that is no text. -/
def textsInFront (bytes : ByteArray) : List String :=
  ((texts bytes).takeWhile Option.isSome).filterMap id

theorem decode_eq (bytes : ByteArray) :
    decode bytes = (String.fromUTF8? bytes).elim (.error invalidText) .ok := by
  rw [decode]
  cases String.fromUTF8? bytes <;> rfl

theorem lines_eq_append (bytes : ByteArray) :
    ∃ later, lines bytes = (textsInFront bytes).map .ok ++ later ∧
      if isText bytes then later = [] else ∃ rest, later = .error invalidText :: rest := by
  have hlines : lines bytes = (texts bytes).map (·.elim (.error invalidText) .ok) := by
    simp [lines_eq, texts, decode_eq]
  rw [hlines, textsInFront, isText]
  induction texts bytes with
  | nil => exact ⟨[], rfl, rfl⟩
  | cons line rest ih =>
      cases line with
      | none => exact ⟨_, rfl, _, rfl⟩
      | some line =>
          obtain ⟨later, heq, hlater⟩ := ih
          exact ⟨later, by simp [heq], by simpa using hlater⟩

end Input

/-- On a working standard output the prompt answers the lines of the input one by one, in the session
that the lines in front left, up to the end of input or to a line that is no text. Errors of a line
are reported and do not matter for the status. -/
theorem Outcome.prompt_answers (read : String → Except String ByteArray) (stdin : ByteArray)
    (mode : Mode) :
    let replies := Session.fresh.replies mode (Input.textsInFront stdin)
    Outcome.ofInvocation { read, stdin, stdout := .empty } (.work mode none) =
      if Input.isText stdin then
        { status := 0
          stdout := shownText replies ++ "> \n"
          stderr := complaintText replies }
      else
        { status := 74
          stdout := shownText replies ++ "> "
          stderr := complaintText replies ++
            "Failed to read input: stream did not contain valid UTF-8\n" } := by
  obtain ⟨later, hlines, hlater⟩ := Input.lines_eq_append stdin
  obtain ⟨session, hempty, hrun⟩ := Dialogue.exists_run_eq (d := Dialogue.start .empty) rfl mode
    (Input.textsInFront stdin) later
  dsimp only
  rw [ofInvocation, hlines, hrun]
  split at hlater
  next htext =>
    rw [hlater, Dialogue.run_nil hempty, if_pos htext]
    simp [Dialogue.start, Session.fresh]
  next htext =>
    obtain ⟨rest, rfl⟩ := hlater
    rw [Dialogue.run_error hempty, if_neg htext]
    simp [Dialogue.start, Session.fresh, Input.invalidText, String.append_assoc]

end Lox
