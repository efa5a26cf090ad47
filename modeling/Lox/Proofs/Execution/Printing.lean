import Lox.Proofs.Execution.Order

/-!
# Printing

Nothing but the printed lines depends on what a sink already holds. A sink that refuses every line
changes nothing in front of the first line that is printed, and ends the program there.
-/

namespace Lox

/-! ## Lines from before -/

/-- The sink with earlier lines, the last first, below its own. -/
def Sink.behind (earlier : List String) : Sink → Sink
  | lines reversed => lines (reversed ++ earlier)
  | broken reason => broken reason
  | closing room reversed reason => closing room (reversed ++ earlier) reason

theorem Sink.write_behind (earlier : List String) (sink : Sink) (line : String) :
    (sink.behind earlier).write line = (sink.write line).map (behind earlier) := by
  cases sink with
  | lines | broken => rfl
  | closing room => cases room <;> rfl

def Session.behind (earlier : List String) (session : Session) : Session :=
  { session with sink := session.sink.behind earlier }

mutual

theorem Stmt.exec_behind (earlier : List String) (s : Stmt) (session : Session) :
    s.exec (session.behind earlier) =
      ((s.exec session).1.behind earlier, (s.exec session).2) := by
  match s with
  | .expression e =>
      simp only [Stmt.exec, Session.behind]
      rcases e.eval session.scopes with ⟨scopes, error | value⟩ <;> rfl
  | .print keyword e =>
      simp only [Stmt.exec, Session.behind]
      rcases e.eval session.scopes with ⟨scopes, error | value⟩
      · rfl
      · simp only [Sink.write_behind]
        cases session.sink.write value.text <;> rfl
  | .declare name none => rfl
  | .declare name (some e) =>
      simp only [Stmt.exec, Session.behind]
      rcases e.eval session.scopes with ⟨scopes, error | value⟩ <;> rfl
  | .block body =>
      have hbody := Stmt.execAll_behind earlier body session.enter
      have henter : (session.behind earlier).enter = session.enter.behind earlier := rfl
      simp only [Stmt.exec, henter, hbody]
      rfl

theorem Stmt.execAll_behind (earlier : List String) (program : List Stmt) (session : Session) :
    Stmt.execAll (session.behind earlier) program =
      ((Stmt.execAll session program).1.behind earlier, (Stmt.execAll session program).2) := by
  match program with
  | [] => rfl
  | s :: rest =>
      simp only [Stmt.execAll, Stmt.exec_behind earlier s]
      rcases s.exec session with ⟨session, _ | error⟩
      · exact Stmt.execAll_behind earlier rest session
      · rfl

end

/-! ## Another sink -/

def Step.isPrint : Step → Bool
  | print _ => true
  | _ => false

def Machine.withSink (sink : Sink) (m : Machine) : Machine := { m with sink }

namespace Machine

variable {m last : Machine} {front : List Step} {step : Step} {error : RuntimeError}

theorem perform_withSink (sink : Sink) (m : Machine) (h : step.isPrint = false) :
    (m.withSink sink).perform step = (m.perform step).map (withSink sink) := by
  obtain ⟨⟨scopes, old⟩, operands, entered⟩ := m
  cases step with
  | print keyword => cases h
  | push value | enter | leave => rfl
  | drop | define name => cases operands <;> rfl
  | load name =>
      rw [perform_load, perform_load]
      simp only [withSink]
      cases scopes.load name <;> rfl
  | store name =>
      obtain _ | ⟨value, rest⟩ := operands
      · rfl
      · rw [perform_store rfl, perform_store rfl]
        simp only [withSink]
        cases scopes.store name value <;> rfl
  | unary op =>
      obtain _ | ⟨value, rest⟩ := operands
      · rfl
      · rw [perform_unary rfl, perform_unary rfl]
        cases value.applyUnary op <;> rfl
  | binary op =>
      obtain _ | ⟨right, _ | ⟨left, rest⟩⟩ := operands
      · rfl
      · rfl
      · rw [perform_binary rfl, perform_binary rfl]
        cases left.applyBinary op right <;> rfl

theorem Performs.withSink (h : m.Performs front last) (sink : Sink)
    (hsilent : ∀ step ∈ front, step.isPrint = false) :
    (m.withSink sink).Performs front (last.withSink sink) := by
  induction h with
  | nil m => exact .nil _
  | cons hready hstep _ ih =>
      obtain ⟨hfirst, hsilent⟩ := List.forall_mem_cons.mp hsilent
      refine .cons hready ?_ (ih hsilent)
      rw [perform_withSink sink _ hfirst, hstep]
      rfl

end Machine

/-! ## The first line -/

/-- A print step is the first that is reached: all steps in front of it are performed, and none of
them prints. -/
def Machine.ReachesPrint (m : Machine) (steps : List Step) (keyword : Token) (last : Machine) :
    Prop :=
  ∃ front later, steps = front ++ .print keyword :: later ∧
    (∀ step ∈ front, step.isPrint = false) ∧ m.Performs front last

/-- The first print of a program whose operand has a value, and the machine that has it. -/
def Session.FirstPrint (session : Session) (program : List Stmt) (keyword : Token)
    (last : Machine) : Prop :=
  session.begin.ReachesPrint (Stmt.postOrderAll program) keyword last

namespace Machine

variable {m last : Machine} {steps front : List Step} {error : RuntimeError}

/-- Of steps that are performed, none prints or one is the first that does. -/
theorem Performs.silent_or (h : m.Performs front last) (later : List Step) :
    (∀ step ∈ front, step.isPrint = false) ∨
      ∃ keyword middle, m.ReachesPrint (front ++ later) keyword middle := by
  cases hfind : front.find? Step.isPrint with
  | none =>
      apply Or.inl
      intro step hstep
      simpa using List.find?_eq_none.mp hfind step hstep
  | some step =>
      obtain ⟨hprint, before, rest, rfl, hbefore⟩ := List.find?_eq_some_iff_append.mp hfind
      obtain ⟨middle, hmiddle, -⟩ := performs_append_iff.mp h
      cases step with
      | print keyword =>
          exact .inr ⟨keyword, middle, before, rest ++ later, by simp, by simpa using hbefore,
            hmiddle⟩
      | _ => cases hprint

/-- Steps that reach no print end alike on any sink. -/
theorem run_withSink (h : m.Ends steps) (hnone : ∀ keyword last, ¬ m.ReachesPrint steps keyword last)
    (sink : Sink) :
    (m.withSink sink).run steps = ((m.run steps).1.withSink sink, (m.run steps).2) := by
  rcases h with ⟨last, hall⟩ | ⟨last, error, done, step, rest, rfl, hdone, hready, hstep⟩
  · have hsilent := (hall.silent_or []).resolve_right (by simpa using hnone)
    have hrun := hall.run_append []
    have hother := (hall.withSink sink hsilent).run_append []
    rw [List.append_nil] at hrun hother
    rw [hrun, hother]
    rfl
  · have hsilent := (hdone.silent_or (step :: rest)).resolve_right fun ⟨keyword, middle, h⟩ ↦
      hnone keyword middle h
    have hother : (last.withSink sink).perform step = .error error := by
      cases step with
      | print keyword => exact absurd ⟨done, rest, rfl, hsilent, hdone⟩ (hnone keyword last)
      | _ => rw [perform_withSink sink last rfl, hstep]; rfl
    rw [hdone.run_append, (hdone.withSink sink hsilent).run_append, run, run, hstep, hother]
    rfl

/-- A sink that refuses every line stops the steps at the first print. -/
theorem ReachesPrint.run_broken {keyword : Token} (h : m.ReachesPrint steps keyword last)
    (hends : m.Ends steps) (reason : String) :
    (m.withSink (.broken reason)).run steps =
      ({ last.withSink (.broken reason) with operands := [] }, some ⟨keyword, .output reason⟩) := by
  obtain ⟨front, later, rfl, hsilent, hfront⟩ := h
  have hready := (hends.of_performs hfront).ready
  obtain ⟨value, rest, hoperands⟩ := hready.exists_operand rfl
  have hstep : (last.withSink (.broken reason)).perform (.print keyword) =
      .error ⟨keyword, .output reason⟩ := perform_print (m := last.withSink _) hoperands
  rw [(hfront.withSink _ hsilent).run_append, run, hstep]

end Machine

namespace Session

def withSink (sink : Sink) (session : Session) : Session := { session with sink }

theorem execute_eq_run (session : Session) (program : List Stmt) :
    session.execute program =
      ((session.begin.run (Stmt.postOrderAll program)).1.finish,
        (session.begin.run (Stmt.postOrderAll program)).2) := by
  rw [execute, Stmt.stepsOfAll_eq_postOrderAll]

variable {session : Session} {program : List Stmt} {keyword : Token} {last : Machine}

theorem execute_withSink (h : ∀ keyword last, ¬ session.FirstPrint program keyword last)
    (sink : Sink) :
    (session.withSink sink).execute program =
      ((session.execute program).1.withSink sink, (session.execute program).2) := by
  have hrun := Machine.run_withSink (Machine.ends_postOrderAll program session.begin) h sink
  have hbegin : (session.withSink sink).begin = session.begin.withSink sink := rfl
  rw [execute_eq_run, execute_eq_run, hbegin, hrun]
  rfl

theorem FirstPrint.execute_broken (h : session.FirstPrint program keyword last) (reason : String) :
    (session.withSink (.broken reason)).execute program =
      (last.finish.withSink (.broken reason), some ⟨keyword, .output reason⟩) := by
  have hrun := Machine.ReachesPrint.run_broken h (Machine.ends_postOrderAll program _) reason
  have hbegin : (session.withSink (.broken reason)).begin =
      session.begin.withSink (.broken reason) := rfl
  rw [execute_eq_run, hbegin, hrun]
  rfl

end Session

end Lox
