import Lox.Execution.Meaning
import Lox.Proofs.Execution.Performing

/-!
# Order of execution

The steps of a program are its trees in post-order. A run performs them one after the other up to
the first that fails, and evaluation by recursion on the trees does the same.
-/

namespace Lox

/-! ## Post-order -/

/-- All steps of the operands, from left to right, then the step of the node. -/
def Expr.postOrder : Expr → List Step
  | literal value => [.push value]
  | group inner => inner.postOrder
  | unary op operand => operand.postOrder ++ [.unary op]
  | binary op left right => left.postOrder ++ (right.postOrder ++ [.binary op])
  | var name => [.load name]
  | assign name value => value.postOrder ++ [.store name]

mutual

def Stmt.postOrder : Stmt → List Step
  | .expression e => e.postOrder ++ [.drop]
  | .print keyword e => e.postOrder ++ [.print keyword]
  | .declare name none => [.push .nil, .define name]
  | .declare name (some e) => e.postOrder ++ [.define name]
  | .block body => .enter :: (Stmt.postOrderAll body ++ [.leave])

def Stmt.postOrderAll : List Stmt → List Step
  | [] => []
  | s :: rest => s.postOrder ++ Stmt.postOrderAll rest

end

theorem Expr.steps_eq_postOrder (e : Expr) : e.steps = e.postOrder := by
  induction e with
  | literal value => exact steps_literal value
  | group inner ih => rw [steps_group, ih, postOrder]
  | unary op operand ih => rw [steps_unary, ih, postOrder]
  | binary op left right ihl ihr => rw [steps_binary, ihl, ihr, postOrder]
  | var name => exact steps_var name
  | assign name value ih => rw [steps_assign, ih, postOrder]

mutual

theorem Stmt.steps_eq_postOrder (s : Stmt) : s.steps = s.postOrder := by
  match s with
  | .expression e => rw [steps_expression, e.steps_eq_postOrder, postOrder]
  | .print keyword e => rw [steps_print, e.steps_eq_postOrder, postOrder]
  | .declare name none => rw [steps_declare_none, postOrder]
  | .declare name (some e) => rw [steps_declare_some, e.steps_eq_postOrder, postOrder]
  | .block body => rw [steps_block, Stmt.stepsOfAll_eq_postOrderAll body, postOrder]

theorem Stmt.stepsOfAll_eq_postOrderAll (program : List Stmt) :
    stepsOfAll program = postOrderAll program := by
  match program with
  | [] => exact stepsOfAll_nil
  | s :: rest =>
      rw [stepsOfAll_cons, Stmt.steps_eq_postOrder s, Stmt.stepsOfAll_eq_postOrderAll rest,
        postOrderAll]

end

/-! ## Steps of trees -/

namespace Machine

/-- The steps of an expression put its value on the operands, or fail where evaluation fails. -/
def Yields (m : Machine) (steps : List Step) : Scopes × Except RuntimeError Value → Prop
  | (scopes, .ok value) => m.Performs steps { m with scopes, operands := value :: m.operands }
  | (scopes, .error error) => ∃ operands, m.Fails steps { m with scopes, operands } error

/-- The steps of statements keep the operands, or fail where execution fails. -/
def Leads (m : Machine) (steps : List Step) : Session × Option RuntimeError → Prop
  | (session, none) => m.Performs steps { m with toSession := session }
  | (session, some error) =>
      ∃ last, m.Fails steps last error ∧ last.finish = { m with toSession := session }.finish

theorem Yields.leads {m : Machine} {steps : List Step} {scopes : Scopes} {error : RuntimeError}
    (h : m.Yields steps (scopes, .error error)) (rest : List Step) :
    m.Leads (steps ++ rest) ({ m.toSession with scopes }, some error) := by
  obtain ⟨operands, hfails⟩ := h
  exact ⟨_, hfails.append rest, rfl⟩

theorem yields_postOrder (e : Expr) (m : Machine) : m.Yields e.postOrder (e.eval m.scopes) := by
  induction e generalizing m with
  | literal value => exact performs_singleton (ready_of_arity (Nat.zero_le _) rfl) rfl
  | group inner ih => exact ih m
  | unary op operand ih =>
      have hoperand := ih m
      rw [Expr.postOrder, Expr.eval]
      rcases h : operand.eval m.scopes with ⟨scopes, error | value⟩ <;> rw [h] at hoperand
      · exact hoperand.imp fun _ hfails ↦ hfails.append _
      · have hlast := Performs.snoc hoperand (.unary op) (ready_of_arity (Nat.le_add_left 1 _) rfl)
        rw [perform_unary rfl] at hlast
        dsimp only at hlast ⊢
        cases happly : value.applyUnary op <;> rw [happly] at hlast
        · exact ⟨_, hlast⟩
        · exact hlast
  | binary op left right ihl ihr =>
      have hleft := ihl m
      rw [Expr.postOrder, Expr.eval]
      rcases hl : left.eval m.scopes with ⟨scopes, error | a⟩ <;> rw [hl] at hleft
      · exact hleft.imp fun _ hfails ↦ hfails.append _
      · have hright := ihr { m with scopes, operands := a :: m.operands }
        dsimp only at hright ⊢
        rcases hr : right.eval scopes with ⟨later, error | b⟩ <;> rw [hr] at hright
        · exact hright.imp fun _ hfails ↦ Performs.fails hleft (hfails.append _)
        · have hlast := Performs.snoc (Performs.append hleft hright) (.binary op)
            (ready_of_arity (Nat.le_add_left 2 _) rfl)
          rw [perform_binary rfl, List.append_assoc] at hlast
          dsimp only at hlast ⊢
          cases happly : a.applyBinary op b <;> rw [happly] at hlast
          · exact ⟨_, hlast⟩
          · exact hlast
  | var name =>
      have hlast := Performs.snoc (.nil m) (.load name) (ready_of_arity (Nat.zero_le _) rfl)
      rw [perform_load] at hlast
      rw [Expr.postOrder, Expr.eval]
      cases hload : m.scopes.load name <;> rw [hload] at hlast
      · exact ⟨_, hlast⟩
      · exact hlast
  | assign name value ih =>
      have hvalue := ih m
      rw [Expr.postOrder, Expr.eval]
      rcases h : value.eval m.scopes with ⟨scopes, error | v⟩ <;> rw [h] at hvalue
      · exact hvalue.imp fun _ hfails ↦ hfails.append _
      · have hlast := Performs.snoc hvalue (.store name) (ready_of_arity (Nat.le_add_left 1 _) rfl)
        rw [perform_store rfl] at hlast
        dsimp only at hlast ⊢
        cases hstore : scopes.store name v <;> rw [hstore] at hlast
        · exact ⟨_, hlast⟩
        · exact hlast

mutual

theorem leads_postOrder (s : Stmt) (m : Machine) : m.Leads s.postOrder (s.exec m.toSession) := by
  match s with
  | .expression e =>
      have hvalue := yields_postOrder e m
      rw [Stmt.postOrder, Stmt.exec]
      rcases h : e.eval m.scopes with ⟨scopes, error | value⟩ <;> rw [h] at hvalue
      · exact Yields.leads hvalue _
      · exact Performs.snoc hvalue .drop (ready_of_arity (Nat.le_add_left 1 _) rfl)
  | .print keyword e =>
      have hvalue := yields_postOrder e m
      rw [Stmt.postOrder, Stmt.exec]
      rcases h : e.eval m.scopes with ⟨scopes, error | value⟩ <;> rw [h] at hvalue
      · exact Yields.leads hvalue _
      · have hlast := Performs.snoc hvalue (.print keyword)
          (ready_of_arity (Nat.le_add_left 1 _) rfl)
        rw [perform_print rfl] at hlast
        dsimp only at hlast ⊢
        cases hwrite : m.sink.write value.text <;> rw [hwrite] at hlast
        · exact ⟨_, hlast, rfl⟩
        · exact hlast
  | .declare name none =>
      have hpush : m.Performs [.push .nil] { m with operands := .nil :: m.operands } :=
        performs_singleton (ready_of_arity (Nat.zero_le _) rfl) rfl
      exact hpush.snoc (.define name) (ready_of_arity (Nat.le_add_left 1 _) rfl)
  | .declare name (some e) =>
      have hvalue := yields_postOrder e m
      rw [Stmt.postOrder, Stmt.exec]
      rcases h : e.eval m.scopes with ⟨scopes, error | value⟩ <;> rw [h] at hvalue
      · exact Yields.leads hvalue _
      · exact Performs.snoc hvalue (.define name) (ready_of_arity (Nat.le_add_left 1 _) rfl)
  | .block body =>
      let inside : Machine := { m with scopes := m.scopes.enter, entered := m.entered + 1 }
      have henter : m.Performs [.enter] inside :=
        performs_singleton (ready_of_arity (Nat.zero_le _) rfl) rfl
      have hbody := leads_postOrderAll body inside
      rw [Stmt.postOrder, Stmt.exec]
      rcases h : Stmt.execAll m.toSession.enter body with ⟨session, _ | error⟩
      · rw [show inside.toSession = m.toSession.enter from rfl, h] at hbody
        exact (henter.append hbody).snoc .leave ⟨Nat.zero_le _, fun _ ↦ Nat.succ_pos _⟩
      · rw [show inside.toSession = m.toSession.enter from rfl, h] at hbody
        obtain ⟨last, hfails, hfinish⟩ := hbody
        refine ⟨last, henter.fails (hfails.append _), ?_⟩
        rw [hfinish]
        exact finish_entered_succ m session

theorem leads_postOrderAll (program : List Stmt) (m : Machine) :
    m.Leads (Stmt.postOrderAll program) (Stmt.execAll m.toSession program) := by
  match program with
  | [] => exact .nil m
  | s :: rest =>
      have hfirst := leads_postOrder s m
      rw [Stmt.postOrderAll, Stmt.execAll]
      rcases h : s.exec m.toSession with ⟨session, _ | error⟩ <;> rw [h] at hfirst
      · have hrest := leads_postOrderAll rest { m with toSession := session }
        dsimp only at hrest ⊢
        rcases hall : Stmt.execAll session rest with ⟨final, _ | error⟩ <;> rw [hall] at hrest
        · exact Performs.append hfirst hrest
        · obtain ⟨last, hfails, hfinish⟩ := hrest
          exact ⟨last, Performs.fails hfirst hfails, hfinish⟩
      · obtain ⟨last, hfails, hfinish⟩ := hfirst
        exact ⟨last, hfails.append _, hfinish⟩

end

theorem ends_postOrderAll (program : List Stmt) (m : Machine) :
    m.Ends (Stmt.postOrderAll program) := by
  have hleads := leads_postOrderAll program m
  rcases h : Stmt.execAll m.toSession program with ⟨session, _ | error⟩ <;> rw [h] at hleads
  · exact .inl ⟨_, hleads⟩
  · obtain ⟨last, hfails, -⟩ := hleads
    exact .inr ⟨last, error, hfails⟩

end Machine

/-- A program runs as the post-order of its trees, which is what evaluation by recursion does. The
run ends behind all steps, or at the first that fails, from where only the scopes entered are
left. -/
theorem Session.execute_in_order (session : Session) (program : List Stmt) :
    session.execute program = Stmt.execAll session program ∧
      Stmt.stepsOfAll program = Stmt.postOrderAll program ∧
      ((∃ last, session.begin.Performs (Stmt.postOrderAll program) last ∧ last.operands = [] ∧
          last.entered = 0 ∧ session.execute program = (last.toSession, none)) ∨
        ∃ done step rest last error, Stmt.postOrderAll program = done ++ step :: rest ∧
          session.begin.Performs done last ∧ last.Ready step ∧
          last.perform step = .error error ∧ step.token? = some error.token ∧
          last.entered + done.countP Step.isLeave = done.countP Step.isEnter ∧
          session.execute program =
            ({ scopes := last.scopes.leaveMany last.entered, sink := last.sink }, some error)) := by
  refine ⟨session.execute_eq program, Stmt.stepsOfAll_eq_postOrderAll program, ?_⟩
  have hleads := Machine.leads_postOrderAll program session.begin
  rw [execute_eq]
  change session.begin.Leads _ (Stmt.execAll session program) at hleads
  rcases h : Stmt.execAll session program with ⟨final, _ | error⟩ <;> rw [h] at hleads
  · exact .inl ⟨_, hleads, rfl, rfl, rfl⟩
  · obtain ⟨last, ⟨done, step, rest, hsteps, hdone, hready, hstep⟩, hfinish⟩ := hleads
    have hentered := hdone.entered_add
    refine .inr ⟨done, step, rest, last, error, hsteps, hdone, hready, hstep,
      Machine.perform_error_token hready hstep, ?_, ?_⟩
    · simpa [begin] using hentered
    · exact congrArg (·, some error) hfinish.symm

end Lox
