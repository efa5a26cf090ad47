import Lox.Execution.Machine

/-!
# Performing steps

What one step needs and changes, and what steps in a row do: all are performed, or one is the first
that fails.
-/

namespace Lox

namespace Step

/-- How many operands a step looks at. -/
def arity : Step → Nat
  | push _ | load _ | enter | leave => 0
  | store _ | unary _ | drop | print _ | define _ => 1
  | binary _ => 2

def token? : Step → Option Token
  | load token | store token | unary token | binary token | print token => some token
  | push _ | drop | define _ | enter | leave => none

/-- Whether a step neither binds a name nor enters or leaves a scope. -/
def keepsScopes : Step → Bool
  | push _ | load _ | unary _ | binary _ | drop | print _ => true
  | store _ | define _ | enter | leave => false

def isEnter : Step → Bool
  | enter => true
  | _ => false

def isLeave : Step → Bool
  | leave => true
  | _ => false

end Step

namespace Value

theorem applyUnary_error_token {operand : Value} {op : Token} {error : RuntimeError}
    (h : operand.applyUnary op = .error error) : error.token = op := by
  unfold applyUnary at h
  split at h <;> cases h <;> rfl

theorem applyNumeric_error_token {op : Token} {x y : Float} {error : RuntimeError}
    (h : applyNumeric op x y = .error error) : error.token = op := by
  rw [applyNumeric] at h
  split at h <;> cases h
  rfl

theorem applyBinary_error_token {left right : Value} {op : Token} {error : RuntimeError}
    (h : left.applyBinary op right = .error error) : error.token = op := by
  unfold applyBinary at h
  split at h <;> first | exact applyNumeric_error_token h | cases h <;> rfl

end Value

namespace Scopes

theorem load_error_token {scopes : Scopes} {name : Token} {error : RuntimeError}
    (h : scopes.load name = .error error) : error.token = name := by
  rw [load] at h
  split at h <;> cases h
  rfl

theorem store_error_token {scopes : Scopes} {name : Token} {value : Value} {error : RuntimeError}
    (h : scopes.store name value = .error error) : error.token = name := by
  rw [store] at h
  split at h <;> cases h
  rfl

end Scopes

namespace Machine

section

variable {m : Machine} {value left right : Value} {rest : List Value} {token : Token}

theorem perform_load :
    m.perform (.load token) =
      (m.scopes.load token).map fun value ↦ { m with operands := value :: m.operands } := rfl

theorem perform_store (h : m.operands = value :: rest) :
    m.perform (.store token) =
      (m.scopes.store token value).map fun scopes ↦ { m with scopes } := by
  obtain ⟨session, operands, entered⟩ := m
  cases h
  rfl

theorem perform_unary (h : m.operands = value :: rest) :
    m.perform (.unary token) =
      (value.applyUnary token).map fun value ↦ { m with operands := value :: rest } := by
  obtain ⟨session, operands, entered⟩ := m
  cases h
  rfl

theorem perform_binary (h : m.operands = right :: left :: rest) :
    m.perform (.binary token) =
      (left.applyBinary token right).map fun value ↦ { m with operands := value :: rest } := by
  obtain ⟨session, operands, entered⟩ := m
  cases h
  rfl

theorem perform_drop (h : m.operands = value :: rest) :
    m.perform .drop = .ok { m with operands := rest } := by
  obtain ⟨session, operands, entered⟩ := m
  cases h
  rfl

theorem perform_print (h : m.operands = value :: rest) :
    m.perform (.print token) =
      match m.sink.write value.text with
      | .ok sink => .ok { m with sink, operands := rest }
      | .error reason => .error ⟨token, .output reason⟩ := by
  obtain ⟨session, operands, entered⟩ := m
  cases h
  rfl

theorem perform_define (h : m.operands = value :: rest) :
    m.perform (.define token) =
      .ok { m with scopes := m.scopes.define token.lexeme value, operands := rest } := by
  obtain ⟨session, operands, entered⟩ := m
  cases h
  rfl

end

/-- A step has its operands, and a scope that is left has been entered. -/
def Ready (m : Machine) (step : Step) : Prop :=
  step.arity ≤ m.operands.length ∧ (step.isLeave → 0 < m.entered)

theorem ready_of_arity {m : Machine} {step : Step} (h : step.arity ≤ m.operands.length)
    (hleave : step.isLeave = false) : m.Ready step := by
  constructor
  · exact h
  · intro hstep
    rw [hleave] at hstep
    cases hstep

/-- Steps that are performed in a row, and the machine behind them. -/
inductive Performs : Machine → List Step → Machine → Prop
  | nil (m : Machine) : Performs m [] m
  | cons {m next last : Machine} {step : Step} {rest : List Step} (hready : m.Ready step)
      (hstep : m.perform step = .ok next) (hrest : Performs next rest last) :
      Performs m (step :: rest) last

/-- Steps of which the first that fails leaves the machine as it is behind those before it. -/
def Fails (m : Machine) (steps : List Step) (last : Machine) (error : RuntimeError) : Prop :=
  ∃ done step rest, steps = done ++ step :: rest ∧ m.Performs done last ∧
    last.Ready step ∧ last.perform step = .error error

variable {m middle last : Machine} {front rest : List Step} {step : Step} {error : RuntimeError}

theorem performs_singleton (hready : m.Ready step) (h : m.perform step = .ok last) :
    m.Performs [step] last :=
  .cons hready h (.nil last)

theorem performs_append_iff :
    m.Performs (front ++ rest) last ↔
      ∃ middle, m.Performs front middle ∧ middle.Performs rest last := by
  induction front generalizing m with
  | nil =>
      constructor
      · intro h
        exact ⟨m, .nil m, h⟩
      · rintro ⟨_, ⟨⟩, h⟩
        exact h
  | cons step front ih =>
      constructor
      · rintro (_ | ⟨hready, hstep, hrest⟩)
        obtain ⟨middle, hfront, hmiddle⟩ := ih.mp hrest
        exact ⟨middle, .cons hready hstep hfront, hmiddle⟩
      · rintro ⟨middle, _ | ⟨hready, hstep, hfront⟩, hmiddle⟩
        exact .cons hready hstep (ih.mpr ⟨middle, hfront, hmiddle⟩)

theorem Performs.append (hfront : m.Performs front middle) (hrest : middle.Performs rest last) :
    m.Performs (front ++ rest) last :=
  performs_append_iff.mpr ⟨middle, hfront, hrest⟩

theorem Performs.fails (hfront : m.Performs front middle)
    (hrest : middle.Fails rest last error) : m.Fails (front ++ rest) last error := by
  obtain ⟨done, step, later, rfl, hdone, hstep⟩ := hrest
  exact ⟨front ++ done, step, later, (List.append_assoc ..).symm, hfront.append hdone, hstep⟩

theorem Fails.append (h : m.Fails front last error) (rest : List Step) :
    m.Fails (front ++ rest) last error := by
  obtain ⟨done, step, later, rfl, hstep⟩ := h
  exact ⟨done, step, later ++ rest, by simp, hstep⟩

theorem fails_cons (hready : m.Ready step) (h : m.perform step = .error error) :
    m.Fails (step :: rest) m error :=
  ⟨[], step, rest, rfl, .nil m, hready, h⟩

/-- One more step is performed, or is the first that fails. -/
theorem Performs.snoc (hfront : m.Performs front middle) (step : Step)
    (hready : middle.Ready step) :
    match middle.perform step with
    | .ok last => m.Performs (front ++ [step]) last
    | .error error => m.Fails (front ++ [step]) middle error := by
  split
  next last hstep => exact hfront.append (performs_singleton hready hstep)
  next error hstep => exact hfront.fails (fails_cons hready hstep)

theorem Performs.run_append (h : m.Performs front last) (rest : List Step) :
    m.run (front ++ rest) = last.run rest := by
  induction h with
  | nil m => rfl
  | cons _ hstep _ ih => rw [List.cons_append, run, hstep, ← ih]

theorem Fails.run_eq (h : m.Fails front last error) :
    m.run front = ({ last with operands := [] }, some error) := by
  obtain ⟨done, step, rest, rfl, hdone, -, hstep⟩ := h
  rw [hdone.run_append, run, hstep]

theorem Ready.exists_operand (h : m.Ready step) (harity : step.arity = 1) :
    ∃ value rest, m.operands = value :: rest := by
  have hlength := harity ▸ h.1
  exact List.exists_cons_of_length_pos hlength

theorem Ready.exists_operands {op : Token} (h : m.Ready (.binary op)) :
    ∃ right left rest, m.operands = right :: left :: rest := by
  have hlength : 2 ≤ m.operands.length := h.1
  obtain ⟨right, tail, htail⟩ := List.exists_cons_of_length_pos (Nat.lt_of_succ_lt hlength)
  rw [htail] at hlength
  obtain ⟨left, rest, rfl⟩ := List.exists_cons_of_length_pos (Nat.lt_of_succ_lt_succ hlength)
  exact ⟨right, left, rest, htail⟩

theorem map_eq_error_iff {ε α β : Type} {f : α → β} {x : Except ε α} {error : ε} :
    x.map f = .error error ↔ x = .error error := by
  cases x <;> simp [Except.map]

theorem map_eq_ok_iff {ε α β : Type} {f : α → β} {x : Except ε α} {result : β} :
    x.map f = .ok result ↔ ∃ value, x = .ok value ∧ f value = result := by
  cases x <;> simp [Except.map]

/-- Only the token of the step itself is blamed. -/
theorem perform_error_token (hready : m.Ready step) (h : m.perform step = .error error) :
    step.token? = some error.token := by
  cases step with
  | load name =>
      rw [perform_load, map_eq_error_iff] at h
      exact congrArg some (Scopes.load_error_token h).symm
  | store name =>
      obtain ⟨value, rest, hoperands⟩ := hready.exists_operand rfl
      rw [perform_store hoperands, map_eq_error_iff] at h
      exact congrArg some (Scopes.store_error_token h).symm
  | unary op =>
      obtain ⟨value, rest, hoperands⟩ := hready.exists_operand rfl
      rw [perform_unary hoperands, map_eq_error_iff] at h
      exact congrArg some (Value.applyUnary_error_token h).symm
  | binary op =>
      obtain ⟨right, left, rest, hoperands⟩ := hready.exists_operands
      rw [perform_binary hoperands, map_eq_error_iff] at h
      exact congrArg some (Value.applyBinary_error_token h).symm
  | print keyword =>
      obtain ⟨value, rest, hoperands⟩ := hready.exists_operand rfl
      rw [perform_print hoperands] at h
      split at h <;> cases h
      rfl
  | drop =>
      obtain ⟨value, rest, hoperands⟩ := hready.exists_operand rfl
      simp [perform_drop hoperands] at h
  | define name =>
      obtain ⟨value, rest, hoperands⟩ := hready.exists_operand rfl
      simp [perform_define hoperands] at h
  | push value | enter | leave => cases h

/-- What a step does to the scopes. -/
inductive Moves (m : Machine) : Step → Machine → Prop
  | inside {step : Step} (h : step.keepsScopes) (sink : Sink) (operands : List Value) :
      Moves m step { m with sink, operands }
  | store {name : Token} {value : Value} {rest : List Value} {scopes : Scopes}
      (hoperands : m.operands = value :: rest) (h : m.scopes.store name value = .ok scopes) :
      Moves m (.store name) { m with scopes }
  | define {name : Token} {value : Value} {rest : List Value}
      (hoperands : m.operands = value :: rest) :
      Moves m (.define name)
        { m with scopes := m.scopes.define name.lexeme value, operands := rest }
  | enter : Moves m .enter { m with scopes := m.scopes.enter, entered := m.entered + 1 }
  | leave (h : 0 < m.entered) :
      Moves m .leave { m with scopes := m.scopes.leave, entered := m.entered - 1 }

theorem perform_moves {next : Machine} (hready : m.Ready step) (h : m.perform step = .ok next) :
    m.Moves step next := by
  cases step with
  | load name =>
      obtain ⟨value, -, rfl⟩ := map_eq_ok_iff.mp (perform_load ▸ h)
      exact .inside rfl m.sink _
  | store name =>
      obtain ⟨value, rest, hoperands⟩ := hready.exists_operand rfl
      obtain ⟨scopes, hstore, rfl⟩ := map_eq_ok_iff.mp (perform_store hoperands ▸ h)
      exact .store hoperands hstore
  | unary op =>
      obtain ⟨value, rest, hoperands⟩ := hready.exists_operand rfl
      obtain ⟨result, -, rfl⟩ := map_eq_ok_iff.mp (perform_unary hoperands ▸ h)
      exact .inside rfl m.sink _
  | binary op =>
      obtain ⟨right, left, rest, hoperands⟩ := hready.exists_operands
      obtain ⟨result, -, rfl⟩ := map_eq_ok_iff.mp (perform_binary hoperands ▸ h)
      exact .inside rfl m.sink _
  | print keyword =>
      obtain ⟨value, rest, hoperands⟩ := hready.exists_operand rfl
      rw [perform_print hoperands] at h
      split at h <;> cases h
      exact .inside rfl _ rest
  | drop =>
      obtain ⟨value, rest, hoperands⟩ := hready.exists_operand rfl
      cases perform_drop hoperands ▸ h
      exact .inside rfl m.sink rest
  | define name =>
      obtain ⟨value, rest, hoperands⟩ := hready.exists_operand rfl
      cases perform_define hoperands ▸ h
      exact .define hoperands
  | push value =>
      cases h
      exact .inside rfl m.sink _
  | enter =>
      cases h
      exact .enter
  | leave =>
      cases h
      exact .leave (hready.2 rfl)

/-- The scopes that are entered are those that the steps entered and did not leave. -/
theorem Performs.entered_add (h : m.Performs front last) :
    last.entered + front.countP Step.isLeave = m.entered + front.countP Step.isEnter := by
  induction h with
  | nil m => rfl
  | @cons m next last step rest hready hstep _ ih =>
      rw [List.countP_cons, List.countP_cons]
      cases perform_moves hready hstep with
      | inside h => cases step <;> first | exact ih | cases h
      | store | define => exact ih
      | enter =>
          simp only [Step.isEnter, Step.isLeave, ↓reduceIte, Bool.false_eq_true] at ih ⊢
          omega
      | leave hentered =>
          simp only [Step.isEnter, Step.isLeave, ↓reduceIte, Bool.false_eq_true] at ih ⊢
          omega

/-! ## Steps that end -/

/-- Steps end behind the last or at one that fails, and each finds what it needs. -/
def Ends (m : Machine) (steps : List Step) : Prop :=
  (∃ last, m.Performs steps last) ∨ ∃ last error, m.Fails steps last error

theorem Ends.ready (h : m.Ends (step :: rest)) : m.Ready step := by
  rcases h with ⟨last, _ | ⟨hready, -, -⟩⟩ | ⟨last, error, done, other, later, hsteps, hdone, h⟩
  · exact hready
  · cases hdone with
    | nil =>
        cases hsteps
        exact h.1
    | cons hready =>
        cases hsteps
        exact hready

theorem Ends.tail (h : m.Ends (step :: rest)) (hstep : m.perform step = .ok middle) :
    middle.Ends rest := by
  rcases h with ⟨last, _ | ⟨-, hfirst, hrest⟩⟩ | ⟨last, error, done, other, later, hsteps, hdone, h⟩
  · cases hstep.symm.trans hfirst
    exact .inl ⟨last, hrest⟩
  · cases hdone with
    | nil =>
        cases hsteps
        cases hstep.symm.trans h.2
    | cons _ hfirst hdone =>
        cases hsteps
        cases hstep.symm.trans hfirst
        exact .inr ⟨last, error, _, other, later, rfl, hdone, h⟩

theorem Ends.performs (h : m.Ends (front ++ rest)) (hrun : m.run front = (middle, none)) :
    m.Performs front middle := by
  induction front generalizing m with
  | nil =>
      cases hrun
      exact .nil _
  | cons step front ih =>
      rw [run] at hrun
      cases hstep : m.perform step with
      | error error =>
          rw [hstep] at hrun
          cases hrun
      | ok next =>
          rw [hstep] at hrun
          exact .cons h.ready hstep (ih (h.tail hstep) hrun)

theorem Ends.of_performs (h : m.Ends (front ++ rest)) (hfront : m.Performs front middle) :
    middle.Ends rest := by
  induction hfront with
  | nil m => exact h
  | cons _ hstep _ ih => exact ih (h.tail hstep)

end Machine

end Lox
