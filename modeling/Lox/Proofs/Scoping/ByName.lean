import Lox.Proofs.Scoping.Bindings

/-!
# Scopes seen by name

Scopes hold the same bindings as stacks of values by name. Every operation does the same on both
sides, so no row of operations tells them apart.
-/

namespace Lox

/-- The bindings of a name in scopes, the innermost first, each with the depth of its scope. -/
def NameStack.ofScopes (name : String) : List Scope → NameStack
  | [] => []
  | scope :: outer =>
      match scope.lookup name with
      | some value => (outer.length + 1, value) :: ofScopes name outer
      | none => ofScopes name outer

namespace NameStack

variable {name : String} {scope : Scope} {scopes : List Scope} {value : Value}

theorem ofScopes_cons_of_some (h : scope.lookup name = some value) (scopes : List Scope) :
    ofScopes name (scope :: scopes) = (scopes.length + 1, value) :: ofScopes name scopes := by
  rw [ofScopes, h]

theorem ofScopes_cons_of_none (h : scope.lookup name = none) (scopes : List Scope) :
    ofScopes name (scope :: scopes) = ofScopes name scopes := by
  rw [ofScopes, h]

theorem ofScopes_within (name : String) (scopes : List Scope) :
    (ofScopes name scopes).Within scopes.length := by
  induction scopes with
  | nil => exact .nil
  | cons scope outer ih =>
      cases hlookup : scope.lookup name with
      | some value =>
          rw [ofScopes_cons_of_some hlookup]
          exact ih.cons (Nat.lt_succ_self _) value
      | none =>
          rw [ofScopes_cons_of_none hlookup]
          exact ih.mono (Nat.le_succ _)

theorem head?_ofScopes (name : String) (scopes : List Scope) :
    (ofScopes name scopes).head?.map Prod.snd = scopes.findSome? (·.lookup name) := by
  induction scopes with
  | nil => rfl
  | cons scope outer ih =>
      cases hlookup : scope.lookup name with
      | some value => simp [ofScopes_cons_of_some hlookup, hlookup]
      | none => simp [ofScopes_cons_of_none hlookup, hlookup, ih]

theorem ofScopes_leave (name : String) (scope : Scope) (outer : List Scope) :
    (ofScopes name (scope :: outer)).leave (outer.length + 1) = ofScopes name outer := by
  have houter := ofScopes_within name outer
  have hkept : (ofScopes name outer).leave (outer.length + 1) = ofScopes name outer := by
    rw [(houter.mono (Nat.le_succ _)).leave_eq, houter.upTo_eq]
  cases hlookup : scope.lookup name with
  | some value =>
      rw [ofScopes_cons_of_some hlookup]
      simpa [leave] using hkept
  | none => rw [ofScopes_cons_of_none hlookup, hkept]

theorem ofScopes_insert (scope : Scope) (outer : List Scope) (name other : String)
    (value : Value) :
    ofScopes other (scope.insert name value :: outer) =
      if other = name then (ofScopes name (scope :: outer)).define (outer.length + 1) value
      else ofScopes other (scope :: outer) := by
  have hinsert := Scope.lookup_insert scope name other value
  split
  next hother =>
    subst hother
    rw [if_pos rfl] at hinsert
    rw [ofScopes_cons_of_some hinsert]
    cases hlookup : scope.lookup other with
    | some old => simp [ofScopes_cons_of_some hlookup, define]
    | none =>
        -- What is bound further out has a smaller depth, so the new binding goes on top.
        rw [ofScopes_cons_of_none hlookup]
        have houter := ofScopes_within other outer
        cases hstack : ofScopes other outer with
        | nil => rfl
        | cons binding rest =>
            rw [hstack] at houter
            have hle := (within_cons_iff.mp houter).1
            rw [define, if_neg (by omega)]
  next hother =>
    rw [if_neg hother] at hinsert
    rw [ofScopes, hinsert]
    rfl

end NameStack

namespace NameStack

theorem assignIn_eq_none_iff {name : String} {value : Value} {scopes : List Scope} :
    Scopes.assignIn name value scopes = none ↔ ofScopes name scopes = [] := by
  induction scopes with
  | nil => exact iff_of_true rfl rfl
  | cons scope outer ih =>
      cases hlookup : scope.lookup name with
      | some old => simp [Scopes.assignIn, Scope.binds, hlookup, ofScopes_cons_of_some hlookup]
      | none =>
          simpa [Scopes.assignIn, Scope.binds, hlookup, ofScopes_cons_of_none hlookup] using ih

/-- An assignment changes the innermost binding of its name, and nothing else. -/
theorem ofScopes_assignIn {name : String} {value : Value} {scopes result : List Scope}
    (h : Scopes.assignIn name value scopes = some result) :
    result.length = scopes.length ∧ ∀ other, ofScopes other result =
      if other = name then (ofScopes name scopes).store value else ofScopes other scopes := by
  induction scopes generalizing result with
  | nil => cases h
  | cons scope outer ih =>
      rw [Scopes.assignIn] at h
      cases hlookup : scope.lookup name with
      | some old =>
          rw [if_pos (by simp [Scope.binds, hlookup])] at h
          obtain rfl := Option.some.inj h
          refine ⟨rfl, ?_⟩
          intro other
          rw [ofScopes_insert, ofScopes_cons_of_some hlookup]
          simp [define, store]
      | none =>
          rw [if_neg (by simp [Scope.binds, hlookup])] at h
          obtain ⟨changed, hchanged, rfl⟩ := Option.map_eq_some_iff.mp h
          obtain ⟨hlength, hstacks⟩ := ih hchanged
          refine ⟨congrArg (· + 1) hlength, ?_⟩
          intro other
          have hother := hstacks other
          split at hother
          next heq =>
            subst heq
            rw [ofScopes_cons_of_none hlookup, ofScopes_cons_of_none hlookup, hother, if_pos rfl]
          next hne =>
            rw [if_neg hne, ofScopes, ofScopes, hother, hlength]

end NameStack

namespace Scopes

/-- The same bindings by name. -/
def bindings (s : Scopes) : Bindings where
  depth := s.depth
  stack name := .ofScopes name s.toList
  depth_pos := s.depth_pos
  within name := NameStack.ofScopes_within name s.toList

/-- An operation that fails leaves the scopes as they are. -/
def perform (s : Scopes) : ScopeOperation → Scopes × Except RuntimeError (Option Value)
  | .enter => (s.enter, .ok none)
  | .leave => (s.leave, .ok none)
  | .define name value => (s.define name value, .ok none)
  | .load name => (s, (s.load name).map some)
  | .store name value =>
      match s.store name value with
      | .ok stored => (stored, .ok none)
      | .error error => (s, .error error)

def answers (s : Scopes) : List ScopeOperation → List ScopeAnswer
  | [] => []
  | operation :: rest =>
      let (next, result) := s.perform operation
      ⟨result, next.depth⟩ :: next.answers rest

/-- The scopes behind a row of operations. -/
def after (s : Scopes) (operations : List ScopeOperation) : Scopes :=
  operations.foldl (fun s operation ↦ (s.perform operation).1) s

variable (s : Scopes)

/-! ## One operation -/

theorem bindings_empty : empty.bindings = .empty := rfl

theorem bindings_enter : s.enter.bindings = s.bindings.enter := by
  ext name
  · rfl
  · rfl

theorem bindings_leave : s.leave.bindings = s.bindings.leave := by
  obtain ⟨inner, outer⟩ := s
  cases outer with
  | nil => rfl
  | cons next outer =>
      have hdepth : (bindings ⟨inner, next :: outer⟩).depth ≠ 1 := by simp [bindings, depth]
      apply Bindings.ext
      · rw [Bindings.leave, dif_neg hdepth]
        rfl
      · funext name
        rw [Bindings.stack_leave hdepth]
        exact (NameStack.ofScopes_leave name inner (next :: outer)).symm

theorem bindings_define (name : String) (value : Value) :
    (s.define name value).bindings = s.bindings.define name value := by
  apply Bindings.ext
  · rfl
  · funext other
    rw [Bindings.stack_define]
    exact NameStack.ofScopes_insert s.inner s.outer name other value

theorem load_bindings (name : Token) : s.bindings.load name = s.load name := by
  rw [Bindings.load, load, get?, ← NameStack.head?_ofScopes]
  simp only [bindings]
  cases (NameStack.ofScopes name.lexeme s.toList).head? <;> rfl

theorem toList_assign? (name : String) (value : Value) :
    (s.assign? name value).map toList = assignIn name value s.toList := by
  rw [assign?, toList, assignIn]
  split
  · rfl
  · rw [Option.map_map]
    rfl

theorem store_bindings (name : Token) (value : Value) :
    s.bindings.store name value = (s.store name value).map bindings := by
  have hassign := s.toList_assign? name.lexeme value
  rw [Bindings.store, store]
  cases h : s.assign? name.lexeme value with
  | none =>
      rw [h] at hassign
      have hnil : s.bindings.stack name.lexeme = [] :=
        NameStack.assignIn_eq_none_iff.mp hassign.symm
      rw [if_pos (List.isEmpty_iff.mpr hnil)]
      rfl
  | some stored =>
      rw [h] at hassign
      have hne : ¬ (s.bindings.stack name.lexeme).isEmpty := by
        intro hempty
        have hnone : assignIn name.lexeme value s.toList = none :=
          NameStack.assignIn_eq_none_iff.mpr (List.isEmpty_iff.mp hempty)
        rw [hnone] at hassign
        cases hassign
      obtain ⟨hlength, hstacks⟩ := NameStack.ofScopes_assignIn hassign.symm
      rw [if_neg hne]
      apply congrArg Except.ok
      apply Bindings.ext
      · exact hlength.symm
      · funext other
        rw [Bindings.stack_replace]
        exact (hstacks other).symm

/-- An operation gives the same answer by scope and by name, and leaves the same bindings. -/
theorem perform_bindings (operation : ScopeOperation) :
    s.bindings.perform operation =
      ((s.perform operation).1.bindings, (s.perform operation).2) := by
  cases operation with
  | enter => rw [Bindings.perform, perform, bindings_enter]
  | leave => rw [Bindings.perform, perform, bindings_leave]
  | define name value => rw [Bindings.perform, perform, bindings_define]
  | load name => rw [Bindings.perform, perform, load_bindings]
  | store name value =>
      rw [Bindings.perform, perform, store_bindings]
      cases s.store name value <;> rfl

/-! ## Rows of operations -/

theorem answers_bindings (operations : List ScopeOperation) :
    s.bindings.answers operations = s.answers operations := by
  induction operations generalizing s with
  | nil => rfl
  | cons operation rest ih =>
      rw [Bindings.answers, answers, perform_bindings]
      exact congrArg (_ :: ·) (ih _)

theorem after_bindings (operations : List ScopeOperation) :
    s.bindings.after operations = (s.after operations).bindings := by
  induction operations generalizing s with
  | nil => rfl
  | cons operation rest ih =>
      have hperform := congrArg Prod.fst (s.perform_bindings operation)
      rw [Bindings.after, List.foldl_cons, hperform]
      exact ih _

theorem after_append (front rest : List ScopeOperation) :
    s.after (front ++ rest) = (s.after front).after rest := List.foldl_append

/-- A name that is bound at some depth can be loaded. -/
theorem exists_load_eq_ok {name : Token} {depth : Nat}
    (h : (s.bindings.stack name.lexeme).Binds depth) : ∃ value, s.load name = .ok value := by
  obtain ⟨old, hmem⟩ := h
  rw [← load_bindings, Bindings.load]
  cases hstack : s.bindings.stack name.lexeme with
  | nil => simp [hstack] at hmem
  | cons binding rest => exact ⟨binding.2, rfl⟩

theorem exists_load_after_define (h : s.depth = 1) (name : Token) (value : Value)
    (operations : List ScopeOperation) :
    ∃ current, ((s.define name.lexeme value).after operations).load name = .ok current := by
  have hdefined : ((s.define name.lexeme value).bindings.stack name.lexeme).Binds 1 := by
    rw [bindings_define, Bindings.stack_define, if_pos rfl, show s.bindings.depth = 1 from h]
    exact NameStack.binds_define 1 value _
  have hlater := Bindings.binds_one_after hdefined operations
  rw [after_bindings] at hlater
  exact exists_load_eq_ok _ hlater

theorem load_after_enter_leave {operations : List ScopeOperation} {name : Token}
    (hdepth : ∀ front, front <+: operations → s.depth < (s.enter.after front).depth)
    (hlast : (s.enter.after operations).depth = s.depth + 1)
    (hstore : ∀ other value, .store other value ∈ operations → other.lexeme ≠ name.lexeme) :
    (s.enter.after operations).leave.load name = s.load name := by
  have hinside (front : List ScopeOperation) :
      s.bindings.enter.after front = (s.enter.after front).bindings := by
    rw [← bindings_enter, after_bindings]
  have hstack : (s.bindings.enter.after operations).leave.stack name.lexeme =
      s.bindings.stack name.lexeme := by
    apply Bindings.stack_after_enter_leave
    · intro front hfront
      rw [hinside]
      exact hdepth front hfront
    · rw [hinside]
      exact hlast
    · exact hstore
  rw [hinside, ← bindings_leave] at hstack
  rw [← load_bindings, ← load_bindings, Bindings.load, Bindings.load, hstack]

/-- No row of operations tells scopes from bindings by name. In particular a name that is defined
in the outermost scope can be loaded for ever, and a name that is not assigned inside of a scope
means behind it what it meant in front. -/
theorem answers_eq_by_name :
    (∀ operations, empty.answers operations = Bindings.empty.answers operations) ∧
      (∀ (before later : List ScopeOperation) (name : Token) (value : Value),
        (empty.after before).depth = 1 →
          ∃ current, (empty.after (before ++ .define name.lexeme value :: later)).load name =
            .ok current) ∧
      ∀ (before inside : List ScopeOperation) (name : Token),
        (∀ front, front <+: inside →
          (empty.after before).depth < (empty.after (before ++ .enter :: front)).depth) →
        (empty.after (before ++ .enter :: inside)).depth = (empty.after before).depth + 1 →
        (∀ other value, .store other value ∈ inside → other.lexeme ≠ name.lexeme) →
          (empty.after (before ++ .enter :: inside ++ [.leave])).load name =
            (empty.after before).load name := by
  refine ⟨?_, ?_, ?_⟩
  · intro operations
    rw [← bindings_empty, answers_bindings]
  · intro before later name value hdepth
    rw [after_append]
    exact exists_load_after_define _ hdepth name value later
  · intro before inside name hdepth hlast hstore
    rw [after_append, after_append]
    apply load_after_enter_leave
    · intro front hfront
      have hfront := hdepth front hfront
      rwa [after_append] at hfront
    · rwa [after_append] at hlast
    · exact hstore

end Scopes

end Lox
